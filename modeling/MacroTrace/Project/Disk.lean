import MacroTrace.Project.Location
import MacroTrace.Text.Quoted

/-!
# File trees

A file tree gives every location in it a node: a directory, the bytes of a file,
or a link to a path.
-/

namespace MacroTrace

inductive Node where
  | directory
  | file (bytes : List UInt8)
  | link (target : String)
  deriving DecidableEq, Repr

structure Disk where
  nodes : List (Location × Node)
  deriving DecidableEq, Repr

/-- Why a path cannot be read. -/
inductive AccessError where
  | missing
  | notDirectory
  | isDirectory
  | nameTooLong
  | tooManyLinks
  /-- No path holds a null character. -/
  | nullCharacter
  deriving DecidableEq, Repr

namespace AccessError

/-- The number and the text of an error of the operating system. -/
def system? : AccessError → Option (Nat × String)
  | missing => some (2, "No such file or directory")
  | notDirectory => some (20, "Not a directory")
  | isDirectory => some (21, "Is a directory")
  | nameTooLong => some (36, "File name too long")
  | tooManyLinks => some (40, "Too many levels of symbolic links")
  | nullCharacter => none

/-- The message about a path. -/
def message (error : AccessError) (path : String) : String :=
  match error.system? with
  | some (number, text) =>
      let shown := Text.quotedString path
      s!"[Errno {number}] {text}: {shown}"
  | none => "embedded null byte"

end AccessError

namespace Disk

def empty : Disk :=
  ⟨[]⟩

/-- The node at a location.  The top is a directory. -/
def node? (disk : Disk) (location : Location) : Option Node :=
  if location.isEmpty then some .directory else disk.nodes.lookup location

def isDirectory (disk : Disk) (location : Location) : Bool :=
  disk.node? location == some .directory

/-- The names in a directory, in increasing order. -/
def children (disk : Disk) (location : Location) : List String :=
  let names := disk.nodes.filterMap fun (other, _) =>
    if other.dropLast == location then other.getLast? else none
  names.mergeSort fun left right => Text.le left.toList right.toList

/-- Make the directories down to a location where there is nothing yet. -/
def makeDirectories (disk : Disk) (location : Location) : Disk :=
  (List.range location.length).foldl
    (fun disk count =>
      let directory := location.take (count + 1)
      if (disk.node? directory).isSome then disk
      else ⟨disk.nodes ++ [(directory, .directory)]⟩)
    disk

/-- Remove a location and all below it. -/
def erase (disk : Disk) (location : Location) : Disk :=
  ⟨disk.nodes.filter fun (other, _) => !location.isPrefixOf other⟩

/-- Put a node at a location in place of what is there. -/
def put (disk : Disk) (location : Location) (node : Node) : Disk :=
  ⟨((disk.makeDirectories location.dropLast).erase location).nodes ++
    [(location, node)]⟩

/-- The number of links that may be followed on the way to a node. -/
def maxLinks : Nat := 40

/-- The most bytes of a name. -/
def maxNameSize : Nat := 255

/-- The most bytes of a path. -/
def maxPathSize : Nat := 4095

/-- The node that a directory holds under a name. -/
def entry (disk : Disk) (directory : Location) (name : String) :
    Except AccessError Node :=
  match disk.node? directory with
  | none => .error .missing
  | some .directory =>
      if maxNameSize < name.utf8ByteSize then .error .nameTooLong
      else
        match disk.node? (directory ++ [name]) with
        | none => .error .missing
        | some node => .ok node
  | some _ => .error .notDirectory

/-- The location that names lead to from another one, through links.  Every name
on the way must be that of a directory. -/
def locateFrom (disk : Disk) (budget : Nat) (location : Location)
    (names : List String) :
    Except AccessError Location :=
  match names with
  | [] => .ok location
  | name :: rest =>
      if !disk.isDirectory location then .error .notDirectory
      else if name == "" || name == "." || name == ".." then
        locateFrom disk budget (location.step name) rest
      else
        match disk.entry location name with
        | .error error => .error error
        | .ok (.link target) =>
            match budget with
            | 0 => .error .tooManyLinks
            | budget + 1 =>
                locateFrom disk budget (Location.start location target)
                  (Location.names target ++ rest)
        | .ok _ => locateFrom disk budget (location ++ [name]) rest
termination_by (budget, names.length)

/-- The location that a path leads to. -/
def locate (disk : Disk) (current : Location) (path : String) :
    Except AccessError Location :=
  if path.toList.contains '\x00' then .error .nullCharacter
  else if path.isEmpty then .error .missing
  else if maxPathSize < path.utf8ByteSize then .error .nameTooLong
  else
    disk.locateFrom maxLinks (Location.start current path) (Location.names path)

/-- The bytes of the file that a path leads to. -/
def read (disk : Disk) (current : Location) (path : String) :
    Except AccessError (List UInt8) := do
  let location ← disk.locate current path
  match disk.node? location with
  | some (.file bytes) => return bytes
  | some .directory => .error .isDirectory
  | _ => .error .missing

/-- Replace the links on the way along names.  Names of nothing are kept.  The
second part is false if a link leads back to itself; then the names from it on
are left as they are. -/
def unlinkFrom (disk : Disk) (budget : Nat) (pending : List Location)
    (location : Location) (names : List String) : Location × Bool :=
  match names with
  | [] => (location, true)
  | name :: rest =>
      if name == "" || name == "." || name == ".." then
        unlinkFrom disk budget pending (location.step name) rest
      else
        let next := location ++ [name]
        match disk.node? next with
        | some (.link target) =>
            if pending.contains next then (next.normalize rest, false)
            else
              match budget with
              | 0 => (next.normalize rest, false)
              | budget + 1 =>
                  match unlinkFrom disk budget (next :: pending)
                    (Location.start location target)
                      (Location.names target) with
                  | (reached, true) =>
                      unlinkFrom disk (budget + 1) pending reached rest
                  | (reached, false) => (reached.normalize rest, false)
        | _ => unlinkFrom disk budget pending next rest
termination_by (budget, names.length)

/-- Why a path has no resolved location. -/
inductive ResolveError where
  | linkLoop (location : Location)
  | nullCharacter
  deriving DecidableEq, Repr

def ResolveError.message : ResolveError → String
  | linkLoop location =>
      let shown := Text.quotedString location.spelled
      s!"Symlink loop from {shown}"
  | nullCharacter => AccessError.nullCharacter.message ""

/-- The location of a path without links, whether there is anything or not. -/
def resolve (disk : Disk) (current : Location) (path : String) :
    Except ResolveError Location :=
  if path.toList.contains '\x00' then .error .nullCharacter
  else
    let links := disk.nodes.length
    let location :=
      (disk.unlinkFrom links [] (Location.start current path)
        (Location.names path)).1
    match disk.locateFrom maxLinks [] location with
    | .error .tooManyLinks => .error (.linkLoop location)
    | _ => .ok location

end Disk

end MacroTrace
