import MacroTrace.Project.Disk

/-!
# Database files

Definitions may be kept in a database file.  What a command stores there is
written anew by every command, so of a database file only its place matters and
whether it can be used.
-/

namespace MacroTrace.Database

/-- How the first page of a database begins. -/
def mark : List UInt8 :=
  "SQLite format 3\x00".toUTF8.toList

/-- The parts of a page that its contents may take, which are the same in every
database. -/
def fractions : List UInt8 :=
  [64, 32, 32]

/-- Where the fractions stand in the first page. -/
def fractionsOffset : Nat := 21

/-- Where the first page says what kind of page it is. -/
def kindOffset : Nat := 100

/-- The kind of a page that holds rows. -/
def rowsKind : UInt8 := 13

/-- The first page of a database without rows. -/
def emptyPage : List UInt8 :=
  let versions : List UInt8 := [16, 0, 1, 1, 0]
  let header := mark ++ versions ++ fractions
  header ++ List.replicate (kindOffset - header.length) 0 ++ [rowsKind, 0, 0, 0,
    0, 16, 0, 0]

/-- Whether a file can be used as a database.  A file of at most one byte counts
as one to be made. -/
def isUsable (bytes : List UInt8) : Bool :=
  bytes.length ≤ 1 ||
    (mark.isPrefixOf bytes && fractions.isPrefixOf
      (bytes.drop fractionsOffset) &&
      bytes[kindOffset]? == some rowsKind)

/-- The number of links that may be followed on the way to a database. -/
def maxLinks : Nat := 201

/-- The most bytes of the path from the top to a database or to any name on the
way. -/
def maxWaySize : Nat := 511

/-- What is put behind the name of a database to name the journal beside it. -/
def journalEnding : String := "-journal"

/-- The location that names lead to.  Nothing needs to be there, but no file may
be passed through. -/
def locateFrom (disk : Disk) (budget : Nat) (location : Location)
    (names : List String) :
    Option Location :=
  match names with
  | [] => some location
  | name :: rest =>
      if name == "" || name == "." || name == ".." then
        locateFrom disk budget (location.step name) rest
      else
        let next := location ++ [name]
        if maxWaySize < next.spelled.utf8ByteSize then none
        else
          match disk.entry location name with
          | .ok (.link target) =>
              match budget with
              | 0 => none
              | budget + 1 =>
                  locateFrom disk budget (Location.start location target)
                    (Location.names target ++ rest)
          | .ok _ => locateFrom disk budget next rest
          | .error .missing => locateFrom disk budget next rest
          | .error _ => none
termination_by (budget, names.length)

/-- Whether there is room for a database and its journal at a location. -/
def hasRoom (location : Location) : Bool :=
  location.spelled.utf8ByteSize + journalEnding.utf8ByteSize ≤ maxWaySize + 1 &&
    (location.getLast?.getD "").utf8ByteSize + journalEnding.utf8ByteSize ≤
      Disk.maxNameSize

/-- Why a database cannot be opened. -/
inductive Error where
  | nullCharacter
  | unreachable
  | notDatabase
  deriving DecidableEq, Repr

def Error.message : Error → String
  | nullCharacter => AccessError.nullCharacter.message ""
  | unreachable => "unable to open database file"
  | notDatabase => "file is not a database"

/-- The name of a database that is kept in memory only. -/
def memoryName : String := ":memory:"

/-- The file tree once the database at a location is open. -/
def openAt (disk : Disk) (location : Location) : Except Error Disk :=
  if !hasRoom location then .error .unreachable
  else
    match disk.node? location with
    | some (.file bytes) =>
        if isUsable bytes then .ok (disk.put location (.file emptyPage))
        else .error .notDatabase
    | some _ => .error .unreachable
    | none =>
        if disk.isDirectory location.dropLast then
          .ok (disk.put location (.file emptyPage))
        else .error .unreachable

/-- The file tree once the database at a path is open. -/
def openPath (disk : Disk) (current : Location) (path : String) :
    Except Error Disk :=
  if path.toList.contains '\x00' then .error .nullCharacter
  else if path == memoryName then .ok disk
  else
    match locateFrom disk maxLinks (Location.start current path)
      (Location.names path) with
    | none => .error .unreachable
    | some location => openAt disk location

end MacroTrace.Database
