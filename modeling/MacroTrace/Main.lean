import MacroTrace.Command.Run

/-!
# The program

Reads the part of the file tree that a command line is about, runs the command,
and writes what it has written and logged.
-/

namespace MacroTrace.Program

/-- The real path of what is at a path, if there is anything. -/
def realPath? (path : String) : IO (Option String) := do
  try
    let real ← IO.FS.realPath path
    if ← real.pathExists then return some real.toString else return none
  catch _ => return none

/-- Add the file at a path. -/
def loadFile (path : String) (disk : Disk) : IO Disk := do
  try
    let bytes ← IO.FS.readBinFile path
    return disk.put (Location.ofPath [] path) (.file bytes.toList)
  catch _ => return disk

/-- Add what is at a real path: a file, or a directory with all the source files
below it. -/
partial def loadReal (path : String) (disk : Disk) : IO Disk := do
  let real ← IO.FS.realPath path
  if ← real.isDir then
    let mut loaded := disk.makeDirectories (Location.ofPath [] path)
    for entry in ← real.readDir do
      let child := path ++ "/" ++ entry.fileName
      match ← realPath? child with
      | none => pure ()
      | some target =>
          if Location.ofPath [] target != Location.ofPath [] child then
            loaded := loaded.put (Location.ofPath [] child) (.link target)
            if Project.isSource entry.fileName then
              loaded ← loadFile target loaded
          else if ← entry.path.isDir then
            if !Project.defaultExcludes.contains entry.fileName then
              loaded ← loadReal child loaded
          else if Project.isSource entry.fileName then
            loaded ← loadFile child loaded
    return loaded
  else loadFile path disk

/-- Add the directories on the way to a location. -/
def loadWay (location : Location) (disk : Disk) : IO Disk :=
  (List.range location.length).foldlM
    (fun disk count => do
      let directory : Location := location.take count
      match ← realPath? directory.spelled with
      | none => return disk
      | some real =>
          if ← (← IO.FS.realPath real).isDir then
            return disk.makeDirectories directory
          else return disk)
    disk

/-- Add what a path leads to, and the link to it. -/
def load (current : Location) (path : String) (disk : Disk) : IO Disk := do
  let location := Location.ofPath current path
  match ← realPath? location.spelled with
  | none => loadWay location disk
  | some real =>
      let linked :=
        if Location.ofPath [] real == location then disk
        else disk.put location (.link real)
      loadReal real linked

/-- The paths that a request is about. -/
def pathsOf (request : Command.Request) : List String :=
  let files :=
    match request.task with
    | .check _ files => files
    | _ => []
  request.task.root ::
    (request.options.config.toList ++ request.options.database.toList ++ files)

def loadAll (current : Location) (request : Command.Request) : IO Disk :=
  (pathsOf request).foldlM (fun disk path => load current path disk)
    (Disk.empty.makeDirectories current)

def breakdownText : Command.Breakdown → String
  | .database error => error.message
  | .resolve error => error.message
  | .placeholder error => error.message
  | .store error => error.message

end MacroTrace.Program

open MacroTrace in
def main (words : List String) : IO UInt32 := do
  let directory ← IO.currentDir
  let current := Location.ofPath [] directory.toString
  let disk ← match Command.Request.ofWords words with
    | .ok request => Program.loadAll current request
    | .error _ => pure Disk.empty
  let outcome := Command.run disk current words
  IO.print outcome.output
  IO.eprint outcome.errorOutput
  match outcome.ending with
  | .status code => return code.toUInt32
  | .breakdown cause =>
      IO.eprintln (Program.breakdownText cause)
      return 1
