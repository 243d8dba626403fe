import MacroTrace.Definition.Extract
import MacroTrace.Project.Disk
import MacroTrace.Store.Basic
import MacroTrace.Text.Utf8

/-!
# Scanning a project

The source files below a root are found and their definitions are put into a
store, each file under its path below the root.  Single files can be read again
or removed.
-/

namespace MacroTrace.Project

/-- Directories that are left out. -/
def defaultExcludes : List String :=
  ["node_modules", "build", "dist", ".git"]

/-- The endings of source files, in lower case. -/
def sourceEndings : List String :=
  [".c", ".cpp", ".cc", ".h", ".hpp", ".hh"]

/-- A name without the line feed at its end. -/
def dropFinalFeed (name : Text) : Text :=
  if name.getLast? == some '\n' then name.dropLast else name

/-- Whether a file is a source file by its name.  Case does not matter, nor does
a final line feed. -/
def isSource (name : String) : Bool :=
  let lower := (dropFinalFeed name.toList).map Char.toLower
  sourceEndings.any fun ending => ending.toList.isSuffixOf lower

/-- Whether a location holds a directory or a link to one. -/
def leadsToDirectory (disk : Disk) (location : Location) : Bool :=
  match disk.locateFrom Disk.maxLinks [] location with
  | .ok reached => disk.isDirectory reached
  | .error _ => false

/-- The source files below a directory: first its own, then those of its
directories, in the order of their names.  Links to directories are not
followed.  The fuel bounds the depth. -/
def sourcesFrom (disk : Disk) (excludes : List String) : Nat → Location →
    List Location
  | 0, _ => []
  | fuel + 1, directory =>
      let names := disk.children directory
      let files := names.filter fun name =>
        isSource name && !leadsToDirectory disk (directory ++ [name])
      let directories := names.filter fun name =>
        !excludes.contains name && disk.isDirectory (directory ++ [name])
      files.map (fun name => directory ++ [name]) ++
        directories.flatMap fun name =>
          sourcesFrom disk excludes fuel (directory ++ [name])

/-- The length of the longest location. -/
def depth (disk : Disk) : Nat :=
  disk.nodes.foldl (fun longest entry => max longest entry.1.length) 0

/-- The source files of a project. -/
def sources (disk : Disk) (excludes : List String) (root : Location) :
    List Location :=
  sourcesFrom disk excludes (depth disk + 1) root

/-- A store after some files were read, the paths of these, and what was
logged. -/
structure Scan where
  store : Store
  paths : List String
  log : List Log.Entry
  deriving DecidableEq, Repr

/-- Put the definitions of a text into a store. -/
def enterText (path : String) (detectTypes : Bool) (text : Text) (scan : Scan) :
    Except Ledger.Error Scan := do
  let found := Extraction.ofText path detectTypes text
  let store ← scan.store.replace path found.definitions
  let remarks := (⟨.debug, s!"Parsing {path}"⟩ : Log.Entry) :: found.log ++
    [Store.replaceRemark path found.definitions.length]
  return ⟨store, scan.paths ++ [path], scan.log ++ remarks⟩

/-- Read one file.  A file that cannot be read is passed over with a warning. -/
def enterFile (disk : Disk) (root : Location) (detectTypes : Bool)
    (location : Location) (scan : Scan) : Except Ledger.Error Scan :=
  let path := location.below root
  match disk.read [] location.spelled with
  | .error error =>
      let message := error.message location.spelled
      .ok { scan with
        log := scan.log ++ [⟨.warning, s!"Could not read {path}: {message}"⟩] }
  | .ok bytes => enterText path detectTypes (Utf8.sourceText bytes) scan

/-- Read files, one after another. -/
def enterFiles (disk : Disk) (root : Location) (detectTypes : Bool)
    (locations : List Location) (scan : Scan) : Except Ledger.Error Scan :=
  locations.foldlM
    (fun scan location => enterFile disk root detectTypes location scan) scan

/-- Read all source files of a project into a store. -/
def find (disk : Disk) (root : Location) (excludes : List String)
    (detectTypes : Bool) (store : Store) : Except Ledger.Error Scan := do
  let scan ← enterFiles disk root detectTypes (sources disk excludes root)
      ⟨store, [], []⟩
  let count := scan.store.size
  let files := scan.paths.length
  return { scan with
    log :=
      scan.log ++ [⟨.info, s!"Found {count} definitions in {files} files"⟩] }

/-- Remove the definitions of a file. -/
def removeFile (root location : Location) (scan : Scan) : Scan :=
  let path := location.below root
  { scan with
    store := scan.store.remove path
    log := scan.log ++ scan.store.removeRemarks path }

/-- Why files cannot be read again. -/
inductive Error where
  | resolve (error : Disk.ResolveError)
  /-- It cannot be told whether there is a file. -/
  | access (error : AccessError) (location : Location)
  | store (error : Ledger.Error)
  deriving DecidableEq, Repr

def Error.message : Error → String
  | resolve error => error.message
  | access error location => error.message location.spelled
  | store error => error.message

/-- Whether there is a file at a location. -/
def isFile (disk : Disk) (location : Location) : Except Error Bool :=
  match disk.locate [] location.spelled with
  | .error .nameTooLong => .error (.access .nameTooLong location)
  | .error _ => .ok false
  | .ok reached => .ok (!disk.isDirectory reached)

/-- Read a file again, or remove its definitions if it is gone or is no source
file. -/
def rescanFile (disk : Disk) (root : Location) (detectTypes : Bool)
    (location : Location) (scan : Scan) : Except Error Scan := do
  let isPresent ←
    if location.getLast?.any isSource then isFile disk location else .ok false
  if isPresent then
    (enterFile disk root detectTypes location scan).mapError .store
  else return removeFile root location scan

/-- A scan, and what ended it early. -/
abbrev Partial := Scan × Option Error

/-- Apply a change to the files at paths below a root, until one fails. -/
def changeFiles (disk : Disk) (root : Location)
    (change : Location → Scan → Except Error Scan)
    (scan : Scan) : List String → Partial
  | [] => (scan, none)
  | path :: rest =>
      match disk.resolve root path with
      | .error error => (scan, some (.resolve error))
      | .ok location =>
          match change location scan with
          | .error error => (scan, some error)
          | .ok scan => changeFiles disk root change scan rest

/-- Read the files at paths again. -/
def rescan (disk : Disk) (root : Location) (detectTypes : Bool)
    (paths : List String) (store : Store) : Partial :=
  changeFiles disk root (rescanFile disk root detectTypes) ⟨store, [], []⟩ paths

/-- Remove the definitions of the files at paths. -/
def remove (disk : Disk) (root : Location) (paths : List String)
    (store : Store) : Partial :=
  changeFiles disk root
    (fun location scan => .ok (removeFile root location scan)) ⟨store, [], []⟩
    paths

end MacroTrace.Project
