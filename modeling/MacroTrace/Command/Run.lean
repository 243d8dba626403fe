import MacroTrace.Command.Request
import MacroTrace.Diagnostic.Check
import MacroTrace.Project.Database
import MacroTrace.Project.Scan
import MacroTrace.Settings.File
import MacroTrace.Summary
import MacroTrace.Tree

/-!
# Running a command

A command reads a project, does its task and ends with a status.  What it writes
and what it logs are part of its outcome, and so is the file tree it leaves.
-/

namespace MacroTrace.Command

/-- What ends a command without a status. -/
inductive Breakdown where
  | database (error : Database.Error)
  | resolve (error : Disk.ResolveError)
  | placeholder (error : Substitution.PlaceholderError)
  | store (error : Ledger.Error)
  deriving DecidableEq, Repr

/-- Why a command ends early. -/
inductive Trouble where
  /-- It is reported, and the command fails. -/
  | reported (message : String)
  | breakdown (cause : Breakdown)
  deriving DecidableEq, Repr

inductive Ending where
  | status (code : Nat)
  | breakdown (cause : Breakdown)
  deriving DecidableEq, Repr

/-- What a command has written and logged, and how it ends. -/
structure Report where
  output : String
  log : List Log.Entry
  result : Except Trouble Nat

def Report.prepend (log : List Log.Entry) (report : Report) : Report :=
  { report with log := log ++ report.log }

def stopped (log : List Log.Entry) (trouble : Trouble) : Report :=
  ⟨"", log, .error trouble⟩

def printed (text : String) : String :=
  text ++ "\n"

def printedLines (lines : List String) : String :=
  String.join (lines.map printed)

def placeholderTrouble : Substitution.PlaceholderError → Trouble
  | .longNumber digits =>
      .reported (Substitution.PlaceholderError.message (.longNumber digits))
  | error => .breakdown (.placeholder error)

def failureTrouble : Failure → Trouble
  | .expansion error => .reported error.message
  | .placeholder error => placeholderTrouble error

def databaseTrouble : Database.Error → Trouble
  | .nullCharacter => .reported Database.Error.nullCharacter.message
  | error => .breakdown (.database error)

def resolveTrouble : Disk.ResolveError → Trouble
  | .nullCharacter => .reported Disk.ResolveError.nullCharacter.message
  | error => .breakdown (.resolve error)

/-- The use that a request is about, unless it lacks a name. -/
def UseRequest.use? (request : UseRequest) : Option Use :=
  let arguments := request.arguments.map String.toList
  request.name.map fun name =>
    ⟨name.toList, if request.call || !arguments.isEmpty then
      some arguments else none⟩

/-- Do something with the use of a request. -/
def withUse (request : UseRequest) (act : Use → Report) : Report :=
  match request.use? with
  | some use => act use
  | none => stopped [] (.reported "unhashable type: 'list'")

def scanLines (store : Store) : List String :=
  store.names.flatMap fun name =>
    (store.lookup name).map fun definition =>
      let spelling := String.ofList definition.spelling
      s!"{definition.file}:{definition.line}: {spelling}"

def runScan (store : Store) : Report :=
  ⟨printedLines (scanLines store), [], .ok 0⟩

def stepLine (step : Step) : String :=
  let source := String.ofList step.source
  let target := String.ofList step.target
  s!"[{step.level}] {source} -> {target}"

def undefinedWarning (name : Text) : Log.Entry :=
  let name := String.ofList name
  ⟨.warning, s!"Undefined macro '{name}' in expansion"⟩

def runExpand (store : Store) (settings : Settings) (use : Use) : Report :=
  match Expansion.ofUse store.snapshot.lookup settings use with
  | .error error => stopped [] (placeholderTrouble error)
  | .ok expansion =>
      let steps := printedLines (expansion.steps.map stepLine)
      match expansion.error with
      | some error =>
          ⟨steps, expansion.remarks ++ [⟨.error, error.message⟩], .ok 1⟩
      | none =>
          ⟨steps ++ printed (String.ofList expansion.finalText),
            expansion.remarks ++ expansion.undefined.map undefinedWarning,
            .ok 0⟩

def runHover (store : Store) (settings : Settings) (use : Use) : Report :=
  match Summary.ofUse store.snapshot.lookup store.snapshot.names
    settings use with
  | .error error => stopped [] (placeholderTrouble error)
  | .ok summary =>
      match summary.text with
      | some text => ⟨printed text, summary.remarks, .ok 0⟩
      | none =>
          let name := String.ofList use.name
          ⟨"",
            summary.remarks ++ [⟨.warning, s!"Nothing to show for '{name}'"⟩],
            .ok 1⟩

def treeLine (tree : Tree) : String :=
  String.ofList (List.replicate (2 * tree.root.level) ' ' ++ tree.root.label)

/-- Show a tree, as far as it has grown. -/
def runTree (store : Store) (settings : Settings) (use : Use) : Report :=
  match ExpansionTree.ofUse store.snapshot.lookup settings use with
  | .error error => stopped [] (placeholderTrouble error)
  | .ok result =>
      let nodes := result.tree.walk
      let reported : List Log.Entry :=
        result.error.toList.map fun error => ⟨.error, error.message⟩
      ⟨printedLines (nodes.map treeLine),
        result.remarks ++ reported ++ nodes.flatMap Tree.remarks,
        match result.tree.failure with
        | some failure => .error (failureTrouble failure)
        | none => .ok (if result.error.isSome then 1 else 0)⟩

/-- Check one file. -/
def checkFile (disk : Disk) (current : Location) (store : Store)
    (settings : Settings) (root path : String) : Report :=
  match disk.read current path with
  | .error error => stopped [] (.reported (error.message path))
  | .ok bytes =>
      let shown :=
        Location.relative (Location.ofPath current root)
          (Location.ofPath current path)
      let report :=
        Check.ofText store.snapshot.lookup settings shown
          (Utf8.sourceText bytes)
      match report.diagnostics with
      | .error error => stopped report.log (placeholderTrouble error)
      | .ok diagnostics =>
          ⟨printedLines (diagnostics.map Diagnostic.shown), report.log,
            .ok (if diagnostics.any (·.severity == .error) then 1 else 0)⟩

/-- Check files, one after another; `status` is that of the files before. -/
def runCheck (disk : Disk) (current : Location) (store : Store)
    (settings : Settings) (root : String) (status : Nat) : List String → Report
  | [] => ⟨"", [], .ok status⟩
  | path :: rest =>
      let report := checkFile disk current store settings root path
      match report.result with
      | .error _ => report
      | .ok code =>
          let others :=
            runCheck disk current store settings root (max status code) rest
          ⟨report.output ++ others.output, report.log ++ others.log,
            others.result⟩

def Task.root : Task → String
  | scan root => root
  | expand request => request.root
  | hover request => request.root
  | tree request => request.root
  | check root _ => root

def runTask (disk : Disk) (current : Location) (store : Store)
    (settings : Settings) :
    Task → Report
  | .scan _ => runScan store
  | .expand request => withUse request (runExpand store settings)
  | .hover request => withUse request (runHover store settings)
  | .tree request => withUse request (runTree store settings)
  | .check root files => runCheck disk current store settings root 0 files

/-- Read the project and do the task. -/
def runProject (disk : Disk) (current : Location) (settings : Settings)
    (task : Task) (store : Store) : Report :=
  match disk.resolve current task.root with
  | .error error => stopped [] (resolveTrouble error)
  | .ok root =>
      match Project.find disk root Project.defaultExcludes
        settings.detectTypes store with
      | .error error => stopped [] (.breakdown (.store error))
      | .ok scan =>
          (runTask disk current scan.store settings task).prepend scan.log

/-- Settings with the log of reading them. -/
abbrev Loaded := List Log.Entry × Except Trouble Settings

/-- Read settings from a file. -/
def loadSettings (disk : Disk) (current : Location) (path : String) : Loaded :=
  match disk.read current path with
  | .error error => ([], .error (.reported (error.message path)))
  | .ok bytes =>
      match Settings.readOptions bytes with
      | .error error => ([], .error (.reported error.message))
      | .ok options =>
          ([⟨.debug, s!"Loaded configuration from {path}"⟩],
            (Settings.ofEntries options).mapError fun error =>
              .reported error.message)

/-- The value of an option.  A separator in its place is an empty list. -/
def Given.toValue {α : Type} (ofValue : α → Value) : Given α → Value
  | separator => .list []
  | value given => ofValue given

/-- The changes to settings that options make. -/
def Options.overrides (options : Options) : List (String × Value) :=
  options.mode.toList.map
    (fun mode => ("expansion_mode", mode.toValue .string)) ++
    options.maxDepth.toList.map
      (fun depth => ("max_expansion_depth", depth.toValue .int)) ++
    (if options.noStrip then [("strip_extra_parentheses", .bool false)] else [])

/-- The settings of a command.  An empty name of a settings file stands for
none. -/
def settingsFor (disk : Disk) (current : Location)
    (options : Options) : Loaded :=
  let (log, base) :=
    match options.config.filter (!·.isEmpty) with
    | some path => loadSettings disk current path
    | none => ([], .ok Settings.default)
  (log, base.bind fun settings =>
    (settings.override options.overrides).mapError fun error =>
      .reported error.message)

structure Outcome where
  ending : Ending
  output : String
  /-- What was logged, from the level on that the command line asks for. -/
  log : List Log.Entry
  disk : Disk

def Outcome.errorOutput (outcome : Outcome) : String :=
  printedLines (outcome.log.map Log.Entry.line)

def Options.level (options : Options) : Log.Level :=
  if options.quiet then .error
  else
    match options.verbosity with
    | 0 => .warning
    | 1 => .info
    | _ => .debug

/-- The outcome of a report.  Reported trouble is logged as an error. -/
def Report.outcome (report : Report) (options : Options)
    (disk : Disk) : Outcome :=
  match report.result with
  | .ok code =>
      ⟨.status code, report.output, Log.atLeast options.level report.log, disk⟩
  | .error (.reported message) =>
      ⟨.status 1, report.output,
        Log.atLeast options.level (report.log ++ [⟨.error, message⟩]), disk⟩
  | .error (.breakdown cause) =>
      ⟨.breakdown cause, report.output,
        Log.atLeast options.level report.log, disk⟩

/-- Do what a request asks for. -/
def Request.run (request : Request) (disk : Disk)
    (current : Location) : Outcome :=
  let options := request.options
  let (log, loaded) := settingsFor disk current options
  match loaded with
  | .error trouble => (stopped log trouble).outcome options disk
  | .ok settings =>
      match options.database.filter (!·.isEmpty) with
      | none =>
          ((runProject disk current settings request.task
            (.shelf Shelf.empty)).prepend log).outcome options disk
      | some path =>
          match Database.openPath disk current path with
          | .error error =>
              (stopped log (databaseTrouble error)).outcome options disk
          | .ok disk =>
              ((runProject disk current settings request.task
                (.ledger Ledger.empty)).prepend log).outcome options disk

def versionText : String := "macrolens 1.0.0"

def helpText : String :=
  "usage: macrolens [options] (scan | expand | hover | tree | check) <root> ..."

/-- Run a command line at a current location. -/
def run (disk : Disk) (current : Location) (words : List String) : Outcome :=
  match Request.ofWords words with
  | .error .usage => ⟨.status 2, "", [], disk⟩
  | .error .version => ⟨.status 0, printed versionText, [], disk⟩
  | .error .help => ⟨.status 0, printed helpText, [], disk⟩
  | .ok request => request.run disk current

end MacroTrace.Command
