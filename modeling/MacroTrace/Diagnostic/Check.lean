import MacroTrace.Definition.Extract
import MacroTrace.Diagnostic.Sheet
import MacroTrace.Expansion.Basic

/-!
# Checking a file

Four checks of a file against the definitions of a project: the number of
arguments of each call, names without definitions (also those that only an
expansion brings up), names with several definitions, and unbalanced
definitions.
-/

namespace MacroTrace.Check

/-- Larger files are not checked. -/
def maxSize : Nat := 500000

def plural (count : Nat) (word : String) : String :=
  if count = 1 then s!"{count} {word}" else s!"{count} {word}s"

/-- The words of a sheet that stand in code and are not built in, out of some
words of its text. -/
def inCode (sheet : Sheet) (words : List Word) : List Word :=
  words.filter fun word => !isBuiltin word.spelling && sheet.isCode word.start

/-- The definition that a name is checked against, if it is a macro. -/
def firstMacro? (lookup : Lookup) (name : Text) : Option Definition :=
  (lookup name).head?.filter (·.isMacro)

def argumentCountMessage (definition : Definition) (name : Text)
    (count : Nat) : String :=
  let name := String.ofList name
  let needed :=
    if definition.isVariadic then
      "at least " ++ plural definition.fixedParameters.length "argument"
    else "exactly " ++ plural definition.parameterList.length "argument"
  s!"Macro '{name}' requires {needed}, but {count} provided"

/-- The problem with the arguments of a called word.  Arguments that pass on
variadic ones are not counted. -/
def argumentCount? (lookup : Lookup) (sheet : Sheet) (word : Word) :
    Option Diagnostic := do
  let definition ← firstMacro? lookup word.spelling
  if definition.parameterList.isEmpty || definition.isUnbalanced then none
  else
    let list ← word.argumentList?
    if list.texts.any (Text.holds variadicDefault) then none
    else if definition.accepts (some list.texts) then none
    else
      some (sheet.reportWord word .argumentCount
        (argumentCountMessage definition word.spelling list.texts.length))

def argumentCounts (lookup : Lookup) (sheet : Sheet) : List Diagnostic :=
  let calls := (Word.identifiers sheet.clean).filter (·.isCalled)
  (inCode sheet calls).filterMap (argumentCount? lookup sheet)

/-- What a use of a macro name gives rise to. -/
inductive Concern where
  /-- The name has no definition. -/
  | undefined (word : Word)
  /-- The names that the expansion brings up are to be looked at. -/
  | expansion (word : Word) (use : Use)
  deriving DecidableEq, Repr

/-- The called macro names in code. -/
def callWords (sheet : Sheet) : List Word :=
  inCode sheet ((Word.macroNames sheet.clean).filter (·.isCalled))

def callConcern? (lookup : Lookup) (word : Word) : Option Concern :=
  match lookup word.spelling with
  | [] => some (.undefined word)
  | definition :: _ =>
      match word.argumentList? with
      | some list =>
          if definition.isMacro then
            some (.expansion word ⟨word.spelling, some list.texts⟩)
          else none
      | none => none

/-- The extents of the argument lists of calls.  What stands inside is checked
through the expansion of the call. -/
def argumentExtents (sheet : Sheet) : List (Span Nat) :=
  (callWords sheet).filterMap fun word =>
    word.argumentList?.map fun list => ⟨word.next + 1, list.stop - 1⟩

def plainConcern? (lookup : Lookup) (word : Word) : Option Concern :=
  match lookup word.spelling with
  | [] => some (.undefined word)
  | definition :: _ =>
      if definition.isMacro && definition.parameterList.isEmpty then
        some (.expansion word ⟨word.spelling, none⟩)
      else none

/-- The macro names of at least two characters in code that are not called,
pasted, called elsewhere or part of an argument. -/
def plainWords (sheet : Sheet) : List Word :=
  let called := (callWords sheet).map (·.spelling)
  let extents := argumentExtents sheet
  let uncalled := (Word.macroNames sheet.clean).filter fun word =>
    !word.isCalled && 2 ≤ word.spelling.length && !called.contains word.spelling
  (inCode sheet uncalled).filter fun word =>
    !word.isPasted && !extents.any (·.contains word.start)

def concerns (lookup : Lookup) (sheet : Sheet) : List Concern :=
  (callWords sheet).filterMap (callConcern? lookup) ++
    (plainWords sheet).filterMap (plainConcern? lookup)

def undefinedReport (sheet : Sheet) (word : Word) : Diagnostic :=
  let name := String.ofList word.spelling
  sheet.reportWord word .undefinedMacro s!"Undefined macro '{name}'"

/-- The problem with an expansion that brings up undefined names. -/
def expansionReport? (sheet : Sheet) (word : Word) (expansion : Expansion) :
    Option Diagnostic :=
  match expansion.undefined with
  | [] => none
  | undefined =>
      let name := String.ofList word.spelling
      let noun := if undefined.length = 1 then "macro" else "macros"
      let listed := String.ofList (Text.joinWith [',', ' '] undefined)
      some (sheet.reportWord word .expansionUndefined
        s!"Macro '{name}' expands to undefined {noun}: {listed}")

/-- The expansions made so far, by key, and what was logged about them. -/
structure Progress where
  expansions : List (Text × Expansion)
  log : List Log.Entry
  deriving DecidableEq, Repr

/-- Expand a use, unless one with the same key has been expanded. -/
def Progress.expand (lookup : Lookup) (settings : Settings)
    (progress : Progress) (use : Use) :
    Except Substitution.PlaceholderError (Expansion × Progress) :=
  match progress.expansions.lookup use.key with
  | some expansion => .ok (expansion, progress)
  | none =>
      match Expansion.ofUse lookup settings use with
      | .error error => .error error
      | .ok expansion =>
          .ok (expansion, ⟨(use.key, expansion) :: progress.expansions,
            progress.log ++ expansion.remarks⟩)

/-- The problems that concerns turn out to be, and the progress made, also if an
expansion fails. -/
def resolve (lookup : Lookup) (settings : Settings) (sheet : Sheet)
    (found : List Diagnostic) (progress : Progress) :
    List Concern →
      Except Substitution.PlaceholderError (List Diagnostic) × Progress
  | [] => (.ok found.reverse, progress)
  | .undefined word :: rest =>
      resolve lookup settings sheet (undefinedReport sheet word :: found)
        progress rest
  | .expansion word use :: rest =>
      match progress.expand lookup settings use with
      | .error error => (.error error, progress)
      | .ok (expansion, progress) =>
          let reports := (expansionReport? sheet word expansion).toList
          resolve lookup settings sheet (reports ++ found) progress rest

def redefinition? (lookup : Lookup) (sheet : Sheet) (word : Word) :
    Option Diagnostic :=
  let definitions := lookup word.spelling
  if definitions.length < 2 || !definitions.head?.any (·.isMacro) then none
  else
    let name := String.ofList word.spelling
    let count := definitions.length
    let places := String.intercalate ", " (definitions.map fun definition =>
      s!"{definition.file}:{definition.line}")
    some (sheet.reportWord word .redefinition
      s!"Macro '{name}' has {count} definitions ({places})")

def redefinitions (lookup : Lookup) (sheet : Sheet) : List Diagnostic :=
  ((inCode sheet (Word.macroNames sheet.clean)).filter fun word =>
    !word.isPasted).filterMap (redefinition? lookup sheet)

/-- Where an unbalanced definition names its macro. -/
def unbalancedReport (sheet : Sheet) (lines : List Text)
    (definition : Definition) : Diagnostic :=
  let index := (definition.line - 1).toNat
  let line := lines[index]?.getD []
  let column :=
    (((Word.all line).find? (·.spelling = definition.name)).map (·.start)).getD
      0
  let name := String.ofList definition.name
  sheet.report (sheet.lineStarts[index]?.getD 0 + column) definition.name.length
    .unbalancedParentheses
    s!"Macro '{name}' has unbalanced parentheses in its definition"

def unbalanced (sheet : Sheet) (definitions : List Definition) :
    List Diagnostic :=
  let lines := Text.splitOn '\n' sheet.text
  (definitions.filter (·.isUnbalanced)).map (unbalancedReport sheet lines)

/-- The diagnostics of a file, in the order of their positions, and what was
logged. -/
structure Report where
  diagnostics : Except Substitution.PlaceholderError (List Diagnostic)
  log : List Log.Entry

/-- Check a sheet. -/
def ofSheet (lookup : Lookup) (settings : Settings) (sheet : Sheet) : Report :=
  match resolve lookup settings sheet [] ⟨[], []⟩ (concerns lookup sheet) with
  | (.error error, progress) => ⟨.error error, progress.log⟩
  | (.ok undefined, progress) =>
      let own := Extraction.ofText sheet.path false sheet.text
      let all :=
        argumentCounts lookup sheet ++ undefined ++
          redefinitions lookup sheet ++
          unbalanced sheet own.definitions
      ⟨.ok (all.mergeSort Diagnostic.le), progress.log ++ own.log⟩

/-- Check a file, unless it is too large. -/
def ofText (lookup : Lookup) (settings : Settings) (path : String)
    (text : Text) : Report :=
  if maxSize < text.length then
    ⟨.ok [], [⟨.info, s!"Skipping {path}: larger than {maxSize} characters"⟩]⟩
  else ofSheet lookup settings (Sheet.ofText path text)

end MacroTrace.Check
