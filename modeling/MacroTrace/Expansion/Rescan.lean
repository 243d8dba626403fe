import MacroTrace.Expansion.Builtin
import MacroTrace.Expansion.Candidate
import MacroTrace.Expansion.Region
import MacroTrace.Substitution.Basic

/-!
# Rescanning

A text is rescanned in passes until nothing in it can be expanded.  Every pass
is one level; the number of levels is limited.  A use is circular if it occurs
in a part of the text that its own replacement made.
-/

namespace MacroTrace

/-- How an expansion fails. -/
inductive ExpansionError where
  | maxDepth
  | circular (path : List Text)
  | unbalanced (name : Text)
  deriving DecidableEq, Repr

def ExpansionError.message : ExpansionError → String
  | maxDepth => "Maximum expansion depth reached - possible infinite recursion"
  | circular path =>
      "Circular macro reference detected: " ++
        String.ofList (Text.joinWith " -> ".toList path)
  | unbalanced name =>
      let name := String.ofList name
      s!"Macro '{name}' has unbalanced parentheses in definition"

/-- Why an expansion stops: it fails, or a body holds a placeholder of its
own. -/
inductive Failure where
  | expansion (error : ExpansionError)
  | placeholder (error : Substitution.PlaceholderError)
  deriving DecidableEq, Repr

/-- One step of an expansion.  `subject` is what was expanded. -/
structure Step where
  source : Text
  target : Text
  subject : Text
  note : String
  level : Nat
  deriving DecidableEq, Repr

/-- A text under expansion, where its parts come from, and the macro names made
by pasting so far. -/
structure Draft where
  text : Text
  regions : List Region
  pasted : List Text
  deriving DecidableEq, Repr

/-- Note a pasted token.  Tokens that were pasted onto something else are
forgotten, and only names of macros are kept. -/
def notePaste (lookup : Lookup) (pasted : List Text)
    (event : Paste.Event) : List Text :=
  let kept := event.pieces.foldl List.erase pasted
  if !Text.isMacroName event.token || isBuiltin event.token then kept
  else if kept.contains event.token || (lookup event.token).isEmpty then kept
  else kept ++ [event.token]

def notePastes (lookup : Lookup) (pasted : List Text)
    (events : List Paste.Event) : List Text :=
  events.foldl (notePaste lookup) pasted

namespace Scope

/-- What replaces a use in a rescanned text.  Arguments are used as written. -/
def replacement (scope : Scope) (use : Use) : Except Failure Paste.Result :=
  match scope.definition? use.name with
  | none => .ok ⟨use.spelling, []⟩
  | some definition =>
      if definition.isUnbalanced then .error (.expansion (.unbalanced use.name))
      else
        match definition.parameters with
        | none => .ok (Paste.apply definition.body)
        | some parameters =>
            match Substitution.applyRaw definition.body parameters
              (use.arguments.getD []) with
            | .ok result => .ok result
            | .error error => .error (.placeholder error)

/-- Replace one invocation.  `chain` holds the uses around the whole text. -/
def expandInvocation (scope : Scope) (chain : List Text) (draft : Draft)
    (invocation : Invocation) :
    Except Failure Draft :=
  let key := invocation.use.key
  let origin := Region.chainAt draft.regions invocation.start
  if (chain ++ origin).contains key then
    .error (.expansion (.circular (chain ++ origin ++ [key])))
  else
    match scope.replacement invocation.use with
    | .error failure => .error failure
    | .ok result => .ok {
        text :=
          draft.text.take invocation.start ++ result.text ++
            draft.text.drop invocation.stop
        regions :=
          Region.replace draft.regions invocation.start invocation.stop
            result.text.length (origin ++ [key])
        pasted := notePastes scope.lookup draft.pasted result.events }

/-- Replace invocations one after another.  A failure comes with the names
pasted up to it. -/
def expandInvocations (scope : Scope) (chain : List Text) :
    List Invocation → Draft → Except (Failure × List Text) Draft
  | [], draft => .ok draft
  | invocation :: rest, draft =>
      match scope.expandInvocation chain draft invocation with
      | .ok draft => scope.expandInvocations chain rest draft
      | .error failure => .error (failure, draft.pasted)

end Scope

/-- How a rescan ended, the steps that it took, and the macro names made by
pasting. -/
structure Rescan where
  outcome : Except Failure Text
  steps : List Step
  pasted : List Text

/-- What a step says about the invocations expanded in it. -/
def Mode.describe (mode : Mode) (chosen : List Invocation) : Text × String :=
  match mode with
  | .singleMacro =>
      let subject := (chosen.head?.map (·.name)).getD []
      let spelling := String.ofList ((chosen.head?.map (·.spelling)).getD [])
      (subject, s!"Expand {spelling}")
  | .singleLayer =>
      let subject := Text.joinWith [',', ' '] (chosen.reverse.map (·.spelling))
      (subject, "Expand macros at same level: " ++ String.ofList subject)

/-- Rescan a text until nothing in it can be expanded. -/
def Scope.rescan (scope : Scope) (settings : Settings) (chain : List Text)
    (level : Nat) (draft : Draft) : Rescan :=
  let candidates := scope.candidates true draft.text
  if candidates.isEmpty then ⟨.ok draft.text, [], draft.pasted⟩
  else if settings.maxDepth ≤ level then
    ⟨.error (.expansion .maxDepth), [], draft.pasted⟩
  else
    let chosen := settings.mode.select candidates
    match scope.expandInvocations chain chosen draft with
    | .error (failure, pasted) => ⟨.error failure, [], pasted⟩
    | .ok next =>
        if next.text = draft.text then ⟨.ok draft.text, [], next.pasted⟩
        else
          let (subject, note) := settings.mode.describe chosen
          let step : Step := ⟨draft.text, next.text, subject, note, level⟩
          let rest := scope.rescan settings chain (level + 1) next
          { rest with steps := step :: rest.steps }
termination_by settings.maxDepth - level

end MacroTrace
