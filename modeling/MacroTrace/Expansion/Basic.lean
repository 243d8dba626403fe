import MacroTrace.Expansion.Rescan
import MacroTrace.Log
import MacroTrace.Text.Group

/-!
# Expansion

Expanding one use completely, with a trace of every step, and applying a single
pass to a text.
-/

namespace MacroTrace

/-- The expanded arguments of a call, by parameter, and the macro names made by
pasting. -/
structure ExpandedArguments where
  texts : List (Nat × Text)
  pasted : List Text
  deriving DecidableEq, Repr

namespace Scope

/-- Expand the arguments for the given parameters, one after another. -/
def expandArguments (scope : Scope) (settings : Settings) (chain : List Text)
    (level : Nat) (values : List Text) : List Nat → ExpandedArguments →
      Except (Failure × List Text) ExpandedArguments
  | [], done => .ok done
  | index :: rest, done =>
      let value := values[index]?.getD []
      let scanned := scope.rescan settings chain level ⟨value, [], done.pasted⟩
      match scanned.outcome with
      | .ok text =>
          scope.expandArguments settings chain level values rest
            ⟨(index, text) :: done.texts, scanned.pasted⟩
      | .error failure => .error (failure, scanned.pasted)

/-- The body of a definition for a use, with the plain arguments expanded, and
what the step is called. -/
def firstBody (scope : Scope) (settings : Settings) (chain : List Text)
    (level : Nat) (definition : Definition) (arguments : Option (List Text))
    (pasted : List Text) :
    Except (Failure × List Text) (Paste.Result × List Text × String) :=
  match definition.parameters, arguments with
  | some parameters, some arguments =>
      let wanted := Substitution.plainParameters definition.body parameters
      let values := Substitution.values parameters arguments
      match scope.expandArguments settings chain level values wanted
        ⟨[], pasted⟩ with
      | .error failure => .error failure
      | .ok expanded =>
          let plain (index : Nat) := (expanded.texts.lookup index).getD []
          match Substitution.apply definition.body parameters
            arguments plain with
          | .ok result =>
              .ok (result, expanded.pasted, "Function-like macro expansion")
          | .error error => .error (.placeholder error, expanded.pasted)
  | some _, none =>
      .ok (Paste.apply definition.body, pasted,
        "Function-like macro definition")
  | none, _ =>
      .ok (Paste.apply definition.body, pasted, "Object-like macro expansion")

/-- Expand a use at a level, inside the uses of `chain`. -/
def expandUse (scope : Scope) (settings : Settings) (chain : List Text)
    (level : Nat) (use : Use) (pasted : List Text) : Rescan :=
  if settings.maxDepth ≤ level then ⟨.error (.expansion .maxDepth), [], pasted⟩
  else if chain.contains use.key then
    ⟨.error (.expansion (.circular (chain ++ [use.key]))), [], pasted⟩
  else
    match scope.definition? use.name with
    | none => ⟨.ok use.spelling, [], pasted⟩
    | some definition =>
        if !definition.isMacro then ⟨.ok use.spelling, [], pasted⟩
        else if definition.isUnbalanced then
          ⟨.error (.expansion (.unbalanced use.name)), [], pasted⟩
        else
          let inner := chain ++ [use.key]
          match scope.firstBody settings inner (level + 1) definition
            use.arguments pasted with
          | .error (failure, pasted) => ⟨.error failure, [], pasted⟩
          | .ok (body, pasted, note) =>
              let step : Step :=
                ⟨use.spelling, body.text, use.name, note, level⟩
              let start : Draft :=
                ⟨body.text, [], notePastes scope.lookup pasted body.events⟩
              let rest := scope.rescan settings inner (level + 1) start
              { rest with steps := step :: rest.steps }

end Scope

/-- The names in a text that look like macros and have no definition, in
increasing order. -/
def undefinedNames (lookup : Lookup) (text : Text)
    (exclude : List Text) : List Text :=
  let literals := Literal.spans text
  let found := (Word.macroNames text).filter fun word =>
    !Span.covered literals word.start && !isBuiltin word.spelling &&
      !exclude.contains word.spelling && (lookup word.spelling).isEmpty
  Text.sortedSet (found.map (·.spelling))

/-- The outcome of expanding a use.  `finalText` is the use itself when nothing
could be expanded or the expansion failed. -/
structure Expansion where
  finalText : Text
  steps : List Step
  error : Option ExpansionError
  undefined : List Text
  pasted : List Text
  remarks : List Log.Entry
  deriving DecidableEq, Repr

namespace Expansion

/-- Whether the expansion succeeded and rewrote something. -/
def isComplete (expansion : Expansion) : Bool :=
  expansion.error.isNone && !expansion.steps.isEmpty

/-- The outcome when a use is left as it is. -/
def untouched (use : Use) (remarks : List Log.Entry) : Expansion :=
  ⟨use.spelling, [], none, [], [], remarks⟩

def rejection (use : Use) (count : Nat) : Log.Entry :=
  let name := String.ofList use.name
  ⟨.debug, s!"{name} does not accept {count} arguments"⟩

def failed (use : Use) (steps : List Step)
    (error : ExpansionError) : Expansion :=
  let spelling := String.ofList use.spelling
  let message := error.message
  ⟨use.spelling, steps, some error, [], [],
    [⟨.debug, s!"Failed to expand {spelling}: {message}"⟩]⟩

/-- The outcome of a completed rescan for a use of a definition. -/
def finished (lookup : Lookup) (settings : Settings) (definition : Definition)
    (text : Text) (scanned : Rescan) : Expansion :=
  let final := if settings.stripParentheses then Group.simplify text else text
  let exclude := definition.parameterList ++ definition.variadicName?.toList
  ⟨final, scanned.steps, none, undefinedNames lookup final exclude,
    scanned.pasted, []⟩

/-- Expand a use completely. -/
def ofUse (lookup : Lookup) (settings : Settings) (use : Use) :
    Except Substitution.PlaceholderError Expansion :=
  let scope : Scope := ⟨lookup, []⟩
  match scope.definition? use.name with
  | none => .ok (untouched use [])
  | some definition =>
      let mismatched :=
        use.arguments.isSome && !definition.accepts use.arguments
      if !definition.isMacro then .ok (untouched use [])
      else if mismatched && !definition.isUnbalanced then
        .ok (untouched use [rejection use (use.arguments.getD []).length])
      else
        let scanned := scope.expandUse settings [] 0 use []
        match scanned.outcome with
        | .ok text => .ok (finished lookup settings definition text scanned)
        | .error (.expansion error) => .ok (failed use scanned.steps error)
        | .error (.placeholder error) => .error error

end Expansion

/-- A text after one pass, and the names expanded in it, from left to right. -/
structure Pass where
  text : Text
  names : List Text
  deriving DecidableEq, Repr

/-- Apply one pass to a text.  Unbalanced definitions are never expanded.  There
is no result when the pass would change nothing. -/
def Scope.pass? (scope : Scope) (settings : Settings) (text : Text) :
    Except Failure (Option Pass) :=
  let candidates := scope.candidates false text
  if candidates.isEmpty then .ok none
  else
    let chosen := settings.mode.select candidates
    match scope.expandInvocations [] chosen ⟨text, [], []⟩ with
    | .error (failure, _) => .error failure
    | .ok draft =>
        if draft.text = text then .ok none
        else .ok (some ⟨draft.text, chosen.reverse.map (·.name)⟩)

end MacroTrace
