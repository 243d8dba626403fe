import MacroTrace.Invocation.Basic
import MacroTrace.Settings.Basic
import MacroTrace.Store.Snapshot
import MacroTrace.Substitution.Occurrence

/-!
# Candidates

The invocations of a text that can be expanded, and those among them that the
next pass expands.
-/

namespace MacroTrace

/-- The definitions in force: pinned ones go before those that are looked up. -/
structure Scope where
  lookup : Lookup
  pinned : List (Text × Definition)

namespace Scope

/-- The definition that a name is expanded with. -/
def definition? (scope : Scope) (name : Text) : Option Definition :=
  match scope.pinned.lookup name with
  | some definition => some definition
  | none => (scope.lookup name).head?

/-- Whether an invocation can be expanded.  One of an unbalanced definition
counts on request. -/
def isCandidate (scope : Scope) (withUnbalanced : Bool)
    (invocation : Invocation) : Bool :=
  match scope.definition? invocation.name with
  | none => false
  | some definition =>
      definition.isMacro &&
        if definition.isUnbalanced then withUnbalanced
        else definition.accepts invocation.use.arguments

/-- The parameter that takes the argument with this index; the last one takes
all that remain. -/
def parameterFor? (parameters : List Text) (index : Nat) : Option Text :=
  parameters[min index (parameters.length - 1)]?

/-- Whether a parameter is used, but never plainly. -/
def isRaw (body : Text) (parameters : List Text) (parameter : Text) : Bool :=
  let used := Occurrence.contexts body parameters parameter
  !used.isEmpty && !used.contains .plain

/-- The spans of the arguments that an invocation uses only as written. -/
def protectedSpans (scope : Scope) (invocation : Invocation) :
    List (Span Nat) :=
  match scope.definition? invocation.name with
  | none => []
  | some definition =>
      if definition.isUnbalanced then []
      else
        let parameters := definition.parameterList
        (invocation.argumentSpans.zipIdx.filter fun (_, index) =>
          (parameterFor? parameters index).any
            (isRaw definition.body parameters)).map (·.1)

/-- The invocations of a text that can be expanded, without those inside
arguments that are used only as written. -/
def candidates (scope : Scope) (withUnbalanced : Bool) (text : Text) :
    List Invocation :=
  let found := (Invocation.all text).filter (scope.isCandidate withUnbalanced)
  let protectedParts := found.flatMap scope.protectedSpans
  found.filter fun invocation =>
    !protectedParts.any (·.contains invocation.start)

end Scope

/-- The invocations that the next pass expands, in the order in which they are
replaced: from right to left. -/
def Mode.select (mode : Mode) (candidates : List Invocation) :
    List Invocation :=
  let deepest :=
    candidates.foldl (fun depth invocation => max depth invocation.depth) 0
  let chosen := candidates.filter (·.depth = deepest)
  match mode with
  | .singleMacro => chosen.take 1
  | .singleLayer => chosen.reverse

end MacroTrace
