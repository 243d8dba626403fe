import MacroTrace.Definition.Basic
import MacroTrace.Text.Literal
import MacroTrace.Text.Word

/-!
# Parameter occurrences

Where the parameters of a macro occur in its body, and how: as operand of `#`,
as operand of `##`, or plainly.
-/

namespace MacroTrace

/-- How an occurrence of a parameter is used. -/
inductive Context where
  | stringify
  | paste
  | plain
  deriving DecidableEq, Repr

/-- An occurrence of a parameter, given by its index.  The extent of a
stringified one begins at its hash. -/
structure Occurrence where
  start : Nat
  stop : Nat
  parameter : Nat
  context : Context
  deriving DecidableEq, Repr

namespace Occurrence

/-- The parameter that a name stands for; of two with the same name, the later
one. -/
def parameterIndex? (parameters : List Text) (name : Text) : Option Nat :=
  ((parameters.map parameterName).zipIdx.reverse.find? fun entry => entry.1 ==
    name).map (·.2)

/-- How the word of a body is used, if it is a parameter. -/
def contextOf (before after : Text) : Context :=
  if ['#', '#'].isSuffixOf before || ['#', '#'].isPrefixOf after then .paste
  else if before.getLast? = some '#' then .stringify
  else .plain

/-- The occurrence of a parameter at a word of the body. -/
def ofWord (body : Text) (parameter : Nat) (word : Word) : Occurrence :=
  let before := Text.trimRight (body.take word.start)
  let context := contextOf before (Text.trimLeft word.after)
  let start := if context = .stringify then before.length - 1 else word.start
  ⟨start, word.stop, parameter, context⟩

/-- The occurrences of parameters in a body, outside literals, in order. -/
def all (body : Text) (parameters : List Text) : List Occurrence :=
  let literals := Literal.spans body
  (Word.identifiers body).filterMap fun word =>
    match parameterIndex? parameters word.spelling with
    | none => none
    | some index => if Span.covered literals word.start then none
      else some (ofWord body index word)

/-- The contexts in which a parameter, as spelled in the list, is used. -/
def contexts (body : Text) (parameters : List Text) (parameter : Text) :
    List Context :=
  ((all body parameters).filter fun occurrence =>
    parameters[occurrence.parameter]? = some parameter).map (·.context)

end Occurrence

end MacroTrace
