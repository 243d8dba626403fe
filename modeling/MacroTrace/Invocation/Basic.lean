import MacroTrace.Invocation.Argument
import MacroTrace.Invocation.Use
import MacroTrace.Text.Word

/-!
# Invocations

Every identifier outside literals may invoke a macro: with arguments when a
closed argument list follows, without when none does.  An identifier in front of
an argument list that is never closed invokes nothing.
-/

namespace MacroTrace

/-- The argument list behind a word, if there is one and it is closed. -/
def Word.argumentList? (word : Word) : Option ArgumentList :=
  match Text.trimLeft word.after with
  | '(' :: rest => ArgumentList.readFrom .code 0 (word.next + 1) [] [] rest
  | _ => none

/-- A use of a name found in a text, with its extent and the parenthesis depth
in front of it. -/
structure Invocation where
  name : Text
  arguments : Option (List Argument)
  start : Nat
  stop : Nat
  depth : Nat
  deriving DecidableEq, Repr

namespace Invocation

def use (invocation : Invocation) : Use :=
  ⟨invocation.name,
    invocation.arguments.map fun arguments => arguments.map (·.text)⟩

def spelling (invocation : Invocation) : Text :=
  invocation.use.spelling

def argumentSpans (invocation : Invocation) : List (Span Nat) :=
  (invocation.arguments.getD []).map (·.span)

/-- The invocation by a word at the given depth, if it makes one. -/
def ofWord? (text : Text) (depth : Nat) (word : Word) : Option Invocation :=
  if word.isCalled then
    (ArgumentList.at? text word.next).map fun list =>
      ⟨word.spelling, some list.arguments, word.start, list.stop, depth⟩
  else
    some ⟨word.spelling, none, word.start, word.stop, depth⟩

/-- The invocations of a text, in order of their starts. -/
def all (text : Text) : List Invocation :=
  let literals := Literal.spans text
  let depths := (Nesting.depths text).toArray
  (Word.identifiers text).filterMap fun word =>
    if Span.covered literals word.start then none
    else ofWord? text (depths[word.start]?.getD 0) word

end Invocation

/-- The first use whose extent holds `offset`.  The extent of a name that is not
called ends with the name, that of a call with its closing parenthesis; a call
that is never closed has none. -/
def Use.at? (text : Text) (offset : Int) : Option Use :=
  (Word.identifiers text).findSome? fun word =>
    match Invocation.ofWord? text 0 word with
    | some invocation =>
        if invocation.start ≤ offset ∧ offset ≤ invocation.stop then
          some invocation.use else none
    | none => none

end MacroTrace
