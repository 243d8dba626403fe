import MacroTrace.Text.Nesting

/-!
# Argument lists

An argument list is cut at its commas, except for those inside literals or inner
parentheses.  Each argument is trimmed and keeps the span of what is left.
-/

namespace MacroTrace

/-- A trimmed argument and its span. -/
structure Argument where
  text : Text
  span : Span Nat
  deriving DecidableEq, Repr

/-- Trim the text between two separators, which stands at `start`. -/
def Argument.ofRaw (raw : Text) (start : Nat) : Argument :=
  let text := Text.trim raw
  let first := start + (raw.takeWhile Text.isBlank).length
  ⟨text, ⟨first, first + text.length⟩⟩

/-- A closed argument list; `stop` is the offset just past its closing
parenthesis. -/
structure ArgumentList where
  arguments : List Argument
  stop : Nat
  deriving DecidableEq, Repr

namespace ArgumentList

open Literal (Scan)

def texts (list : ArgumentList) : List Text :=
  list.arguments.map (·.text)

/-- Read an argument list from the text behind its opening parenthesis, which
stands at `offset`.  `raw` holds the reversed characters of the argument under
construction and `found` the reversed arguments in front of it. -/
def readFrom (scan : Scan) (depth offset : Nat) (raw : Text)
    (found : List Argument) :
    Text → Option ArgumentList
  | [] => none
  | c :: rest =>
      if scan.covers c then
        readFrom (scan.step c) depth (offset + 1) (c :: raw) found rest
      else if c = '(' then
        readFrom (scan.step c) (depth + 1) (offset + 1) (c :: raw) found rest
      else if c = ')' then
        match depth with
        | 0 =>
            let last := Argument.ofRaw raw.reverse (offset - raw.length)
            let all :=
              if found.isEmpty && last.text.isEmpty then [] else last :: found
            some ⟨all.reverse, offset + 1⟩
        | depth + 1 =>
            readFrom (scan.step c) depth (offset + 1) (c :: raw) found rest
      else if c = ',' && depth = 0 then
        let argument := Argument.ofRaw raw.reverse (offset - raw.length)
        readFrom (scan.step c) depth (offset + 1) [] (argument :: found) rest
      else readFrom (scan.step c) depth (offset + 1) (c :: raw) found rest

/-- The argument list whose opening parenthesis is at `start`, if there is one
and it is closed. -/
def at? (text : Text) (start : Nat) : Option ArgumentList :=
  match text.drop start with
  | '(' :: rest => readFrom .code 0 (start + 1) [] [] rest
  | _ => none

end ArgumentList

end MacroTrace
