import MacroTrace.Log
import MacroTrace.Source.Line

/-!
# Logical lines

A logical line is a run of physical lines, all but the last of which end in a
backslash.  Its text is the physical lines without these backslashes, joined by
single spaces.
-/

namespace MacroTrace

/-- A logical line, the numbers of its first and last physical line, and what is
to be said about its line ends. -/
structure LogicalLine where
  text : Text
  first : Nat
  last : Nat
  remarks : List Log.Entry
  deriving DecidableEq, Repr

namespace LogicalLine

/-- A number in a column of five. -/
def numberColumn (number : Nat) : String :=
  let digits := toString number
  String.ofList (List.replicate (5 - digits.length) ' ') ++ digits

def spacedBackslash (path : String) (number : Nat) (line : Text) : Log.Entry :=
  let column := numberColumn number
  let shown := String.ofList line
  ⟨.warning,
    s!"{path}:{number}: backslash and newline separated by space\n" ++
      s!"{column} | {shown}"⟩

def backslashAtEnd (path : String) (number : Nat) : Log.Entry :=
  ⟨.warning, s!"{path}:{number}: backslash-newline at end of file"⟩

/-- A logical line under construction: its reversed parts, its first line and
its reversed remarks. -/
structure Draft where
  parts : List Text
  first : Nat
  remarks : List Log.Entry
  deriving DecidableEq, Repr

def Draft.finish (draft : Draft) (last : Nat) : LogicalLine :=
  ⟨Text.joinWith [' '] draft.parts.reverse, draft.first, last,
    draft.remarks.reverse⟩

/-- Add a continued physical line. -/
def Draft.extend (path : String) (number : Nat) (draft : Draft)
    (line : Text) : Draft :=
  let stripped := Text.trimRight line
  let remarks :=
    if stripped.length = line.length then draft.remarks
    else spacedBackslash path number line :: draft.remarks
  ⟨stripped.dropLast :: draft.parts, draft.first, remarks⟩

/-- Join the lines behind the first `number` ones.  `open?` is the logical line
that the last of these leaves open. -/
def joinFrom (path : String) (found : List LogicalLine) (open? : Option Draft)
    (number : Nat) :
    List Line → List LogicalLine
  | [] =>
      match open? with
      | none => found.reverse
      | some draft =>
          let closed :=
            { draft with
              remarks := backslashAtEnd path number :: draft.remarks }
          (closed.finish number :: found).reverse
  | line :: rest =>
      let draft := open?.getD ⟨[], number + 1, []⟩
      if Line.isContinued line.text then
        joinFrom path found (some (draft.extend path (number + 1) line.text))
          (number + 1) rest
      else
        let closed := { draft with parts := line.text :: draft.parts }
        joinFrom path (closed.finish (number + 1) :: found) none
          (number + 1) rest

/-- The logical lines of a text; `path` is named in their remarks. -/
def all (path : String) (text : Text) : List LogicalLine :=
  joinFrom path [] none 0 (Line.all text)

end LogicalLine

end MacroTrace
