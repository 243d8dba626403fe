import MacroTrace.Diagnostic.Basic
import MacroTrace.Source.Comment
import MacroTrace.Source.Directive
import MacroTrace.Text.Word

/-!
# Sheets

A file prepared for checking: its text with comments and directives blanked, and
the parts of it that are not code.  Offsets are the same in the text and in the
prepared text.
-/

namespace MacroTrace

structure Sheet where
  path : String
  text : Text
  /-- The text with comments and directives blanked. -/
  clean : Text
  /-- The extents of the `#define` lines, continuation lines included. -/
  defines : List (Span Nat)
  literals : List (Span Nat)
  /-- The offsets at which lines start. -/
  lineStarts : List Nat
  deriving DecidableEq, Repr

namespace Sheet

/-- Whether a physical line begins a definition. -/
def isDefineLine (line : Text) : Bool :=
  let isGap (c : Char) : Bool := c = ' ' || c = '\t'
  Directive.isDefine isGap (line.dropWhile isGap)

/-- Add the extent of a line to those in front of it, the last one first. -/
def addExtent (extents : List (Span Nat)) (start stop : Nat) :
    List (Span Nat) :=
  match extents with
  | [] => [⟨start, stop⟩]
  | last :: earlier =>
      if last.stop = start then ⟨last.start, stop⟩ :: earlier
      else ⟨start, stop⟩ :: last :: earlier

/-- The extents of the definitions among the lines at `offset`; `continued` says
that the first line continues one. -/
def definesFrom (continued : Bool) (offset : Nat) (extents : List (Span Nat)) :
    List Line → List (Span Nat)
  | [] => extents.reverse
  | line :: rest =>
      let next := offset + line.text.length + line.ending.text.length
      if continued || isDefineLine line.text then
        definesFrom (Line.isContinued line.text)
          next (addExtent extents offset next) rest
      else definesFrom false next extents rest

def lineStartsFrom (offset : Nat) (starts : List Nat) : Text → List Nat
  | [] => starts.reverse
  | c :: rest =>
      lineStartsFrom (offset + 1) (if c = '\n' then (offset + 1) :: starts else
        starts) rest

def ofText (path : String) (text : Text) : Sheet :=
  let clean := Directive.blank (Comment.blank text)
  { path := path
    text := text
    clean := clean
    defines := definesFrom false 0 [] (Line.all clean)
    literals := Literal.spans clean
    lineStarts := lineStartsFrom 0 [0] clean }

/-- Whether an offset lies outside definitions and literals. -/
def isCode (sheet : Sheet) (offset : Nat) : Bool :=
  !(Span.covered sheet.defines offset || Span.covered sheet.literals offset)

/-- The line and the column of an offset, both counted from one. -/
def position (sheet : Sheet) (offset : Nat) : Nat × Nat :=
  let before := sheet.lineStarts.takeWhile (· ≤ offset)
  (before.length, offset - before.getLast?.getD 0 + 1)

/-- A diagnostic about the name of `length` characters at an offset. -/
def report (sheet : Sheet) (offset length : Nat) (code : Diagnostic.Code)
    (message : String) :
    Diagnostic :=
  let (line, column) := sheet.position offset
  ⟨sheet.path, line, column, length, code, message⟩

/-- A diagnostic about a word. -/
def reportWord (sheet : Sheet) (word : Word) (code : Diagnostic.Code)
    (message : String) :
    Diagnostic :=
  sheet.report word.start word.spelling.length code message

end Sheet

/-- Whether a word is an operand of the paste operator. -/
def Word.isPasted (word : Word) : Bool :=
  ['#', '#'].isPrefixOf (Text.trimLeft word.before) ||
    ['#', '#'].isPrefixOf (Text.trimLeft word.after)

end MacroTrace
