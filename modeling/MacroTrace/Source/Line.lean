import MacroTrace.Text.Blank

/-!
# Physical lines

A text is cut behind every line feed; a carriage return in front of the line
feed belongs to the line end.  Gluing the lines together gives the text back.
-/

namespace MacroTrace

/-- How a physical line ends. -/
inductive LineEnd where
  /-- The last line of the text. -/
  | textEnd
  | feed
  | returnFeed
  deriving DecidableEq, Repr

def LineEnd.text : LineEnd → Text
  | textEnd => []
  | feed => ['\n']
  | returnFeed => ['\r', '\n']

/-- A physical line and its end. -/
structure Line where
  text : Text
  ending : LineEnd
  deriving DecidableEq, Repr

namespace Line

/-- Complete a line at a line feed, given its reversed characters. -/
def ofReversed : Text → Line
  | '\r' :: current => ⟨current.reverse, .returnFeed⟩
  | current => ⟨current.reverse, .feed⟩

def allFrom (found : List Line) (current : Text) : Text → List Line
  | [] => (⟨current.reverse, .textEnd⟩ :: found).reverse
  | c :: rest =>
      if c = '\n' then allFrom (ofReversed current :: found) [] rest
      else allFrom found (c :: current) rest

/-- The physical lines of a text.  There is always at least one. -/
def all (text : Text) : List Line :=
  allFrom [] [] text

def render (lines : List Line) : Text :=
  lines.flatMap fun line => line.text ++ line.ending.text

/-- Whether the next line continues this one: a backslash stands at the end,
blanks apart. -/
def isContinued (text : Text) : Bool :=
  (Text.trimRight text).getLast? == some '\\'

end Line

end MacroTrace
