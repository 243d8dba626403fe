/-!
# Text and blank characters

Source text is a list of characters, so that an offset is a position in the
list.  This module gives the blank characters and the operations that remove or
merge them.
-/

namespace MacroTrace

/-- Source text.  Offsets and lengths count characters. -/
abbrev Text := List Char

namespace Text

/-- Blank characters: the ASCII separators and the spaces and line separators of
Unicode. -/
def isBlank (c : Char) : Bool :=
  let code := c.toNat
  (9 ≤ code && code ≤ 13) || (28 ≤ code && code ≤ 32) || code ==
    0x85 || code == 0xA0 ||
    code == 0x1680 || (0x2000 ≤ code && code ≤ 0x200A) || code ==
      0x2028 || code == 0x2029 ||
    code == 0x202F || code == 0x205F || code == 0x3000

/-- The two characters that end a physical line. -/
def isLineBreak (c : Char) : Bool :=
  c == '\n' || c == '\r'

def trimLeft (text : Text) : Text :=
  text.dropWhile isBlank

def trimRight (text : Text) : Text :=
  (text.reverse.dropWhile isBlank).reverse

def trim (text : Text) : Text :=
  trimRight (trimLeft text)

def isAllBlank (text : Text) : Bool :=
  text.all isBlank

/-- Replace every run of characters in `merged` by one space, `written` being
the reversed text in front and `inRun` saying whether it ends in such a run. -/
def squeezeFrom (merged : Char → Bool) (inRun : Bool)
    (written : Text) : Text → Text
  | [] => written.reverse
  | c :: rest =>
      if merged c then
        squeezeFrom merged true (if inRun then written else ' ' :: written) rest
      else
        squeezeFrom merged false (c :: written) rest

/-- Replace every run of characters in `merged` by one space. -/
def squeeze (merged : Char → Bool) (text : Text) : Text :=
  squeezeFrom merged false [] text

/-- Merge every run of blanks into one space and trim the ends. -/
def normalizeBlanks (text : Text) : Text :=
  trim (squeeze isBlank text)

/-- Whether `needle` occurs somewhere in the text. -/
def holds (needle : Text) : Text → Bool
  | [] => needle.isEmpty
  | c :: rest => needle.isPrefixOf (c :: rest) || holds needle rest

/-- Cut the text at every `separator`, `current` being the reversed part under
construction. -/
def splitFrom (separator : Char) (parts : List Text) (current : Text) :
    Text → List Text
      | [] => (current.reverse :: parts).reverse
      | c :: rest =>
          if c = separator then
            splitFrom separator (current.reverse :: parts) [] rest
          else
            splitFrom separator parts (c :: current) rest

/-- Cut the text at every `separator`.  There is always at least one part. -/
def splitOn (separator : Char) (text : Text) : List Text :=
  splitFrom separator [] [] text

/-- Put `separator` between the parts. -/
def joinWith (separator : Text) (parts : List Text) : Text :=
  List.intercalate separator parts

/-- Order by code points. -/
def le : Text → Text → Bool
  | [], _ => true
  | _ :: _, [] => false
  | a :: left, b :: right => if a = b then le left right else a.toNat < b.toNat

/-- The members in increasing order without repetitions. -/
def sortedSet (texts : List Text) : List Text :=
  (texts.mergeSort le).eraseDups

end Text

end MacroTrace
