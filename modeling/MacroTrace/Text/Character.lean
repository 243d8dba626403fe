import MacroTrace.Text.Blank
import MacroTrace.Text.WordTable
import MacroTrace.Text.PrintableTable

/-!
# Character classes

Word characters, identifier starts, decimal digits and printable characters.
Each class is decided by ASCII rules below code point 128 and by a table above.
-/

namespace MacroTrace.Text

def isUpper (c : Char) : Bool :=
  'A' ≤ c && c ≤ 'Z'

def isAsciiLetter (c : Char) : Bool :=
  isUpper c || ('a' ≤ c && c ≤ 'z')

def isAsciiDigit (c : Char) : Bool :=
  '0' ≤ c && c ≤ '9'

def inRanges (ranges : List (Nat × Nat)) (code : Nat) : Bool :=
  ranges.any fun range => range.1 ≤ code && code ≤ range.2

/-- Letters, numbers and the underscore. -/
def isWordChar (c : Char) : Bool :=
  if c.toNat < 128 then isAsciiLetter c || isAsciiDigit c || c == '_'
  else inRanges wordRanges c.toNat

/-- The first characters of identifiers. -/
def isIdentifierStart (c : Char) : Bool :=
  isAsciiLetter c || c == '_'

/-- The code points of the zeros outside ASCII.  The nine other digits of a
script follow its zero. -/
def zeroDigits : List Nat := [
  0x660, 0x6f0, 0x7c0, 0x966, 0x9e6, 0xa66, 0xae6, 0xb66, 0xbe6, 0xc66, 0xce6,
  0xd66, 0xde6, 0xe50, 0xed0, 0xf20, 0x1040, 0x1090, 0x17e0, 0x1810, 0x1946,
  0x19d0, 0x1a80, 0x1a90, 0x1b50, 0x1bb0, 0x1c40, 0x1c50, 0xa620, 0xa8d0,
  0xa900, 0xa9d0, 0xa9f0, 0xaa50, 0xabf0, 0xff10, 0x104a0, 0x10d30, 0x11066,
  0x110f0, 0x11136, 0x111d0, 0x112f0, 0x11450, 0x114d0, 0x11650, 0x116c0,
  0x11730, 0x118e0, 0x11950, 0x11c50, 0x11d50, 0x11da0, 0x16a60, 0x16ac0,
  0x16b50, 0x1d7ce, 0x1d7d8, 0x1d7e2, 0x1d7ec, 0x1d7f6, 0x1e140, 0x1e2f0,
  0x1e950, 0x1fbf0
]

/-- The value of a decimal digit of any script. -/
def digitValue? (c : Char) : Option Nat :=
  if isAsciiDigit c then some (c.toNat - 48)
  else if c.toNat < 128 then none
  else
    (zeroDigits.find? fun first => first ≤ c.toNat && c.toNat < first + 10).map
      (c.toNat - ·)

def isDigit (c : Char) : Bool :=
  (digitValue? c).isSome

/-- The number that a list of decimal digits spells; other characters count as
zero. -/
def numeralValue (digits : Text) : Nat :=
  digits.foldl (fun value c => 10 * value + (digitValue? c).getD 0) 0

/-- Characters that a message shows as they are. -/
def isPrintable (c : Char) : Bool :=
  if c.toNat < 128 then 32 ≤ c.toNat && c.toNat < 127
  else inRanges printableRanges c.toNat

/-- Names that look like macros: capitals, digits and underscores, with no digit
in front. -/
def isMacroName : Text → Bool
  | [] => false
  | c :: rest =>
      (isUpper c || c == '_') && rest.all fun d =>
        isUpper d || isAsciiDigit d || d == '_'

end MacroTrace.Text
