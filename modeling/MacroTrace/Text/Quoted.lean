import MacroTrace.Text.Character

/-!
# Quoted text

How a message shows a piece of text: between single quotes, or between double
quotes if it holds a single quote and no double one, with escapes for
backslashes, the quote and characters that cannot be shown.
-/

namespace MacroTrace.Text

/-- `count` hexadecimal digits of a number. -/
def hexDigits (count value : Nat) : Text :=
  let digits := Nat.toDigits 16 value
  List.replicate (count - digits.length) '0' ++ digits

/-- How a character is written between quotes. -/
def escape (quote c : Char) : Text :=
  let code := c.toNat
  if c = quote || c = '\\' then ['\\', c]
  else if c = '\t' then ['\\', 't']
  else if c = '\n' then ['\\', 'n']
  else if c = '\r' then ['\\', 'r']
  else if isPrintable c then [c]
  else if code < 0x100 then '\\' :: 'x' :: hexDigits 2 code
  else if code < 0x10000 then '\\' :: 'u' :: hexDigits 4 code
  else '\\' :: 'U' :: hexDigits 8 code

def quoteFor (text : Text) : Char :=
  if text.contains '\x27' && !text.contains '"' then '"' else '\x27'

/-- A text between quotes. -/
def quoted (text : Text) : Text :=
  let quote := quoteFor text
  quote :: (text.flatMap (escape quote) ++ [quote])

/-- A string between quotes. -/
def quotedString (text : String) : String :=
  String.ofList (quoted text.toList)

end MacroTrace.Text
