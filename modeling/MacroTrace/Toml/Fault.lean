import MacroTrace.Text.Quoted

/-!
# Faults of a document

What can be wrong with a TOML document, and where.
-/

namespace MacroTrace.Toml

/-- A path of names from the top of a document. -/
abbrev Key := List String

inductive Cause where
  | invalidStatement
  | missingLineEnd
  | declaredTwice (key : Key)
  | overwritten
  | unclosedTableHeader
  | unclosedListHeader
  | immutable (key : Key)
  | redefined (key : Key)
  | missingEquals
  | invalidKeyStart
  | unclosedArray
  | unclosedInlineTable
  | duplicateKey (name : String)
  | strayBackslash
  | invalidHex
  | notScalar
  | missingDelimiter (delimiter : Text)
  | forbidden (c : Char)
  | unterminated
  | illegal (c : Char)
  | invalidMoment
  | invalidValue
  /-- A decimal number with too many digits. -/
  | longNumber (digits : Nat)
  deriving DecidableEq, Repr

/-- The most digits that a decimal number may have. -/
def maxDigits : Nat := 4300

def showKey : Key → String
  | [name] => "(" ++ Text.quotedString name ++ ",)"
  | names => "(" ++ String.intercalate ", " (names.map Text.quotedString) ++ ")"

def showText (text : Text) : String :=
  String.ofList (Text.quoted text)

def Cause.message : Cause → String
  | invalidStatement => "Invalid statement"
  | missingLineEnd => "Expected newline or end of document after a statement"
  | declaredTwice key => "Cannot declare " ++ showKey key ++ " twice"
  | overwritten => "Cannot overwrite a value"
  | unclosedTableHeader => "Expected ']' at the end of a table declaration"
  | unclosedListHeader => "Expected ']]' at the end of an array declaration"
  | immutable key => "Cannot mutate immutable namespace " ++ showKey key
  | redefined key => "Cannot redefine namespace " ++ showKey key
  | missingEquals => "Expected '=' after a key in a key/value pair"
  | invalidKeyStart => "Invalid initial character for a key part"
  | unclosedArray => "Unclosed array"
  | unclosedInlineTable => "Unclosed inline table"
  | duplicateKey name => "Duplicate inline table key " ++ Text.quotedString name
  | strayBackslash => "Unescaped '\\' in a string"
  | invalidHex => "Invalid hex value"
  | notScalar => "Escaped character is not a Unicode scalar value"
  | missingDelimiter delimiter => "Expected " ++ showText delimiter
  | forbidden c => "Found invalid character " ++ showText [c]
  | unterminated => "Unterminated string"
  | illegal c => "Illegal character " ++ showText [c]
  | invalidMoment => "Invalid date or datetime"
  | invalidValue => "Invalid value"
  | longNumber digits =>
      s!"Exceeds the limit ({maxDigits} digits) for integer string " ++
        s!"conversion: value has {digits} digits; use " ++
        "sys.set_int_max_str_digits() to increase the limit"

/-- A cause and the text that is left where it was found. -/
structure Fault where
  cause : Cause
  rest : Text
  deriving DecidableEq, Repr

/-- A cause and its line and column, both counted from one; there are none at
the end of the document. -/
structure Error where
  cause : Cause
  position : Option (Nat × Nat)
  deriving DecidableEq, Repr

/-- The position of the text that is left in a document. -/
def positionOf (source rest : Text) : Option (Nat × Nat) :=
  if rest.isEmpty then none
  else
    let before := source.take (source.length - rest.length)
    let inLine := before.reverse.takeWhile (· ≠ '\n')
    some (before.count '\n' + 1, inLine.length + 1)

def Fault.locate (source : Text) (fault : Fault) : Error :=
  ⟨fault.cause, positionOf source fault.rest⟩

def Error.message (error : Error) : String :=
  let message := error.cause.message
  match error.cause, error.position with
  | .longNumber _, _ => message
  | _, none => s!"{message} (at end of document)"
  | _, some (line, column) => s!"{message} (at line {line}, column {column})"

/-- Blanks inside a line. -/
def isGap (c : Char) : Bool :=
  c = ' ' || c = '\t'

def isGapOrFeed (c : Char) : Bool :=
  isGap c || c = '\n'

def skipGap (text : Text) : Text :=
  text.dropWhile isGap

/-- Control characters, apart from the tab. -/
def isControl (c : Char) : Bool :=
  (c.toNat < 32 || c.toNat = 127) && c ≠ '\t'

/-- Control characters, apart from the tab and the line feed. -/
def isLineControl (c : Char) : Bool :=
  isControl c && c ≠ '\n'

/-- The text in front of a delimiter, and the text from it on. -/
def breakAt? (delimiter : Text) (before : Text) : Text → Option (Text × Text)
  | [] => none
  | c :: rest =>
      if delimiter.isPrefixOf (c :: rest) then some (before.reverse, c :: rest)
      else breakAt? delimiter (c :: before) rest

/-- The first illegal character among the first `count` of a text is a fault. -/
def refuse (illegal : Char → Bool) : Nat → Text → Except Fault Unit
  | 0, _ => .ok ()
  | _ + 1, [] => .ok ()
  | count + 1, c :: rest =>
      if illegal c then .error ⟨.forbidden c, c :: rest⟩
      else refuse illegal count rest

/-- Skip a comment, if there is one. -/
def skipComment : Text → Except Fault Text
  | '#' :: rest => do
      let content := rest.takeWhile (· ≠ '\n')
      refuse isControl content.length rest
      return rest.dropWhile (· ≠ '\n')
  | text => .ok text

/-- Skip blanks, line feeds and comments.  Each comment uses up fuel. -/
def skipGaps : Nat → Text → Except Fault Text
  | 0, text => .ok text
  | fuel + 1, text =>
      let next := text.dropWhile isGapOrFeed
      match next with
      | '#' :: _ => do
          let behind ← skipComment next
          skipGaps fuel behind
      | _ => .ok next

end MacroTrace.Toml
