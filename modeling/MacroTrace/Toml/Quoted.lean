import MacroTrace.Toml.Fault

/-!
# Strings of a document

Literal strings are taken as they are; basic strings have escapes.  Both have a
form for several lines.
-/

namespace MacroTrace.Toml

def hexValue? (c : Char) : Option Nat :=
  if '0' ≤ c && c ≤ '9' then some (c.toNat - '0'.toNat)
  else if 'a' ≤ c && c ≤ 'f' then some (c.toNat - 'a'.toNat + 10)
  else if 'A' ≤ c && c ≤ 'F' then some (c.toNat - 'A'.toNat + 10)
  else none

/-- Whether a number is that of a character. -/
def isScalar (code : Nat) : Bool :=
  code < 0xD800 || (0xE000 ≤ code && code < 0x110000)

/-- The character with the number that `count` hexadecimal digits give. -/
def hexChar (count : Nat) (text : Text) : Except Fault (Text × Text) :=
  let digits := (text.take count).filterMap hexValue?
  if digits.length < count then .error ⟨.invalidHex, text⟩
  else
    let code := digits.foldl (fun code digit => code * 16 + digit) 0
    let rest := text.drop count
    if isScalar code then .ok ([Char.ofNat code], rest)
    else .error ⟨.notScalar, rest⟩

def simpleEscapes : List (Char × Char) := [
  ('b', '\x08'), ('t', '\t'), ('n', '\n'), ('f', '\x0c'), ('r', '\r'),
  ('"', '"'), ('\\', '\\')]

/-- What a backslash in front of a text means.  In strings of several lines a
backslash at the end of a line drops the line end and the blanks behind it. -/
def escape (multiline : Bool) : Text → Except Fault (Text × Text)
  | [] => .error ⟨.strayBackslash, []⟩
  | c :: rest =>
      if multiline && c = '\n' then .ok ([], rest.dropWhile isGapOrFeed)
      else if multiline && isGap c then
        match skipGap rest with
        | [] => .ok ([], [])
        | next :: behind =>
            if next = '\n' then .ok ([], behind.dropWhile isGapOrFeed)
            else .error ⟨.strayBackslash, next :: behind⟩
      else if c = 'u' then hexChar 4 rest
      else if c = 'U' then hexChar 8 rest
      else
        match simpleEscapes.lookup c with
        | some meant => .ok ([meant], rest)
        | none => .error ⟨.strayBackslash, rest⟩

def closer (multiline : Bool) : Text :=
  if multiline then ['"', '"', '"'] else ['"']

/-- The rest of a basic string.  `written` is reversed; each character uses up
fuel. -/
def basic (multiline : Bool) : Nat → Text → Text → Except Fault (Text × Text)
  | 0, _, text => .error ⟨.unterminated, text⟩
  | fuel + 1, written, text =>
      match text with
      | [] => .error ⟨.unterminated, []⟩
      | c :: rest =>
          if (closer multiline).isPrefixOf (c :: rest) then
            .ok (written.reverse, (c :: rest).drop (closer multiline).length)
          else if c = '\\' then
            match escape multiline rest with
            | .ok (meant, behind) =>
                basic multiline fuel (meant.reverse ++ written) behind
            | .error fault => .error fault
          else if isControl c && !(multiline && c = '\n') then
            .error ⟨.illegal c, c :: rest⟩
          else basic multiline fuel (c :: written) rest

/-- The rest of a literal string. -/
def literal (multiline : Bool) (text : Text) : Except Fault (Text × Text) :=
  let delimiter : Text :=
    if multiline then List.replicate 3 '\x27' else ['\x27']
  match breakAt? delimiter [] text with
  | none => .error ⟨.missingDelimiter delimiter, []⟩
  | some (content, behind) => do
      refuse (if multiline then isLineControl else
        isControl) content.length text
      return (content, behind.drop delimiter.length)

/-- Up to two quotes in front of the closing ones belong to a string of several
lines. -/
def extraQuotes (quote : Char) (content : Text) (rest : Text) : Text × Text :=
  let extra := (rest.take 2).takeWhile (· = quote)
  (content ++ extra, rest.drop extra.length)

/-- The line feed behind the opening quotes is dropped. -/
def dropFeed : Text → Text
  | '\n' :: rest => rest
  | text => text

/-- The string on one line whose opening quote stands in front of a text. -/
def shortString (quote : Char) (text : Text) : Except Fault (Text × Text) :=
  if quote = '"' then basic false (text.length + 1) [] text
  else literal false text

/-- The string of several lines whose opening quotes stand in front of a
text. -/
def longString (quote : Char) (text : Text) : Except Fault (Text × Text) := do
  let start := dropFeed text
  let (content, rest) ←
    if quote = '"' then basic true (start.length + 1) [] start
    else literal true start
  return extraQuotes quote content rest

/-- The string behind an opening quote. -/
def stringBehind (quote : Char) (text : Text) : Except Fault (Text × Text) :=
  if [quote, quote].isPrefixOf text then longString quote (text.drop 2)
  else shortString quote text

end MacroTrace.Toml
