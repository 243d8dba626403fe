import MacroTrace.Text.Span

/-!
# String and character literals

A literal runs from a quote to the next equal quote.  A backslash takes the
character behind it along, and an unterminated literal ends in front of the next
line break.  `Literal.Scan` is the state of a scan between two characters; all
other scans of the library carry it along.
-/

namespace MacroTrace.Literal

def isQuote (c : Char) : Bool :=
  c == '"' || c == '\x27'

/-- Where a scan stands between two characters. -/
inductive Scan where
  /-- Outside every literal. -/
  | code
  /-- Inside a literal opened by `quote`. -/
  | inside (quote : Char)
  /-- Inside a literal opened by `quote`, behind a backslash. -/
  | escaped (quote : Char)
  deriving DecidableEq, Repr

namespace Scan

/-- Read one character. -/
def step : Scan → Char → Scan
  | code, c => if isQuote c then inside c else code
  | inside quote, c =>
      if c = '\\' then escaped quote
      else if c = quote || Text.isLineBreak c then code
      else inside quote
  | escaped quote, _ => inside quote

/-- Whether the next character, being `c`, belongs to a literal.  A line break
that cuts a literal short does not. -/
def covers : Scan → Char → Bool
  | code, c => isQuote c
  | inside quote, c => c = quote || !Text.isLineBreak c
  | escaped _, _ => true

def run (scan : Scan) (text : Text) : Scan :=
  text.foldl step scan

end Scan

/-- The offset just past a literal, given its quote and the text behind the
quote, which stands at `offset`. -/
def endFrom (quote : Char) (offset : Nat) : Text → Nat
  | [] => offset
  | c :: rest =>
      if c = '\\' then
        match rest with
        | [] => offset + 1
        | _ :: rest => endFrom quote (offset + 2) rest
      else if c = quote then offset + 1
      else if Text.isLineBreak c then offset
      else endFrom quote (offset + 1) rest

/-- The offset just past the literal that opens at `start`, whatever character
stands there. -/
def end? (text : Text) (start : Nat) : Option Nat :=
  match text.drop start with
  | [] => none
  | quote :: rest => some (endFrom quote (start + 1) rest)

/-- The spans of the literals in a text that stands at `offset`, `opened` being
the start of the literal that `scan` is in. -/
def spansFrom (scan : Scan) (opened offset : Nat) (found : List (Span Nat)) :
    Text → List (Span Nat)
  | [] =>
      match scan with
      | .code => found.reverse
      | _ => (⟨opened, offset⟩ :: found).reverse
  | c :: rest =>
      match scan with
      | .code => spansFrom (scan.step c) offset (offset + 1) found rest
      | .escaped _ => spansFrom (scan.step c) opened (offset + 1) found rest
      | .inside _ =>
          match scan.step c with
          | .code =>
              let stop := if scan.covers c then offset + 1 else offset
              spansFrom .code opened (offset + 1) (⟨opened, stop⟩ :: found) rest
          | next => spansFrom next opened (offset + 1) found rest

/-- The spans of all literals of a text, quotes included, in order. -/
def spans (text : Text) : List (Span Nat) :=
  spansFrom .code 0 0 [] text

end MacroTrace.Literal
