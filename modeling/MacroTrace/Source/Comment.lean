import MacroTrace.Text.Literal

/-!
# Comments

Two ways of removing comments.  `blank` replaces each character of a comment by
a space and keeps line breaks, so that offsets do not change.  `remove` replaces
each comment of a fragment by one space and merges blanks.

Blanking is done by a machine with a stack of modes, which can be fed in
portions.
-/

namespace MacroTrace.Comment

/-- What the machine is reading. -/
inductive Mode where
  | code
  /-- Behind a slash that may open a comment. -/
  | slash
  /-- Inside a literal. -/
  | literal (quote : Char)
  /-- Behind a backslash. -/
  | escape
  | lineComment
  | blockComment
  /-- Behind a star that may close a block comment. -/
  | star
  /-- A mode that no rule is given for. -/
  | foreign (label : String)
  deriving DecidableEq, Repr

/-- Why the machine stops. -/
inductive Fault where
  /-- A block comment ends that was never opened. -/
  | strayBlockEnd
  | foreignMode
  | noMode
  deriving DecidableEq, Repr

def Fault.message : Fault → String
  | strayBlockEnd =>
      "Inconsistent parser state. Looking for '/' to terminate " ++
        "non-existent block comment."
  | foreignMode => "Unknown parser state!"
  | noMode => "No parser state!"

/-- What a character of a comment becomes. -/
def hidden (c : Char) : Char :=
  if Text.isLineBreak c then c else ' '

/-- Read one character in the innermost mode: the modes behind it, and what is
written.  A slash that opens no comment is written late, together with the
character behind it. -/
def step : List Mode → Char → Except Fault (List Mode × Text)
  | [], _ => .error .noMode
  | .code :: outer, c =>
      if c = '/' then .ok (.slash :: .code :: outer, [])
      else if Literal.isQuote c then .ok (.literal c :: .code :: outer, [c])
      else .ok (.code :: outer, [c])
  | .literal quote :: outer, c =>
      if c = '\\' then .ok (.escape :: .literal quote :: outer, [c])
      else if c = quote || Text.isLineBreak c then .ok (outer, [c])
      else .ok (.literal quote :: outer, [c])
  | .escape :: outer, c => .ok (outer, [c])
  | .slash :: outer, c =>
      if c = '/' then .ok (.lineComment :: outer, [' ', ' '])
      else if c = '*' then .ok (.blockComment :: outer, [' ', ' '])
      else
        match step outer c with
        | .ok (modes, written) => .ok (modes, '/' :: written)
        | .error fault => .error fault
  | .lineComment :: outer, c =>
      if Text.isLineBreak c then .ok (outer, [c])
      else .ok (.lineComment :: outer, [' '])
  | .blockComment :: outer, c =>
      if c = '*' then .ok (.star :: .blockComment :: outer, [hidden c])
      else .ok (.blockComment :: outer, [hidden c])
  | .star :: outer, c =>
      if c = '/' then
        match outer with
        | [] => .error .noMode
        | .blockComment :: outer => .ok (outer, [hidden c])
        | _ :: _ => .error .strayBlockEnd
      else if c = '*' then .ok (.star :: outer, [hidden c])
      else .ok (outer, [hidden c])
  | .foreign _ :: _, _ => .error .foreignMode

/-- The machine: its modes, innermost first, and all that it has written,
reversed. -/
structure Cleaner where
  modes : List Mode
  written : Text
  deriving DecidableEq, Repr

namespace Cleaner

def start : Cleaner :=
  ⟨[.code], []⟩

def output (cleaner : Cleaner) : Text :=
  cleaner.written.reverse

def readAll (modes : List Mode) (written : Text) : Text → Except Fault Cleaner
  | [] => .ok ⟨modes, written⟩
  | c :: rest =>
      match step modes c with
      | .ok (modes, more) => readAll modes (more.reverse ++ written) rest
      | .error fault => .error fault

/-- Write out a slash that the portion ended with. -/
def settle (cleaner : Cleaner) : Except Fault Cleaner :=
  match cleaner.modes with
  | [] => .error .noMode
  | .slash :: outer => .ok ⟨outer, '/' :: cleaner.written⟩
  | _ :: _ => .ok cleaner

/-- Read a portion of text. -/
def feed (cleaner : Cleaner) (portion : Text) : Except Fault Cleaner :=
  match readAll cleaner.modes cleaner.written portion with
  | .ok cleaner => cleaner.settle
  | .error fault => .error fault

end Cleaner

/-- Replace every comment by blanks of the same length. -/
def blank (text : Text) : Text :=
  if text.contains '/' then
    match Cleaner.start.feed text with
    | .ok cleaner => cleaner.output
    | .error _ => text
  else text

/-- The text behind the end of a block comment. -/
def afterBlock? : Text → Option Text
  | [] => none
  | c :: rest =>
      if c = '*' && rest.head? = some '/' then some (rest.drop 1)
      else afterBlock? rest

theorem afterBlock?_length
    {text after : Text}
    (found : afterBlock? text = some after) :
    after.length < text.length := by
  induction text with
  | nil => simp [afterBlock?] at found
  | cons c rest ih =>
      rw [afterBlock?] at found
      split at found
      · cases found
        simp only [List.length_drop, List.length_cons]
        omega
      · have := ih found
        simp
        omega

/-- Replace every closed comment by one space, `written` being the reversed text
in front. -/
def spaceFrom (written : Text) (text : Text) : Text :=
  match text with
  | [] => written.reverse
  | '/' :: '*' :: rest =>
      match _found : afterBlock? rest with
      | some after => spaceFrom (' ' :: written) after
      | none => spaceFrom ('/' :: written) ('*' :: rest)
  | '/' :: '/' :: rest =>
      spaceFrom (' ' :: written) (rest.dropWhile (· ≠ '\n'))
  | c :: rest => spaceFrom (c :: written) rest
termination_by text.length
decreasing_by
  · have := afterBlock?_length _found
    simp
    omega
  · simp
  · have :=
      (List.dropWhile_sublist (l := rest) fun c => decide (c ≠ '\n')).length_le
    simp at this ⊢
    omega
  · simp

/-- Remove the comments of a fragment and merge its blanks. -/
def remove (text : Text) : Text :=
  Text.normalizeBlanks (spaceFrom [] text)

end MacroTrace.Comment
