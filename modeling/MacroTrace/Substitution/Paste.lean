import MacroTrace.Text.Character
import MacroTrace.Text.Literal

/-!
# Pasting

The operator `##` joins the tokens on its two sides.  A chain of operators is
pasted in one step, a missing operand pastes as nothing, and the result is not
scanned again.
-/

namespace MacroTrace.Paste

def isOperatorChar (c : Char) : Bool :=
  "+-*/<>=!&|^%~".toList.contains c

/-- The longest part in front whose characters are all in `keep`, and the
rest. -/
def splitWhile (keep : Char → Bool) (text : Text) : Text × Text :=
  (text.takeWhile keep, text.dropWhile keep)

/-- The longest token at the start of a text (an identifier, a numeral or a run
of operator characters; empty if there is none) and the text behind it. -/
def takeToken (text : Text) : Text × Text :=
  match text with
  | [] => ([], [])
  | c :: _ =>
      if Text.isIdentifierStart c then splitWhile Text.isWordChar text
      else if Text.isDigit c then splitWhile Text.isDigit text
      else if isOperatorChar c then splitWhile isOperatorChar text
      else ([], text)

theorem takeToken_length (text : Text) :
    (takeToken text).2.length ≤ text.length := by
  have shorter (keep : Char → Bool) :
      (splitWhile keep text).2.length ≤ text.length :=
    (List.dropWhile_sublist keep).length_le
  unfold takeToken
  split
  · simp
  · split
    · exact shorter _
    · split
      · exact shorter _
      · split
        · exact shorter _
        · exact Nat.le_refl _

/-- The text behind a paste operator and the blanks around it, if the text
begins with one. -/
def afterOperator? (text : Text) : Option Text :=
  match Text.trimLeft text with
  | '#' :: '#' :: rest => some (Text.trimLeft rest)
  | _ => none

theorem trimLeft_length (text : Text) :
    (Text.trimLeft text).length ≤ text.length :=
  (List.dropWhile_sublist Text.isBlank).length_le

theorem afterOperator?_length
    {text after : Text}
    (found : afterOperator? text = some after) :
    after.length < text.length := by
  unfold afterOperator? at found
  split at found
  next rest equality =>
    cases found
    have whole := trimLeft_length text
    have tail := trimLeft_length rest
    rw [equality] at whole
    simp at whole
    omega
  next => cases found

/-- The operands behind a chain of operators, empty ones included, and the text
behind the chain. -/
def takeChain (text : Text) : List Text × Text :=
  match _found : afterOperator? text with
  | none => ([], text)
  | some after =>
      let chain := takeChain (takeToken after).2
      ((takeToken after).1 :: chain.1, chain.2)
termination_by text.length
decreasing_by
  have := afterOperator?_length _found
  have := takeToken_length after
  omega

theorem takeChain_length (text : Text) :
    (takeChain text).2.length ≤ text.length := by
  fun_induction takeChain text with
  | case1 => exact Nat.le_refl _
  | case2 text after found chain ih =>
      have := afterOperator?_length found
      exact Nat.le_trans ih
        (Nat.le_trans (takeToken_length after) (Nat.le_of_lt this))

/-- A chain of pastes at the start of a text: its left operand, the others, and
the text behind. -/
structure Chain where
  left : Text
  others : List Text
  after : Text
  deriving DecidableEq, Repr

/-- The operands that are there. -/
def Chain.pieces (chain : Chain) : List Text :=
  (chain.left :: chain.others).filter (!·.isEmpty)

def Chain.token (chain : Chain) : Text :=
  chain.pieces.flatten

/-- The chain that a text begins with. -/
def chain? (text : Text) : Option Chain :=
  let token := takeToken text
  let chain := takeChain token.2
  if chain.1.isEmpty then none else some ⟨token.1, chain.1, chain.2⟩

theorem takeChain_length_lt
    {text : Text}
    (found : (takeChain text).1 ≠ []) :
    (takeChain text).2.length < text.length := by
  rw [takeChain] at found ⊢
  split at found
  · simp at found
  · rename_i after equality
    have := afterOperator?_length equality
    have := takeToken_length after
    have := takeChain_length (takeToken after).2
    simp only
    omega

theorem chain?_length
    {text : Text} {chain : Chain}
    (found : chain? text = some chain) :
    chain.after.length < text.length := by
  unfold chain? at found
  simp only at found
  split at found
  · cases found
  · rename_i nonempty
    cases found
    have chained : (takeChain (takeToken text).2).1 ≠ [] := by
      simpa using nonempty
    exact Nat.lt_of_lt_of_le (takeChain_length_lt chained)
      (takeToken_length text)

/-- A token made by pasting, and the pieces it was pasted from. -/
structure Event where
  token : Text
  pieces : List Text
  deriving DecidableEq, Repr

/-- A text after pasting, and the tokens made, in order. -/
structure Result where
  text : Text
  events : List Event
  deriving DecidableEq, Repr

/-- What replaces a chain: the token, behind a space if blanks stood in place of
a left operand. -/
def replacement (text : Text) (chain : Chain) : Text :=
  if chain.left.isEmpty && text.head?.any Text.isBlank then ' ' :: chain.token
  else chain.token

/-- Paste in a text that stands at `offset`; `written` and `events` hold what
came before, reversed.  A chain that starts inside a literal is copied. -/
def applyFrom (literals : List (Span Nat)) (offset : Nat) (written : Text)
    (events : List Event) (text : Text) : Result :=
  match text with
  | [] => ⟨written.reverse, events.reverse⟩
  | c :: rest =>
      match _found : chain? (c :: rest) with
      | none => applyFrom literals (offset + 1) (c :: written) events rest
      | some chain =>
          let length := (c :: rest).length - chain.after.length
          if Span.covered literals offset then
            applyFrom literals (offset + length)
              (((c :: rest).take length).reverse ++ written) events chain.after
          else
            let event : Event := ⟨chain.token, chain.pieces⟩
            applyFrom literals (offset + length)
              ((replacement (c :: rest) chain).reverse ++ written)
              (if chain.token.isEmpty then events else
                event :: events) chain.after
termination_by text.length
decreasing_by
  · simp
  · exact chain?_length _found
  · exact chain?_length _found

/-- Paste every chain of operators in a text. -/
def apply (text : Text) : Result :=
  if Text.holds ['#', '#'] text then applyFrom (Literal.spans text) 0 [] [] text
  else ⟨text, []⟩

end MacroTrace.Paste
