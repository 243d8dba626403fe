import MacroTrace.Proofs.WellFormed
import MacroTrace.Substitution.Paste

/-!
# Pasting

A chain of paste operators is a run of inert characters, and so is the token
that it makes.  Pasting therefore neither opens nor closes a literal or a
parenthesis, and preserves well-formedness.  `Pastes` says chain by chain what
pasting makes of a text, without offsets.
-/

namespace MacroTrace.Paste

open Literal (Scan)

def isTokenChar (c : Char) : Bool :=
  Text.isWordChar c || Text.isDigit c || isOperatorChar c

theorem isInert_of_isTokenChar
    {c : Char}
    (inToken : isTokenChar c = true) :
    Place.isInert c = true :=
  Place.isInert_of_class (by decide) inToken

/-- A token is cut off a text. -/
theorem takeToken_spec (text : Text) :
    (takeToken text).1 ++ (takeToken text).2 = text ∧
      ∀ c ∈ (takeToken text).1, isTokenChar c = true := by
  have cut {keep : Char → Bool}
      (kept : ∀ c, keep c = true → isTokenChar c = true) :
        (splitWhile keep text).1 ++ (splitWhile keep text).2 = text ∧
          ∀ c ∈ (splitWhile keep text).1, isTokenChar c = true :=
    ⟨List.takeWhile_append_dropWhile,
      fun c member => kept c (List.mem_takeWhile_imp member)⟩
  unfold takeToken
  split
  next => exact ⟨rfl, fun c member => absurd member List.not_mem_nil⟩
  next =>
    split
    next => exact cut fun c word => by simp [isTokenChar, word]
    next =>
      split
      next => exact cut fun c digit => by simp [isTokenChar, digit]
      next =>
        split
        next => exact cut fun c operator => by simp [isTokenChar, operator]
        next => exact ⟨rfl, fun c member => absurd member List.not_mem_nil⟩

/-- An operator is cut off a text, with the blanks on its two sides. -/
theorem exists_of_afterOperator?
    {text after : Text}
    (found : afterOperator? text = some after) :
    ∃ before behind, text = before ++ '#' :: '#' :: (behind ++ after) ∧
      (∀ c ∈ before, Text.isBlank c = true) ∧ ∀ c ∈ behind,
        Text.isBlank c = true := by
  unfold afterOperator? at found
  split at found
  next rest shape =>
    cases found
    refine ⟨text.takeWhile Text.isBlank, rest.takeWhile Text.isBlank, ?_,
      fun c member => List.mem_takeWhile_imp member, fun c member =>
        List.mem_takeWhile_imp member⟩
    rw [Text.trimLeft_append, ← shape, Text.trimLeft_append]
  next => cases found

theorem afterOperator?_spec
    {text after : Text}
    (found : afterOperator? text = some after) :
    ∃ operator, text = operator ++ after ∧ ∀ c ∈ operator,
      Place.isInert c = true := by
  obtain ⟨before, behind, shape, blankBefore, blankBehind⟩ :=
    exists_of_afterOperator? found
  refine ⟨before ++ '#' :: '#' :: behind, ?_, ?_⟩
  · rw [shape, List.append_assoc, List.cons_append, List.cons_append]
  · intro c member
    simp only [List.mem_append, List.mem_cons] at member
    rcases member with blank | rfl | rfl | blank
    · exact Text.isInert_of_isBlank (blankBefore c blank)
    · decide
    · decide
    · exact Text.isInert_of_isBlank (blankBehind c blank)

theorem takeChain_spec (text : Text) :
    (∃ operands, text = operands ++ (takeChain text).2 ∧
      ∀ c ∈ operands, Place.isInert c = true) ∧
    ∀ piece ∈ (takeChain text).1, ∀ c ∈ piece, isTokenChar c = true := by
  fun_induction takeChain text with
  | case1 text none =>
      exact ⟨⟨[], rfl, fun c member => absurd member List.not_mem_nil⟩,
        fun piece member => absurd member List.not_mem_nil⟩
  | case2 text after found chain ih =>
      obtain ⟨operator, shape, inertOperator⟩ := afterOperator?_spec found
      obtain ⟨cut, inToken⟩ := takeToken_spec after
      obtain ⟨⟨operands, behind, inertOperands⟩, pieces⟩ := ih
      refine ⟨⟨operator ++ ((takeToken after).1 ++ operands), ?_, ?_⟩, ?_⟩
      · rw [List.append_assoc, List.append_assoc, ← behind, cut]
        exact shape
      · intro c member
        simp only [List.mem_append] at member
        rcases member with member | member | member
        · exact inertOperator c member
        · exact isInert_of_isTokenChar (inToken c member)
        · exact inertOperands c member
      · intro piece member
        rcases List.mem_cons.mp member with rfl | member
        · exact inToken
        · exact pieces piece member

/-- The parts of the chain that a text begins with. -/
theorem eq_of_chain?
    {text : Text} {chain : Chain}
    (found : chain? text = some chain) :
    (takeChain (takeToken text).2).1 ≠ [] ∧
      chain = ⟨(takeToken text).1, (takeChain (takeToken text).2).1,
        (takeChain (takeToken text).2).2⟩ := by
  unfold chain? at found
  simp only at found
  split at found
  next => cases found
  next chained =>
    cases found
    exact ⟨by simpa using chained, rfl⟩

theorem Chain.token_eq (chain : Chain) :
    chain.token = (chain.left :: chain.others).flatten :=
  List.flatten_filter_not_isEmpty

/-- A chain is a run of inert characters in front of the rest, and makes a
token. -/
theorem chain?_spec
    {text : Text} {chain : Chain}
    (found : chain? text = some chain) :
    (∃ run, text = run ++ chain.after ∧ ∀ c ∈ run, Place.isInert c = true) ∧
      ∀ c ∈ chain.token, isTokenChar c = true := by
  obtain ⟨cut, inToken⟩ := takeToken_spec text
  obtain ⟨⟨operands, behind, inertOperands⟩, pieces⟩ :=
    takeChain_spec (takeToken text).2
  obtain ⟨_, rfl⟩ := eq_of_chain? found
  refine ⟨⟨(takeToken text).1 ++ operands, ?_, ?_⟩, ?_⟩
  · rw [List.append_assoc, ← behind, cut]
  · intro c member
    rcases List.mem_append.mp member with member | member
    · exact isInert_of_isTokenChar (inToken c member)
    · exact inertOperands c member
  · intro c member
    rw [Chain.token_eq] at member
    obtain ⟨piece, present, inside⟩ := List.mem_flatten.mp member
    rcases List.mem_cons.mp present with rfl | other
    · exact inToken c inside
    · exact pieces piece other c inside

theorem isInert_of_chain?
    {text run : Text} {chain : Chain}
    (found : chain? text = some chain)
    (shape : text = run ++ chain.after) :
    ∀ c ∈ run, Place.isInert c = true := by
  obtain ⟨⟨front, split, inert⟩, _⟩ := chain?_spec found
  rw [List.append_cancel_right (shape.symm.trans split)]
  exact inert

theorem mem_replacement
    {text : Text} {chain : Chain}
    (found : chain? text = some chain)
    {c : Char}
    (member : c ∈ replacement text chain) :
    c = ' ' ∨ isTokenChar c = true := by
  have inToken := (chain?_spec found).2
  unfold replacement at member
  split at member
  next =>
    rcases List.mem_cons.mp member with space | member
    · exact .inl space
    · exact .inr (inToken c member)
  next => exact .inr (inToken c member)

theorem isInert_of_mem_replacement
    {text : Text} {chain : Chain}
    (found : chain? text = some chain) :
    ∀ c ∈ replacement text chain, Place.isInert c = true := by
  intro c member
  rcases mem_replacement found member with rfl | inToken
  · decide
  · exact isInert_of_isTokenChar inToken

/-- What pasting makes of a text behind `scan`: it copies what begins no chain
and the chains in literals, and replaces the other chains. -/
inductive Pastes : Scan → Text → Result → Prop where
  | nil (scan : Scan) : Pastes scan [] ⟨[], []⟩
  | char {scan : Scan} {c : Char} {rest : Text} {result : Result} :
      chain? (c :: rest) = none →
      Pastes (scan.step c) rest result →
      Pastes scan (c :: rest) ⟨c :: result.text, result.events⟩
  | quoted {scan : Scan} {c : Char} {rest run : Text} {chain : Chain}
      {result : Result} :
      chain? (c :: rest) = some chain →
      c :: rest = run ++ chain.after →
      scan.covers c = true →
      Pastes (scan.run run) chain.after result →
      Pastes scan (c :: rest) ⟨run ++ result.text, result.events⟩
  | pasted {scan : Scan} {c : Char} {rest run : Text} {chain : Chain}
      {result : Result} :
      chain? (c :: rest) = some chain →
      c :: rest = run ++ chain.after →
      scan.covers c = false →
      Pastes (scan.run run) chain.after result →
      Pastes scan (c :: rest) ⟨replacement (c :: rest) chain ++ result.text,
        (if chain.token.isEmpty then [] else [⟨chain.token, chain.pieces⟩]) ++
          result.events⟩

/-- Looking chains up among the literal spans agrees with carrying the scan
along. -/
theorem exists_pastes
    {literals : List (Span Nat)} {offset : Nat} {written : Text}
    {events : List Event} {text front : Text}
    (spans : literals = Literal.spans (front ++ text))
    (length : offset = front.length) :
    ∃ result, Pastes (Scan.code.run front) text result ∧
      applyFrom literals offset written events text =
        ⟨written.reverse ++ result.text, events.reverse ++ result.events⟩ := by
  fun_induction applyFrom literals offset written events text
    generalizing front with
  | case1 offset written events => exact ⟨_, .nil _, by simp⟩
  | case2 offset written events c rest none ih =>
      obtain ⟨result, onward, made⟩ := @ih (front ++ [c])
        (by rw [spans, List.append_assoc, List.singleton_append])
        (by rw [length, List.length_append, List.length_singleton])
      rw [Scan.run_append] at onward
      refine ⟨_, .char none onward, ?_⟩
      rw [made, List.reverse_cons, List.append_assoc, List.singleton_append]
  | case3 offset written events c rest chain found taken covered =>
      rename_i ih
      obtain ⟨⟨run, shape, _⟩, _⟩ := chain?_spec found
      have size : taken = run.length := by
        simp only [taken, shape, List.length_append, Nat.add_sub_cancel]
      have copied : (c :: rest).take run.length = run := by
        rw [shape, List.take_left]
      rw [size, copied] at ih ⊢
      obtain ⟨result, onward, made⟩ := @ih (front ++ run)
        (by rw [spans, shape, List.append_assoc])
        (by rw [length, List.length_append])
      rw [Scan.run_append] at onward
      rw [spans, length, Literal.covered_spans] at covered
      refine ⟨_, .quoted found shape covered onward, ?_⟩
      rw [made, List.reverse_append, List.reverse_reverse, List.append_assoc]
  | case4 offset written events c rest chain found taken uncovered =>
      rename_i event ih
      obtain ⟨⟨run, shape, _⟩, _⟩ := chain?_spec found
      have size : taken = run.length := by
        simp only [taken, shape, List.length_append, Nat.add_sub_cancel]
      rw [size] at ih ⊢
      obtain ⟨result, onward, made⟩ := @ih (front ++ run)
        (by rw [spans, shape, List.append_assoc])
        (by rw [length, List.length_append])
      rw [Scan.run_append] at onward
      rw [spans, length, Literal.covered_spans, Bool.not_eq_true] at uncovered
      refine ⟨_, .pasted found shape uncovered onward, ?_⟩
      rw [dite_eq_ite] at made
      rw [made, List.reverse_append, List.reverse_reverse, List.append_assoc]
      split
      next => rfl
      next => rw [List.reverse_cons, List.append_assoc]

theorem pastes_applyFrom (text : Text) :
    Pastes .code text (applyFrom (Literal.spans text) 0 [] [] text) := by
  obtain ⟨result, pastes, made⟩ :=
    @exists_pastes (Literal.spans text) 0 [] [] text [] rfl rfl
  rw [made]
  exact pastes

/-- An inert character that no literal covers, in a text that can be walked
through, stands in code. -/
theorem eq_code_of_uncovered
    {place next : Place} {c : Char}
    (uncovered : place.scan.covers c = false)
    (stepped : place.step? c = some next) :
    place = Place.code place.depth := by
  have inCode : place.scan = .code := by
    rcases Place.step?_cases stepped with
      ⟨covered, _⟩ | ⟨inCode, _⟩ | ⟨inCode, _⟩ | ⟨inCode, _⟩
    · rw [uncovered] at covered
      cases covered
    · exact inCode
    · exact inCode
    · exact inCode
  rw [Place.code, ← inCode]

/-- Pasting leads wherever the text leads. -/
theorem Pastes.walk?
    {text : Text} {result : Result} {place last : Place}
    (pastes : Pastes place.scan text result)
    (walked : place.walk? text = some last) :
    place.walk? result.text = some last := by
  generalize started : place.scan = scan at pastes
  induction pastes generalizing place with
  | nil => exact walked
  | char _ _ ih =>
      obtain ⟨next, stepped, ahead⟩ := Option.bind_eq_some_iff.mp walked
      rw [Place.walk?_cons, stepped, Option.bind_some]
      exact ih ahead (by rw [Place.scan_of_step? stepped, started])
  | quoted _ shape _ _ ih =>
      rw [shape] at walked
      obtain ⟨middle, through, ahead⟩ := Place.exists_of_walk?_append walked
      rw [Place.walk?_append_of_eq_some through]
      exact ih ahead (by rw [Place.scan_of_walk? through, started])
  | pasted found shape uncovered _ ih =>
      -- The chain starts in code, and both it and its replacement stay there.
      subst started
      obtain ⟨next, stepped, _⟩ := Option.bind_eq_some_iff.mp walked
      have throughRun :=
        Place.walk?_code_of_inert (isInert_of_chain? found shape) place.depth
      have throughToken :=
        Place.walk?_code_of_inert (isInert_of_mem_replacement found) place.depth
      rw [← eq_code_of_uncovered uncovered stepped] at throughRun throughToken
      rw [shape, Place.walk?_append_of_eq_some throughRun] at walked
      rw [Place.walk?_append_of_eq_some throughToken]
      exact ih walked (Place.scan_of_walk? throughRun)

/-- Pasting preserves well-formedness. -/
theorem wellFormed_apply
    {text : Text}
    (formed : WellFormed text) :
    WellFormed (apply text).text := by
  unfold apply
  split
  next =>
    have pastes : Pastes (Place.code 0).scan text _ := pastes_applyFrom text
    rw [wellFormed_iff]
    exact pastes.walk? (formed.walk? 0)
  next => exact formed

end MacroTrace.Paste
