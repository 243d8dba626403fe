import MacroTrace.Proofs.Literal
import MacroTrace.Text.Nesting
import Mathlib.Data.List.TakeWhile

/-!
# Well-formed texts

A text is well-formed when its parentheses are balanced and every literal is
closed by its own quote.  Read from left to right this is the run of a small
machine, `Place.walk?`, whose place is the literal scan together with the depth.
Walks compose over `++`, so a part of a well-formed text that leads from a place
back to the same place may be replaced by any other such part.
-/

namespace MacroTrace

open Literal (Scan)

namespace Literal

/-- Every literal is closed by its own quote, neither cut by a line break nor by
the end. -/
def AllClosed (text : Text) : Prop :=
  ∀ span ∈ spans text, Scan.code.run (Text.slice text span) = .code

instance (text : Text) : Decidable (AllClosed text) :=
  inferInstanceAs (Decidable (∀ span ∈ spans text, _))

theorem allClosed_iff_texts (text : Text) :
    AllClosed text ↔ ∀ literal ∈ texts text, Scan.code.run literal = .code := by
  rw [AllClosed, texts, List.forall_mem_map]

end Literal

/-- Parentheses are balanced and literals are closed. -/
structure WellFormed (text : Text) : Prop where
  balanced : Nesting.isBalanced text = true
  closed : Literal.AllClosed text

instance (text : Text) : Decidable (WellFormed text) :=
  decidable_of_iff (Nesting.isBalanced text = true ∧ Literal.AllClosed text)
    ⟨fun both => ⟨both.1, both.2⟩,
      fun formed => ⟨formed.balanced, formed.closed⟩⟩

/-- Where a reader stands between two characters. -/
structure Place where
  scan : Scan
  depth : Nat
  deriving DecidableEq, Repr

namespace Place

/-- In code, at the given depth. -/
def code (depth : Nat) : Place :=
  ⟨.code, depth⟩

/-- The place behind a character.  There is none behind a parenthesis that
closes nothing, and none behind a line break that cuts a literal short. -/
def step? (place : Place) (c : Char) : Option Place :=
  if place.scan.covers c then some ⟨place.scan.step c, place.depth⟩
  else if place.scan = .code then
    if c = '(' then some (code (place.depth + 1))
    else if c = ')' then
      match place.depth with
      | 0 => none
      | depth + 1 => some (code depth)
    else some place
  else none

/-- The place behind a text. -/
def walk? (place : Place) : Text → Option Place
  | [] => some place
  | c :: rest => (place.step? c).bind fun next => next.walk? rest

@[simp] theorem walk?_nil (place : Place) : place.walk? [] = some place := rfl

theorem walk?_cons (place : Place) (c : Char) (rest : Text) :
    place.walk? (c :: rest) = (place.step? c).bind fun next =>
      next.walk? rest := rfl

theorem walk?_append (place : Place) (left right : Text) :
    place.walk? (left ++ right) = (place.walk? left).bind fun next =>
      next.walk? right := by
  induction left generalizing place with
  | nil => rfl
  | cons c left ih =>
      rw [List.cons_append, walk?_cons, walk?_cons, Option.bind_assoc]
      congr 1
      funext next
      exact ih next

theorem walk?_append_of_eq_some
    {place middle : Place} {left : Text}
    (first : place.walk? left = some middle)
    (right : Text) :
    place.walk? (left ++ right) = middle.walk? right := by
  rw [walk?_append, first, Option.bind_some]

/-- A walk over two texts stops somewhere between them. -/
theorem exists_of_walk?_append
    {place last : Place} {left right : Text}
    (whole : place.walk? (left ++ right) = some last) :
    ∃ middle, place.walk? left = some middle ∧
      middle.walk? right = some last := by
  rw [walk?_append] at whole
  exact Option.bind_eq_some_iff.mp whole

/-- A walk can be made at any greater depth. -/
theorem step?_deeper
    {scan next : Scan} {depth after : Nat} {c : Char}
    (stepped : step? ⟨scan, depth⟩ c = some ⟨next, after⟩)
    (more : Nat) :
    step? ⟨scan, depth + more⟩ c = some ⟨next, after + more⟩ := by
  unfold step? at stepped ⊢
  simp only at stepped ⊢
  split at stepped
  next => cases stepped; simp_all
  next uncovered =>
    split at stepped
    next inCode =>
      subst inCode
      simp only [uncovered, Bool.false_eq_true, if_false, if_true]
      split at stepped
      next opening =>
        cases stepped
        simp [code, opening, Nat.add_right_comm]
      next notOpening =>
        rw [if_neg notOpening]
        split at stepped
        next closing =>
          rw [if_pos closing]
          cases depth with
          | zero => simp at stepped
          | succ depth =>
              simp only [code, Option.some.injEq, mk.injEq] at stepped
              obtain ⟨rfl, rfl⟩ := stepped
              rw [Nat.add_right_comm]
              rfl
        next notClosing =>
          rw [if_neg notClosing]
          cases stepped
          rfl
    next => cases stepped

theorem walk?_deeper
    {scan last : Scan} {depth after : Nat} {text : Text}
    (walked : walk? ⟨scan, depth⟩ text = some ⟨last, after⟩)
    (more : Nat) :
    walk? ⟨scan, depth + more⟩ text = some ⟨last, after + more⟩ := by
  induction text generalizing scan depth with
  | nil =>
      simp only [walk?_nil, Option.some.injEq, mk.injEq] at walked ⊢
      exact ⟨walked.1, by rw [walked.2]⟩
  | cons c text ih =>
      rw [walk?_cons] at walked ⊢
      obtain ⟨⟨next, level⟩, stepped, rest⟩ := Option.bind_eq_some_iff.mp walked
      rw [step?_deeper stepped more, Option.bind_some]
      exact ih rest

/-- The scan of a walk is the literal scan. -/
theorem scan_of_step?
    {place next : Place} {c : Char}
    (stepped : place.step? c = some next) :
    next.scan = place.scan.step c := by
  unfold step? at stepped
  split at stepped
  next => cases stepped; rfl
  next uncovered =>
    split at stepped
    next inCode =>
      have plain : Literal.isQuote c = false := by
        simpa [inCode, Scan.covers] using uncovered
      have goesOn : place.scan.step c = .code := by
        rw [inCode, Scan.step_code_of_not_quote plain]
      rw [goesOn]
      split at stepped
      next => cases stepped; rfl
      next =>
        split at stepped
        next =>
          split at stepped
          next => cases stepped
          next => cases stepped; rfl
        next => cases stepped; exact inCode
    next => cases stepped

theorem scan_of_walk?
    {place last : Place} {text : Text}
    (walked : place.walk? text = some last) :
    last.scan = place.scan.run text := by
  induction text generalizing place with
  | nil => cases walked; rfl
  | cons c text ih =>
      obtain ⟨next, stepped, rest⟩ := Option.bind_eq_some_iff.mp walked
      rw [ih rest, scan_of_step? stepped, Scan.run_cons]

/-- A character of a literal changes only the scan. -/
theorem step?_of_covers
    {place : Place} {c : Char}
    (covered : place.scan.covers c = true) :
    place.step? c = some ⟨place.scan.step c, place.depth⟩ := by
  simp [step?, covered]

/-- A character that is neither a quote nor a parenthesis. -/
def isInert (c : Char) : Bool :=
  !Literal.isQuote c && c != '(' && c != ')'

theorem isInert_iff (c : Char) :
    isInert c = true ↔ Literal.isQuote c = false ∧ c ≠ '(' ∧ c ≠ ')' := by
  simp [isInert, and_assoc]

theorem isQuote_of_isInert
    {c : Char}
    (inert : isInert c = true) :
    Literal.isQuote c = false :=
  ((isInert_iff c).mp inert).1

theorem step?_code_of_inert
    {c : Char}
    (inert : isInert c = true)
    (depth : Nat) :
    (code depth).step? c = some (code depth) := by
  obtain ⟨plain, notOpening, notClosing⟩ := (isInert_iff c).mp inert
  simp [step?, code, Scan.covers, plain, notOpening, notClosing]

theorem walk?_cons_of_inert
    {c : Char}
    (inert : isInert c = true)
    (depth : Nat) (rest : Text) :
    (code depth).walk? (c :: rest) = (code depth).walk? rest := by
  rw [walk?_cons, step?_code_of_inert inert, Option.bind_some]

theorem isInert_of_uncovered
    {c : Char}
    (uncovered : ¬ Scan.code.covers c = true)
    (notOpening : ¬ c = '(')
    (notClosing : ¬ c = ')') :
    isInert c = true := by
  have plain : Literal.isQuote c = false := by
    simpa [Scan.covers] using uncovered
  exact (isInert_iff c).mpr ⟨plain, notOpening, notClosing⟩

/-- A class without quotes and parentheses has inert members only. -/
theorem isInert_of_class
    {keep : Char → Bool}
    (apart : keep '"' = false ∧ keep '\x27' = false ∧ keep '(' = false ∧
      keep ')' = false)
    {c : Char}
    (kept : keep c = true) :
    isInert c = true := by
  by_contra active
  have special : c = '"' ∨ c = '\x27' ∨ c = '(' ∨ c = ')' := by
    simp only [isInert_iff, Literal.isQuote, Bool.or_eq_false_iff,
      beq_eq_false_iff_ne] at active
    tauto
  obtain ⟨double, single, opening, closing⟩ := apart
  rcases special with rfl | rfl | rfl | rfl
  · rw [double] at kept
    cases kept
  · rw [single] at kept
    cases kept
  · rw [opening] at kept
    cases kept
  · rw [closing] at kept
    cases kept

/-- Inert characters leave a scan of code in code. -/
theorem step_code_of_inert
    {c : Char}
    (inert : isInert c = true) :
    Scan.code.step c = .code :=
  Scan.step_code_of_not_quote (isQuote_of_isInert inert)

theorem walk?_code_of_inert
    {text : Text}
    (inert : ∀ c ∈ text, isInert c = true)
    (depth : Nat) :
    (code depth).walk? text = some (code depth) := by
  induction text with
  | nil => rfl
  | cons c text ih =>
      rw [walk?_cons_of_inert (inert c List.mem_cons_self)]
      exact ih fun d member => inert d (List.mem_cons_of_mem _ member)

@[simp] theorem step?_opening (depth : Nat) :
    (code depth).step? '(' = some (code (depth + 1)) :=
  rfl

@[simp] theorem step?_closing (depth : Nat) :
    (code (depth + 1)).step? ')' = some (code depth) :=
  rfl

/-- Only a closing parenthesis leads to a smaller depth, and only an opening one
to a greater. -/
theorem step?_cases
    {place next : Place} {c : Char}
    (stepped : place.step? c = some next) :
    (place.scan.covers c = true ∧ next = ⟨place.scan.step c, place.depth⟩) ∨
    (place.scan = .code ∧ c = '(' ∧ next = code (place.depth + 1)) ∨
    (place.scan = .code ∧ c = ')' ∧ place.depth = next.depth + 1 ∧
      next.scan = .code) ∨
    (place.scan = .code ∧ isInert c = true ∧ next = place) := by
  unfold step? at stepped
  split at stepped
  next covered => exact .inl ⟨covered, by cases stepped; rfl⟩
  next uncovered =>
    split at stepped
    next inCode =>
      have plain : Literal.isQuote c = false := by
        simpa [inCode, Scan.covers] using uncovered
      split at stepped
      next opening => exact .inr (.inl ⟨inCode, opening, by cases stepped; rfl⟩)
      next notOpening =>
        split at stepped
        next closing =>
          split at stepped
          next => cases stepped
          next depth equality =>
            cases stepped
            exact .inr (.inr (.inl ⟨inCode, closing, equality, rfl⟩))
        next notClosing =>
          cases stepped
          refine .inr (.inr (.inr ⟨inCode, ?_, rfl⟩))
          exact (isInert_iff c).mpr ⟨plain, notOpening, notClosing⟩
    next => cases stepped

end Place

namespace Literal

/-- Every character in a literal belongs to it, and the last literal is
closed. -/
def closedFrom (scan : Scan) : Text → Bool
  | [] => scan = .code
  | c :: rest =>
      (scan = .code || scan.covers c) && closedFrom (scan.step c) rest

/-- The literals that the rest of a text adds are closed exactly when
`closedFrom` says so. -/
private theorem closed_spansFrom
    {whole : Text}
    (scan : Scan) (opened offset : Nat) (text : Text)
    (behind : whole.drop offset = text)
    (started : scan ≠ .code →
      opened < offset ∧
        Scan.code.run (Text.slice whole ⟨opened, offset⟩) = scan) :
    (∀ span ∈ spansFrom scan opened offset [] text,
      Scan.code.run (Text.slice whole span) = .code) ↔
        closedFrom scan text = true := by
  induction text generalizing scan opened offset with
  | nil =>
      cases scan with
      | code => simp [spansFrom, closedFrom]
      | inside quote =>
          have reached := (started (by simp)).2
          simp [spansFrom, closedFrom, reached]
      | escaped quote =>
          have reached := (started (by simp)).2
          simp [spansFrom, closedFrom, reached]
  | cons c rest ih =>
      have tail : whole.drop (offset + 1) = rest := by
        rw [← List.drop_drop, behind]
        rfl
      -- A literal that is open in front of the character is longer by it.
      have extended (next : Scan) (inLiteral : scan ≠ .code)
          (goesOn : scan.step c = next) :
          opened < offset + 1 ∧
            Scan.code.run (Text.slice whole ⟨opened, offset + 1⟩) = next := by
        obtain ⟨order, reached⟩ := started inLiteral
        refine ⟨Nat.lt_succ_of_lt order, ?_⟩
        rw [slice_succ behind (Nat.le_of_lt order), Scan.run_append, reached]
        exact goesOn
      cases scan with
      | code =>
          simp only [spansFrom, closedFrom, decide_true, Bool.true_or,
            Bool.true_and]
          refine ih _ offset (offset + 1) tail fun _ => ⟨Nat.lt_succ_self _, ?_⟩
          rw [slice_succ behind (Nat.le_refl _), slice_self]
          rfl
      | escaped quote =>
          simp only [spansFrom, closedFrom, Scan.covers, Bool.or_true,
            Bool.true_and]
          exact ih _ opened (offset + 1) tail fun _ => extended _ (by simp) rfl
      | inside quote =>
          have reached := (started (by simp)).2
          simp only [spansFrom, closedFrom]
          split
          next outside =>
            rw [spansFrom_found, List.reverse_singleton, List.singleton_append,
              List.forall_mem_cons,
              ih .code opened (offset + 1) tail fun code => absurd rfl code]
            by_cases covered : (Scan.inside quote).covers c = true
            · have closed := (extended .code (by simp) outside).2
              simp [covered, closed, outside]
            · simp [covered, reached]
          next notCode =>
            have covered := Scan.covers_of_step_ne_code notCode
            rw [ih _ opened (offset + 1) tail fun _ => extended _ (by simp) rfl]
            simp [covered]

theorem allClosed_iff (text : Text) :
    AllClosed text ↔ closedFrom .code text = true :=
  closed_spansFrom .code 0 0 text rfl fun code => absurd rfl code

end Literal

namespace Place

theorem walk?_eq_some_iff (scan : Scan) (depth : Nat) (text : Text) :
    walk? ⟨scan, depth⟩ text = some (code 0) ↔
      Nesting.balancedFrom scan depth text = true ∧
        Literal.closedFrom scan text = true := by
  induction text generalizing scan depth with
  | nil => simp [Nesting.balancedFrom, Literal.closedFrom, code, and_comm]
  | cons c text ih =>
      rw [walk?_cons]
      simp only [Nesting.balancedFrom, Literal.closedFrom]
      by_cases covered : scan.covers c = true
      · simp [step?, covered, ih]
      · by_cases inCode : scan = .code
        · subst inCode
          have plain : Literal.isQuote c = false := by
            simpa [Scan.covers] using covered
          have goesOn := Scan.step_code_of_not_quote plain
          simp only [step?, covered, Bool.false_eq_true, if_false, if_true,
            goesOn, decide_true, Bool.true_or, Bool.true_and]
          split
          next => exact ih _ _
          next =>
            split
            next => cases depth with
              | zero => simp
              | succ depth => exact ih _ _
            next => exact ih _ _
        · simp [step?, covered, inCode]

end Place

/-- A text is well-formed exactly when it leads from code at depth zero back to
it. -/
theorem wellFormed_iff (text : Text) :
    WellFormed text ↔ (Place.code 0).walk? text = some (Place.code 0) := by
  have reading := Place.walk?_eq_some_iff .code 0 text
  rw [← Literal.allClosed_iff] at reading
  constructor
  · intro formed
    exact reading.mpr ⟨formed.balanced, formed.closed⟩
  · intro walked
    obtain ⟨balanced, closed⟩ := reading.mp walked
    exact ⟨balanced, closed⟩

theorem WellFormed.walk?
    {text : Text}
    (formed : WellFormed text)
    (depth : Nat) :
    (Place.code depth).walk? text = some (Place.code depth) := by
  have deeper := Place.walk?_deeper ((wellFormed_iff text).mp formed) depth
  rwa [Nat.zero_add] at deeper

theorem WellFormed.nil : WellFormed [] :=
  (wellFormed_iff []).mpr rfl

theorem WellFormed.append
    {left right : Text}
    (first : WellFormed left)
    (second : WellFormed right) :
    WellFormed (left ++ right) := by
  rw [wellFormed_iff, Place.walk?_append_of_eq_some (first.walk? 0)]
  exact second.walk? 0

theorem WellFormed.of_inert
    {text : Text}
    (inert : ∀ c ∈ text, Place.isInert c = true) :
    WellFormed text :=
  (wellFormed_iff text).mpr (Place.walk?_code_of_inert inert 0)

theorem WellFormed.parenthesized
    {text : Text}
    (formed : WellFormed text) :
    WellFormed ('(' :: (text ++ [')'])) := by
  rw [wellFormed_iff, Place.walk?_cons, Place.step?_opening, Option.bind_some,
    Place.walk?_append_of_eq_some (formed.walk? 1)]
  rfl

theorem WellFormed.joinWith
    {separator : Text}
    (separates : WellFormed separator)
    {parts : List Text}
    (formed : ∀ part ∈ parts, WellFormed part) :
    WellFormed (Text.joinWith separator parts) := by
  induction parts with
  | nil => exact WellFormed.nil
  | cons part parts ih =>
      have first := formed part List.mem_cons_self
      have rest :=
        ih fun part member => formed part (List.mem_cons_of_mem _ member)
      cases parts with
      | nil => simpa [Text.joinWith] using first
      | cons next parts =>
          have shape : Text.joinWith separator (part :: next :: parts) =
              part ++
                (separator ++ Text.joinWith separator (next :: parts)) := by
            simp [Text.joinWith, List.intercalate_cons_cons]
          rw [shape]
          exact first.append (separates.append rest)

namespace Text

theorem trimLeft_append (text : Text) :
    text.takeWhile isBlank ++ trimLeft text = text :=
  List.takeWhile_append_dropWhile

/-- What trimming on the right removes. -/
theorem exists_trimRight_append (text : Text) :
    ∃ blanks, (∀ c ∈ blanks, isBlank c = true) ∧
      text = trimRight text ++ blanks := by
  refine ⟨(text.reverse.takeWhile isBlank).reverse, ?_, ?_⟩
  · intro c member
    exact List.mem_takeWhile_imp (List.mem_reverse.mp member)
  · unfold trimRight
    rw [← List.reverse_append, List.takeWhile_append_dropWhile,
      List.reverse_reverse]

theorem isInert_of_isBlank
    {c : Char}
    (blank : isBlank c = true) :
    Place.isInert c = true :=
  Place.isInert_of_class (by decide) blank

theorem isQuote_of_isBlank
    {c : Char}
    (blank : isBlank c = true) :
    Literal.isQuote c = false :=
  Place.isQuote_of_isInert (isInert_of_isBlank blank)

end Text

namespace Place

/-- Inert characters do not lead out of a literal. -/
theorem scan_ne_code_of_step?_inert
    {place next : Place} {c : Char}
    (inert : isInert c = true)
    (genuine : place.scan.Genuine)
    (inLiteral : place.scan ≠ .code)
    (stepped : place.step? c = some next) :
    next.scan ≠ .code := by
  rcases step?_cases stepped with
    ⟨covered, rfl⟩ | ⟨inCode, _⟩ | ⟨inCode, _⟩ | ⟨inCode, _⟩
  · exact genuine.step_ne_code inLiteral (isQuote_of_isInert inert) covered
  · exact absurd inCode inLiteral
  · exact absurd inCode inLiteral
  · exact absurd inCode inLiteral

/-- A walk over inert characters that ends in code has not moved. -/
theorem eq_of_walk?_inert
    {place : Place} {text : Text} {depth : Nat}
    (inert : ∀ c ∈ text, isInert c = true)
    (genuine : place.scan.Genuine)
    (walked : place.walk? text = some (code depth)) :
    place = code depth := by
  induction text generalizing place with
  | nil => exact Option.some.inj walked
  | cons c text ih =>
      obtain ⟨next, stepped, rest⟩ := Option.bind_eq_some_iff.mp walked
      have first := inert c List.mem_cons_self
      have nextGenuine : next.scan.Genuine := by
        rw [scan_of_step? stepped]
        exact genuine.step c
      have reached : next = code depth :=
        ih (fun d member => inert d (List.mem_cons_of_mem _ member))
          nextGenuine rest
      by_cases inCode : place.scan = .code
      · have still : (code place.depth).step? c = some (code place.depth) :=
          step?_code_of_inert first _
        have same : place = code place.depth := by rw [code, ← inCode]
        rw [same, still] at stepped
        rw [same, ← reached]
        exact Option.some.inj stepped
      · have stays := scan_ne_code_of_step?_inert first genuine inCode stepped
        rw [reached] at stays
        exact absurd rfl stays

theorem walk?_trimLeft (depth : Nat) (text : Text) :
    (code depth).walk? (Text.trimLeft text) = (code depth).walk? text := by
  have blanks : (code depth).walk? (text.takeWhile Text.isBlank) =
      some (code depth) :=
    walk?_code_of_inert (fun c member =>
      Text.isInert_of_isBlank (List.mem_takeWhile_imp member)) depth
  conv => rhs; rw [← Text.trimLeft_append text]
  rw [walk?_append_of_eq_some blanks]

theorem walk?_trimRight
    {place : Place} {text : Text} {depth : Nat}
    (genuine : place.scan.Genuine)
    (walked : place.walk? text = some (code depth)) :
    place.walk? (Text.trimRight text) = some (code depth) := by
  obtain ⟨blanks, blank, shape⟩ := Text.exists_trimRight_append text
  rw [shape] at walked
  obtain ⟨middle, first, second⟩ := exists_of_walk?_append walked
  have middleGenuine : middle.scan.Genuine := by
    rw [scan_of_walk? first]
    exact genuine.run _
  rw [first,
    eq_of_walk?_inert (fun c member => Text.isInert_of_isBlank (blank c member))
    middleGenuine second]

theorem walk?_trim
    {text : Text} {depth after : Nat}
    (walked : (code depth).walk? text = some (code after)) :
    (code depth).walk? (Text.trim text) = some (code after) := by
  have genuine : (code depth).scan.Genuine := trivial
  apply walk?_trimRight genuine
  rw [walk?_trimLeft]
  exact walked

end Place

theorem WellFormed.trim
    {text : Text}
    (formed : WellFormed text) :
    WellFormed (Text.trim text) :=
  (wellFormed_iff _).mpr (Place.walk?_trim (formed.walk? 0))

end MacroTrace
