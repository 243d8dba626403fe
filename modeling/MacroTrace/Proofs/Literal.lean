import MacroTrace.Text.Literal
import Mathlib.Data.Nat.Basic
import Mathlib.Data.List.Basic
import Mathlib.Order.Lattice
import MacroTrace.Proofs.Lists

/-!
# Literal spans and the literal scan

The spans of the literals of a text are found in advance, but every other scan
carries a `Literal.Scan` along.  Both say the same: the spans are separated, and
a character lies in one of them exactly when the scan in front of it covers it.
Looking a position up among separated spans finds the span that holds it, if
there is one.  The spans are also those of a reading that goes from quote to
quote and continues at the end of the literal that a quote opens.
-/

namespace MacroTrace

namespace Span

section Lookup

variable {ι : Type} [LinearOrder ι]

/-- The spans are not empty, in order, and do not overlap. -/
structure Separated (spans : List (Span ι)) : Prop where
  nonempty : ∀ span ∈ spans, span.start < span.stop
  ordered : spans.Pairwise fun left right => left.stop ≤ right.start

theorem Separated.nil : Separated ([] : List (Span ι)) :=
  ⟨by simp, .nil⟩

theorem separated_cons_iff
    {span : Span ι} {spans : List (Span ι)} :
    Separated (span :: spans) ↔
      span.start < span.stop ∧ (∀ later ∈ spans, span.stop ≤ later.start) ∧
        Separated spans := by
  constructor
  · intro separated
    have ordered := List.pairwise_cons.mp separated.ordered
    exact ⟨separated.nonempty span List.mem_cons_self, ordered.1,
      fun later member =>
        separated.nonempty later (List.mem_cons_of_mem _ member), ordered.2⟩
  · intro ⟨nonempty, before, separated⟩
    refine ⟨?_, List.pairwise_cons.mpr ⟨before, separated.ordered⟩⟩
    intro later member
    rcases List.mem_cons.mp member with rfl | member
    · exact nonempty
    · exact separated.nonempty later member

theorem contains_iff
    {span : Span ι} {offset : ι} :
    span.contains offset = true ↔ span.start ≤ offset ∧ offset < span.stop := by
  simp [contains]

/-- Only the last span that starts at or before an offset can hold it. -/
theorem covered_cons (span : Span ι) (spans : List (Span ι)) (offset : ι) :
    covered (span :: spans) offset =
      if span.start ≤ offset then
        if spans.head?.any (·.start ≤ offset) then covered spans offset
        else span.contains offset
      else false := by
  unfold covered
  by_cases starts : span.start ≤ offset
  · cases spans with
    | nil => simp [starts]
    | cons next rest =>
        by_cases nextStarts : next.start ≤ offset
        · simp [starts, nextStarts]
        · simp [starts, nextStarts]
  · simp [starts]

theorem covered_iff
    {spans : List (Span ι)}
    (separated : Separated spans)
    (offset : ι) :
    covered spans offset = true ↔ ∃ span ∈ spans, span.start ≤ offset ∧
      offset < span.stop := by
  induction spans with
  | nil => simp [covered]
  | cons span spans ih =>
      obtain ⟨nonempty, before, rest⟩ := separated_cons_iff.mp separated
      rw [covered_cons]
      by_cases starts : span.start ≤ offset
      · rw [if_pos starts]
        by_cases later : spans.head?.any (·.start ≤ offset) = true
        · -- The next span starts in front of the offset, so this one has ended
          -- there.
          rw [if_pos later, ih rest]
          obtain ⟨next, found, nextStarts⟩ : ∃ next, spans.head? = some next ∧
              next.start ≤ offset := by
            cases found : spans.head? with
            | none => simp [found] at later
            | some next => exact ⟨next, rfl, by simpa [found] using later⟩
          have ended : span.stop ≤ offset :=
            le_trans (before next (List.mem_of_head? found)) nextStarts
          constructor
          · rintro ⟨holder, member, holds⟩
            exact ⟨holder, List.mem_cons_of_mem _ member, holds⟩
          · rintro ⟨holder, member, holds⟩
            rcases List.mem_cons.mp member with rfl | member
            · exact absurd holds.2 (not_lt_of_ge ended)
            · exact ⟨holder, member, holds⟩
        · rw [if_neg later, contains_iff]
          constructor
          · intro holds
            exact ⟨span, List.mem_cons_self, holds⟩
          · rintro ⟨holder, member, holds⟩
            rcases List.mem_cons.mp member with rfl | member
            · exact holds
            · exfalso
              apply later
              cases spans with
              | nil => cases member
              | cons next spans =>
                  have ordered := (separated_cons_iff.mp rest)
                  have nextStarts : next.start ≤ offset := by
                    rcases List.mem_cons.mp member with rfl | member
                    · exact holds.1
                    · exact le_trans (le_of_lt ordered.1)
                        (le_trans (ordered.2.1 holder member) holds.1)
                  simp [nextStarts]
      · rw [if_neg starts]
        simp only [Bool.false_eq_true, false_iff]
        rintro ⟨holder, member, holds⟩
        apply starts
        rcases List.mem_cons.mp member with rfl | member
        · exact holds.1
        · exact le_trans (le_of_lt nonempty)
            (le_trans (before holder member) holds.1)

end Lookup

end Span

namespace Literal

namespace Scan

@[simp] theorem run_nil (scan : Scan) : scan.run [] = scan := rfl

@[simp] theorem run_cons (scan : Scan) (c : Char) (text : Text) :
    scan.run (c :: text) = (scan.step c).run text := rfl

theorem run_append (scan : Scan) (left right : Text) :
    scan.run (left ++ right) = (scan.run left).run right :=
  List.foldl_append

/-- Behind a character of code that is no quote there is code. -/
theorem step_code_of_not_quote
    {c : Char}
    (plain : isQuote c = false) :
    Scan.code.step c = .code := by
  simp [step, plain]

theorem run_code_of_not_quote
    {text : Text}
    (plain : ∀ c ∈ text, isQuote c = false) :
    code.run text = code := by
  induction text with
  | nil => rfl
  | cons c rest ih =>
      rw [run_cons, step_code_of_not_quote (plain c List.mem_cons_self)]
      exact ih fun d member => plain d (List.mem_cons_of_mem _ member)

/-- Literals are opened by quotes.  This holds wherever a scan that starts in
code can get. -/
def Genuine : Scan → Prop
  | code => True
  | inside quote => isQuote quote = true
  | escaped quote => isQuote quote = true

theorem Genuine.step
    {scan : Scan}
    (genuine : scan.Genuine)
    (c : Char) :
    (scan.step c).Genuine := by
  cases scan with
  | code =>
      simp only [Scan.step]
      split
      next quoted => exact quoted
      next => trivial
  | escaped quote => exact genuine
  | inside quote =>
      simp only [Scan.step]
      split
      next => exact genuine
      next =>
        split
        next => trivial
        next => exact genuine

theorem Genuine.run
    {scan : Scan}
    (genuine : scan.Genuine)
    (text : Text) :
    (scan.run text).Genuine := by
  induction text generalizing scan with
  | nil => exact genuine
  | cons c text ih => exact ih (genuine.step c)

/-- Of the characters of a literal only a quote ends it. -/
theorem Genuine.step_ne_code
    {scan : Scan} {c : Char}
    (genuine : scan.Genuine)
    (inLiteral : scan ≠ .code)
    (plain : isQuote c = false)
    (covered : scan.covers c = true) :
    scan.step c ≠ .code := by
  cases scan with
  | code => exact absurd rfl inLiteral
  | escaped quote => simp [Scan.step]
  | inside quote =>
      have notQuote : c ≠ quote := by
        rintro rfl
        simp [Genuine, plain] at genuine
      have goesOn : Text.isLineBreak c = false := by
        simpa [covers, notQuote] using covered
      by_cases backslash : c = '\\'
      · simp [Scan.step, backslash]
      · simp [Scan.step, backslash, notQuote, goesOn]

/-- A character that no literal covers stands in code, unless it is a line
break. -/
theorem eq_code_of_not_covers
    {scan : Scan} {c : Char}
    (goesOn : Text.isLineBreak c = false)
    (uncovered : scan.covers c = false) :
    scan = .code := by
  cases scan with
  | code => rfl
  | inside quote => simp [covers, goesOn] at uncovered
  | escaped quote => cases uncovered

theorem covers_of_ne_code
    {scan : Scan} {c : Char}
    (inLiteral : scan ≠ .code)
    (goesOn : Text.isLineBreak c = false) :
    scan.covers c = true := by
  by_contra uncovered
  exact inLiteral
    (eq_code_of_not_covers goesOn (Bool.eq_false_iff.mpr uncovered))

/-- A literal goes on only behind a character that belongs to it. -/
theorem covers_of_step_ne_code
    {quote c : Char}
    (goesOn : (inside quote).step c ≠ .code) :
    (inside quote).covers c = true := by
  simp only [step] at goesOn
  simp only [covers, Bool.or_eq_true, decide_eq_true_eq, Bool.not_eq_true']
  split at goesOn
  next backslash =>
    subst backslash
    exact .inr (by decide)
  next =>
    split at goesOn
    next => exact absurd rfl goesOn
    next other =>
      simp only [Bool.or_eq_true, decide_eq_true_eq, not_or,
        Bool.not_eq_true] at other
      exact .inr other.2

end Scan

theorem spansFrom_found
    (scan : Scan) (opened offset : Nat) (found : List (Span Nat))
    (text : Text) :
    spansFrom scan opened offset found text =
      found.reverse ++ spansFrom scan opened offset [] text := by
  induction text generalizing scan opened offset found with
  | nil => cases scan <;> simp [spansFrom]
  | cons c rest ih =>
      cases scan with
      | code =>
          simp only [spansFrom]
          exact ih _ _ _ _
      | escaped quote =>
          simp only [spansFrom]
          exact ih _ _ _ _
      | inside quote =>
          simp only [spansFrom]
          split
          · rw [ih, ih .code opened (offset + 1) [_]]
            simp
          · exact ih _ _ _ _

/-- Inside a literal the first span is the one under construction, and all
others lie behind it.  Outside literals all spans lie ahead. -/
theorem spansFrom_shape
    (scan : Scan) (opened offset : Nat)
    (started : scan ≠ .code → opened < offset)
    (text : Text) :
    (scan = .code → Span.Separated (spansFrom scan opened offset [] text) ∧
      ∀ span ∈ spansFrom scan opened offset [] text, offset ≤ span.start) ∧
    (scan ≠ .code → ∃ stop rest, spansFrom scan opened offset [] text =
      ⟨opened, stop⟩ :: rest ∧
      offset ≤ stop ∧ Span.Separated rest ∧
      ∀ span ∈ rest, stop ≤ span.start) := by
  induction text generalizing scan opened offset with
  | nil =>
      refine ⟨?_, ?_⟩
      · rintro rfl
        exact ⟨Span.Separated.nil, by simp [spansFrom]⟩
      · intro inLiteral
        refine ⟨offset, [], ?_, Nat.le_refl _, Span.Separated.nil, by simp⟩
        cases scan with
        | code => exact absurd rfl inLiteral
        | inside quote => rfl
        | escaped quote => rfl
  | cons c rest ih =>
      refine ⟨?_, ?_⟩
      · rintro rfl
        simp only [spansFrom]
        have next := ih (Scan.code.step c) offset (offset + 1) fun _ =>
          Nat.lt_succ_self offset
        by_cases outside : Scan.code.step c = .code
        · obtain ⟨separated, ahead⟩ := next.1 outside
          exact ⟨separated,
            fun span member => Nat.le_of_succ_le (ahead span member)⟩
        · obtain ⟨stop, later, shape, reached, separated, behind⟩ :=
            next.2 outside
          rw [shape]
          refine ⟨Span.separated_cons_iff.mpr ⟨reached, behind, separated⟩, ?_⟩
          intro span member
          rcases List.mem_cons.mp member with rfl | member
          · exact Nat.le_refl _
          · have := behind span member
            omega
      · intro inLiteral
        cases scan with
        | code => exact absurd rfl inLiteral
        | escaped quote =>
            simp only [spansFrom, Scan.step]
            obtain ⟨stop, later, shape, reached, rest⟩ :=
              (ih (.inside quote) opened (offset + 1) fun _ =>
                Nat.lt_succ_of_lt (started inLiteral)).2 (by simp)
            exact ⟨stop, later, shape, Nat.le_of_succ_le reached, rest⟩
        | inside quote =>
            simp only [spansFrom]
            split
            · rw [spansFrom_found]
              obtain ⟨separated, ahead⟩ :=
                (ih .code opened (offset + 1) fun code => absurd rfl code).1 rfl
              refine ⟨_, _, rfl, ?_, separated, ?_⟩
              · split <;> omega
              · intro span member
                have := ahead span member
                split <;> omega
            · rename_i next notCode
              obtain ⟨stop, later, shape, reached, rest⟩ :=
                (ih _ opened (offset + 1) fun _ =>
                    Nat.lt_succ_of_lt (started inLiteral)).2 notCode
              exact ⟨stop, later, shape, Nat.le_of_succ_le reached, rest⟩

theorem separated_spans (text : Text) : Span.Separated (spans text) :=
  ((spansFrom_shape .code 0 0 (fun code => absurd rfl code) text).1 rfl).1

theorem le_endFrom (quote : Char) (offset : Nat) (text : Text) :
    offset ≤ endFrom quote offset text := by
  fun_induction endFrom quote offset text <;> omega

theorem endFrom_le (quote : Char) (offset : Nat) (text : Text) :
    endFrom quote offset text ≤ offset + text.length := by
  fun_induction endFrom quote offset text <;>
    simp only [List.length_cons, List.length_nil] <;> omega

/-- Outside literals it does not matter where the last one was opened. -/
theorem spansFrom_code (first second offset : Nat) (text : Text) :
    spansFrom .code first offset [] text =
      spansFrom .code second offset [] text := by
  cases text <;> rfl

/-- A literal is read up to its end, and the text behind it as one that begins
outside literals. -/
theorem spansFrom_inside (quote : Char) (opened offset : Nat) (text : Text) :
    spansFrom (.inside quote) opened offset [] text =
      ⟨opened, endFrom quote offset text⟩ ::
        spansFrom .code opened (endFrom quote offset text) []
          (text.drop (endFrom quote offset text - offset)) := by
  fun_induction endFrom quote offset text with
  | case1 offset => simp [spansFrom]
  | case2 offset => simp [spansFrom, Scan.step]
  | case3 offset d rest ih =>
      have ahead := le_endFrom quote (offset + 2) rest
      have skipped : endFrom quote (offset + 2) rest - offset =
          endFrom quote (offset + 2) rest - (offset + 2) + 2 := by omega
      rw [skipped, List.drop_succ_cons, List.drop_succ_cons, ← ih]
      simp [spansFrom, Scan.step]
  | case4 offset rest notBackslash =>
      rw [Nat.add_sub_cancel_left, List.drop_succ_cons, List.drop_zero]
      simp only [spansFrom, Scan.step, Scan.covers, notBackslash, if_false,
        decide_true, Bool.true_or, if_true]
      rw [spansFrom_found]
      rfl
  | case5 offset c rest notBackslash notQuote breaks =>
      have plain : isQuote c = false := by
        simp only [Text.isLineBreak, Bool.or_eq_true, beq_iff_eq] at breaks
        rcases breaks with rfl | rfl <;> rfl
      rw [Nat.sub_self, List.drop_zero]
      simp only [spansFrom, Scan.step, Scan.covers, notBackslash, notQuote,
        breaks, plain, if_false, decide_false, Bool.false_or, Bool.not_true,
        if_true, Bool.false_eq_true]
      rw [spansFrom_found, spansFrom_code opened offset]
      rfl
  | case6 offset c rest notBackslash notQuote goesOn ih =>
      have ahead := le_endFrom quote (offset + 1) rest
      have skipped : endFrom quote (offset + 1) rest - offset =
          endFrom quote (offset + 1) rest - (offset + 1) + 1 := by omega
      rw [skipped, List.drop_succ_cons, ← ih]
      simp [spansFrom, Scan.step, notBackslash, notQuote, goesOn]

/-- A span found outside literals opens at a quote ahead and ends where its
literal does. -/
theorem exists_quote_of_mem_spansFrom
    {opened offset : Nat} {text : Text} {span : Span Nat}
    (member : span ∈ spansFrom .code opened offset [] text) :
    ∃ front quote rest, text = front ++ quote :: rest ∧ isQuote quote = true ∧
      span.start = offset + front.length ∧
      span.stop = endFrom quote (offset + front.length + 1) rest := by
  match text with
  | [] => cases member
  | c :: rest =>
      by_cases quoted : isQuote c = true
      · simp only [spansFrom, Scan.step, quoted, if_true] at member
        rw [spansFrom_inside] at member
        rcases List.mem_cons.mp member with rfl | later
        · exact ⟨[], c, rest, rfl, quoted, rfl, rfl⟩
        · -- The reading goes on behind the literal; what it passes over belongs
          -- to the front.
          obtain ⟨front, quote, behind, shape, opens, start, stop⟩ :=
            exists_quote_of_mem_spansFrom later
          have ahead := le_endFrom c (offset + 1) rest
          have reached :
              endFrom c (offset + 1) rest - (offset + 1) ≤ rest.length := by
            have remaining := congrArg List.length shape
            simp only [List.length_drop, List.length_append, List.length_cons]
              at remaining
            omega
          have position :
              offset +
                (c :: (rest.take (endFrom c (offset + 1) rest - (offset + 1)) ++
                  front)).length =
                    endFrom c (offset + 1) rest + front.length := by
            rw [List.length_cons, List.length_append,
              List.length_take_of_le reached]
            omega
          refine ⟨_, quote, behind, ?_, opens, by rw [position]; exact start,
            by rw [position]; exact stop⟩
          rw [List.cons_append, List.append_assoc, ← shape,
            List.take_append_drop]
      · simp only [spansFrom, Scan.step, quoted, Bool.false_eq_true,
          if_false] at member
        obtain ⟨front, quote, behind, rfl, opens, start, stop⟩ :=
          exists_quote_of_mem_spansFrom member
        have position : offset + (c :: front).length =
            offset + 1 + front.length := by
          rw [List.length_cons]
          omega
        exact ⟨c :: front, quote, behind, rfl, opens,
          by rw [position]; exact start, by rw [position]; exact stop⟩
termination_by text.length
decreasing_by
  · exact Nat.lt_succ_of_le (by rw [List.length_drop]; exact Nat.sub_le _ _)
  · exact Nat.lt_succ_self _

theorem exists_quote_of_mem_spans
    {text : Text} {span : Span Nat}
    (member : span ∈ spans text) :
    ∃ front quote rest, text = front ++ quote :: rest ∧ isQuote quote = true ∧
      span.start = front.length ∧
      span.stop = endFrom quote (front.length + 1) rest := by
  obtain ⟨front, quote, rest, found⟩ := exists_quote_of_mem_spansFrom member
  rw [Nat.zero_add] at found
  exact ⟨front, quote, rest, found⟩

theorem stop_le_of_mem_spans
    {text : Text} {span : Span Nat}
    (member : span ∈ spans text) :
    span.stop ≤ text.length := by
  obtain ⟨front, quote, rest, shape, _, _, stop⟩ :=
    exists_quote_of_mem_spans member
  have bounded := endFrom_le quote (front.length + 1) rest
  rw [shape, stop, List.length_append, List.length_cons]
  omega

/-- A literal begins with a quote. -/
theorem quote_of_mem_spans
    {text : Text} {span : Span Nat}
    (member : span ∈ spans text) :
    ∃ c, text[span.start]? = some c ∧ isQuote c = true := by
  obtain ⟨front, quote, rest, shape, opens, start, _⟩ :=
    exists_quote_of_mem_spans member
  refine ⟨quote, ?_, opens⟩
  rw [shape, start, List.getElem?_append_right (Nat.le_refl _), Nat.sub_self]
  rfl

/-- A span ends where the literal does that opens at its start. -/
theorem end?_of_mem_spans
    {text : Text} {span : Span Nat}
    (member : span ∈ spans text) :
    Literal.end? text span.start = some span.stop := by
  obtain ⟨front, quote, rest, shape, _, start, stop⟩ :=
    exists_quote_of_mem_spans member
  rw [end?, start, stop, shape, List.drop_left]

/-- Whether one of the spans holds an offset. -/
private def Held (spans : List (Span Nat)) (offset : Nat) : Prop :=
  ∃ span ∈ spans, span.start ≤ offset ∧ offset < span.stop

private theorem held_cons
    {span : Span Nat} {spans : List (Span Nat)} {offset : Nat} :
    Held (span :: spans) offset ↔
      (span.start ≤ offset ∧ offset < span.stop) ∨ Held spans offset := by
  simp [Held]

/-- The character behind `offset` lies in a span exactly when the scan covers
it. -/
private theorem held_spansFrom_here
    (scan : Scan) (opened offset : Nat)
    (started : scan ≠ .code → opened < offset)
    (c : Char) (rest : Text) :
    Held (spansFrom scan opened offset [] (c :: rest)) offset ↔
      scan.covers c = true := by
  have ahead (opened : Nat) :
      ¬ Held (spansFrom .code opened (offset + 1) [] rest) offset := by
    rintro ⟨span, member, holds, _⟩
    have :=
      ((spansFrom_shape .code opened (offset + 1)
        (fun code => absurd rfl code) rest).1 rfl).2 span member
    omega
  have under (next : Scan) (opened : Nat) (inLiteral : next ≠ .code)
      (started : opened ≤ offset) :
      Held (spansFrom next opened (offset + 1) [] rest) offset := by
    obtain ⟨stop, later, shape, reached, _⟩ :=
      (spansFrom_shape next opened (offset + 1)
        (fun _ => Nat.lt_succ_of_le started) rest).2 inLiteral
    rw [shape, held_cons]
    exact .inl ⟨started, reached⟩
  cases scan with
  | code =>
      simp only [spansFrom, Scan.step, Scan.covers]
      by_cases quoted : isQuote c = true
      · simp only [quoted, if_true, iff_true]
        exact under _ _ (by simp) (Nat.le_refl _)
      · simp only [quoted, Bool.false_eq_true, if_false, iff_false]
        exact ahead _
  | escaped quote =>
      simp only [spansFrom, Scan.step, Scan.covers, iff_true]
      exact under _ _ (by simp) (Nat.le_of_lt (started (by simp)))
  | inside quote =>
      have begun := started (by simp)
      simp only [spansFrom]
      split
      next =>
        rw [spansFrom_found, List.reverse_singleton,
          List.singleton_append, held_cons]
        by_cases covered : (Scan.inside quote).covers c = true
        · simp only [covered, if_true, iff_true]
          exact .inl ⟨Nat.le_of_lt begun, Nat.lt_succ_self _⟩
        · simp only [covered, Bool.false_eq_true, if_false, iff_false, not_or]
          exact ⟨by simp, ahead _⟩
      next next notCode =>
        have covered := Scan.covers_of_step_ne_code notCode
        simp only [covered, iff_true]
        exact under _ _ notCode (Nat.le_of_lt begun)

private theorem held_spansFrom
    (scan : Scan) (opened offset : Nat)
    (started : scan ≠ .code → opened < offset)
    (front : Text) (c : Char) (rest : Text) :
    Held (spansFrom scan opened offset [] (front ++ c :: rest))
        (offset + front.length) ↔
      (scan.run front).covers c = true := by
  induction front generalizing scan opened offset with
  | nil => exact held_spansFrom_here scan opened offset started c rest
  | cons d front ih =>
      have position : offset + (d :: front).length =
          offset + 1 + front.length := by
        simp only [List.length_cons]
        omega
      rw [List.cons_append, position, Scan.run_cons]
      cases scan with
      | code => exact ih _ offset (offset + 1) fun _ => Nat.lt_succ_self _
      | escaped quote =>
          exact ih _ opened (offset + 1) fun _ =>
            Nat.lt_succ_of_lt (started (by simp))
      | inside quote =>
          simp only [spansFrom]
          split
          next outside =>
            -- The span that ends here ends in front of the position asked for.
            rw [spansFrom_found, List.reverse_singleton,
              List.singleton_append, held_cons,
              ih .code opened (offset + 1) fun code => absurd rfl code, outside]
            constructor
            · rintro (holds | later)
              · have ended := holds.2
                simp only at ended
                split at ended <;> omega
              · exact later
            · exact .inr
          next =>
            exact ih _ opened (offset + 1) fun _ =>
              Nat.lt_succ_of_lt (started (by simp))

/-- Looking a position up among the literal spans agrees with the literal
scan. -/
theorem covered_spans (front : Text) (c : Char) (rest : Text) :
    Span.covered (spans (front ++ c :: rest)) front.length =
      (Scan.code.run front).covers c := by
  have held :=
    held_spansFrom .code 0 0 (fun code => absurd rfl code) front c rest
  rw [Nat.zero_add] at held
  have looked :=
    Span.covered_iff (separated_spans (front ++ c :: rest)) front.length
  exact Bool.eq_iff_iff.mpr (looked.trans held)

theorem slice_succ
    {whole rest : Text} {c : Char} {opened offset : Nat}
    (behind : whole.drop offset = c :: rest)
    (order : opened ≤ offset) :
    Text.slice whole ⟨opened, offset + 1⟩ =
      Text.slice whole ⟨opened, offset⟩ ++ [c] := by
  have present : whole[offset]? = some c := by
    rw [← List.head?_drop, behind]
    rfl
  unfold Text.slice
  simp only
  rw [Nat.succ_sub order, List.take_add_one, List.getElem?_drop,
    Nat.add_sub_cancel' order, present]
  rfl

theorem slice_self (whole : Text) (offset : Nat) :
    Text.slice whole ⟨offset, offset⟩ = [] := by
  simp [Text.slice]

/-- The literals of a text, quotes included, in order. -/
def texts (text : Text) : List Text :=
  (spans text).map (Text.slice text)

/-- The literals of the rest of a text, `read` being what has been read of the
one that `scan` is in. -/
def textsFrom (scan : Scan) (read : Text) : Text → List Text
  | [] =>
      match scan with
      | .code => []
      | _ => [read]
  | c :: rest =>
      match scan with
      | .code => textsFrom (scan.step c) [c] rest
      | .escaped _ => textsFrom (scan.step c) (read ++ [c]) rest
      | .inside _ =>
          match scan.step c with
          | .code =>
              (if scan.covers c then read ++ [c] else read) ::
                textsFrom .code [] rest
          | next => textsFrom next (read ++ [c]) rest

theorem map_slice_spansFrom
    {whole : Text}
    (scan : Scan) (opened offset : Nat) (read text : Text)
    (behind : whole.drop offset = text)
    (started : scan ≠ .code → opened < offset ∧
      Text.slice whole ⟨opened, offset⟩ = read) :
    (spansFrom scan opened offset [] text).map (Text.slice whole) =
      textsFrom scan read text := by
  induction text generalizing scan opened offset read with
  | nil =>
      cases scan with
      | code => rfl
      | inside quote => rw [← (started (by simp)).2]; rfl
      | escaped quote => rw [← (started (by simp)).2]; rfl
  | cons c rest ih =>
      have tail : whole.drop (offset + 1) = rest := by
        rw [← List.drop_drop, behind]
        rfl
      have extended (inLiteral : scan ≠ .code) :
          opened < offset + 1 ∧
            Text.slice whole ⟨opened, offset + 1⟩ = read ++ [c] := by
        obtain ⟨order, reached⟩ := started inLiteral
        refine ⟨Nat.lt_succ_of_lt order, ?_⟩
        rw [slice_succ behind (Nat.le_of_lt order), reached]
      cases scan with
      | code =>
          simp only [spansFrom, textsFrom]
          refine ih _ offset (offset + 1) [c] tail fun _ =>
            ⟨Nat.lt_succ_self _, ?_⟩
          rw [slice_succ behind (Nat.le_refl _), slice_self]
          rfl
      | escaped quote =>
          simp only [spansFrom, textsFrom]
          exact ih _ opened (offset + 1) _ tail fun _ => extended (by simp)
      | inside quote =>
          have reached := (started (by simp)).2
          have longer := (extended (by simp)).2
          simp only [spansFrom, textsFrom]
          cases (Scan.inside quote).step c with
          | code =>
              simp only
              rw [spansFrom_found, List.reverse_singleton,
                List.singleton_append, List.map_cons,
                ih .code opened (offset + 1) [] tail fun code =>
                  absurd rfl code]
              split
              next => rw [longer]
              next => rw [reached]
          | inside quote =>
              exact ih _ opened (offset + 1) _ tail fun _ => extended (by simp)
          | escaped quote =>
              exact ih _ opened (offset + 1) _ tail fun _ => extended (by simp)

theorem texts_eq (text : Text) : texts text = textsFrom .code [] text :=
  map_slice_spansFrom .code 0 0 [] text rfl fun code => absurd rfl code

/-- Two texts have the same literals, whatever has been read of the one they
begin in. -/
def Agree (scan : Scan) (left right : Text) : Prop :=
  ∀ read, textsFrom scan read left = textsFrom scan read right

theorem Agree.refl (scan : Scan) (text : Text) : Agree scan text text :=
  fun _ => rfl

theorem Agree.texts_eq
    {left right : Text}
    (agree : Agree .code left right) :
    texts left = texts right := by
  rw [Literal.texts_eq, Literal.texts_eq, agree]

theorem Agree.cons
    {scan : Scan} {c : Char} {left right : Text}
    (agree : Agree (scan.step c) left right) :
    Agree scan (c :: left) (c :: right) := by
  intro read
  cases scan with
  | code => exact agree [c]
  | escaped quote => exact agree (read ++ [c])
  | inside quote =>
      simp only [textsFrom]
      split
      next outside =>
        rw [outside] at agree
        rw [agree []]
      next => exact agree (read ++ [c])

/-- A character of code that is no quote does not matter to the literals. -/
theorem Agree.skip
    {c : Char} {left right : Text}
    (agree : Agree .code left right)
    (plain : isQuote c = false) :
    Agree .code left (c :: right) := by
  intro read
  have skipped : textsFrom .code read (c :: right) =
      textsFrom .code [c] right := by
    simp only [textsFrom, Scan.step_code_of_not_quote plain]
  have unread : textsFrom .code [c] right = textsFrom .code read right := by
    cases right with
    | nil => rfl
    | cons d right => rfl
  rw [skipped, unread, agree read]

theorem Agree.symm
    {scan : Scan} {left right : Text}
    (agree : Agree scan left right) :
    Agree scan right left :=
  fun read => (agree read).symm

theorem Agree.append
    {scan : Scan} {shared left right : Text}
    (agree : Agree (scan.run shared) left right) :
    Agree scan (shared ++ left) (shared ++ right) := by
  induction shared generalizing scan with
  | nil => exact agree
  | cons c shared ih => exact .cons (ih agree)

/-- Code without quotes does not matter to the literals. -/
theorem Agree.skip_append
    {plainText left right : Text}
    (agree : Agree .code left right)
    (plain : ∀ c ∈ plainText, isQuote c = false) :
    Agree .code left (plainText ++ right) := by
  induction plainText with
  | nil => exact agree
  | cons c rest ih =>
      exact (ih fun d member => plain d (List.mem_cons_of_mem _ member)).skip
        (plain c List.mem_cons_self)

end Literal

end MacroTrace
