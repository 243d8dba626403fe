import MacroTrace.Proofs.Literal

/-!
# Membership in literals

Every span of a text runs from a quote to the end of the literal that the quote
opens, and no quote is left out.  Looking an index up among separated ranges
tells whether one of them holds it.
-/

namespace MacroTrace.Literal

theorem Scan.covers_of_isQuote
    (scan : Scan)
    {c : Char}
    (quoted : isQuote c = true) :
    scan.covers c = true := by
  have goesOn : Text.isLineBreak c = false := by
    simp only [isQuote, Bool.or_eq_true, beq_iff_eq] at quoted
    rcases quoted with rfl | rfl <;> rfl
  cases scan with
  | code => exact quoted
  | inside quote => exact Scan.covers_of_ne_code (by simp) goesOn
  | escaped quote => rfl

theorem exists_span_of_isQuote
    {text : Text} {offset : Nat} {quote : Char}
    (here : text[offset]? = some quote)
    (quoted : isQuote quote = true) :
    ∃ span ∈ spans text, span.start ≤ offset ∧ offset < span.stop := by
  obtain ⟨front, rest, rfl, rfl⟩ := List.exists_append_of_getElem? here
  rw [← Span.covered_iff (separated_spans _), covered_spans]
  exact Scan.covers_of_isQuote _ quoted

/-- The spans mark out the literals of a text: in order and apart, each one from
a quote to the end of the literal that it opens, with no quote outside. -/
structure MarksOut (text : Text) (spans : List (Span Nat)) : Prop where
  separated : Span.Separated spans
  within : ∀ span ∈ spans, span.stop ≤ text.length
  opens : ∀ span ∈ spans, ∃ quote, text[span.start]? = some quote ∧
    isQuote quote = true
  ends : ∀ span ∈ spans, end? text span.start = some span.stop
  complete : ∀ offset quote, text[offset]? = some quote → isQuote quote = true →
    ∃ span ∈ spans, span.start ≤ offset ∧ offset < span.stop

theorem marksOut_spans (text : Text) : MarksOut text (spans text) where
  separated := separated_spans text
  within _ member := stop_le_of_mem_spans member
  opens _ member := quote_of_mem_spans member
  ends _ member := end?_of_mem_spans member
  complete _ _ here quoted := exists_span_of_isQuote here quoted

/-- The spans of a text mark out its literals, and a look-up among separated
ranges answers whether one of them holds the index. -/
theorem literal_membership_exact
    (text : Text)
    {ranges : List (Span Int)}
    (separated : Span.Separated ranges)
    (index : Int) :
    MarksOut text (spans text) ∧
      (Span.covered ranges index = true ↔
        ∃ range ∈ ranges, range.start ≤ index ∧ index < range.stop) :=
  ⟨marksOut_spans text, Span.covered_iff separated index⟩

/-- An escaped quote, a literal that follows at once, and one that a line break
cuts short. -/
def quotedText : Text :=
  "x\"a\\\"\"\x27b\x27 \"c\n\x27".toList

/-- Two ranges that share a boundary, and one apart from them. -/
def touchingRanges : List (Span Int) :=
  [⟨-3, 0⟩, ⟨0, 4⟩, ⟨6, 7⟩]

theorem literal_membership_of_touchingRanges :
    Span.Separated touchingRanges ∧
      spans quotedText = [⟨1, 6⟩, ⟨6, 9⟩, ⟨10, 12⟩, ⟨13, 14⟩] ∧
      MarksOut quotedText (spans quotedText) ∧
      (Span.covered touchingRanges 0 = true ↔
        ∃ range ∈ touchingRanges, range.start ≤ 0 ∧ 0 < range.stop) :=
  have separated : Span.Separated touchingRanges :=
    ⟨by simp [touchingRanges], by simp [touchingRanges]⟩
  ⟨separated, by decide, literal_membership_exact quotedText separated 0⟩

end MacroTrace.Literal
