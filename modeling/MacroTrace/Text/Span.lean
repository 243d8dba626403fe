import MacroTrace.Text.Blank

/-!
# Spans

A span is a half-open interval of offsets.  `covered` decides membership in a
sorted list of spans by looking only at the last span that starts at or before
the offset.
-/

namespace MacroTrace

/-- The offsets from `start` up to, not including, `stop`. -/
structure Span (ι : Type) where
  start : ι
  stop : ι
  deriving DecidableEq, Repr

namespace Span

variable {ι : Type} [LE ι] [LT ι] [DecidableLE ι] [DecidableLT ι]

def contains (span : Span ι) (offset : ι) : Bool :=
  span.start ≤ offset && offset < span.stop

/-- Whether `offset` lies in one of the spans, which are sorted by their
starts. -/
def covered (spans : List (Span ι)) (offset : ι) : Bool :=
  match (spans.takeWhile fun span => span.start ≤ offset).getLast? with
  | none => false
  | some span => span.contains offset

end Span

namespace Text

/-- The part of the text that a span marks out. -/
def slice (text : Text) (span : Span Nat) : Text :=
  (text.drop span.start).take (span.stop - span.start)

end Text

end MacroTrace
