import MacroTrace.Text.Blank

/-!
# Regions

While a text is rescanned, regions remember which invocations its parts come
from.  The regions are sorted and do not overlap.
-/

namespace MacroTrace

/-- A part of a text and the keys of the uses whose replacements made it,
outermost first. -/
structure Region where
  start : Nat
  stop : Nat
  chain : List Text
  deriving DecidableEq, Repr

namespace Region

/-- The chain of the first region that holds an offset. -/
def chainAt (regions : List Region) (offset : Nat) : List Text :=
  ((regions.find? fun region => region.start ≤ offset && offset <
    region.stop).map (·.chain)).getD []

/-- Order chains member by member. -/
def chainLe : List Text → List Text → Bool
  | [], _ => true
  | _ :: _, [] => false
  | a :: left, b :: right => if a = b then chainLe left right else Text.le a b

/-- Order by start, then by stop, then by chain. -/
def le (left right : Region) : Bool :=
  if left.start ≠ right.start then left.start < right.start
  else if left.stop ≠ right.stop then left.stop < right.stop
  else chainLe left.chain right.chain

/-- What is left of a region when the text from `start` to `stop` becomes
`length` characters.  The offset of what follows moves along. -/
def around (start stop length : Nat) (region : Region) : List Region :=
  let moved (offset : Nat) := offset + length + start - stop
  if region.stop ≤ start then [region]
  else if stop ≤ region.start then
    [⟨moved region.start, moved region.stop, region.chain⟩]
  else
    (if region.start < start then
      [⟨region.start, start, region.chain⟩] else []) ++
      (if stop < region.stop then
        [⟨moved stop, moved region.stop, region.chain⟩] else [])

/-- Update the regions after the text from `start` to `stop` became `length`
characters that come from `chain`. -/
def replace (regions : List Region) (start stop length : Nat)
    (chain : List Text) : List Region :=
  let kept := regions.flatMap (around start stop length)
  let added := if length = 0 then [] else [⟨start, start + length, chain⟩]
  (kept ++ added).mergeSort le

end Region

end MacroTrace
