import MacroTrace.Expansion.Region

/-!
# Regions after replacements

What the regions of a text say about an offset after a part of the text was
replaced: nothing changes in front of the part, the new characters come from the
given chain, and what stands behind it keeps its chain and moves.
-/

namespace MacroTrace.Region

def Contains (region : Region) (offset : Nat) : Prop :=
  region.start ≤ offset ∧ offset < region.stop

/-- Some region gives an offset a chain. -/
def Gives (regions : List Region) (offset : Nat) (chain : List Text) : Prop :=
  ∃ region ∈ regions, region.Contains offset ∧ region.chain = chain

/-- No offset is given two chains. -/
def Coherent (regions : List Region) : Prop :=
  ∀ offset first second, Gives regions offset first →
    Gives regions offset second → first = second

theorem coherent_nil : Coherent [] := by
  rintro offset first second ⟨region, member, _⟩
  cases member

theorem chainAt_eq_of_gives
    {regions : List Region}
    (coherent : Coherent regions)
    {offset : Nat} {chain : List Text}
    (gives : Gives regions offset chain) :
    chainAt regions offset = chain := by
  unfold chainAt
  cases found : regions.find? _ with
  | none =>
      obtain ⟨region, member, contains, _⟩ := gives
      have outside := List.find?_eq_none.mp found region member
      simp [contains.1, contains.2] at outside
  | some region =>
      have member := List.mem_of_find?_eq_some found
      have contains := List.find?_some found
      simp only [Bool.and_eq_true, decide_eq_true_eq] at contains
      exact coherent offset region.chain chain ⟨region, member,
        contains, rfl⟩ gives

theorem chainAt_eq_nil
    {regions : List Region} {offset : Nat}
    (outside : ∀ chain, ¬ Gives regions offset chain) :
    chainAt regions offset = [] := by
  unfold chainAt
  cases found : regions.find? _ with
  | none => rfl
  | some region =>
      have member := List.mem_of_find?_eq_some found
      have contains := List.find?_some found
      simp only [Bool.and_eq_true, decide_eq_true_eq] at contains
      exact absurd ⟨region, member, contains, rfl⟩ (outside region.chain)

/-- Regions that give two offsets the same chains. -/
theorem chainAt_congr
    {regions others : List Region}
    (coherent : Coherent others)
    {offset other : Nat}
    (same : ∀ chain, Gives regions offset chain ↔ Gives others other chain)
    (coherentRegions : Coherent regions) :
    chainAt regions offset = chainAt others other := by
  by_cases given : ∃ chain, Gives others other chain
  · obtain ⟨chain, gives⟩ := given
    rw [chainAt_eq_of_gives coherent gives,
      chainAt_eq_of_gives coherentRegions ((same chain).mpr gives)]
  · rw [not_exists] at given
    rw [chainAt_eq_nil given,
      chainAt_eq_nil fun chain gives => given chain ((same chain).mp gives)]

theorem gives_append
    {front back : List Region} {offset : Nat} {chain : List Text} :
    Gives (front ++ back) offset chain ↔ Gives front offset chain ∨
      Gives back offset chain := by
  simp only [Gives, List.mem_append, or_and_right, exists_or]

theorem gives_flatMap
    {regions : List Region} {parts : Region → List Region} {offset : Nat}
    {chain : List Text} :
    Gives (regions.flatMap parts) offset chain ↔
      ∃ region ∈ regions, Gives (parts region) offset chain := by
  constructor
  · rintro ⟨part, member, gives⟩
    obtain ⟨region, listed, here⟩ := List.mem_flatMap.mp member
    exact ⟨region, listed, part, here, gives⟩
  · rintro ⟨region, listed, part, here, gives⟩
    exact ⟨part, List.mem_flatMap.mpr ⟨region, listed, here⟩, gives⟩

theorem gives_mergeSort
    {regions : List Region} {offset : Nat} {chain : List Text} :
    Gives (regions.mergeSort le) offset chain ↔ Gives regions offset chain := by
  simp only [Gives, List.mem_mergeSort]

section Replace

variable {start stop length : Nat}

/-- What is left of a region gives the offsets around the replaced part, those
behind it moved. -/
theorem gives_around
    (order : start ≤ stop)
    (region : Region) (offset : Nat) (chain : List Text) :
    Gives (around start stop length region) offset chain ↔
      region.chain = chain ∧
        ((offset < start ∧ region.Contains offset) ∨
          (start + length ≤ offset ∧
            region.Contains (offset - length + (stop - start)))) := by
  obtain ⟨first, last, origin⟩ := region
  simp only [around, Gives, Contains]
  split
  · simp only [List.mem_singleton, exists_eq_left]
    constructor
    · rintro ⟨contains, rfl⟩
      exact ⟨rfl, .inl ⟨by omega, contains⟩⟩
    · rintro ⟨rfl, before | behind⟩
      · exact ⟨before.2, rfl⟩
      · omega
  · split
    · simp only [List.mem_singleton, exists_eq_left]
      constructor
      · rintro ⟨contains, rfl⟩
        exact ⟨rfl, .inr (by omega)⟩
      · rintro ⟨rfl, before | behind⟩
        · omega
        · exact ⟨by omega, rfl⟩
    · simp only [List.mem_append, List.mem_ite_nil_right, List.mem_singleton]
      constructor
      · rintro ⟨part, ⟨cut, rfl⟩ | ⟨cut, rfl⟩, contains, rfl⟩
        · exact ⟨rfl, .inl (by simp only at contains; omega)⟩
        · exact ⟨rfl, .inr (by simp only at contains; omega)⟩
      · rintro ⟨rfl, before | behind⟩
        · exact ⟨⟨first, start, origin⟩, .inl ⟨by omega, rfl⟩,
            ⟨before.2.1, before.1⟩, rfl⟩
        · exact ⟨⟨_, _, origin⟩, .inr ⟨by omega, rfl⟩,
            ⟨by simp only; omega, by simp only; omega⟩, rfl⟩

/-- The new characters are given the chain of the replacement. -/
theorem gives_added
    (start length : Nat) (added : List Text) (offset : Nat)
    (chain : List Text) :
    Gives (if length = 0 then [] else
        [⟨start, start + length, added⟩]) offset chain ↔
      start ≤ offset ∧ offset < start + length ∧ chain = added := by
  constructor
  · rintro ⟨region, member, contains, rfl⟩
    split at member
    · cases member
    · obtain rfl := List.mem_singleton.mp member
      exact ⟨contains.1, contains.2, rfl⟩
  · rintro ⟨low, high, rfl⟩
    have some : length ≠ 0 := by omega
    rw [if_neg some]
    exact ⟨_, List.mem_singleton_self _, ⟨low, high⟩, rfl⟩

theorem gives_replace
    (order : start ≤ stop)
    (regions : List Region) (added : List Text) (offset : Nat)
    (chain : List Text) :
    Gives (replace regions start stop length added) offset chain ↔
      (offset < start ∧ Gives regions offset chain) ∨
        (start ≤ offset ∧ offset < start + length ∧ chain = added) ∨
        (start + length ≤ offset ∧
          Gives regions (offset - length + (stop - start)) chain) := by
  rw [replace, gives_mergeSort, gives_append, gives_flatMap, gives_added]
  simp only [gives_around order]
  constructor
  · rintro (⟨region, member, same, before | behind⟩ | new)
    · exact .inl ⟨before.1, region, member, before.2, same⟩
    · exact .inr (.inr ⟨behind.1, region, member, behind.2, same⟩)
    · exact .inr (.inl new)
  · rintro (⟨low, region, member, contains, same⟩ | new |
      ⟨high, region, member, contains, same⟩)
    · exact .inl ⟨region, member, same, .inl ⟨low, contains⟩⟩
    · exact .inr new
    · exact .inl ⟨region, member, same, .inr ⟨high, contains⟩⟩

variable {regions : List Region} {added : List Text}

theorem Coherent.replace
    (coherent : Coherent regions)
    (order : start ≤ stop) :
    Coherent (replace regions start stop length added) := by
  intro offset first second one other
  rw [gives_replace order] at one other
  rcases one with ⟨low, one⟩ | ⟨low, high, one⟩ | ⟨high, one⟩
  · rcases other with ⟨_, other⟩ | ⟨_, _, _⟩ | ⟨_, _⟩
    · exact coherent offset first second one other
    · omega
    · omega
  · rcases other with ⟨_, _⟩ | ⟨_, _, other⟩ | ⟨_, _⟩
    · omega
    · rw [one, other]
    · omega
  · rcases other with ⟨_, _⟩ | ⟨_, _, _⟩ | ⟨_, other⟩
    · omega
    · omega
    · exact coherent _ first second one other

theorem chainAt_replace_of_lt
    (coherent : Coherent regions)
    (order : start ≤ stop)
    {offset : Nat}
    (before : offset < start) :
    chainAt (replace regions start stop length added) offset =
      chainAt regions offset := by
  apply chainAt_congr coherent _ (coherent.replace order)
  intro chain
  rw [gives_replace order]
  constructor
  · rintro (⟨_, gives⟩ | ⟨_, _, _⟩ | ⟨_, _⟩)
    · exact gives
    · omega
    · omega
  · intro gives
    exact .inl ⟨before, gives⟩

theorem chainAt_replace_of_mem
    (coherent : Coherent regions)
    (order : start ≤ stop)
    {offset : Nat}
    (low : start ≤ offset)
    (high : offset < start + length) :
    chainAt (replace regions start stop length added) offset = added := by
  apply chainAt_eq_of_gives (coherent.replace order)
  rw [gives_replace order]
  exact .inr (.inl ⟨low, high, rfl⟩)

theorem chainAt_replace_of_le
    (coherent : Coherent regions)
    (order : start ≤ stop)
    {offset : Nat}
    (behind : stop ≤ offset) :
    chainAt (replace regions start stop length added)
        (offset - stop + (start + length)) =
      chainAt regions offset := by
  have back : offset - stop + (start + length) - length + (stop - start) =
      offset := by omega
  apply chainAt_congr coherent _ (coherent.replace order)
  intro chain
  rw [gives_replace order, back]
  constructor
  · rintro (⟨_, _⟩ | ⟨_, _, _⟩ | ⟨_, gives⟩)
    · omega
    · omega
    · exact gives
  · intro gives
    exact .inr (.inr ⟨by omega, gives⟩)

end Replace

end MacroTrace.Region
