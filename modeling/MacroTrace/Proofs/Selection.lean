import MacroTrace.Expansion.Candidate
import MacroTrace.Proofs.Extent

/-!
# Selection

What a pass selects among the candidates: invocations of the deepest level,
which are disjoint and come from right to left.  Selection looks at depths only,
so it can be made part by part.
-/

namespace MacroTrace.Mode

theorem mem_of_mem_select
    {mode : Mode} {candidates : List Invocation} {invocation : Invocation}
    (member : invocation ∈ mode.select candidates) :
    invocation ∈ candidates := by
  cases mode with
  | singleMacro => exact List.mem_of_mem_filter (List.mem_of_mem_take member)
  | singleLayer => exact List.mem_of_mem_filter (List.mem_reverse.mp member)

theorem pairwise_select
    (mode : Mode)
    {candidates : List Invocation}
    (ordered : candidates.Pairwise Invocation.Precedes) :
    (mode.select candidates).Pairwise fun later earlier =>
      earlier.stop ≤ later.start := by
  have disjoint (depth : Nat) : (candidates.filter (·.depth = depth)).Pairwise
      fun first second => first.stop ≤ second.start := by
    refine (ordered.filter _).imp_of_mem ?_
    intro first second firstMember secondMember precedes
    have firstDepth : first.depth = depth := by
      simpa using (List.mem_filter.mp firstMember).2
    have secondDepth : second.depth = depth := by
      simpa using (List.mem_filter.mp secondMember).2
    exact precedes.2 (by rw [firstDepth, secondDepth])
  cases mode with
  | singleMacro =>
      unfold select
      simp only
      cases candidates.filter _ with
      | nil => exact .nil
      | cons invocation rest => exact List.pairwise_singleton _ _
  | singleLayer => exact List.pairwise_reverse.mpr (disjoint _)

/-- The greatest depth among the candidates. -/
def deepest (candidates : List Invocation) : Nat :=
  candidates.foldl (fun depth invocation => max depth invocation.depth) 0

theorem deepest_cons (invocation : Invocation) (candidates : List Invocation) :
    deepest (invocation :: candidates) =
      max invocation.depth (deepest candidates) := by
  have general (depth : Nat) : candidates.foldl (fun depth invocation =>
      max depth invocation.depth) depth = max depth (deepest candidates) := by
    unfold deepest
    induction candidates generalizing depth with
    | nil => simp
    | cons other candidates ih =>
        rw [List.foldl_cons, List.foldl_cons, ih, ih (max 0 other.depth)]
        omega
  change candidates.foldl _ (max 0 invocation.depth) = _
  rw [general, Nat.zero_max]

theorem le_deepest
    {candidates : List Invocation} {invocation : Invocation}
    (member : invocation ∈ candidates) :
    invocation.depth ≤ deepest candidates := by
  induction candidates with
  | nil => cases member
  | cons other candidates ih =>
      rw [deepest_cons]
      rcases List.mem_cons.mp member with rfl | member
      · exact Nat.le_max_left _ _
      · exact Nat.le_trans (ih member) (Nat.le_max_right _ _)

theorem deepest_append (left right : List Invocation) :
    deepest (left ++ right) = max (deepest left) (deepest right) := by
  induction left with
  | nil =>
      change deepest right = max 0 (deepest right)
      rw [Nat.zero_max]
  | cons invocation left ih =>
      rw [List.cons_append, deepest_cons, deepest_cons, ih, Nat.max_assoc]

/-- The candidates of the deepest level, from left to right. -/
def deepestLevel (candidates : List Invocation) : List Invocation :=
  candidates.filter (·.depth = deepest candidates)

theorem deepestLevel_ne_nil
    {candidates : List Invocation}
    (some : candidates ≠ []) :
    deepestLevel candidates ≠ [] := by
  have reached : ∃ invocation ∈ candidates,
      invocation.depth = deepest candidates := by
    induction candidates with
    | nil => exact absurd rfl some
    | cons invocation candidates ih =>
        rw [deepest_cons]
        by_cases greatest : deepest candidates ≤ invocation.depth
        · exact ⟨invocation, List.mem_cons_self,
            (Nat.max_eq_left greatest).symm⟩
        · have rest : candidates ≠ [] := by
            rintro rfl
            exact greatest (Nat.zero_le _)
          obtain ⟨other, member, depth⟩ := ih rest
          refine ⟨other, List.mem_cons_of_mem _ member, ?_⟩
          rw [depth]
          exact (Nat.max_eq_right (Nat.le_of_not_le greatest)).symm
  obtain ⟨invocation, member, depth⟩ := reached
  exact List.ne_nil_of_mem (List.mem_filter.mpr ⟨member, by simpa using depth⟩)

@[simp] theorem select_nil (mode : Mode) : mode.select [] = [] := by
  cases mode <;> rfl

theorem select_ne_nil
    {mode : Mode} {candidates : List Invocation}
    (some : candidates ≠ []) :
    mode.select candidates ≠ [] := by
  have level := deepestLevel_ne_nil some
  cases mode with
  | singleMacro =>
      change (deepestLevel candidates).take 1 ≠ []
      simpa using level
  | singleLayer =>
      change (deepestLevel candidates).reverse ≠ []
      simpa using level

theorem select_congr
    {one other : List Invocation}
    (same : deepestLevel one = deepestLevel other)
    (mode : Mode) :
    mode.select one = mode.select other := by
  cases mode with
  | singleMacro => exact congrArg (List.take 1) same
  | singleLayer => exact congrArg List.reverse same

theorem select_singleton (mode : Mode) (invocation : Invocation) :
    mode.select [invocation] = [invocation] := by
  have level : deepestLevel [invocation] = [invocation] := by
    simp [deepestLevel, deepest]
  cases mode with
  | singleMacro => exact congrArg (List.take 1) level
  | singleLayer => exact congrArg List.reverse level

theorem deepest_moved
    {candidates : List Invocation}
    (some : candidates ≠ [])
    (distance deeper : Nat) :
    deepest (candidates.map (Invocation.moved distance deeper)) =
      deepest candidates + deeper := by
  induction candidates with
  | nil => exact absurd rfl some
  | cons invocation candidates ih =>
      have depth : (invocation.moved distance deeper).depth =
          invocation.depth + deeper := rfl
      rw [List.map_cons, deepest_cons, deepest_cons, depth]
      cases candidates with
      | nil => simp [deepest]
      | cons other candidates =>
          rw [ih (List.cons_ne_nil _ _)]
          omega

theorem deepestLevel_moved
    (candidates : List Invocation) (distance deeper : Nat) :
    deepestLevel (candidates.map (Invocation.moved distance deeper)) =
      (deepestLevel candidates).map (Invocation.moved distance deeper) := by
  cases candidates with
  | nil => rfl
  | cons invocation candidates =>
      rw [deepestLevel, deepest_moved (List.cons_ne_nil _ _), List.filter_map,
        deepestLevel]
      congr 1
      apply List.filter_congr
      intro other _
      have depth : (other.moved distance deeper).depth = other.depth + deeper :=
        rfl
      simp [depth]

theorem select_moved
    (mode : Mode) (candidates : List Invocation) (distance deeper : Nat) :
    mode.select (candidates.map (Invocation.moved distance deeper)) =
      (mode.select candidates).map (Invocation.moved distance deeper) := by
  have moved := deepestLevel_moved candidates distance deeper
  cases mode with
  | singleMacro =>
      change (deepestLevel _).take 1 = ((deepestLevel candidates).take 1).map _
      rw [moved, List.map_take]
  | singleLayer =>
      change (deepestLevel _).reverse =
        ((deepestLevel candidates).reverse).map _
      rw [moved, List.map_reverse]

/-- A deeper level hides all others. -/
theorem filter_eq_nil_of_deepest_lt
    {candidates : List Invocation} {depth : Nat}
    (higher : deepest candidates < depth) :
    candidates.filter (·.depth = depth) = [] := by
  apply List.filter_eq_nil_iff.mpr
  intro invocation member
  have bound := le_deepest member
  simp only [decide_eq_true_eq]
  omega

theorem deepestLevel_append_of_lt
    {left right : List Invocation}
    (lower : deepest left < deepest right) :
    deepestLevel (left ++ right) = deepestLevel right := by
  have most : max (deepest left) (deepest right) = deepest right :=
    Nat.max_eq_right (Nat.le_of_lt lower)
  rw [deepestLevel, deepest_append, most, List.filter_append,
    filter_eq_nil_of_deepest_lt lower, List.nil_append, deepestLevel]

theorem deepestLevel_append_of_gt
    {left right : List Invocation}
    (lower : deepest right < deepest left) :
    deepestLevel (left ++ right) = deepestLevel left := by
  have most : max (deepest left) (deepest right) = deepest left :=
    Nat.max_eq_left (Nat.le_of_lt lower)
  rw [deepestLevel, deepest_append, most, List.filter_append,
    filter_eq_nil_of_deepest_lt lower, List.append_nil, deepestLevel]

theorem deepestLevel_append_of_eq
    {left right : List Invocation}
    (level : deepest left = deepest right) :
    deepestLevel (left ++ right) = deepestLevel left ++ deepestLevel right := by
  rw [deepestLevel, deepest_append, ← level, Nat.max_self, List.filter_append,
    deepestLevel, deepestLevel, level]

/-- An invocation is left for later passes while there are candidates inside
it. -/
theorem select_cons_of_deeper
    {outer : Invocation} {inner : List Invocation}
    (some : inner ≠ [])
    (deeper : ∀ invocation ∈ inner, outer.depth < invocation.depth)
    (mode : Mode) :
    mode.select (outer :: inner) = mode.select inner := by
  obtain ⟨invocation, member⟩ := List.exists_mem_of_ne_nil inner some
  have lower : deepest [outer] < deepest inner := by
    have depth : deepest [outer] = outer.depth := by simp [deepest]
    rw [depth]
    exact Nat.lt_of_lt_of_le (deeper invocation member) (le_deepest member)
  exact select_congr (deepestLevel_append_of_lt lower) mode

/-- The shares of two parts in a selection: each is all that would be selected
in the part alone, or nothing, and one of them is not for nothing. -/
structure Shares (mode : Mode)
    (left right fromLeft fromRight : List Invocation) : Prop where
  whole : mode.select (left ++ right) = fromRight ++ fromLeft
  ofLeft : fromLeft = [] ∨ fromLeft = mode.select left
  ofRight : fromRight = [] ∨ fromRight = mode.select right
  some : left ++ right ≠ [] →
    (left ≠ [] ∧ fromLeft = mode.select left) ∨
      (right ≠ [] ∧ fromRight = mode.select right)

theorem exists_shares (mode : Mode) (left right : List Invocation) :
    ∃ fromLeft fromRight, Shares mode left right fromLeft fromRight := by
  have onlyRight (same : mode.select (left ++ right) = mode.select right)
      (some : right ≠ []) :
      Shares mode left right [] (mode.select right) :=
    ⟨by rw [same, List.append_nil], .inl rfl, .inr rfl,
      fun _ => .inr ⟨some, rfl⟩⟩
  have onlyLeft (same : mode.select (left ++ right) = mode.select left)
      (some : left ≠ []) :
      Shares mode left right (mode.select left) [] :=
    ⟨by rw [same, List.nil_append], .inr rfl, .inl rfl,
      fun _ => .inl ⟨some, rfl⟩⟩
  by_cases noLeft : left = []
  · by_cases noRight : right = []
    · rw [noLeft, noRight]
      exact ⟨[], [], by cases mode <;> rfl, .inl rfl, .inl rfl,
        fun some => absurd rfl some⟩
    · exact ⟨_, _, onlyRight (by rw [noLeft, List.nil_append]) noRight⟩
  · by_cases noRight : right = []
    · exact ⟨_, _, onlyLeft (by rw [noRight, List.append_nil]) noLeft⟩
    · rcases Nat.lt_trichotomy (deepest left) (deepest right) with
        lower | same | higher
      · exact ⟨_, _,
          onlyRight
            (select_congr (deepestLevel_append_of_lt lower) mode) noRight⟩
      · have both := deepestLevel_append_of_eq same
        cases mode with
        | singleMacro =>
            refine ⟨_, _, onlyLeft ?_ noLeft⟩
            change (deepestLevel (left ++ right)).take 1 =
              (deepestLevel left).take 1
            cases found : deepestLevel left with
            | nil => exact absurd found (deepestLevel_ne_nil noLeft)
            | cons invocation rest =>
                rw [both, found]
                rfl
        | singleLayer =>
            refine ⟨_, _, ?_, .inr rfl, .inr rfl, fun _ => .inl ⟨noLeft, rfl⟩⟩
            change (deepestLevel (left ++ right)).reverse =
              (deepestLevel right).reverse ++ (deepestLevel left).reverse
            rw [both, List.reverse_append]
      · exact ⟨_, _,
          onlyLeft
            (select_congr (deepestLevel_append_of_gt higher) mode) noLeft⟩

end MacroTrace.Mode
