import MacroTrace.Proofs.Context
import MacroTrace.Proofs.Passes
import MacroTrace.Proofs.Region
import Mathlib.Data.Char
import Mathlib.Data.List.Chain
import Mathlib.Data.List.Pairwise

/-!
# Regions as a map

The regions of a text stand for a map that gives every offset the chain of uses
that its character comes from.  `Origins` is this map without its
representation.  A replacement keeps the regions in order, apart and not empty,
and does to the map what it does to the text; so a rescan that keeps the map
itself would go through the same texts and find the same circular uses.
-/

namespace MacroTrace

/-- Texts are compared as lists of characters. -/
theorem Text.le_iff
    {left right : Text} :
    Text.le left right = true ↔ left ≤ right := by
  induction left generalizing right with
  | nil => simpa [Text.le] using not_lt.mp (List.not_lt_nil right)
  | cons a left ih =>
      cases right with
      | nil => simp [Text.le]
      | cons b right =>
          rw [Text.le, List.cons_le_cons_iff_lt_or]
          split
          next same => simpa [same] using ih
          next apart =>
            rw [decide_eq_true_iff, or_iff_left fun both => apart both.1]
            exact Iff.rfl

namespace Region

theorem chainLe_iff
    {left right : List Text} :
    chainLe left right = true ↔ left ≤ right := by
  induction left generalizing right with
  | nil => simpa [chainLe] using not_lt.mp (List.not_lt_nil right)
  | cons a left ih =>
      cases right with
      | nil => simp [chainLe]
      | cons b right =>
          rw [chainLe, List.cons_le_cons_iff_lt_or]
          split
          next same => simpa [same] using ih
          next apart =>
            rw [or_iff_left fun both => apart both.1]
            exact Text.le_iff.trans (Ne.le_iff_lt apart)

theorem le_iff
    {left right : Region} :
    le left right = true ↔
      left.start < right.start ∨
        left.start = right.start ∧
          (left.stop < right.stop ∨
            left.stop = right.stop ∧ left.chain ≤ right.chain) := by
  rw [← chainLe_iff]
  unfold le
  split
  next apart =>
    simp only [decide_eq_true_eq]
    omega
  next same =>
    split
    next apart =>
      simp only [decide_eq_true_eq]
      omega
    next level =>
      simp only [ne_eq, Decidable.not_not] at same level
      simp [same, level]

theorem le_total (left right : Region) :
    (le left right || le right left) = true := by
  simp only [Bool.or_eq_true, le_iff]
  grind

theorem le_trans
    {left middle right : Region}
    (first : le left middle = true)
    (second : le middle right = true) :
    le left right = true := by
  rw [le_iff] at first second ⊢
  grind

theorem pairwise_mergeSort_le (regions : List Region) :
    (regions.mergeSort le).Pairwise fun left right => le left right = true :=
  @List.pairwise_mergeSort Region le (fun _ _ _ => le_trans) le_total regions

/-- No offset lies in both regions. -/
def Apart (left right : Region) : Prop :=
  ∀ offset, left.Contains offset → ¬ right.Contains offset

instance : Std.Symm Apart :=
  ⟨fun _ _ apart offset holds held => apart offset held holds⟩

/-- The regions are in order, have no offset in common, and are not empty. -/
structure Orderly (regions : List Region) : Prop where
  sorted : regions.Pairwise fun left right => le left right = true
  disjoint : regions.Pairwise Apart
  nonempty : ∀ region ∈ regions, region.start < region.stop

theorem Orderly.coherent
    {regions : List Region}
    (orderly : Orderly regions) :
    Coherent regions := by
  rintro offset first second ⟨one, oneMember, oneHolds, rfl⟩ ⟨other,
    otherMember, otherHolds, rfl⟩
  by_contra different
  have apart : Apart one other :=
    orderly.disjoint.forall oneMember otherMember fun same =>
      different (congrArg chain same)
  exact apart offset oneHolds otherHolds

section Replace

variable {start stop length : Nat} {region part : Region}

/-- What is left of a region holds only offsets that come from the region. -/
theorem contains_of_mem_around
    (order : start ≤ stop)
    (member : part ∈ around start stop length region)
    {offset : Nat}
    (holds : part.Contains offset) :
    (offset < start ∧ region.Contains offset) ∨
      (start + length ≤ offset ∧
        region.Contains (offset - length + (stop - start))) :=
  ((gives_around order region offset part.chain).mp
    ⟨part, member, holds, rfl⟩).2

theorem nonempty_of_mem_around
    (nonempty : region.start < region.stop)
    (member : part ∈ around start stop length region) :
    part.start < part.stop := by
  unfold around at member
  split at member
  · obtain rfl := List.mem_singleton.mp member
    exact nonempty
  · split at member
    · obtain rfl := List.mem_singleton.mp member
      simp only
      omega
    · simp only [List.mem_append, List.mem_ite_nil_right,
        List.mem_singleton] at member
      rcases member with ⟨before, rfl⟩ | ⟨behind, rfl⟩
      · exact before
      · simp only
        omega

/-- The two parts of a region around the replaced part of the text lie on its
two sides. -/
theorem pairwise_apart_around (start stop length : Nat) (region : Region) :
    (around start stop length region).Pairwise Apart := by
  unfold around
  split
  · exact List.pairwise_singleton _ _
  · split
    · exact List.pairwise_singleton _ _
    · split <;> split <;> simp [Apart, Contains]
      omega

variable {regions : List Region} {added : List Text}

theorem pairwise_apart_flatMap
    (order : start ≤ stop)
    (disjoint : regions.Pairwise Apart) :
    (regions.flatMap (around start stop length)).Pairwise Apart := by
  refine List.pairwise_flatMap.mpr
    ⟨fun region _ => pairwise_apart_around _ _ _ region, ?_⟩
  refine disjoint.imp ?_
  intro left right apart leftPart leftMember rightPart rightMember offset
    leftHolds rightHolds
  rcases contains_of_mem_around order leftMember leftHolds with
    ⟨_, left⟩ | ⟨_, left⟩
  · rcases contains_of_mem_around order rightMember rightHolds with
      ⟨_, right⟩ | ⟨_, _⟩
    · exact apart offset left right
    · omega
  · rcases contains_of_mem_around order rightMember rightHolds with
      ⟨_, _⟩ | ⟨_, right⟩
    · omega
    · exact apart _ left right

theorem Orderly.replace
    (orderly : Orderly regions)
    (order : start ≤ stop) :
    Orderly (replace regions start stop length added) := by
  have fresh {region part : Region}
      (member : part ∈ around start stop length region) :
      Apart part ⟨start, start + length, added⟩ := by
    rintro offset holds ⟨low, high⟩
    have outside := contains_of_mem_around order member holds
    simp only at low high
    omega
  have disjoint : (regions.flatMap (around start stop length) ++
      if length = 0 then []
      else [(⟨start, start + length, added⟩ : Region)]).Pairwise Apart := by
    refine List.pairwise_append.mpr
      ⟨pairwise_apart_flatMap order orderly.disjoint, ?_, ?_⟩
    · split
      · exact .nil
      · exact List.pairwise_singleton _ _
    · intro part member new listed
      obtain ⟨region, _, here⟩ := List.mem_flatMap.mp member
      simp only [List.mem_ite_nil_left, List.mem_singleton] at listed
      rw [listed.2]
      exact fresh here
  refine ⟨pairwise_mergeSort_le _, ?_, ?_⟩
  · exact (List.mergeSort_perm _ le).symm.pairwise disjoint (Std.Symm.symm _ _)
  · intro part member
    rw [Region.replace, List.mem_mergeSort] at member
    rcases List.mem_append.mp member with kept | new
    · obtain ⟨region, listed, here⟩ := List.mem_flatMap.mp kept
      exact nonempty_of_mem_around (orderly.nonempty region listed) here
    · simp only [List.mem_ite_nil_left, List.mem_singleton] at new
      rw [new.2]
      simp only
      omega

end Replace

end Region

/-- Where the characters of a text come from: the chain of every offset. -/
abbrev Origins := Nat → List Text

/-- The map after the text from `start` to `stop` became `length` characters
that come from `chain`. -/
def Origins.replace (origins : Origins) (start stop length : Nat)
    (chain : List Text) : Origins :=
  fun offset =>
    if offset < start then origins offset
    else if offset < start + length then chain
    else origins (offset - length + (stop - start))

theorem Region.chainAt_replace
    {regions : List Region} {start stop : Nat}
    (coherent : Coherent regions)
    (order : start ≤ stop)
    (length : Nat) (added : List Text) :
    chainAt (replace regions start stop length added) =
      Origins.replace (chainAt regions) start stop length added := by
  funext offset
  unfold Origins.replace
  split
  next before => exact chainAt_replace_of_lt coherent order before
  next low =>
    split
    next high =>
      exact chainAt_replace_of_mem coherent order (Nat.le_of_not_lt low) high
    next high =>
      have back : offset =
          offset - length + (stop - start) - stop + (start + length) := by omega
      have behind : stop ≤ offset - length + (stop - start) := by omega
      rw [← chainAt_replace_of_le coherent order behind, ← back]

namespace Scope

variable {scope : Scope}

/-- Replace invocations one after another, keeping the map itself. -/
def follow (scope : Scope) (chain : List Text) :
    List Invocation → Text → Origins → Except Failure (Text × Origins)
  | [], text, origins => .ok (text, origins)
  | invocation :: rest, text, origins =>
      let key := invocation.use.key
      let origin := origins invocation.start
      if (chain ++ origin).contains key then
        .error (.expansion (.circular (chain ++ origin ++ [key])))
      else
        match scope.replacement invocation.use with
        | .error failure => .error failure
        | .ok result =>
            scope.follow chain rest
              (text.take invocation.start ++ result.text ++
                text.drop invocation.stop)
              (origins.replace invocation.start invocation.stop
                result.text.length (origin ++ [key]))

/-- Replacements keep the regions orderly and do to the map what following them
does.  They fail when following them does. -/
theorem expandInvocations_follow
    {chain : List Text} {chosen : List Invocation} {draft : Draft}
    (orderly : Region.Orderly draft.regions)
    (extents : ∀ invocation ∈ chosen, invocation.start ≤ invocation.stop) :
    (∃ next,
      scope.expandInvocations chain chosen draft = .ok next ∧
        Region.Orderly next.regions ∧
        scope.follow chain chosen draft.text (Region.chainAt draft.regions) =
          .ok (next.text, Region.chainAt next.regions)) ∨
    (∃ failure pasted,
      scope.expandInvocations chain chosen draft = .error (failure, pasted) ∧
        scope.follow chain chosen draft.text (Region.chainAt draft.regions) =
          .error failure) := by
  induction chosen generalizing draft with
  | nil => exact .inl ⟨draft, rfl, orderly, rfl⟩
  | cons invocation chosen ih =>
      have order := extents invocation List.mem_cons_self
      unfold expandInvocations expandInvocation follow
      by_cases circular :
        (chain ++ Region.chainAt draft.regions invocation.start).contains
          invocation.use.key = true
      · simp only [if_pos circular]
        exact .inr ⟨_, draft.pasted, rfl, rfl⟩
      · simp only [if_neg circular]
        cases scope.replacement invocation.use with
        | error failure => exact .inr ⟨failure, draft.pasted, rfl, rfl⟩
        | ok result =>
            simp only
            rw [← Region.chainAt_replace orderly.coherent order]
            apply ih
            · exact orderly.replace order
            · exact fun other member =>
                extents other (List.mem_cons_of_mem _ member)

/-- The drafts after the passes of a rescan, in order, if at most so many passes
are made.  A pass that changes nothing is the last. -/
def drafts (scope : Scope) (mode : Mode) (chain : List Text) : Nat →
    Draft → List Draft
  | 0, _ => []
  | passes + 1, draft =>
      let candidates := scope.candidates true draft.text
      if candidates.isEmpty then []
      else
        match scope.expandInvocations chain (mode.select candidates) draft with
        | .error _ => []
        | .ok next =>
            next :: if next.text = draft.text then []
              else scope.drafts mode chain passes next

/-- The texts that a rescan records are those of its drafts. -/
theorem targets_rescan_prefix
    (settings : Settings) (chain : List Text) (level : Nat) (draft : Draft) :
    (scope.rescan settings chain level draft).steps.map (·.target) <+:
      (scope.drafts settings.mode chain (settings.maxDepth - level) draft).map
        (·.text) := by
  fun_induction Scope.rescan scope settings chain level draft with
  | case1 => exact List.nil_prefix
  | case2 => exact List.nil_prefix
  | case3 => exact List.nil_prefix
  | case4 => exact List.nil_prefix
  | case5 level draft candidates some room chosen next expanded changed subject
      note described step rest ih =>
      have passes : settings.maxDepth - level =
          settings.maxDepth - (level + 1) + 1 := by omega
      rw [passes, drafts]
      simp only
      rw [if_neg some, expanded]
      simp only [if_neg changed]
      exact List.prefix_cons_inj _ |>.mpr ih

/-- Every pass of a rescan keeps the regions orderly, and does to the map what
following its replacements does. -/
theorem orderly_drafts
    (mode : Mode) (chain : List Text) (passes : Nat)
    {draft : Draft}
    (orderly : Region.Orderly draft.regions) :
    (∀ next ∈ scope.drafts mode chain passes draft,
      Region.Orderly next.regions) ∧
      (draft :: scope.drafts mode chain passes draft).IsChain
        fun before after =>
        scope.follow chain
          (mode.select (scope.candidates true before.text)) before.text
            (Region.chainAt before.regions) =
          .ok (after.text, Region.chainAt after.regions) := by
  induction passes generalizing draft with
  | zero => exact ⟨by simp [drafts], .singleton draft⟩
  | succ passes ih =>
      have extents :
          ∀ invocation ∈ mode.select (scope.candidates true draft.text),
            invocation.start ≤ invocation.stop := by
        intro invocation member
        have found :=
          (mem_all_of_mem_candidates (Mode.mem_of_mem_select member)).1
        exact Nat.le_of_lt (Invocation.within_of_mem_all found).order
      rw [drafts]
      split
      next => exact ⟨by simp, .singleton draft⟩
      next =>
        rcases expandInvocations_follow orderly extents with
          ⟨next, expanded, kept, followed⟩ | ⟨failure, pasted, failed, _⟩
        · rw [expanded]
          simp only
          split
          next =>
            exact ⟨by simpa using kept, .cons_cons followed (.singleton next)⟩
          next =>
            obtain ⟨later, linked⟩ := ih kept
            refine ⟨?_, .cons_cons followed linked⟩
            intro other member
            rcases List.mem_cons.mp member with rfl | member
            · exact kept
            · exact later other member
        · rw [failed]
          exact ⟨by simp, .singleton draft⟩

end Scope

/-- A replacement keeps the regions of a text orderly and does to their map what
it does to the text.  So the regions are orderly after every pass of a rescan,
and their map is what the replacements of the pass, one after another, make of
the map in front of it. -/
theorem Region.replace_maintains_map
    {regions : List Region} {start stop : Nat}
    (orderly : Orderly regions)
    (order : start ≤ stop)
    (length : Nat) (added : List Text) :
    (Orderly (replace regions start stop length added) ∧
      ∀ offset,
        chainAt (replace regions start stop length added) offset =
          if offset < start then chainAt regions offset
          else if offset < start + length then added
          else chainAt regions (offset - length + (stop - start))) ∧
    ∀ (scope : Scope) (settings : Settings) (chain : List Text) (level :
      Nat) (text : Text) (pasted : List Text),
      let draft : Draft := ⟨text, regions, pasted⟩
      let drafts :=
  scope.drafts settings.mode chain (settings.maxDepth - level) draft
      (scope.rescan settings chain level draft).steps.map (·.target) <+:
        drafts.map (·.text) ∧
        (∀ next ∈ drafts, Orderly next.regions) ∧
        (draft :: drafts).IsChain fun before after =>
          scope.follow chain
            (settings.mode.select (scope.candidates true before.text))
              before.text (chainAt before.regions) =
            .ok (after.text, chainAt after.regions) := by
  refine ⟨⟨orderly.replace order, ?_⟩, ?_⟩
  · intro offset
    rw [chainAt_replace orderly.coherent order]
    rfl
  · intro scope settings chain level text pasted
    exact ⟨scope.targets_rescan_prefix settings chain level _,
      scope.orderly_drafts settings.mode chain _ orderly⟩

namespace Region

/-- Two regions that touch. -/
def touching : List Region :=
  [⟨0, 4, ["LEFT".toList]⟩, ⟨4, 9, ["RIGHT".toList]⟩]

def digits : Snapshot :=
  ⟨[⟨"ITEM".toList, none, "0".toList, "digits.h", 1, true⟩]⟩

theorem replace_maintains_map_touching :
    Orderly touching ∧
      Orderly (replace touching 2 6 1 ["NEW".toList]) ∧
      (List.range 7).map (chainAt (replace touching 2 6 1 ["NEW".toList])) =
        [["LEFT".toList], ["LEFT".toList], ["NEW".toList], ["RIGHT".toList],
          ["RIGHT".toList], ["RIGHT".toList], []] ∧
      ∃ next,
        Scope.drafts ⟨digits.lookup, []⟩ .singleLayer [] 1
          ⟨"(ITEM) + ITEM".toList, touching, []⟩ =
            [next] ∧
          next.text = "(0) + ITEM".toList ∧
          Orderly next.regions ∧
          chainAt next.regions 1 = ["LEFT".toList, "ITEM".toList] := by
  have orderly : Orderly touching := by
    refine ⟨by decide, ?_, by decide⟩
    refine List.pairwise_pair.mpr ?_
    rintro offset ⟨_, high⟩ ⟨low, _⟩
    simp only at high low
    omega
  obtain ⟨⟨kept, chains⟩, rescans⟩ :=
    replace_maintains_map orderly (show 2 ≤ 6 by decide) 1 ["NEW".toList]
  refine ⟨orderly, kept, ?_, ?_⟩
  · rw [List.map_congr_left fun offset _ => chains offset]
    decide
  · obtain ⟨_, later, linked⟩ :=
      rescans ⟨digits.lookup, []⟩ Settings.default
        [] 29 "(ITEM) + ITEM".toList []
    have followed := (List.isChain_cons_cons.mp linked).1
    refine ⟨_, rfl, rfl, later _ List.mem_cons_self, ?_⟩
    exact congrFun (congrArg Prod.snd (Except.ok.inj followed)).symm 1

end Region

end MacroTrace
