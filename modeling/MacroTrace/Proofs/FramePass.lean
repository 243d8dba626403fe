import MacroTrace.Proofs.FrameCandidates
import Mathlib.Data.List.Forall2

/-!
# Passes over frames

A pass over a frame is, for every slot, a pass over the slot or nothing.  A call
around the frame is expanded only when nothing is left to expand between its
parentheses.
-/

namespace MacroTrace

namespace Scope

variable {scope : Scope} {mode : Mode}

theorem rewriteAll_append
    {first second : List Invocation} {text next : Text}
    (rewritten : scope.rewriteAll (first ++ second) text = .ok next) :
    ∃ middle, scope.rewriteAll first text = .ok middle ∧
      scope.rewriteAll second middle = .ok next := by
  induction first generalizing text with
  | nil => exact ⟨text, rfl, rewritten⟩
  | cons invocation first ih =>
      rw [List.cons_append, rewriteAll] at rewritten
      rw [rewriteAll]
      cases replaced : scope.replacement invocation.use with
      | error failure =>
          rw [replaced] at rewritten
          cases rewritten
      | ok result =>
        rw [replaced] at rewritten
        exact ih rewritten

/-- Invocations of a part of a text are replaced in that part. -/
theorem rewriteAll_within
    {chosen : List Invocation} {text next before after : Text} {deeper : Nat}
    (ordered : chosen.Pairwise fun later earlier => earlier.stop ≤ later.start)
    (fits : ∀ invocation ∈ chosen, invocation.start ≤ invocation.stop ∧
      invocation.stop ≤ text.length)
    (rewritten :
      scope.rewriteAll (chosen.map (Invocation.moved before.length deeper))
      (before ++ (text ++ after)) = .ok next) :
    ∃ written, scope.rewriteAll chosen text = .ok written ∧
      next = before ++ (written ++ after) := by
  induction chosen generalizing text with
  | nil =>
      cases rewritten
      exact ⟨text, rfl, rfl⟩
  | cons invocation chosen ih =>
      obtain ⟨earlier, ordered⟩ := List.pairwise_cons.mp ordered
      obtain ⟨order, ends⟩ := fits invocation List.mem_cons_self
      rw [List.map_cons, rewriteAll, Invocation.use_moved] at rewritten
      rw [rewriteAll]
      cases replaced : scope.replacement invocation.use with
      | error failure =>
          rw [replaced] at rewritten
          cases rewritten
      | ok result =>
        rw [replaced] at rewritten
        have front :
            (before ++ (text ++ after)).take
                (invocation.start + before.length) =
              before ++ text.take invocation.start := by
          rw [Nat.add_comm, List.take_length_add_append,
            List.take_append_of_le_length (Nat.le_trans order ends)]
        have back :
            (before ++ (text ++ after)).drop (invocation.stop + before.length) =
              text.drop invocation.stop ++ after := by
          rw [Nat.add_comm, List.drop_length_add_append,
            List.drop_append_of_le_length ends]
        have placed :
            (before ++ (text ++ after)).take
              (invocation.start + before.length) ++
              result.text ++ (before ++ (text ++ after)).drop
                  (invocation.stop + before.length) =
                before ++ (text.take invocation.start ++ result.text ++
                  text.drop invocation.stop ++
                  after) := by
          rw [front, back]
          simp
        change scope.rewriteAll _ ((before ++ (text ++ after)).take
          (invocation.start + before.length) ++ result.text ++
            (before ++ (text ++ after)).drop
              (invocation.stop + before.length)) = _ at rewritten
        rw [placed] at rewritten
        apply ih ordered ?_ rewritten
        intro other member
        refine ⟨(fits other (List.mem_cons_of_mem _ member)).1, ?_⟩
        have further := earlier other member
        simp only [List.length_append, List.length_take]
        omega

/-- What a pass selects in a text can be replaced there. -/
theorem fits_select (text : Text) :
    ((mode.select (scope.candidates true text)).Pairwise
      fun later earlier => earlier.stop ≤ later.start) ∧
    ∀ invocation ∈ mode.select (scope.candidates true text),
      invocation.start ≤ invocation.stop ∧ invocation.stop ≤ text.length := by
  refine ⟨mode.pairwise_select
    (((Invocation.pairwise_all text).filter _).filter _), ?_⟩
  intro invocation member
  have within := Invocation.within_of_mem_all
    (mem_all_of_mem_candidates (Mode.mem_of_mem_select member)).1
  have ends := within.ends
  exact ⟨Nat.le_of_lt within.order, by omega⟩

/-- One pass over a text in which something can be expanded. -/
def Pass (scope : Scope) (mode : Mode) (text next : Text) : Prop :=
  scope.candidates true text ≠ [] ∧ scope.rewrite mode text = .ok next

end Scope

namespace Slot

variable {scope : Scope} {mode : Mode}

/-- What a pass over a frame does to a slot. -/
inductive Advance (scope : Scope) (mode : Mode) : Slot → Slot → Prop where
  | stay (slot : Slot) : Advance scope mode slot slot
  | pass {text next : Text} : scope.Pass mode text next →
      Advance scope mode ⟨text, true⟩ ⟨next, true⟩

/-- What stands behind a slot in a frame. -/
def trail : List Slot → Text
  | [] => []
  | slot :: rest => ',' :: ' ' :: join (slot :: rest)

theorem join_cons (slot : Slot) (rest : List Slot) :
    join (slot :: rest) = slot.text ++ trail rest := by
  cases rest with
  | nil => simp [trail]
  | cons second rest => exact join_cons_cons slot second rest

private theorem exists_advance
    {slot : Slot} {before after next : Text} {deeper : Nat}
    {chosen : List Invocation}
    (share : chosen = [] ∨ chosen = mode.select (if slot.isOpen then
      (scope.candidates true slot.text).map
      (Invocation.moved before.length deeper) else []))
    (rewritten : scope.rewriteAll chosen (before ++ (slot.text ++ after)) =
      .ok next) :
    ∃ advanced, Advance scope mode slot advanced ∧
      next = before ++ (advanced.text ++ after) ∧
      (chosen ≠ [] → slot.isOpen = true ∧
        scope.Pass mode slot.text advanced.text) := by
  have still (none : chosen = []) : ∃ advanced,
      Advance scope mode slot advanced ∧
      next = before ++ (advanced.text ++ after) ∧
      (chosen ≠ [] → slot.isOpen = true ∧
        scope.Pass mode slot.text advanced.text) := by
    rw [none] at rewritten
    cases rewritten
    exact ⟨slot, .stay slot, rfl, fun some => absurd none some⟩
  by_cases none : chosen = []
  · exact still none
  · obtain ⟨text, isOpen⟩ := slot
    have share := share.resolve_left none
    cases isOpen with
    | false =>
        apply still
        rw [share]
        exact mode.select_nil
    | true =>
        rw [if_pos rfl, Mode.select_moved] at share
        have some : scope.candidates true text ≠ [] := by
          intro empty
          rw [empty] at share
          apply none
          rw [share]
          simp
        rw [share] at rewritten
        obtain ⟨ordered, fits⟩ := scope.fits_select text
        obtain ⟨written, passed, rfl⟩ :=
          Scope.rewriteAll_within ordered fits rewritten
        exact ⟨⟨written, true⟩, .pass ⟨some, passed⟩, rfl,
          fun _ => ⟨rfl, some, passed⟩⟩

/-- A pass over a frame in which `found` can be expanded: over some of its
slots, and over at least one unless nothing is found. -/
structure PassOver (scope : Scope) (mode : Mode) (found : List Invocation)
    (slots advanced : List Slot) : Prop where
  each : List.Forall₂ (Advance scope mode) slots advanced
  some : found ≠ [] → ∃ pair ∈ slots.zip advanced,
    pair.1.isOpen = true ∧ scope.Pass mode pair.1.text pair.2.text

theorem PassOver.refl (slots : List Slot) :
    PassOver scope mode [] slots slots := by
  refine ⟨?_, fun some => absurd rfl some⟩
  rw [List.forall₂_same]
  intro slot _
  exact .stay slot

private theorem exists_passOver_cons
    {slot : Slot} {rest : List Slot} {before after next : Text} {deeper : Nat}
    (later : ∀ {next}, scope.rewriteAll
        (mode.select
          (openCandidates scope deeper ((before ++ slot.text).length + 2) rest))
        ((before ++ slot.text) ++ (trail rest ++ after)) = .ok next →
      ∃ advanced, PassOver scope mode
          (openCandidates scope deeper ((before ++ slot.text).length + 2) rest)
          rest advanced ∧
        next = (before ++ slot.text) ++ (trail advanced ++ after))
    (rewritten : scope.rewriteAll
      (mode.select (openCandidates scope deeper before.length (slot :: rest)))
      (before ++ (slot.text ++ (trail rest ++ after))) = .ok next) :
    ∃ first advanced,
      PassOver scope mode
        (openCandidates scope deeper before.length (slot :: rest))
        (slot :: rest) (first :: advanced) ∧
      next = before ++ (first.text ++ (trail advanced ++ after)) := by
  obtain ⟨fromLeft, fromRight, shares⟩ := mode.exists_shares
    (if slot.isOpen then
      (scope.candidates true slot.text).map
      (Invocation.moved before.length deeper) else [])
    (openCandidates scope deeper ((before ++ slot.text).length + 2) rest)
  have found : openCandidates scope deeper before.length (slot :: rest) =
      (if slot.isOpen then
        (scope.candidates true slot.text).map
        (Invocation.moved before.length deeper) else []) ++
        openCandidates scope deeper
          ((before ++ slot.text).length + 2) rest := by
    rw [List.length_append]
    rfl
  rw [found, shares.whole] at rewritten
  -- The slots behind are rewritten first, while this one still has its old
  -- length.
  obtain ⟨middle, right, left⟩ := Scope.rewriteAll_append rewritten
  rw [← List.append_assoc] at right
  have advancedRest : ∃ advanced, PassOver scope mode fromRight rest advanced ∧
      middle = (before ++ slot.text) ++ (trail advanced ++ after) := by
    rcases shares.ofRight with none | all
    · rw [none] at right ⊢
      cases right
      exact ⟨rest, .refl rest, rfl⟩
    · rw [all] at right
      obtain ⟨advanced, passing, shape⟩ := later right
      refine ⟨advanced, ⟨passing.each, ?_⟩, shape⟩
      intro some
      apply passing.some
      intro none
      apply some
      rw [all, none, mode.select_nil]
  obtain ⟨advanced, passing, rfl⟩ := advancedRest
  rw [List.append_assoc] at left
  obtain ⟨first, advance, shape, passed⟩ := exists_advance shares.ofLeft left
  refine ⟨first, advanced, ⟨.cons advance passing.each, ?_⟩, shape⟩
  intro some
  rw [found] at some
  rcases shares.some some with ⟨filled, all⟩ | ⟨filled, all⟩
  · refine ⟨(slot, first), by simp, passed ?_⟩
    rw [all]
    exact Mode.select_ne_nil filled
  · rw [all] at passing
    obtain ⟨pair, member, result⟩ := passing.some (Mode.select_ne_nil filled)
    exact ⟨pair, by simp [member], result⟩

private theorem exists_passOver_trail
    {slots : List Slot} {before after next : Text} {deeper : Nat}
    (rewritten : scope.rewriteAll
      (mode.select (openCandidates scope deeper (before.length + 2) slots))
      (before ++ (trail slots ++ after)) = .ok next) :
    ∃ advanced,
      PassOver scope mode
        (openCandidates scope deeper (before.length + 2) slots) slots advanced ∧
      next = before ++ (trail advanced ++ after) := by
  induction slots generalizing before next with
  | nil =>
      have none :
          mode.select (openCandidates scope deeper (before.length + 2) []) =
            [] :=
        mode.select_nil
      rw [none] at rewritten
      cases rewritten
      exact ⟨[], .refl [], rfl⟩
  | cons slot rest ih =>
      have shape (slot : Slot) (rest : List Slot) :
          before ++ (trail (slot :: rest) ++ after) =
            (before ++ [',', ' ']) ++ (slot.text ++ (trail rest ++ after)) := by
        rw [trail, join_cons]
        simp
      have size : before.length + 2 = (before ++ [',', ' ']).length := by simp
      rw [shape, size] at rewritten
      obtain ⟨first, advanced, passing, rfl⟩ :=
        exists_passOver_cons ih rewritten
      exact ⟨first :: advanced, size ▸ passing, (shape first advanced).symm⟩

/-- A pass over a frame passes over its slots. -/
theorem exists_passOver
    {slots : List Slot} {before after next : Text} {deeper : Nat}
    (rewritten : scope.rewriteAll
      (mode.select (openCandidates scope deeper before.length slots))
      (before ++ (join slots ++ after)) = .ok next) :
    ∃ advanced,
      PassOver scope mode (openCandidates scope deeper before.length slots)
        slots advanced ∧
      next = before ++ (join advanced ++ after) := by
  cases slots with
  | nil =>
      have none : mode.select (openCandidates scope deeper before.length []) =
          [] :=
        mode.select_nil
      rw [none] at rewritten
      cases rewritten
      exact ⟨[], .refl [], rfl⟩
  | cons slot rest =>
      rw [join_cons, List.append_assoc] at rewritten
      obtain ⟨first, advanced, passing, rfl⟩ :=
        exists_passOver_cons exists_passOver_trail rewritten
      refine ⟨first :: advanced, passing, ?_⟩
      rw [join_cons, List.append_assoc]

end Slot

end MacroTrace
