import MacroTrace.Proofs.FramePass
import Mathlib.Logic.Relation

/-!
# Runs over frames

Passes over a frame, one after another, take every slot through what passes over
the slot alone make of it.  They end when every slot is at rest, and a call
around the frame is expanded then.
-/

namespace MacroTrace

namespace Scope

variable {scope : Scope} {mode : Mode} {text last : Text}

/-- Passes lead from one text to another. -/
def Reaches (scope : Scope) (mode : Mode) : Text → Text → Prop :=
  Relation.ReflTransGen (scope.Pass mode)

theorem Passes.reaches
    {settings : Settings} {level : Nat} {steps : List Step}
    (passes : scope.Passes settings level text steps last) :
    scope.Reaches settings.mode text last := by
  induction passes with
  | nil level text => exact .refl
  | cons subject note room expandable rewritten changed passes ih =>
      exact .head ⟨expandable, rewritten⟩ ih

theorem Settled.eq_of_reaches
    (settled : scope.Settled mode text)
    (reaches : scope.Reaches mode text last) :
    last = text := by
  induction reaches with
  | refl => rfl
  | tail reaches pass ih =>
      subst ih
      rcases settled with none | stalls
      · exact absurd none pass.1
      · have same := stalls.unchanged.symm.trans pass.2
        exact (Except.ok.inj same).symm

/-- Passes from one text end at one settled text at most. -/
theorem Reaches.unique
    {other : Text}
    (reaches : scope.Reaches mode text last)
    (settled : scope.Settled mode last)
    (reachesOther : scope.Reaches mode text other)
    (settledOther : scope.Settled mode other) :
    last = other := by
  have deterministic : Relator.RightUnique (scope.Pass mode) := by
    intro text next another pass passOther
    exact Except.ok.inj (pass.2.symm.trans passOther.2)
  rcases reaches.total_of_right_unique deterministic reachesOther with
    further | further
  · exact (settled.eq_of_reaches further).symm
  · exact settledOther.eq_of_reaches further

end Scope

namespace Slot

variable {scope : Scope} {mode : Mode}

/-- What passes over a frame make of a slot, one after another. -/
def Becomes (scope : Scope) (mode : Mode) : Slot → Slot → Prop :=
  Relation.ReflTransGen (Advance scope mode)

/-- Whether nothing in a slot is left to expand. -/
def Rests (scope : Scope) (slot : Slot) : Prop :=
  slot.isOpen = true → scope.candidates true slot.text = []

theorem Becomes.isOpen_eq
    {slot later : Slot}
    (becomes : Becomes scope mode slot later) :
    later.isOpen = slot.isOpen := by
  induction becomes with
  | refl => rfl
  | tail becomes advance ih =>
      rw [← ih]
      cases advance with
      | stay => rfl
      | pass => rfl

theorem Becomes.reaches
    {slot later : Slot}
    (becomes : Becomes scope mode slot later) :
    scope.Reaches mode slot.text later.text := by
  induction becomes with
  | refl => exact .refl
  | tail becomes advance ih =>
      cases advance with
      | stay => exact ih
      | pass passed => exact .tail ih passed

/-- A slot at rest stays as it is. -/
theorem Rests.eq_of_becomes
    {slot later : Slot}
    (rests : Rests scope slot)
    (becomes : Becomes scope mode slot later) :
    later = slot := by
  induction becomes with
  | refl => rfl
  | tail becomes advance ih =>
      subst ih
      cases advance with
      | stay => rfl
      | pass passed => exact absurd (rests rfl) passed.1

theorem Becomes.unique
    {slot one other : Slot}
    (becomes : Becomes scope mode slot one)
    (rests : Rests scope one)
    (becomesOther : Becomes scope mode slot other)
    (restsOther : Rests scope other) :
    one = other := by
  cases isOpen : slot.isOpen with
  | false =>
      have still : Rests scope slot := by
        intro isOpen'
        rw [isOpen] at isOpen'
        cases isOpen'
      rw [still.eq_of_becomes becomes, still.eq_of_becomes becomesOther]
  | true =>
      have openOne := becomes.isOpen_eq.trans isOpen
      have openOther := becomesOther.isOpen_eq.trans isOpen
      have same :=
        becomes.reaches.unique (.inl (rests openOne)) becomesOther.reaches
          (.inl (restsOther openOther))
      obtain ⟨text, isOpen⟩ := one
      obtain ⟨textOther, isOpenOther⟩ := other
      subst openOne openOther same
      rfl

theorem openCandidates_eq_nil
    {slots : List Slot} {depth offset : Nat} :
    openCandidates scope depth offset slots = [] ↔
      ∀ slot ∈ slots, Rests scope slot := by
  induction slots generalizing offset with
  | nil => simp [openCandidates]
  | cons slot rest ih =>
      rw [openCandidates, List.append_eq_nil_iff, ih, List.forall_mem_cons]
      simp [Rests]

/-- Expanding a slot alone never takes it out of its place: it gets no comma at
the top level, does not end in a circle, and has no blanks around it at the
end. -/
structure InPlace (scope : Scope) (mode : Mode) (slot : Slot) : Prop where
  contained : ∀ later, Becomes scope mode slot later → later.text.Contained
  moves : ∀ later, Becomes scope mode slot later → later.isOpen = true →
    ¬ scope.Stalls mode later.text
  trimmed : ∀ later, Becomes scope mode slot later → Rests scope later →
    Text.trim later.text = later.text

theorem InPlace.later
    {slot later : Slot}
    (inPlace : InPlace scope mode slot)
    (becomes : Becomes scope mode slot later) :
    InPlace scope mode later := by
  constructor
  · intro last further
    exact inPlace.contained last (becomes.trans further)
  · intro last further
    exact inPlace.moves last (becomes.trans further)
  · intro last further
    exact inPlace.trimmed last (becomes.trans further)

theorem InPlace.of_rests
    {slot : Slot}
    (rests : Rests scope slot)
    (contained : slot.text.Contained)
    (trimmed : Text.trim slot.text = slot.text) :
    InPlace scope mode slot := by
  constructor
  · intro later becomes
    rw [rests.eq_of_becomes becomes]
    exact contained
  · intro later becomes isOpen stalls
    rw [rests.eq_of_becomes becomes] at isOpen stalls
    exact stalls.expandable (rests isOpen)
  · intro later becomes _
    rw [rests.eq_of_becomes becomes]
    exact trimmed

theorem InPlace.of_pass
    {text next : Text}
    (pass : scope.Pass mode text next)
    (changed : next ≠ text)
    (contained : text.Contained)
    (inPlace : InPlace scope mode ⟨next, true⟩) :
    InPlace scope mode ⟨text, true⟩ := by
  have split {later : Slot} (becomes : Becomes scope mode ⟨text, true⟩ later) :
      later = ⟨text, true⟩ ∨ Becomes scope mode ⟨next, true⟩ later := by
    induction becomes with
    | refl => exact .inl rfl
    | tail becomes advance ih =>
        rcases ih with same | further
        · subst same
          cases advance with
          | stay => exact .inl rfl
          | pass passed =>
              obtain rfl := Except.ok.inj (pass.2.symm.trans passed.2)
              exact .inr .refl
        · exact .inr (further.tail advance)
  constructor
  · intro later becomes
    rcases split becomes with rfl | further
    · exact contained
    · exact inPlace.contained later further
  · intro later becomes
    rcases split becomes with rfl | further
    · intro _ stalls
      exact changed (Except.ok.inj (pass.2.symm.trans stalls.unchanged))
    · exact inPlace.moves later further
  · intro later becomes
    rcases split becomes with rfl | further
    · intro rests
      exact absurd (rests rfl) pass.1
    · exact inPlace.trimmed later further

/-- What a slot is at the end. -/
structure EndsAs (scope : Scope) (mode : Mode) (slot final : Slot) : Prop where
  becomes : Becomes scope mode slot final
  rests : Rests scope final

theorem endsAs_unique
    {slots finals others : List Slot}
    (ends : List.Forall₂ (EndsAs scope mode) slots finals)
    (endsOther : List.Forall₂ (EndsAs scope mode) slots others) :
    finals = others := by
  have unique : Relator.RightUnique (EndsAs scope mode) := by
    intro slot one other ends endsOther
    exact ends.becomes.unique ends.rests endsOther.becomes endsOther.rests
  exact List.right_unique_forall₂' unique ends endsOther

theorem eq_of_endsAs
    {slots finals : List Slot}
    (rests : ∀ slot ∈ slots, Rests scope slot)
    (ends : List.Forall₂ (EndsAs scope mode) slots finals) :
    finals = slots := by
  induction ends with
  | nil => rfl
  | cons here ends ih =>
      rw [List.forall_mem_cons] at rests
      rw [rests.1.eq_of_becomes here.becomes, ih rests.2]

theorem trimmed_of_endsAs
    {slots finals : List Slot}
    (inPlace : ∀ slot ∈ slots, InPlace scope mode slot)
    (ends : List.Forall₂ (EndsAs scope mode) slots finals) :
    ∀ final ∈ finals, Text.trim final.text = final.text := by
  induction ends with
  | nil => simp
  | cons here ends ih =>
      rw [List.forall_mem_cons] at inPlace ⊢
      exact ⟨inPlace.1.trimmed _ here.becomes here.rests, ih inPlace.2⟩

theorem forall₂_of_advance
    {relation : Slot → Slot → Prop}
    (head : ∀ {slot next final}, Advance scope mode slot next →
      relation next final →
      relation slot final)
    {slots advanced finals : List Slot}
    (each : List.Forall₂ (Advance scope mode) slots advanced)
    (later : List.Forall₂ relation advanced finals) :
    List.Forall₂ relation slots finals := by
  induction each generalizing finals with
  | nil => exact later
  | cons advance each ih =>
      cases later with
      | cons here later => exact .cons (head advance here) (ih later)

theorem isOpen_of_advance
    {slots advanced : List Slot}
    (each : List.Forall₂ (Advance scope mode) slots advanced) :
    advanced.map (·.isOpen) = slots.map (·.isOpen) := by
  induction each with
  | nil => rfl
  | cons advance each ih =>
      have here := Becomes.isOpen_eq (Relation.ReflTransGen.single advance)
      rw [List.map_cons, List.map_cons, here, ih]

theorem inPlace_of_advance
    {slots advanced : List Slot}
    (inPlace : ∀ slot ∈ slots, InPlace scope mode slot)
    (each : List.Forall₂ (Advance scope mode) slots advanced) :
    ∀ slot ∈ advanced, InPlace scope mode slot := by
  induction each with
  | nil => exact inPlace
  | cons advance each ih =>
      rw [List.forall_mem_cons] at inPlace ⊢
      exact ⟨inPlace.1.later (.single advance), ih inPlace.2⟩

/-- A pass that expands something in slots that stay in their places changes the
frame. -/
theorem PassOver.join_ne
    {found : List Invocation} {slots advanced : List Slot}
    (passing : PassOver scope mode found slots advanced)
    (some : found ≠ [])
    (inPlace : ∀ slot ∈ slots, InPlace scope mode slot) :
    join advanced ≠ join slots := by
  intro same
  obtain ⟨pair, member, isOpen, pass⟩ := passing.some some
  have later := inPlace_of_advance inPlace passing.each
  have unchanged := text_eq_of_join_eq passing.each.length_eq
    (fun slot member => (inPlace slot member).contained slot .refl)
    (fun slot member => (later slot member).contained slot .refl)
    same.symm pair member
  rw [← unchanged] at pass
  exact (inPlace pair.1 (List.of_mem_zip member).1).moves pair.1 .refl isOpen
    ⟨pass.1, pass.2⟩

theorem exists_passOver_join
    {slots : List Slot} {next : Text}
    (formed : ∀ slot ∈ slots, WellFormed slot.text)
    (isOpen : ∀ slot ∈ slots, slot.isOpen = true)
    (pass : scope.Pass mode (join slots) next) :
    ∃ advanced,
      PassOver scope mode (openCandidates scope 0 0 slots) slots advanced ∧
      openCandidates scope 0 0 slots ≠ [] ∧ next = join advanced := by
  obtain ⟨some, rewritten⟩ := pass
  have found := candidates_join scope formed isOpen
  rw [found] at some
  have shape (slots : List Slot) : join slots = [] ++ (join slots ++ []) := by
    simp
  rw [Scope.rewrite, found, shape slots] at rewritten
  obtain ⟨advanced, passing, written⟩ :=
    @exists_passOver scope mode slots [] [] next 0 rewritten
  exact ⟨advanced, passing, some, written.trans (shape advanced).symm⟩

/-- Passes over a frame of open slots end when every slot has come to its
end. -/
theorem exists_endsAs_of_join
    {slots : List Slot} {text last : Text}
    (reaches : scope.Reaches mode text last)
    (settled : scope.Settled mode last)
    (inPlace : ∀ slot ∈ slots, InPlace scope mode slot)
    (isOpen : ∀ slot ∈ slots, slot.isOpen = true)
    (shape : text = join slots) :
    ∃ finals, List.Forall₂ (EndsAs scope mode) slots finals ∧
      last = join finals := by
  have formed {slots : List Slot}
      (inPlace : ∀ slot ∈ slots, InPlace scope mode slot) :
      ∀ slot ∈ slots, WellFormed slot.text := by
    intro slot member
    exact ((inPlace slot member).contained slot .refl).formed
  induction reaches using Relation.ReflTransGen.head_induction_on
    generalizing slots with
  | refl =>
      subst shape
      rcases settled with none | stalls
      · rw [candidates_join scope (formed inPlace) isOpen,
          openCandidates_eq_nil] at none
        refine ⟨slots, ?_, rfl⟩
        rw [List.forall₂_same]
        intro slot member
        exact ⟨.refl, none slot member⟩
      · obtain ⟨advanced, passing, some, same⟩ :=
          exists_passOver_join (formed inPlace) isOpen ⟨stalls.expandable,
            stalls.unchanged⟩
        exact absurd same.symm (passing.join_ne some inPlace)
  | head pass reaches ih =>
      subst shape
      obtain ⟨advanced, passing, some, written⟩ :=
        exists_passOver_join (formed inPlace) isOpen pass
      have stillOpen : ∀ slot ∈ advanced, slot.isOpen = true := by
        intro slot member
        have flag : slot.isOpen ∈ slots.map (·.isOpen) := by
          rw [← isOpen_of_advance passing.each]
          exact List.mem_map_of_mem member
        obtain ⟨before, present, same⟩ := List.mem_map.mp flag
        rw [← same]
        exact isOpen before present
      obtain ⟨finals, ends, shape⟩ :=
        ih (inPlace_of_advance inPlace passing.each) stillOpen written
      refine ⟨finals, forall₂_of_advance ?_ passing.each ends, shape⟩
      intro slot next final advance ends
      exact ⟨.head advance ends.becomes, ends.rests⟩

/-- A call of a macro, which uses the arguments in the closed slots only as
written.  The call can be expanded whatever the slots become. -/
structure Callable (scope : Scope) (mode : Mode) (name : Text)
    (definition : Definition) (slots : List Slot) : Prop where
  identifier : name.isIdentifier = true
  defined : scope.definition? name = some definition
  balanced : definition.isUnbalanced = false
  flags : ∀ index slot, slots[index]? = some slot →
    slot.isOpen = !isGuarded definition index
  candidate : ∀ laters, List.Forall₂ (Becomes scope mode) slots laters →
    scope.isCandidate true (call name laters) = true

theorem Callable.advance
    {name : Text} {definition : Definition} {slots advanced : List Slot}
    (callable : Callable scope mode name definition slots)
    (each : List.Forall₂ (Advance scope mode) slots advanced) :
    Callable scope mode name definition advanced := by
  refine ⟨callable.identifier, callable.defined, callable.balanced, ?_, ?_⟩
  · intro index later present
    have flag : (slots.map (·.isOpen))[index]? = some later.isOpen := by
      rw [← isOpen_of_advance each, List.getElem?_map, present]
      rfl
    rw [List.getElem?_map, Option.map_eq_some_iff] at flag
    obtain ⟨slot, presentBefore, same⟩ := flag
    rw [← same]
    exact callable.flags index slot presentBefore
  · intro laters becomes
    apply callable.candidate
    exact forall₂_of_advance (fun advance later => .head advance later)
      each becomes

theorem Callable.candidates_eq
    {name : Text} {definition : Definition} {slots : List Slot}
    (callable : Callable scope mode name definition slots)
    (inPlace : ∀ slot ∈ slots, InPlace scope mode slot) :
    scope.candidates true (callText name slots) =
      call name slots :: openCandidates scope 1 (name.length + 1) slots := by
  apply candidates_callText scope callable.identifier callable.defined
    callable.balanced
  · intro slot member
    exact (inPlace slot member).contained slot .refl
  · exact callable.flags
  · apply callable.candidate
    rw [List.forall₂_same]
    intro slot _
    exact .refl

theorem depth_le_of_mem_openCandidates
    {depth offset : Nat} {slots : List Slot} {invocation : Invocation}
    (member : invocation ∈ openCandidates scope depth offset slots) :
    depth ≤ invocation.depth := by
  induction slots generalizing offset with
  | nil => cases member
  | cons slot rest ih =>
      rcases List.mem_append.mp member with here | later
      · split at here
        · obtain ⟨found, _, rfl⟩ := List.mem_map.mp here
          exact Nat.le_add_left _ _
        · cases here
      · exact ih later

/-- A pass over a call passes over its slots.  Once they are at rest it expands
the call. -/
theorem Callable.pass_cases
    {name : Text} {definition : Definition} {slots : List Slot} {next : Text}
    (callable : Callable scope mode name definition slots)
    (inPlace : ∀ slot ∈ slots, InPlace scope mode slot)
    (pass : scope.Pass mode (callText name slots) next) :
    (∃ advanced found, PassOver scope mode found slots advanced ∧ found ≠ [] ∧
      next = callText name advanced) ∨
    ((∀ slot ∈ slots, Rests scope slot) ∧
      ∃ result, scope.replacement (call name slots).use = .ok result ∧
      next = result.text) := by
  obtain ⟨_, rewritten⟩ := pass
  rw [Scope.rewrite, callable.candidates_eq inPlace] at rewritten
  by_cases none : openCandidates scope 1 (name.length + 1) slots = []
  · refine .inr ⟨openCandidates_eq_nil.mp none, ?_⟩
    rw [none, Mode.select_singleton, Scope.rewriteAll] at rewritten
    cases replaced : scope.replacement (call name slots).use with
    | error failure =>
        rw [replaced] at rewritten
        cases rewritten
    | ok result =>
        rw [replaced] at rewritten
        cases rewritten
        refine ⟨result, rfl, ?_⟩
        have start : (call name slots).start = 0 := rfl
        have stop : (call name slots).stop = (callText name slots).length := rfl
        rw [start, stop, List.take_zero, List.drop_length, List.nil_append,
          List.append_nil]
  · left
    have inside : ∀ invocation ∈ openCandidates scope 1 (name.length + 1) slots,
        (call name slots).depth < invocation.depth := by
      intro invocation member
      exact depth_le_of_mem_openCandidates member
    have shape (slots : List Slot) :
        callText name slots = (name ++ ['(']) ++ (join slots ++ [')']) := by
      simp [callText]
    have size : name.length + 1 = (name ++ ['(']).length := by simp
    rw [Mode.select_cons_of_deeper none inside, shape, size] at rewritten
    obtain ⟨advanced, passing, written⟩ := exists_passOver rewritten
    refine ⟨advanced, _, passing, ?_, ?_⟩
    · rw [← size]
      exact none
    · rw [written, shape]

/-- Passes over a call end where passes over its replacement end, once every
slot has come to its end. -/
theorem Callable.exists_endsAs
    {name : Text} {definition : Definition} {slots : List Slot}
    {text last : Text}
    (callable : Callable scope mode name definition slots)
    (inPlace : ∀ slot ∈ slots, InPlace scope mode slot)
    (reaches : scope.Reaches mode text last)
    (settled : scope.Settled mode last)
    (shape : text = callText name slots) :
    ∃ finals result, List.Forall₂ (EndsAs scope mode) slots finals ∧
      scope.replacement (call name finals).use = .ok result ∧
      scope.Reaches mode result.text last := by
  have atRest {slots : List Slot} (rests : ∀ slot ∈ slots, Rests scope slot) :
      List.Forall₂ (EndsAs scope mode) slots slots := by
    rw [List.forall₂_same]
    intro slot member
    exact ⟨.refl, rests slot member⟩
  induction reaches using Relation.ReflTransGen.head_induction_on
    generalizing slots with
  | refl =>
      subst shape
      -- The call itself can be expanded, so the text can only be settled by a
      -- pass that keeps it.
      have pass :
          scope.Pass mode (callText name slots) (callText name slots) := by
        rcases settled with none | stalls
        · rw [callable.candidates_eq inPlace] at none
          cases none
        · exact ⟨stalls.expandable, stalls.unchanged⟩
      rcases callable.pass_cases inPlace pass with
        ⟨advanced, found, passing, some, same⟩ | ⟨rests, result, replaced, same⟩
      · have unchanged : join advanced = join slots := by
          simpa [callText] using same.symm
        exact absurd unchanged (passing.join_ne some inPlace)
      · refine ⟨slots, result, atRest rests, replaced, ?_⟩
        rw [same]
        exact .refl
  | head pass reaches ih =>
      subst shape
      rcases callable.pass_cases inPlace pass with
        ⟨advanced, found, passing, some, written⟩ |
          ⟨rests, result, replaced, written⟩
      · obtain ⟨finals, result, ends, replaced, further⟩ :=
          ih (callable.advance passing.each)
            (inPlace_of_advance inPlace passing.each) written
        refine ⟨finals, result, forall₂_of_advance ?_ passing.each ends,
          replaced, further⟩
        intro slot next final advance ends
        exact ⟨.head advance ends.becomes, ends.rests⟩
      · refine ⟨slots, result, atRest rests, replaced, ?_⟩
        rw [← written]
        exact reaches

end Slot

end MacroTrace
