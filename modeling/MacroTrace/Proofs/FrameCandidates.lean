import MacroTrace.Proofs.Frame
import MacroTrace.Proofs.Passes

/-!
# The candidates of a frame

The candidates of a frame are those of its open slots.  A call around the frame
is a candidate next to them, and the arguments it uses only as written are its
closed slots.
-/

namespace MacroTrace

namespace Span

def moved (distance : Nat) (span : Span Nat) : Span Nat :=
  ⟨span.start + distance, span.stop + distance⟩

theorem contains_moved (distance : Nat) (span : Span Nat) (offset : Nat) :
    (span.moved distance).contains (offset + distance) =
      span.contains offset := by
  simp [contains, moved]

theorem contains_eq_false_of_stop_le
    {span : Span Nat} {offset : Nat}
    (before : span.stop ≤ offset) :
    span.contains offset = false := by
  simp only [contains, Bool.and_eq_false_iff, decide_eq_false_iff_not]
  omega

theorem contains_eq_false_of_lt_start
    {span : Span Nat} {offset : Nat}
    (behind : offset < span.start) :
    span.contains offset = false := by
  simp only [contains, Bool.and_eq_false_iff, decide_eq_false_iff_not]
  omega

end Span

namespace Scope

variable (scope : Scope)

theorem isCandidate_moved
    (withUnbalanced : Bool) (distance deeper : Nat) (invocation : Invocation) :
    scope.isCandidate withUnbalanced (invocation.moved distance deeper) =
      scope.isCandidate withUnbalanced invocation := by
  simp only [isCandidate, Invocation.use_moved]
  rfl

theorem protectedSpans_moved (distance deeper : Nat) (invocation : Invocation) :
    scope.protectedSpans (invocation.moved distance deeper) =
      (scope.protectedSpans invocation).map (Span.moved distance) := by
  have spans : (invocation.moved distance deeper).argumentSpans =
      invocation.argumentSpans.map (Span.moved distance) := by
    cases listed : invocation.arguments with
    | none => simp [Invocation.argumentSpans, Invocation.moved, listed]
    | some list =>
        simp only [Invocation.argumentSpans, Invocation.moved, listed,
          Option.map_some, Option.getD_some, List.map_map]
        rfl
  have name : (invocation.moved distance deeper).name = invocation.name := rfl
  unfold protectedSpans
  rw [name]
  split
  next => rfl
  next definition _ =>
    split
    next => rfl
    next =>
      simp only [spans, List.zipIdx_map, List.filter_map, List.map_map]
      rfl

/-- The parts of a text that are used only as written. -/
def protectedParts (text : Text) : List (Span Nat) :=
  ((Invocation.all text).filter (scope.isCandidate true)).flatMap
    scope.protectedSpans

theorem candidates_eq (text : Text) :
    scope.candidates true text =
      ((Invocation.all text).filter (scope.isCandidate true)).filter
        fun invocation =>
        !(scope.protectedParts text).any (·.contains invocation.start) := rfl

theorem mem_protectedSpans
    {invocation : Invocation} {span : Span Nat}
    (member : span ∈ scope.protectedSpans invocation) :
    span ∈ invocation.argumentSpans := by
  unfold protectedSpans at member
  split at member
  next => cases member
  next =>
    split at member
    next => cases member
    next =>
      obtain ⟨⟨found, index⟩, kept, rfl⟩ := List.mem_map.mp member
      exact List.fst_mem_of_mem_zipIdx (List.mem_of_mem_filter kept)

theorem stop_le_of_mem_protectedParts
    {text : Text} {span : Span Nat}
    (member : span ∈ scope.protectedParts text) :
    span.stop ≤ text.length := by
  obtain ⟨invocation, found, inside⟩ := List.mem_flatMap.mp member
  have within := Invocation.within_of_mem_all (List.mem_of_mem_filter found)
  have ends := within.ends
  have bound := (within.spans span (scope.mem_protectedSpans inside)).2
  omega

end Scope

namespace Slot

variable (scope : Scope)

/-- The candidates of the open slots. -/
def openCandidates (depth offset : Nat) : List Slot → List Invocation
  | [] => []
  | slot :: rest =>
      (if slot.isOpen then
        (scope.candidates true slot.text).map (Invocation.moved offset depth)
        else []) ++
        openCandidates depth (offset + slot.text.length + 2) rest

/-- The closed slots themselves. -/
def guards (offset : Nat) : List Slot → List (Span Nat)
  | [] => []
  | slot :: rest =>
      (if slot.isOpen then [] else [(Argument.ofRaw slot.text offset).span]) ++
        guards (offset + slot.text.length + 2) rest

/-- The protected parts inside the slots. -/
def inner (offset : Nat) : List Slot → List (Span Nat)
  | [] => []
  | slot :: rest =>
      (scope.protectedParts slot.text).map (Span.moved offset) ++
        inner (offset + slot.text.length + 2) rest

theorem le_start_of_mem_guards
    {offset : Nat} {slots : List Slot} {span : Span Nat}
    (member : span ∈ guards offset slots) :
    offset ≤ span.start := by
  induction slots generalizing offset with
  | nil => cases member
  | cons slot rest ih =>
      rcases List.mem_append.mp member with here | later
      · split at here
        · cases here
        · rw [List.mem_singleton] at here
          rw [here]
          exact (Argument.span_ofRaw_le slot.text offset).1
      · have bound := ih later
        omega

theorem le_start_of_mem_inner
    {offset : Nat} {slots : List Slot} {span : Span Nat}
    (member : span ∈ inner scope offset slots) :
    offset ≤ span.start := by
  induction slots generalizing offset with
  | nil => cases member
  | cons slot rest ih =>
      rcases List.mem_append.mp member with here | later
      · obtain ⟨original, _, rfl⟩ := List.mem_map.mp here
        exact Nat.le_add_left offset original.start
      · have bound := ih later
        omega

/-- A character that is not blank lies between the blanks on both sides. -/
theorem bounds_of_solid
    {left middle right : Text}
    (blankLeft : ∀ c ∈ left, Text.isBlank c = true)
    (blankRight : ∀ c ∈ right, Text.isBlank c = true)
    {index : Nat} {c : Char}
    (present : (left ++ (middle ++ right))[index]? = some c)
    (solid : Text.isBlank c = false) :
    left.length ≤ index ∧ index < left.length + middle.length := by
  have contradiction {blanks : Text} {position : Nat}
      (blank : ∀ c ∈ blanks, Text.isBlank c = true)
      (found : blanks[position]? = some c) : False := by
    rw [blank c (List.mem_of_getElem? found)] at solid
    cases solid
  by_cases early : index < left.length
  · rw [List.getElem?_append_left early] at present
    exact (contradiction blankLeft present).elim
  · rw [List.getElem?_append_right (Nat.le_of_not_lt early)] at present
    by_cases inside : index - left.length < middle.length
    · omega
    · rw [List.getElem?_append_right (Nat.le_of_not_lt inside)] at present
      exact (contradiction blankRight present).elim

/-- A closed slot covers every invocation that begins in it. -/
theorem contains_ofRaw
    {slot : Slot} {invocation : Invocation}
    (within : Invocation.Within slot.text 0 invocation)
    (offset : Nat) :
    (Argument.ofRaw slot.text offset).span.contains
      (invocation.start + offset) = true := by
  obtain ⟨front, c, rest, shape, start, solid⟩ := within.begins
  obtain ⟨blanks, blank, trimmed⟩ :=
    Text.exists_trimRight_append (Text.trimLeft slot.text)
  have split : slot.text.takeWhile Text.isBlank ++
      (Text.trim slot.text ++ blanks) = slot.text := by
    rw [Text.trim, ← trimmed, Text.trimLeft_append]
  have present : slot.text[front.length]? = some c := by simp [shape]
  rw [← split] at present
  have bounds :=
    bounds_of_solid (fun _ member => List.mem_takeWhile_imp member) blank
      present solid
  refine Span.contains_iff.mpr ?_
  simp only [Argument.ofRaw]
  omega

theorem flatMap_protectedSpans (depth offset : Nat) (slots : List Slot) :
    ((invocations depth offset slots).filter (scope.isCandidate true)).flatMap
      scope.protectedSpans = inner scope offset slots := by
  induction slots generalizing offset with
  | nil => rfl
  | cons slot rest ih =>
      have here :
          (((Invocation.all slot.text).map
            (Invocation.moved offset depth)).filter
            (scope.isCandidate true)).flatMap scope.protectedSpans =
              (scope.protectedParts slot.text).map (Span.moved offset) := by
        rw [List.filter_map, List.flatMap_map, Scope.protectedParts,
          List.map_flatMap]
        simp only [Function.comp_def, scope.isCandidate_moved,
          scope.protectedSpans_moved]
      rw [invocations, List.filter_append, List.flatMap_append, here, ih]
      rfl

/-- What covers an invocation in a slot: the slot, if it is closed, or a
protected part in it. -/
theorem covered_in_slot
    {offset : Nat} {before : List (Span Nat)}
    (earlier : ∀ span ∈ before, span.stop ≤ offset)
    {slot : Slot} {rest : List Slot} {parts : List (Span Nat)}
    (same : ∀ span, span ∈ parts ↔ span ∈ before ∨
      span ∈ guards offset (slot :: rest) ∨
      span ∈ inner scope offset (slot :: rest))
    {invocation : Invocation}
    (member : invocation ∈ Invocation.all slot.text) :
    parts.any (·.contains (invocation.start + offset)) =
      (!slot.isOpen || (scope.protectedParts slot.text).any
        (·.contains invocation.start)) := by
  have within := Invocation.within_of_mem_all member
  have bound := within.start_lt
  have behind {span : Span Nat}
      (later : offset + slot.text.length + 2 ≤ span.start) :
      span.contains (invocation.start + offset) = false :=
    Span.contains_eq_false_of_lt_start (by omega)
  rw [Bool.eq_iff_iff, Bool.or_eq_true, List.any_eq_true, List.any_eq_true]
  constructor
  · rintro ⟨span, listed, covers⟩
    rcases (same span).mp listed with front | guard | protectedPart
    · have past : span.stop ≤ invocation.start + offset := by
        have ends := earlier span front
        omega
      rw [Span.contains_eq_false_of_stop_le past] at covers
      cases covers
    · rcases List.mem_append.mp guard with here | later
      · split at here
        · cases here
        · exact .inl (by simpa using ‹¬ slot.isOpen = true›)
      · rw [behind (le_start_of_mem_guards later)] at covers
        cases covers
    · rcases List.mem_append.mp protectedPart with here | later
      · obtain ⟨original, own, rfl⟩ := List.mem_map.mp here
        rw [Span.contains_moved] at covers
        exact .inr ⟨original, own, covers⟩
      · rw [behind (le_start_of_mem_inner scope later)] at covers
        cases covers
  · rintro (closed | ⟨span, own, covers⟩)
    · have isClosed : slot.isOpen = false := by simpa using closed
      refine ⟨(Argument.ofRaw slot.text offset).span,
        (same _).mpr (.inr (.inl ?_)), contains_ofRaw within offset⟩
      simp [guards, isClosed]
    · refine ⟨span.moved offset, (same _).mpr (.inr (.inr ?_)), ?_⟩
      · exact List.mem_append_left _ (List.mem_map_of_mem own)
      · rw [Span.contains_moved]
        exact covers

theorem filter_slot
    {depth offset : Nat} {slot : Slot} {parts : List (Span Nat)}
    (covered : ∀ invocation ∈ Invocation.all slot.text,
      parts.any (·.contains (invocation.start + offset)) =
        (!slot.isOpen || (scope.protectedParts slot.text).any
          (·.contains invocation.start))) :
    (((Invocation.all slot.text).map (Invocation.moved offset depth)).filter
        (scope.isCandidate true)).filter
        (fun invocation => !parts.any (·.contains invocation.start)) =
      if slot.isOpen then
        (scope.candidates true slot.text).map (Invocation.moved offset depth)
      else [] := by
  rw [List.filter_map, List.filter_map]
  simp only [Function.comp_def, scope.isCandidate_moved]
  have start (invocation : Invocation) :
      (invocation.moved offset depth).start = invocation.start + offset := rfl
  simp only [start]
  cases isOpen : slot.isOpen with
  | true =>
      rw [if_pos rfl, scope.candidates_eq]
      congr 1
      apply List.filter_congr
      intro invocation member
      rw [covered invocation (List.mem_of_mem_filter member), isOpen]
      rfl
  | false =>
      rw [if_neg Bool.false_ne_true, List.map_eq_nil_iff,
        List.filter_eq_nil_iff]
      intro invocation member
      rw [covered invocation (List.mem_of_mem_filter member), isOpen]
      simp

/-- What is left of the invocations of a frame outside protected parts. -/
theorem filter_invocations
    (depth offset : Nat)
    {before : List (Span Nat)}
    (earlier : ∀ span ∈ before, span.stop ≤ offset)
    (slots : List Slot)
    {parts : List (Span Nat)}
    (same : ∀ span, span ∈ parts ↔
      span ∈ before ∨ span ∈ guards offset slots ∨
        span ∈ inner scope offset slots) :
    ((invocations depth offset slots).filter (scope.isCandidate true)).filter
        (fun invocation => !parts.any (·.contains invocation.start)) =
      openCandidates scope depth offset slots := by
  induction slots generalizing offset before with
  | nil => rfl
  | cons slot rest ih =>
      rw [invocations, List.filter_append, List.filter_append,
        filter_slot scope fun _ member =>
          covered_in_slot scope earlier same member]
      -- For the later slots, what belongs to this one lies in front.
      have later := @ih (offset + slot.text.length + 2)
        (before ++
          ((if slot.isOpen then [] else
            [(Argument.ofRaw slot.text offset).span]) ++
            (scope.protectedParts slot.text).map (Span.moved offset))) (by
        intro span member
        simp only [List.mem_append] at member
        rcases member with front | guard | own
        · have ends := earlier span front
          omega
        · split at guard
          · cases guard
          · rw [List.mem_singleton] at guard
            have ends := (Argument.span_ofRaw_le slot.text offset).2.2
            rw [guard]
            omega
        · obtain ⟨original, inside, rfl⟩ := List.mem_map.mp own
          have ends := scope.stop_le_of_mem_protectedParts inside
          simp only [Span.moved]
          omega) (by
        intro span
        rw [same span]
        simp only [guards, inner, List.mem_append]
        tauto)
      rw [later]
      rfl

theorem guards_of_open
    {slots : List Slot}
    (isOpen : ∀ slot ∈ slots, slot.isOpen = true)
    (offset : Nat) :
    guards offset slots = [] := by
  induction slots generalizing offset with
  | nil => rfl
  | cons slot rest ih =>
      rw [guards, isOpen slot List.mem_cons_self,
        ih fun other member => isOpen other (List.mem_cons_of_mem _ member)]
      rfl

/-- The candidates of a frame of open slots. -/
theorem candidates_join
    {slots : List Slot}
    (formed : ∀ slot ∈ slots, WellFormed slot.text)
    (isOpen : ∀ slot ∈ slots, slot.isOpen = true) :
    scope.candidates true (join slots) = openCandidates scope 0 0 slots := by
  have found : Invocation.all (join slots) = invocations 0 0 slots := by
    have nothing : Text.IsFence [] := nofun
    have streamed := stream_join formed 0 0 nothing
    rw [List.append_nil] at streamed
    rw [Invocation.all_eq_stream, streamed]
    exact List.append_nil _
  rw [scope.candidates_eq, found]
  apply @filter_invocations scope 0 0 [] (by simp)
  intro span
  rw [Scope.protectedParts, found, flatMap_protectedSpans,
    guards_of_open isOpen]
  simp

theorem all_eq_nil_of_blank
    {text : Text}
    (blank : Text.trim text = []) :
    Invocation.all text = [] := by
  cases found : Invocation.all text with
  | nil => rfl
  | cons invocation rest =>
      have member : invocation ∈ Invocation.all text := by
        rw [found]; exact List.mem_cons_self
      have covered :=
        @contains_ofRaw ⟨text, true⟩ _ (Invocation.within_of_mem_all member) 0
      have empty : (Argument.ofRaw text 0).span.stop =
          (Argument.ofRaw text 0).span.start := by
        simp [Argument.ofRaw, blank]
      have bounds := Span.contains_iff.mp covered
      simp only [empty] at bounds
      omega

theorem invocations_of_isVoid
    {slots : List Slot}
    (void : isVoid slots = true)
    (depth offset : Nat) :
    invocations depth offset slots = [] := by
  match slots, void with
  | [], _ => rfl
  | [slot], blank =>
      have none := all_eq_nil_of_blank (List.isEmpty_iff.mp blank)
      simp [invocations, none]

theorem openCandidates_of_isVoid
    {slots : List Slot}
    (void : isVoid slots = true)
    (depth offset : Nat) :
    openCandidates scope depth offset slots = [] := by
  match slots, void with
  | [], _ => rfl
  | [slot], blank =>
      have none := all_eq_nil_of_blank (List.isEmpty_iff.mp blank)
      simp [openCandidates, scope.candidates_eq, none]

theorem guards_eq
    {isClosed : Nat → Bool} {slots : List Slot} {first : Nat}
    (flags : ∀ index slot, slots[index]? = some slot →
      slot.isOpen = !isClosed (first + index))
    (offset : Nat) :
    ((((arguments offset slots).map (·.span)).zipIdx first).filter
      fun entry => isClosed entry.2).map (·.1) = guards offset slots := by
  induction slots generalizing offset first with
  | nil => rfl
  | cons slot rest ih =>
      have here := flags 0 slot rfl
      have later := @ih (first + 1) (fun index other present => by
        rw [Nat.add_assoc, Nat.add_comm 1 index]
        exact flags (index + 1) other present) (offset + slot.text.length + 2)
      simp only [arguments, List.map_cons, List.zipIdx_cons,
        List.filter_cons, guards]
      rw [Nat.add_zero] at here
      cases closed : isClosed first with
      | true =>
          rw [closed] at here
          simp only [if_true, List.map_cons, later, here]
          rfl
      | false =>
          rw [closed] at here
          simp only [Bool.false_eq_true, if_false, later, here]
          rfl

/-- Whether the argument with an index is used only as written. -/
def isGuarded (definition : Definition) (index : Nat) : Bool :=
  (Scope.parameterFor? definition.parameterList index).any
    (Scope.isRaw definition.body definition.parameterList)

theorem protectedSpans_call
    {name : Text} {definition : Definition}
    (defined : scope.definition? name = some definition)
    (balanced : definition.isUnbalanced = false)
    {slots : List Slot}
    (flags : ∀ index slot, slots[index]? = some slot →
      slot.isOpen = !isGuarded definition index)
    (solid : isVoid slots = false) :
    scope.protectedSpans (call name slots) =
      guards (name.length + 1) slots := by
  have named : (call name slots).name = name := rfl
  have spans : (call name slots).argumentSpans =
      (arguments (name.length + 1) slots).map (·.span) := by
    simp [Invocation.argumentSpans, call, solid]
  have counted : ∀ index slot, slots[index]? = some slot →
      slot.isOpen = !isGuarded definition (0 + index) := by
    intro index slot present
    rw [Nat.zero_add]
    exact flags index slot present
  unfold Scope.protectedSpans
  simp only [named, defined, balanced, Bool.false_eq_true, if_false, spans]
  exact guards_eq counted (name.length + 1)

/-- The candidates of a call that can be expanded: the call, and those of its
open slots. -/
theorem candidates_callText
    {name : Text}
    (identifier : name.isIdentifier = true)
    {definition : Definition}
    (defined : scope.definition? name = some definition)
    (balanced : definition.isUnbalanced = false)
    {slots : List Slot}
    (contained : ∀ slot ∈ slots, slot.text.Contained)
    (flags : ∀ index slot, slots[index]? = some slot →
      slot.isOpen = !isGuarded definition index)
    (candidate : scope.isCandidate true (call name slots) = true) :
    scope.candidates true (callText name slots) =
      call name slots :: openCandidates scope 1 (name.length + 1) slots := by
  have found := all_callText identifier contained
  have parts : scope.protectedParts (callText name slots) =
      scope.protectedSpans (call name slots) ++
        inner scope (name.length + 1) slots := by
    rw [Scope.protectedParts, found, List.filter_cons_of_pos candidate,
      List.flatMap_cons, flatMap_protectedSpans]
  rw [scope.candidates_eq, found, List.filter_cons_of_pos candidate]
  cases void : isVoid slots with
  | true =>
      have noSpans : scope.protectedSpans (call name slots) = [] := by
        apply List.eq_nil_iff_forall_not_mem.mpr
        intro span member
        have listed := scope.mem_protectedSpans member
        simp [Invocation.argumentSpans, call, void] at listed
      have noInner : inner scope (name.length + 1) slots = [] := by
        rw [← flatMap_protectedSpans scope 1, invocations_of_isVoid void]
        rfl
      rw [invocations_of_isVoid void, openCandidates_of_isVoid scope void,
        parts, noSpans, noInner]
      rfl
  | false =>
      rw [protectedSpans_call scope defined balanced flags void] at parts
      have same : ∀ span, span ∈ scope.protectedParts (callText name slots) ↔
          span ∈ [] ∨
          span ∈ guards (name.length + 1) slots ∨
            span ∈ inner scope (name.length + 1) slots := by
        intro span
        rw [parts, List.mem_append]
        simp
      have uncovered : (scope.protectedParts (callText name slots)).any
          (·.contains (call name slots).start) = false := by
        rw [List.any_eq_false]
        intro span member
        have behind : (call name slots).start < span.start := by
          change 0 < span.start
          rcases (same span).mp member with none | guard | own
          · cases none
          · exact Nat.lt_of_lt_of_le (Nat.succ_pos _)
              (le_start_of_mem_guards guard)
          · exact Nat.lt_of_lt_of_le (Nat.succ_pos _)
              (le_start_of_mem_inner scope own)
        rw [Span.contains_eq_false_of_lt_start behind]
        exact Bool.false_ne_true
      have inside :=
        @filter_invocations scope 1 (name.length + 1) [] (by simp) slots _ same
      simp only [List.filter_cons, uncovered, Bool.not_false, if_true, inside]

end Slot

end MacroTrace
