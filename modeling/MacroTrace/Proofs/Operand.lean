import MacroTrace.Proofs.Callback
import MacroTrace.Proofs.Wrapping

/-!
# Operands are used as written

An argument that a macro uses only as an operand of `#` or `##` is not looked
into: whatever it holds, and however deep in it, a pass over the call replaces
the call itself.  A pass and the first step of an expansion therefore put the
same text in its place, made of the arguments as written.
-/

namespace MacroTrace

/-- A macro with parameters, each of which is used, and only as an operand of
`#` or `##`. -/
structure Definition.TakesOperands (definition : Definition)
    (parameters : List Text) : Prop where
  isMacro : definition.isMacro = true
  parameterized : definition.parameters = some parameters
  balanced : definition.isUnbalanced = false
  clean : '\x00' ∉ definition.body
  used : ∀ parameter ∈ parameters,
    Occurrence.contexts definition.body parameters parameter ≠ []
  operand : ∀ parameter ∈ parameters,
    Context.plain ∉ Occurrence.contexts definition.body parameters parameter

namespace Slot

/-- An invocation in closed slots is covered by the slot that it begins in. -/
theorem exists_guard
    {depth offset : Nat} {slots : List Slot}
    (closed : ∀ slot ∈ slots, slot.isOpen = false)
    {invocation : Invocation}
    (member : invocation ∈ invocations depth offset slots) :
    ∃ span ∈ guards offset slots, span.contains invocation.start = true := by
  induction slots generalizing offset with
  | nil => cases member
  | cons slot rest ih =>
      rcases List.mem_append.mp member with here | later
      · obtain ⟨original, found, rfl⟩ := List.mem_map.mp here
        refine ⟨(Argument.ofRaw slot.text offset).span, ?_,
          contains_ofRaw (Invocation.within_of_mem_all found) offset⟩
        simp [guards, closed slot List.mem_cons_self]
      · obtain ⟨span, guard, covers⟩ :=
          ih (fun other member => closed other (List.mem_cons_of_mem _ member))
            later
        exact ⟨span, List.mem_append_right _ guard, covers⟩

/-- A call whose slots are all closed is the only candidate of its text. -/
theorem candidates_of_closed
    (scope : Scope) (withUnbalanced : Bool)
    {name : Text}
    (identifier : name.isIdentifier = true)
    {definition : Definition}
    (defined : scope.definition? name = some definition)
    (balanced : definition.isUnbalanced = false)
    {slots : List Slot}
    (contained : ∀ slot ∈ slots, slot.text.Contained)
    (flags : ∀ index slot, slots[index]? = some slot →
      slot.isOpen = !isGuarded definition index)
    (closed : ∀ slot ∈ slots, slot.isOpen = false)
    (candidate : scope.isCandidate withUnbalanced (call name slots) = true) :
    scope.candidates withUnbalanced (callText name slots) =
      [call name slots] := by
  have found := all_callText identifier contained
  have ahead : ∀ span ∈ scope.protectedSpans (call name slots),
      name.length + 1 ≤ span.start := by
    intro span member
    cases void : isVoid slots with
    | true =>
        have listed := scope.mem_protectedSpans member
        simp [Invocation.argumentSpans, call, void] at listed
    | false =>
        rw [protectedSpans_call scope defined balanced flags void] at member
        exact le_start_of_mem_guards member
  have guarded : ∀ invocation ∈ invocations 1 (name.length + 1) slots,
      ∃ span ∈ scope.protectedSpans (call name slots),
        span.contains invocation.start = true := by
    intro invocation member
    cases void : isVoid slots with
    | true =>
        rw [invocations_of_isVoid void] at member
        cases member
    | false =>
        rw [protectedSpans_call scope defined balanced flags void]
        exact exists_guard closed member
  unfold Scope.candidates
  simp only [found, List.filter_cons_of_pos candidate, List.flatMap_cons]
  have free : ∀ span ∈ scope.protectedSpans (call name slots) ++
      ((invocations 1 (name.length + 1) slots).filter
        (scope.isCandidate withUnbalanced)).flatMap scope.protectedSpans,
      span.contains (call name slots).start = false := by
    intro span member
    apply Span.contains_eq_false_of_lt_start
    change 0 < span.start
    rcases List.mem_append.mp member with own | other
    · exact Nat.lt_of_lt_of_le (Nat.succ_pos _) (ahead span own)
    · -- A call in an argument begins behind the name, and its arguments behind
      -- it.
      obtain ⟨invocation, kept, inside⟩ := List.mem_flatMap.mp other
      have listed := List.mem_of_mem_filter kept
      obtain ⟨guard, protects, covers⟩ := guarded invocation listed
      have whole : invocation ∈ Invocation.all (callText name slots) := by
        rw [found]
        exact List.mem_cons_of_mem _ listed
      have within := Invocation.within_of_mem_all whole
      have behind := (within.spans span (scope.mem_protectedSpans inside)).1
      have first := ahead guard protects
      have begins := (Span.contains_iff.mp covers).1
      omega
  rw [List.filter_cons_of_pos, List.filter_eq_nil_iff.mpr]
  · intro invocation kept
    obtain ⟨span, protects, covers⟩ :=
      guarded invocation (List.mem_of_mem_filter kept)
    rw [Bool.not_eq_true, Bool.not_eq_false', List.any_eq_true]
    exact ⟨span, List.mem_append_left _ protects, covers⟩
  · rw [Bool.not_eq_true', List.any_eq_false]
    intro span member
    rw [free span member]
    exact Bool.false_ne_true

/-- Trimmed arguments are read back from a call, unless the call has an empty
one only. -/
theorem use_call_ofArguments
    (name : Text) (definition : Definition)
    {arguments : List Text}
    (trimmed : ∀ argument ∈ arguments, Text.trim argument = argument)
    (present : arguments ≠ [[]]) :
    (call name (ofArguments definition arguments)).use =
      ⟨name, some arguments⟩ := by
  have texts := map_text_ofArguments definition arguments
  rw [use_call, map_trim_of_present, texts]
  · intro slot member
    apply trimmed
    rw [← texts]
    exact List.mem_map_of_mem member
  · rwa [texts]

end Slot

namespace Definition.TakesOperands

variable {definition : Definition} {parameters : List Text}

theorem parameterList_eq
    (takes : definition.TakesOperands parameters) :
    definition.parameterList = parameters := by
  rw [parameterList, takes.parameterized]
  rfl

theorem isRaw
    (takes : definition.TakesOperands parameters)
    {parameter : Text}
    (member : parameter ∈ parameters) :
    Scope.isRaw definition.body parameters parameter = true := by
  have used := takes.used parameter member
  have operand := takes.operand parameter member
  simp [Scope.isRaw, used, operand]

/-- Every argument of an accepted call is used only as written. -/
theorem closed
    (takes : definition.TakesOperands parameters)
    {arguments : List Text}
    (accepted : definition.accepts (some arguments) = true) :
    ∀ slot ∈ Slot.ofArguments definition arguments, slot.isOpen = false := by
  intro slot member
  obtain ⟨index, present⟩ := List.mem_iff_getElem?.mp member
  rw [Slot.isOpen_of_getElem? present, Bool.not_eq_false', Slot.isGuarded,
    takes.parameterList_eq]
  have nonempty : parameters ≠ [] := by
    rintro rfl
    have none : arguments = [] := by
      simpa [accepts, isVariadic, variadicParameter?, takes.parameterized,
        takes.parameterList_eq] using accepted
    rw [none] at member
    cases member
  have bound : min index (parameters.length - 1) < parameters.length := by
    have positive := List.length_pos_iff.mpr nonempty
    omega
  have found : Scope.parameterFor? parameters index =
      some parameters[min index (parameters.length - 1)] := by
    simp only [Scope.parameterFor?, List.getElem?_eq_getElem bound]
  rw [found, Option.any_some]
  exact takes.isRaw (List.getElem_mem bound)

/-- No use of a parameter is plain. -/
theorem context_ne_plain
    (takes : definition.TakesOperands parameters)
    {occurrence : Occurrence}
    (member : occurrence ∈ Occurrence.all definition.body parameters) :
    occurrence.context ≠ .plain := by
  intro plain
  have bound := Occurrence.parameter_lt_of_mem_all member
  have present : parameters[occurrence.parameter]? =
      some parameters[occurrence.parameter] := by
    simp [bound]
  apply takes.operand _ (List.getElem_mem bound)
  rw [← plain]
  apply List.mem_map_of_mem
  exact List.mem_filter.mpr ⟨member, decide_eq_true present⟩

theorem plainParameters_eq_nil
    (takes : definition.TakesOperands parameters) :
    Substitution.plainParameters definition.body parameters = [] := by
  rw [List.eq_nil_iff_forall_not_mem]
  intro index member
  obtain ⟨occurrence, found, plain, _⟩ :=
    Substitution.mem_plainParameters_iff.mp member
  exact takes.context_ne_plain found plain

/-- The arguments might as well be expanded. -/
theorem apply_eq
    (takes : definition.TakesOperands parameters)
    (arguments : List Text) (plain : Nat → Text) :
    Substitution.apply definition.body parameters arguments plain =
      Substitution.applyRaw definition.body parameters arguments := by
  unfold Substitution.applyRaw
  apply Substitution.apply_congr
  intro occurrence member
  have operand := takes.context_ne_plain member
  unfold Substitution.replacementOf
  cases used : occurrence.context with
  | stringify => rfl
  | paste => rfl
  | plain => exact absurd used operand

end Definition.TakesOperands

section Call

variable {lookup : Lookup} {settings : Settings} {name : Text}
  {definition : Definition}
variable {parameters arguments : List Text}

/-- A call is replaced in a pass, and nothing else. -/
theorem Scope.pass?_of_operands
    {scope : Scope}
    (identifier : name.isIdentifier = true)
    (defined : scope.definition? name = some definition)
    (takes : definition.TakesOperands parameters)
    (accepted : definition.accepts (some arguments) = true)
    (contained : ∀ argument ∈ arguments, argument.Contained)
    (trimmed : ∀ argument ∈ arguments, Text.trim argument = argument)
    (present : arguments ≠ [[]])
    {result : Paste.Result}
    (applied : Substitution.applyRaw definition.body parameters arguments =
      .ok result) :
    scope.pass? settings (Use.mk name (some arguments)).spelling =
      .ok (if result.text = (Use.mk name (some arguments)).spelling then none
        else some ⟨result.text, [name]⟩) := by
  have use := Slot.use_call_ofArguments name definition trimmed present
  have candidate : scope.isCandidate false
      (Slot.call name (Slot.ofArguments definition arguments)) = true := by
    have found : scope.definition?
        (Slot.call name (Slot.ofArguments definition arguments)).name =
          some definition := defined
    simp only [isCandidate, use, found, takes.isMacro, takes.balanced, accepted]
    rfl
  have containedSlots : ∀ slot ∈ Slot.ofArguments definition arguments,
      slot.text.Contained := by
    intro slot member
    apply contained
    rw [← Slot.map_text_ofArguments definition arguments]
    exact List.mem_map_of_mem member
  have only :=
    Slot.candidates_of_closed scope false identifier defined takes.balanced
      containedSlots (fun _ _ => Slot.isOpen_of_getElem?)
      (takes.closed accepted) candidate
  rw [Slot.callText_ofArguments] at only
  have replaced : scope.replacement ⟨name, some arguments⟩ = .ok result := by
    simp only [replacement, defined, takes.balanced, takes.parameterized,
      Option.getD_some, applied]
    rfl
  obtain ⟨next, expanded, written⟩ : ∃ next,
      scope.expandInvocation []
          ⟨(Use.mk name (some arguments)).spelling, [], []⟩
          (Slot.call name (Slot.ofArguments definition arguments)) = .ok next ∧
        next.text = result.text := by
    simp only [expandInvocation, use, replaced]
    refine ⟨_, rfl, ?_⟩
    have start :
        (Slot.call name (Slot.ofArguments definition arguments)).start = 0 :=
      rfl
    have stop : (Slot.call name (Slot.ofArguments definition arguments)).stop =
        (Use.mk name (some arguments)).spelling.length := by
      rw [← Slot.callText_ofArguments name definition]
      rfl
    simp only [start, stop, List.take_zero, List.nil_append, List.drop_length,
      List.append_nil]
  simp only [pass?, only, List.isEmpty_cons, Bool.false_eq_true, if_false,
    Mode.select_singleton, expandInvocations, expanded, written]
  split
  next => rfl
  next => rfl

/-- The first step of an expansion puts the same text in the place of the
call. -/
theorem Scope.expandUse_of_operands
    (defined : (lookup name).head? = some definition)
    (takes : definition.TakesOperands parameters)
    (room : 0 < settings.maxDepth)
    {result : Paste.Result}
    (applied : Substitution.applyRaw definition.body parameters arguments =
      .ok result) :
    ∃ first rest,
      first.target = result.text ∧
        expandUse ⟨lookup, []⟩ settings [] 0 ⟨name, some arguments⟩ [] =
          { rest with steps := first :: rest.steps } ∧
        rest =
          rescan ⟨lookup, []⟩ settings [(Use.mk name (some arguments)).key] 1
          ⟨result.text, [], notePastes lookup [] result.events⟩ := by
  have found : definition? ⟨lookup, []⟩ name = some definition := defined
  have opened :
      firstBody ⟨lookup, []⟩ settings [(Use.mk name (some arguments)).key]
        1 definition
        (some arguments) [] =
          .ok (result, [], "Function-like macro expansion") := by
    simp only [firstBody, takes.parameterized, takes.plainParameters_eq_nil,
      expandArguments, takes.apply_eq, applied]
  refine ⟨⟨(Use.mk name (some arguments)).spelling, result.text, name,
    "Function-like macro expansion", 0⟩, _, rfl, ?_, rfl⟩
  simp only [expandUse, if_neg (Nat.not_le.mpr room), List.contains_nil,
    Bool.false_eq_true, if_false, found, takes.isMacro, Bool.not_true,
    takes.balanced, List.nil_append, Nat.zero_add, opened]

/-- A macro that uses its parameters only as operands of `#` and `##` takes its
arguments as written, whatever the names in them are defined as.  A pass over a
call replaces the call and nothing in it, and the first step of an expansion
puts the same text in its place.  The expansion has a result unless a body that
it meets later holds a placeholder of its own. -/
theorem Expansion.operands_as_written
    (identifier : name.isIdentifier = true)
    (defined : (lookup name).head? = some definition)
    (takes : definition.TakesOperands parameters)
    (accepted : definition.accepts (some arguments) = true)
    (contained : ∀ argument ∈ arguments, argument.Contained)
    (trimmed : ∀ argument ∈ arguments, Text.trim argument = argument)
    (present : arguments ≠ [[]])
    (room : Settings.minDepthLimit ≤ settings.maxDepth) :
    ∃ result,
      Substitution.applyRaw definition.body parameters arguments = .ok result ∧
        (∀ pinned : List (Text × Definition),
          pinned.lookup name = none →
          Scope.pass? ⟨lookup, pinned⟩ settings
              (Use.mk name (some arguments)).spelling =
            .ok (if result.text =
              (Use.mk name (some arguments)).spelling then none
              else some ⟨result.text, [name]⟩)) ∧
        (Scope.expandUse ⟨lookup, []⟩ settings [] 0 ⟨name, some arguments⟩
          []).steps.head?.map (·.target) = some result.text ∧
        ((∃ expansion,
          ofUse lookup settings ⟨name, some arguments⟩ = .ok expansion ∧
            expansion.steps.head?.map (·.target) = some result.text) ∨
          ∃ error,
            ¬ Scope.Clean ⟨lookup, []⟩ ∧
              ofUse lookup settings ⟨name, some arguments⟩ = .error error ∧
              (Scope.rescan ⟨lookup, []⟩ settings
                [(Use.mk name (some arguments)).key] 1
                ⟨result.text, [], notePastes lookup [] result.events⟩).outcome =
                  .error (.placeholder error)) := by
  have applied := Substitution.applyRaw_eq takes.clean parameters arguments
  generalize Paste.apply _ = result at applied
  obtain ⟨first, rest, target, expanded, rescanned⟩ :=
    Scope.expandUse_of_operands defined takes room applied
  refine ⟨result, applied, ?_, ?_, ?_⟩
  · intro pinned unpinned
    have found : Scope.definition? ⟨lookup, pinned⟩ name = some definition := by
      simp only [Scope.definition?, unpinned, defined]
    exact Scope.pass?_of_operands identifier found takes accepted contained
      trimmed present applied
  · rw [expanded]
    exact congrArg some target
  · have selects : Use.Selects lookup ⟨name, some arguments⟩ definition :=
      ⟨defined, takes.isMacro, fun _ => .inr accepted⟩
    have begun := ofUse_of_selects selects settings
    rw [expanded, ofRescan] at begun
    cases outcome : rest.outcome with
    | ok text =>
        rw [outcome] at begun
        exact .inl ⟨_, begun, congrArg some target⟩
    | error failure =>
        rw [outcome] at begun
        cases failure with
        | expansion error => exact .inl ⟨_, begun, congrArg some target⟩
        | placeholder error =>
            refine .inr ⟨error, ?_, begun, rescanned ▸ outcome⟩
            intro clean
            obtain ⟨expansion, made⟩ :=
              ofUse_isOk clean settings ⟨name, some arguments⟩
            rw [begun] at made
            cases made

end Call

/-- A macro for assertions that prints and joins its arguments. -/
def assertMacro : Definition :=
  ⟨"ASSERT".toList, some ["test".toList, "...".toList],
    "#test on_##__VA_ARGS__".toList, "assert.h", 1, true⟩

/-- Next to it, a macro that leads back to itself and an unbalanced one. -/
def assertions : Snapshot :=
  ⟨[assertMacro,
    ⟨"A".toList, some ["x".toList], "A(x) + B".toList, "assert.h", 2, true⟩,
    ⟨"B".toList, none, Definition.unbalancedMark ++ "(".toList,
      "assert.h", 3, true⟩]⟩

/-- Calls of the other macros, some of them inside others, stay as they are. -/
theorem Expansion.operands_as_written_assertions :
    Scope.pass? ⟨assertions.lookup, []⟩ Settings.default
      "ASSERT(A(A(B)), B, A(1))".toList =
        .ok (some ⟨"\"A(A(B))\" on_B, A(1)".toList, ["ASSERT".toList]⟩) ∧
      (Scope.expandUse ⟨assertions.lookup, []⟩ Settings.default [] 0
        ⟨"ASSERT".toList, some ["A(A(B))".toList, "B".toList, "A(1)".toList]⟩
        []).steps.head?.map
          (·.target) = some "\"A(A(B))\" on_B, A(1)".toList := by
  have takes : assertMacro.TakesOperands ["test".toList, "...".toList] :=
    ⟨rfl, rfl, by decide, by decide, by decide, by decide⟩
  have contained : ∀ argument ∈ ["A(A(B))".toList, "B".toList, "A(1)".toList],
      Text.Contained argument := by
    intro argument member
    apply Text.Contained.of_not_mem
    · revert argument
      decide
    · revert argument
      decide
  have applied :
      Substitution.applyRaw assertMacro.body ["test".toList, "...".toList]
        ["A(A(B))".toList, "B".toList, "A(1)".toList] =
          .ok ⟨"\"A(A(B))\" on_B, A(1)".toList,
            [⟨"on_B".toList, ["on_".toList, "B".toList]⟩]⟩ := by
    decide +kernel
  have defined : (assertions.lookup "ASSERT".toList).head? =
      some assertMacro := by decide
  have accepted :
      assertMacro.accepts (some ["A(A(B))".toList, "B".toList, "A(1)".toList]) =
        true := by
    decide
  have room : Settings.minDepthLimit ≤ Settings.default.maxDepth := by decide
  obtain ⟨result, same, pass, first, _⟩ :=
    operands_as_written (by decide) defined takes accepted contained (by decide)
      (by decide) room
  rw [applied] at same
  cases same
  exact ⟨pass [] rfl, first⟩

end MacroTrace
