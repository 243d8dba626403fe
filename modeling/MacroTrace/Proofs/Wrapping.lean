import MacroTrace.Proofs.Evaluation
import MacroTrace.Proofs.FrameRun

/-!
# Calls inside other macros

A call can be expanded directly, which expands its arguments first and then
replaces the parameters, or as the body of another macro, where passes expand
the arguments in their places before the call.  Both ways end with the same text
if the arguments stay in their places.
-/

namespace MacroTrace

namespace Text

theorem holds_eq_false_of_not_mem
    {text : Text}
    (absent : '#' ∉ text) :
    holds ['#', '#'] text = false := by
  induction text with
  | nil => rfl
  | cons c rest ih =>
      rw [List.mem_cons, not_or] at absent
      rw [holds, ih absent.2]
      simp [List.isPrefixOf, absent.1]

theorem holds_append_cons
    {front rest : Text} {c : Char}
    (different : c ≠ '#')
    (noFront : holds ['#', '#'] front = false)
    (noRest : holds ['#', '#'] rest = false) :
    holds ['#', '#'] (front ++ c :: rest) = false := by
  induction front with
  | nil =>
      rw [List.nil_append, holds, noRest]
      simp [List.isPrefixOf, different.symm]
  | cons first front ih =>
      rw [holds, Bool.or_eq_false_iff] at noFront
      rw [List.cons_append, holds, ih noFront.2, Bool.or_false]
      cases front with
      | nil => simp [List.isPrefixOf, different.symm]
      | cons second front => exact noFront.1

theorem holds_joinWith
    {texts : List Text}
    (none : ∀ text ∈ texts, holds ['#', '#'] text = false) :
    holds ['#', '#'] (joinWith [',', ' '] texts) = false := by
  match texts with
  | [] => rfl
  | [text] => simpa [joinWith] using none text (by simp)
  | first :: second :: rest =>
      have later : holds ['#', '#'] (joinWith [',', ' '] (second :: rest)) =
          false :=
        holds_joinWith fun text member =>
          none text (List.mem_cons_of_mem _ member)
      have shape : joinWith [',', ' '] (first :: second :: rest) =
          first ++ ',' ::
            ([] ++ ' ' :: joinWith [',', ' '] (second :: rest)) := by
        simp [joinWith, List.intercalate_cons_cons]
      rw [shape]
      apply holds_append_cons (by decide) (none first (by simp))
      exact holds_append_cons (by decide) rfl later

end Text

namespace Slot

variable {scope : Scope} {mode : Mode} {definition : Definition}

/-- The arguments of a call; those used only as written are closed. -/
def ofArguments (definition : Definition) (arguments : List Text) : List Slot :=
  arguments.mapIdx fun index argument => ⟨argument, !isGuarded definition index⟩

theorem map_text_ofArguments (definition : Definition) (arguments : List Text) :
    (ofArguments definition arguments).map (·.text) = arguments := by
  apply List.ext_getElem?
  intro index
  simp [ofArguments, Function.comp_def]

theorem callText_ofArguments
    (name : Text) (definition : Definition) (arguments : List Text) :
    callText name (ofArguments definition arguments) =
      (Use.mk name (some arguments)).spelling := by
  rw [callText, join, map_text_ofArguments]
  rfl

theorem isOpen_of_getElem?
    {arguments : List Text} {index : Nat} {slot : Slot}
    (present : (ofArguments definition arguments)[index]? = some slot) :
    slot.isOpen = !isGuarded definition index := by
  rw [ofArguments, List.getElem?_mapIdx, Option.map_eq_some_iff] at present
  obtain ⟨argument, _, rfl⟩ := present
  rfl

/-- The slots that a parameter takes its text from. -/
def taken (parameters : List Text) (parameter : Nat)
    (slots : List Slot) : List Slot :=
  if parameters[parameter]?.any ellipsis.isSuffixOf then slots.drop parameter
  else (slots.drop parameter).take 1

theorem getD_values
    {parameters : List Text} {parameter : Nat}
    (bound : parameter < parameters.length)
    (slots : List Slot) :
    (Substitution.values parameters (slots.map (·.text)))[parameter]?.getD [] =
      join (taken parameters parameter slots) := by
  have present : parameters[parameter]? = some parameters[parameter] := by
    simp [bound]
  have single : (slots.map (·.text))[parameter]?.getD [] =
      join ((slots.drop parameter).take 1) := by
    rw [List.getElem?_map, ← List.head?_drop]
    cases slots.drop parameter with
    | nil => rfl
    | cons slot rest => simp
  rw [Substitution.values, List.getElem?_map, List.getElem?_zipIdx, present,
    taken, present]
  simp only [Option.map_some, Option.getD_some, Option.any_some,
    Nat.zero_add, single]
  split
  · rw [join, ← List.map_drop]
  · rfl

theorem exists_of_mem_taken
    {parameters : List Text} {parameter : Nat} {slots : List Slot}
    {slot : Slot}
    (member : slot ∈ taken parameters parameter slots) :
    ∃ index, slots[index]? = some slot ∧ parameter ≤ index ∧
      (index = parameter ∨
        parameters[parameter]?.any ellipsis.isSuffixOf = true) := by
  unfold taken at member
  split at member
  next variadic =>
    obtain ⟨further, present⟩ := List.mem_iff_getElem?.mp member
    rw [List.getElem?_drop] at present
    exact ⟨parameter + further, present, Nat.le_add_right _ _, .inr variadic⟩
  next =>
    rw [List.take_one, List.head?_drop, Option.mem_toList] at member
    exact ⟨parameter, member, Nat.le_refl _, .inl rfl⟩

theorem mem_of_mem_taken
    {parameters : List Text} {parameter : Nat} {slots : List Slot}
    {slot : Slot}
    (member : slot ∈ taken parameters parameter slots) :
    slot ∈ slots := by
  obtain ⟨index, found, _⟩ := exists_of_mem_taken member
  exact List.mem_of_getElem? found

theorem forall₂_taken
    {relation : Slot → Slot → Prop} {slots others : List Slot}
    (each : List.Forall₂ relation slots others)
    (parameters : List Text) (parameter : Nat) :
    List.Forall₂ relation (taken parameters parameter slots)
      (taken parameters parameter others) := by
  unfold taken
  split
  · exact List.forall₂_drop parameter each
  · exact List.forall₂_take 1 (List.forall₂_drop parameter each)

/-- If only the last parameter is variadic, an argument is guarded for the sake
of the parameter that takes it. -/
theorem isOpen_of_mem_taken
    {arguments : List Text} {parameter : Nat} {text : Text}
    (variadic : ∀ text ∈ definition.parameterList.dropLast,
      ellipsis.isSuffixOf text = false)
    (present : definition.parameterList[parameter]? = some text)
    {slot : Slot}
    (member : slot ∈
      taken definition.parameterList parameter
        (ofArguments definition arguments)) :
    slot.isOpen =
      !Scope.isRaw definition.body definition.parameterList text := by
  obtain ⟨index, found, order, kind⟩ := exists_of_mem_taken member
  have bound := (List.getElem?_eq_some_iff.mp present).1
  have place : min index (definition.parameterList.length - 1) = parameter := by
    rcases kind with rfl | takesAll
    · omega
    · have last : ¬ parameter < definition.parameterList.length - 1 := by
        intro earlier
        have inFront : text ∈ definition.parameterList.dropLast := by
          apply List.mem_of_getElem? (i := parameter)
          rw [List.getElem?_dropLast, if_pos earlier, present]
        rw [present, Option.any_some, variadic text inFront] at takesAll
        cases takesAll
      omega
  rw [isOpen_of_getElem? found, isGuarded, Scope.parameterFor?, place, present,
    Option.any_some]

end Slot

namespace Occurrence

theorem parameter_lt_of_mem_all
    {body : Text} {parameters : List Text} {occurrence : Occurrence}
    (member : occurrence ∈ all body parameters) :
    occurrence.parameter < parameters.length := by
  obtain ⟨word, _, made⟩ := List.mem_filterMap.mp member
  split at made
  next => cases made
  next index found =>
    split at made
    next => cases made
    next =>
      cases made
      obtain ⟨entry, entryFound, rfl⟩ := Option.map_eq_some_iff.mp found
      have listed := List.mem_reverse.mp (List.mem_of_find?_eq_some entryFound)
      have bound : entry.2 < parameters.length := by
        simpa using List.snd_lt_of_mem_zipIdx listed
      exact bound

end Occurrence

theorem Definition.accepts_congr
    (definition : Definition)
    {arguments others : List Text}
    (count : arguments.length = others.length) :
    definition.accepts (some arguments) = definition.accepts (some others) := by
  have empty : arguments.isEmpty = others.isEmpty := by
    rw [Bool.eq_iff_iff, List.isEmpty_iff_length_eq_zero,
      List.isEmpty_iff_length_eq_zero, count]
  cases given : definition.parameters with
  | none => simp only [accepts, given]
  | some parameters => simp only [accepts, given, count, empty]

namespace Scope

variable {scope : Scope} {mode : Mode} {definition : Definition}
  {arguments : List Text}

/-- The arguments of a call can be expanded in their places: every slot stays in
its place, what is taken by operands of `#` and `##` has nothing to expand or is
closed, and a lone argument that comes to nothing may be left out.  Only the
last parameter may be variadic. -/
structure KeepsPlaces (scope : Scope) (mode : Mode) (definition : Definition)
    (arguments : List Text) : Prop where
  slots : ∀ slot ∈ Slot.ofArguments definition arguments,
    Slot.InPlace scope mode slot
  operands :
    ∀ occurrence ∈ Occurrence.all definition.body definition.parameterList,
      occurrence.context ≠ .plain →
        ∀ slot ∈ Slot.taken definition.parameterList occurrence.parameter
          (Slot.ofArguments definition arguments), Slot.Rests scope slot
  lone : ∀ final,
    List.Forall₂ (Slot.EndsAs scope mode)
      (Slot.ofArguments definition arguments)
    [final] → final.text = [] → definition.accepts (some []) = true
  variadic : ∀ parameter ∈ definition.parameterList.dropLast,
    ellipsis.isSuffixOf parameter = false

theorem KeepsPlaces.isOpen_of_plain
    (keeps : scope.KeepsPlaces mode definition arguments)
    {occurrence : Occurrence}
    (member : occurrence ∈
      Occurrence.all definition.body definition.parameterList)
    (isPlain : occurrence.context = .plain)
    {slot : Slot}
    (inside : slot ∈ Slot.taken definition.parameterList occurrence.parameter
      (Slot.ofArguments definition arguments)) :
    slot.isOpen = true := by
  have bound := Occurrence.parameter_lt_of_mem_all member
  have present : definition.parameterList[occurrence.parameter]? =
      some definition.parameterList[occurrence.parameter] := by simp [bound]
  have used : Context.plain ∈
      Occurrence.contexts definition.body definition.parameterList
      definition.parameterList[occurrence.parameter] := by
    rw [← isPlain]
    exact List.mem_map_of_mem (List.mem_filter.mpr ⟨member, by simp [present]⟩)
  have notRaw : Scope.isRaw definition.body definition.parameterList
      definition.parameterList[occurrence.parameter] = false := by
    simp [Scope.isRaw, used]
  rw [Slot.isOpen_of_mem_taken keeps.variadic present inside, notRaw]
  rfl

/-- The replacement of a call with arguments that were expanded before is that
of a call with arguments that came to their ends in their places. -/
theorem KeepsPlaces.apply_eq
    {settings : Settings}
    (keeps : scope.KeepsPlaces settings.mode definition arguments)
    {plain : Nat → Text}
    (reduces :
      ∀ index ∈
        Substitution.plainParameters definition.body definition.parameterList,
          scope.Reduces settings
        ((Substitution.values definition.parameterList arguments)[index]?.getD
          []) (plain index))
    {finals : List Slot}
    (ends : List.Forall₂ (Slot.EndsAs scope settings.mode)
      (Slot.ofArguments definition arguments) finals) :
    Substitution.apply definition.body definition.parameterList
        arguments plain =
      Substitution.applyRaw definition.body definition.parameterList
        (finals.map (·.text)) := by
  unfold Substitution.applyRaw
  apply Substitution.apply_congr
  intro occurrence member
  have bound := Occurrence.parameter_lt_of_mem_all member
  have value := Slot.getD_values bound (Slot.ofArguments definition arguments)
  rw [Slot.map_text_ofArguments] at value
  have finalValue := Slot.getD_values bound finals
  have endsTaken :=
    Slot.forall₂_taken ends definition.parameterList occurrence.parameter
  have operand (raw : occurrence.context ≠ .plain) :
      (Substitution.values definition.parameterList
          arguments)[occurrence.parameter]?.getD [] =
        (Substitution.values definition.parameterList
          (finals.map (·.text)))[occurrence.parameter]?.getD [] := by
    rw [value, finalValue,
      Slot.eq_of_endsAs (keeps.operands occurrence member raw) endsTaken]
  have expanded (isPlain : occurrence.context = .plain) :
      plain occurrence.parameter =
        (Substitution.values definition.parameterList
          (finals.map (·.text)))[occurrence.parameter]?.getD [] := by
    have asked : occurrence.parameter ∈
        Substitution.plainParameters definition.body
          definition.parameterList := by
      rw [Substitution.plainParameters, List.mem_eraseDups]
      exact List.mem_map_of_mem
        (List.mem_filter.mpr ⟨member, by simpa using isPlain⟩)
    obtain ⟨_, _, passes, settled⟩ := reduces occurrence.parameter asked
    obtain ⟨ending, endsAlone, last⟩ :=
      Slot.exists_endsAs_of_join passes.reaches settled
        (fun slot inside => keeps.slots slot (Slot.mem_of_mem_taken inside))
        (fun slot inside => keeps.isOpen_of_plain member isPlain inside) value
    rw [finalValue, last, Slot.endsAs_unique endsAlone endsTaken]
  unfold Substitution.replacementOf
  cases context : occurrence.context with
  | stringify => simp only [operand (by simp [context])]
  | paste => exact operand (by simp [context])
  | plain => exact expanded context

end Scope

namespace Slot

variable {scope : Scope} {mode : Mode} {definition : Definition}
  {arguments : List Text}

theorem use_call (name : Text) (slots : List Slot) :
    (call name slots).use =
      ⟨name,
        some (if isVoid slots then [] else
          slots.map fun slot => Text.trim slot.text)⟩ := by
  rw [← map_text_arguments (name.length + 1) slots]
  cases void : isVoid slots <;> simp [Invocation.use, call, void]

/-- Passing nothing and passing an empty argument are the same. -/
theorem values_of_isVoid
    {slots : List Slot}
    (trimmed : ∀ slot ∈ slots, Text.trim slot.text = slot.text)
    (parameters : List Text) :
    Substitution.values parameters (if isVoid slots then [] else
        slots.map (·.text)) =
      Substitution.values parameters (slots.map (·.text)) := by
  cases void : isVoid slots with
  | false => rfl
  | true =>
      match slots, void with
      | [], _ => rfl
      | [slot], blank =>
          have empty : slot.text = [] := by
            rw [← trimmed slot (by simp)]
            exact List.isEmpty_iff.mp blank
          simp only [if_true, List.map_cons, List.map_nil, empty]
          apply List.map_congr_left
          intro entry _
          obtain ⟨parameter, index⟩ := entry
          cases index <;> simp [Text.joinWith]

theorem accepts_of_becomes
    (keeps : scope.KeepsPlaces mode definition arguments)
    (accepted : definition.accepts (some arguments) = true)
    {laters : List Slot}
    (becomes : List.Forall₂ (Becomes scope mode)
      (ofArguments definition arguments) laters)
    (name : Text) :
    definition.accepts (call name laters).use.arguments = true := by
  have count : arguments.length = laters.length := by
    rw [← becomes.length_eq, ← List.length_map (fun slot : Slot => slot.text),
      map_text_ofArguments]
  have sameCount {texts : List Text} (length : texts.length = laters.length) :
      definition.accepts (some texts) = true := by
    rw [← accepted]
    exact definition.accepts_congr (length.trans count.symm)
  rw [use_call]
  cases void : isVoid laters with
  | false => exact sameCount (by simp)
  | true =>
      match laters, void with
      | [], _ => exact sameCount rfl
      | [later], blank =>
          have empty : Text.trim later.text = [] := List.isEmpty_iff.mp blank
          have rests : Rests scope later := by
            intro _
            rw [scope.candidates_eq, all_eq_nil_of_blank empty]
            rfl
          have ends :
              List.Forall₂ (EndsAs scope mode)
                (ofArguments definition arguments) [later] := by
            generalize ofArguments definition arguments = slots at becomes
            cases becomes with
            | cons here none =>
                cases none
                exact .cons ⟨here, rests⟩ .nil
          have trimmed := trimmed_of_endsAs keeps.slots ends later (by simp)
          exact keeps.lone later ends (trimmed.symm.trans empty)

theorem callable_ofArguments
    {lookup : Lookup} {name : Text}
    (keeps : Scope.KeepsPlaces ⟨lookup, []⟩ mode definition arguments)
    (identifier : name.isIdentifier = true)
    (selects : Use.Selects lookup ⟨name, some arguments⟩ definition)
    (balanced : definition.isUnbalanced = false) :
    Callable ⟨lookup, []⟩ mode name definition
      (ofArguments definition arguments) := by
  have accepted : definition.accepts (some arguments) = true := by
    rcases selects.matching rfl with unbalanced | accepted
    · rw [balanced] at unbalanced
      cases unbalanced
    · exact accepted
  refine ⟨identifier, selects.defined, balanced, ?_, ?_⟩
  · intro index slot present
    exact isOpen_of_getElem? present
  · intro laters becomes
    have defined : Scope.definition? ⟨lookup, []⟩ (call name laters).name =
        some definition :=
      selects.defined
    simp only [Scope.isCandidate, defined, selects.isMacro, balanced,
      accepts_of_becomes keeps accepted becomes name]
    rfl

end Slot

/-- A macro without parameters whose body is a use. -/
structure Use.WrappedBy (lookup : Lookup) (use : Use) (name : Text)
    (wrapper : Definition) :
    Prop where
  defined : (lookup name).head? = some wrapper
  isMacro : wrapper.isMacro = true
  bare : wrapper.parameters = none
  body : wrapper.body = use.spelling

namespace Expansion

variable {lookup : Lookup} {settings : Settings} {use : Use}
  {definition : Definition} {expansion : Expansion}

/-- The first text of a macro that stands for a call is the call as it is
written. -/
theorem target_of_wrappedBy
    {name wrapperName : Text} {arguments : List Text} {wrapper : Definition}
    {first : Step} {rest : List Step} {last : Text}
    (identifier : name.isIdentifier = true)
    (unpasted : ∀ argument ∈ arguments, Text.holds ['#', '#'] argument = false)
    (wrapped : Use.WrappedBy lookup ⟨name, some arguments⟩ wrapperName wrapper)
    (run : Run lookup settings ⟨wrapperName, none⟩ wrapper first rest last) :
    first.target = (Use.mk name (some arguments)).spelling := by
  obtain ⟨result, opens, target⟩ := run.opens
  have noHash : '#' ∉ name := by
    intro member
    rw [Text.isIdentifier, Bool.and_eq_true, List.all_eq_true] at identifier
    exact absurd (identifier.2 '#' member) (by decide)
  have noPaste : Text.holds ['#', '#'] (Use.mk name (some arguments)).spelling =
      false := by
    apply Text.holds_append_cons (by decide)
      (Text.holds_eq_false_of_not_mem noHash)
    exact Text.holds_append_cons (by decide) (Text.holds_joinWith unpasted) rfl
  cases opens with
  | bare =>
      rw [target, Paste.apply, wrapped.body,
        if_neg (by rw [noPaste]; exact Bool.false_ne_true)]

/-- A call whose slots came to their ends has the replacement that the call has
at the start of its own expansion. -/
theorem replacement_of_endsAs
    {name : Text} {arguments : List Text}
    (keeps : Scope.KeepsPlaces ⟨lookup, []⟩ settings.mode definition arguments)
    (selects : Use.Selects lookup ⟨name, some arguments⟩ definition)
    (balanced : definition.isUnbalanced = false)
    {result : Paste.Result}
    (opens :
      Scope.Opens ⟨lookup, []⟩ settings definition (some arguments) result)
    {finals : List Slot}
    (ends : List.Forall₂ (Slot.EndsAs ⟨lookup, []⟩ settings.mode)
      (Slot.ofArguments definition arguments) finals) :
    Scope.replacement ⟨lookup, []⟩ (Slot.call name finals).use =
      .ok result := by
  have trimmed := Slot.trimmed_of_endsAs keeps.slots ends
  have texts : (finals.map fun slot => Text.trim slot.text) =
      finals.map (·.text) :=
    List.map_congr_left trimmed
  have defined : Scope.definition? ⟨lookup, []⟩ name = some definition :=
    selects.defined
  cases opens with
  | @called parameters _ plain _ parameterized reduces applied =>
      have listed : definition.parameterList = parameters := by
        simp [Definition.parameterList, parameterized]
      rw [← listed] at reduces applied
      have raw := keeps.apply_eq reduces ends
      rw [applied, ← Substitution.applyRaw_congr
        (Slot.values_of_isVoid trimmed definition.parameterList), listed] at raw
      rw [Slot.use_call, texts]
      simp only [Scope.replacement, defined, balanced, parameterized,
        Option.getD_some, ← raw]
      rfl
  | bare without =>
      rcases without with bare | none
      · rcases selects.matching rfl with unbalanced | accepted
        · rw [balanced] at unbalanced
          cases unbalanced
        · simp [Definition.accepts, bare] at accepted
      · cases none

/-- Expanding a call and expanding a macro that stands for it end with the same
text, if the arguments of the call can be expanded in their places. -/
theorem finalText_eq_of_wrappedBy
    {name wrapperName : Text} {arguments : List Text} {wrapper : Definition}
    {direct nested : Expansion}
    (identifier : name.isIdentifier = true)
    (selects : Use.Selects lookup ⟨name, some arguments⟩ definition)
    (balanced : definition.isUnbalanced = false)
    (unpasted : ∀ argument ∈ arguments, Text.holds ['#', '#'] argument = false)
    (keeps : Scope.KeepsPlaces ⟨lookup, []⟩ settings.mode definition arguments)
    (wrapped : Use.WrappedBy lookup ⟨name, some arguments⟩ wrapperName wrapper)
    (expanded : ofUse lookup settings ⟨name, some arguments⟩ = .ok direct)
    (complete : direct.error = none)
    (expandedNested : ofUse lookup settings ⟨wrapperName, none⟩ = .ok nested)
    (completeNested : nested.error = none) :
    direct.finalText = nested.finalText := by
  have selectsWrapper : Use.Selects lookup ⟨wrapperName, none⟩ wrapper :=
    ⟨wrapped.defined, wrapped.isMacro, nofun⟩
  obtain ⟨first, rest, last, run, settled, _, final⟩ :=
    (outcome_of_ofUse expanded).exists_run selects complete
  obtain ⟨firstNested, restNested, lastNested, runNested, settledNested, _,
      finalNested⟩ :=
    (outcome_of_ofUse expandedNested).exists_run selectsWrapper completeNested
  have written : firstNested.target =
      Slot.callText name (Slot.ofArguments definition arguments) := by
    rw [target_of_wrappedBy identifier unpasted wrapped runNested,
      Slot.callText_ofArguments]
  obtain ⟨finals, resultNested, ends, replaced, further⟩ :=
    (Slot.callable_ofArguments keeps identifier selects balanced).exists_endsAs
      keeps.slots runNested.passes.reaches settledNested written
  obtain ⟨result, opens, target⟩ := run.opens
  rw [replacement_of_endsAs keeps selects balanced opens ends] at replaced
  obtain rfl := Except.ok.inj replaced
  have reaches := run.passes.reaches
  rw [target] at reaches
  rw [final, finalNested, reaches.unique settled further settledNested]

/-- The end of a macro that stands for a use. -/
theorem endsWith_wrapper
    {name text : Text} {wrapper : Definition}
    (wrapped : use.WrappedBy lookup name wrapper)
    (balanced : wrapper.isUnbalanced = false)
    (unpasted : Text.holds ['#', '#'] use.spelling = false)
    (finishes : Scope.Finishes ⟨lookup, []⟩ Settings.default [name] 1
      ⟨use.spelling, [], []⟩ text)
    (simple : Group.simplify text = text) :
    EndsWith lookup ⟨name, none⟩ text := by
  have selects : Use.Selects lookup ⟨name, none⟩ wrapper :=
    ⟨wrapped.defined, wrapped.isMacro, nofun⟩
  have opened :
      Scope.firstBody ⟨lookup, []⟩ Settings.default [name] 1 wrapper none [] =
        .ok (⟨use.spelling, []⟩, [], "Object-like macro expansion") := by
    simp only [Scope.firstBody, wrapped.bare, wrapped.body, Paste.apply,
      unpasted]
    rfl
  exact endsWith_of_finishes selects balanced opened finishes simple

/-- A macro that uses its first argument as written and its second one
expanded. -/
def pairMacro : Definition :=
  ⟨"PAIR".toList, some ["x".toList, "y".toList], "#x [y]".toList, "quotes.h", 1,
    true⟩

/-- A macro that uses its argument in both ways. -/
def showMacro : Definition :=
  ⟨"SHOW".toList, some ["x".toList], "#x x".toList, "quotes.h", 2, true⟩

def pairCall : Use :=
  ⟨"PAIR".toList, some ["A".toList, "A".toList]⟩

def showCall : Use :=
  ⟨"SHOW".toList, some ["A".toList]⟩

def pairWrapper : Definition :=
  ⟨"V".toList, none, "PAIR(A, A)".toList, "quotes.h", 4, true⟩

def showWrapper : Definition :=
  ⟨"W".toList, none, "SHOW(A)".toList, "quotes.h", 5, true⟩

def quotes : Snapshot :=
  ⟨[pairMacro, showMacro,
    ⟨"A".toList, none, "1".toList, "quotes.h", 3, true⟩, pairWrapper,
    showWrapper]⟩

private theorem replacement_argument :
    Scope.replacement ⟨quotes.lookup, []⟩ ⟨"A".toList, none⟩ =
      .ok ⟨"1".toList, []⟩ :=
  rfl

private theorem finishes_argument
    {chain : List Text}
    (fresh : chain.contains "A".toList = false) :
    Scope.Finishes ⟨quotes.lookup, []⟩ Settings.default chain 1
      ⟨"A".toList, [], []⟩ "1".toList := by
  have selected : Settings.default.mode.select
      (Scope.candidates ⟨quotes.lookup, []⟩ true "A".toList) =
        [⟨"A".toList, none, 0, 1, 0⟩] := rfl
  refine Scope.finishes_of_single selected (by decide) ?_ replacement_argument
    (by decide) ?_
  · rw [Region.chainAt, List.find?_nil, Option.map_none, Option.getD_none,
      List.append_nil]
    exact fresh
  · exact Scope.finishes_of_candidates_eq_nil rfl

private theorem selects_pairCall :
    pairCall.Selects quotes.lookup pairMacro :=
  ⟨rfl, rfl, fun _ => .inr rfl⟩

private theorem wrappedBy_pairWrapper :
    pairCall.WrappedBy quotes.lookup "V".toList pairWrapper :=
  ⟨rfl, rfl, rfl, rfl⟩

private theorem endsWith_pairCall :
    EndsWith quotes.lookup pairCall "\"A\" [1]".toList := by
  have replaced :
      Substitution.replaced pairMacro.body pairMacro.parameterList
        ["A".toList, "A".toList]
        (fun other => ([(1, "1".toList)].lookup other).getD []) =
          "\"A\" [1]".toList := by decide +kernel
  exact endsWith_call selects_pairCall rfl rfl rfl (by decide) rfl rfl
    (finishes_argument (by decide)) replaced rfl
    (Scope.finishes_of_candidates_eq_nil rfl) (by cbv)

private theorem endsWith_pairWrapper :
    EndsWith quotes.lookup ⟨"V".toList, none⟩ "\"A\" [1]".toList := by
  have replaced :
      Substitution.replaced pairMacro.body pairMacro.parameterList
        ["A".toList, "1".toList]
        (fun index => (Substitution.values pairMacro.parameterList
          ["A".toList, "1".toList])[index]?.getD []) =
            "\"A\" [1]".toList := by decide +kernel
  have call : Scope.replacement ⟨quotes.lookup, []⟩
      ⟨"PAIR".toList, some ["A".toList, "1".toList]⟩ =
        .ok ⟨"\"A\" [1]".toList, []⟩ :=
    Scope.replacement_of_replaced selects_pairCall.defined rfl rfl (by decide)
      replaced rfl
  have inside : Settings.default.mode.select
      (Scope.candidates ⟨quotes.lookup, []⟩ true "PAIR(A, A)".toList) =
        [⟨"A".toList, none, 8, 9, 1⟩] := rfl
  have around : Settings.default.mode.select
      (Scope.candidates ⟨quotes.lookup, []⟩ true "PAIR(A, 1)".toList) =
        [⟨"PAIR".toList, some [⟨"A".toList, ⟨5, 6⟩⟩, ⟨"1".toList, ⟨8, 9⟩⟩],
          0, 10, 0⟩] := rfl
  have finishes : Scope.Finishes ⟨quotes.lookup, []⟩ Settings.default
      ["V".toList] 1 ⟨"PAIR(A, A)".toList, [], []⟩ "\"A\" [1]".toList := by
    apply Scope.finishes_of_single inside (by decide) rfl replacement_argument
      (by decide)
    refine Scope.finishes_of_single around (by decide) ?_ call (by decide) ?_
    · cbv
    · exact Scope.finishes_of_candidates_eq_nil rfl
  exact endsWith_wrapper wrappedBy_pairWrapper rfl rfl finishes (by cbv)

private theorem contained_name : Text.Contained "A".toList :=
  .of_not_mem (by decide) (by decide)

private theorem keepsPlaces_pairCall :
    Scope.KeepsPlaces ⟨quotes.lookup, []⟩ Settings.default.mode pairMacro
      ["A".toList, "A".toList] := by
  have slots : Slot.ofArguments pairMacro ["A".toList, "A".toList] =
      [⟨"A".toList, false⟩, ⟨"A".toList, true⟩] := by decide
  have occurrences : Occurrence.all pairMacro.body pairMacro.parameterList =
      [⟨0, 2, 0, .stringify⟩, ⟨4, 5, 1, .plain⟩] := by decide
  have closed : Slot.Rests ⟨quotes.lookup, []⟩ ⟨"A".toList, false⟩ := nofun
  have passes :
      Scope.Pass ⟨quotes.lookup, []⟩ Settings.default.mode
        "A".toList "1".toList :=
    ⟨by decide, rfl⟩
  have atRest : Slot.Rests ⟨quotes.lookup, []⟩ ⟨"1".toList, true⟩ :=
    fun _ => rfl
  constructor
  · rw [slots, List.forall_mem_cons, List.forall_mem_singleton]
    refine ⟨.of_rests closed contained_name (by decide), ?_⟩
    apply Slot.InPlace.of_pass passes (by decide) contained_name
    exact .of_rests atRest (.of_not_mem (by decide) (by decide)) (by decide)
  · rw [occurrences, slots, List.forall_mem_cons, List.forall_mem_singleton]
    refine ⟨fun _ => ?_, fun operand => absurd rfl operand⟩
    intro slot member
    cases List.mem_singleton.mp member
    exact closed
  · intro final ends
    rw [slots] at ends
    cases ends with
    | cons here later => cases later
  · decide

theorem finalText_eq_of_wrappedBy_pairCall :
    ∃ direct nested, ofUse quotes.lookup Settings.default pairCall =
      .ok direct ∧
      direct.error = none ∧
      ofUse quotes.lookup Settings.default ⟨"V".toList, none⟩ = .ok nested ∧
      nested.error = none ∧
      pairCall.WrappedBy quotes.lookup "V".toList pairWrapper ∧
      Scope.KeepsPlaces ⟨quotes.lookup, []⟩ Settings.default.mode pairMacro
        ["A".toList, "A".toList] ∧
      direct.finalText = nested.finalText := by
  obtain ⟨direct, expanded, complete, _⟩ := endsWith_pairCall
  obtain ⟨nested, expandedNested, completeNested, _⟩ := endsWith_pairWrapper
  exact ⟨direct, nested, expanded, complete, expandedNested, completeNested,
    wrappedBy_pairWrapper, keepsPlaces_pairCall,
    finalText_eq_of_wrappedBy (by decide) selects_pairCall rfl (by decide)
      keepsPlaces_pairCall wrappedBy_pairWrapper expanded complete
      expandedNested completeNested⟩

/-- A call with separate arguments and a macro that stands for it end with
different texts. -/
structure Departs (lookup : Lookup) (use : Use)
    (definition wrapper : Definition) (direct nested : Text) : Prop where
  selects : use.Selects lookup definition
  balanced : definition.isUnbalanced = false
  listed : ∀ argument ∈ use.arguments.getD [],
    Text.trim argument = argument ∧ argument.Contained ∧
      Text.holds ['#', '#'] argument = false
  wrapped : use.WrappedBy lookup wrapper.name wrapper
  ends : EndsWith lookup use direct
  endsNested : EndsWith lookup ⟨wrapper.name, none⟩ nested
  differs : direct ≠ nested

private theorem endsWith_showCall :
    EndsWith quotes.lookup showCall "\"A\" 1".toList := by
  have replaced :
      Substitution.replaced showMacro.body showMacro.parameterList ["A".toList]
        (fun other => ([(0, "1".toList)].lookup other).getD []) =
          "\"A\" 1".toList := by decide +kernel
  exact endsWith_call ⟨rfl, rfl, fun _ => .inr rfl⟩ rfl rfl rfl (by decide) rfl
    rfl (finishes_argument (by decide)) replaced rfl
    (Scope.finishes_of_candidates_eq_nil rfl) (by cbv)

private theorem endsWith_showWrapper :
    EndsWith quotes.lookup ⟨"W".toList, none⟩ "\"1\" 1".toList := by
  have wrapped : showCall.WrappedBy quotes.lookup "W".toList showWrapper :=
    ⟨rfl, rfl, rfl, rfl⟩
  have replaced :
      Substitution.replaced showMacro.body showMacro.parameterList ["1".toList]
        (fun index => (Substitution.values showMacro.parameterList
          ["1".toList])[index]?.getD []) = "\"1\" 1".toList := by
    decide +kernel
  have call : Scope.replacement ⟨quotes.lookup, []⟩
      ⟨"SHOW".toList, some ["1".toList]⟩ = .ok ⟨"\"1\" 1".toList, []⟩ :=
    Scope.replacement_of_replaced rfl rfl rfl (by decide) replaced rfl
  have inside : Settings.default.mode.select
      (Scope.candidates ⟨quotes.lookup, []⟩ true "SHOW(A)".toList) =
        [⟨"A".toList, none, 5, 6, 1⟩] := rfl
  have around : Settings.default.mode.select
      (Scope.candidates ⟨quotes.lookup, []⟩ true "SHOW(1)".toList) =
        [⟨"SHOW".toList, some [⟨"1".toList, ⟨5, 6⟩⟩], 0, 7, 0⟩] := rfl
  have finishes : Scope.Finishes ⟨quotes.lookup, []⟩ Settings.default
      ["W".toList] 1 ⟨"SHOW(A)".toList, [], []⟩ "\"1\" 1".toList := by
    apply Scope.finishes_of_single inside (by decide) rfl replacement_argument
      (by decide)
    refine Scope.finishes_of_single around (by decide) ?_ call (by decide) ?_
    · cbv
    · exact Scope.finishes_of_candidates_eq_nil rfl
  exact endsWith_wrapper wrapped rfl rfl finishes (by cbv)

/-- An argument that is used in both ways is quoted as written by a call, and
expanded by a macro that stands for the call. -/
theorem showCall_ne_showWrapper :
    Departs quotes.lookup showCall showMacro showWrapper "\"A\" 1".toList
      "\"1\" 1".toList := by
  constructor
  case selects => exact ⟨rfl, rfl, fun _ => .inr rfl⟩
  case balanced => rfl
  case listed => decide
  case wrapped => exact ⟨rfl, rfl, rfl, rfl⟩
  case ends => exact endsWith_showCall
  case endsNested => exact endsWith_showWrapper
  case differs => decide

/-- A macro that puts its first argument between brackets. -/
def boxMacro (parameters : List Text) : Definition :=
  ⟨"F".toList, some parameters, "[x]".toList, "box.h", 1, true⟩

def boxCall (argument : Text) : Use :=
  ⟨"F".toList, some [argument]⟩

def boxWrapper (argument : Text) : Definition :=
  ⟨"W".toList, none, (boxCall argument).spelling, "box.h", 3, true⟩

/-- A call of the macro, in which `A` stands for a text. -/
def boxes (parameters : List Text) (body argument : Text) : Snapshot :=
  ⟨[boxMacro parameters, ⟨"A".toList, none, body, "box.h", 2, true⟩,
    boxWrapper argument]⟩

private theorem departs_boxCall
    {parameters : List Text} {body argument reduced direct nested : Text}
    (accepts : (boxMacro parameters).accepts (some [argument]) = true)
    (asked : Substitution.plainParameters "[x]".toList parameters = [0])
    (given : (Substitution.values parameters [argument])[0]?.getD [] = argument)
    (listed : Text.trim argument = argument ∧ argument.Contained ∧
      Text.holds ['#', '#'] argument = false)
    (balanced : (boxWrapper argument).isUnbalanced = false)
    (unpasted : Text.holds ['#', '#'] (boxCall argument).spelling = false)
    (reduces : Scope.Finishes ⟨(boxes parameters body argument).lookup, []⟩
      Settings.default [(boxCall argument).key] 1 ⟨argument, [], []⟩ reduced)
    (replaced : Substitution.replaced "[x]".toList parameters [argument]
      (fun other => ([(0, reduced)].lookup other).getD []) = direct)
    (unpastedDirect : Text.holds ['#', '#'] direct = false)
    (finishes : Scope.Finishes ⟨(boxes parameters body argument).lookup, []⟩
      Settings.default [(boxCall argument).key] 1 ⟨direct, [], []⟩ direct)
    (finishesNested :
      Scope.Finishes ⟨(boxes parameters body argument).lookup, []⟩
        Settings.default ["W".toList] 1 ⟨(boxCall argument).spelling, [], []⟩
        nested)
    (simple : Group.simplify direct = direct)
    (simpleNested : Group.simplify nested = nested)
    (differs : direct ≠ nested) :
    Departs (boxes parameters body argument).lookup (boxCall argument)
      (boxMacro parameters) (boxWrapper argument) direct nested := by
  have selects : (boxCall argument).Selects
      (boxes parameters body argument).lookup (boxMacro parameters) :=
    ⟨rfl, rfl, fun _ => .inr accepts⟩
  have wrapped : (boxCall argument).WrappedBy
      (boxes parameters body argument).lookup "W".toList
      (boxWrapper argument) :=
    ⟨rfl, rfl, rfl, rfl⟩
  have clean : '\x00' ∉ "[x]".toList := by decide
  constructor
  case selects => exact selects
  case balanced => rfl
  case listed => simpa [boxCall] using listed
  case wrapped => exact wrapped
  case ends =>
    exact endsWith_call selects rfl rfl rfl clean asked given reduces replaced
      unpastedDirect finishes simple
  case endsNested =>
    exact endsWith_wrapper wrapped balanced unpasted finishesNested simpleNested
  case differs => exact differs

/-- An argument that comes to two arguments leaves a call that is not
accepted. -/
theorem departs_of_comma :
    Departs (boxes ["x".toList] "1,2".toList "A".toList).lookup
      (boxCall "A".toList) (boxMacro ["x".toList]) (boxWrapper "A".toList)
      "[1,2]".toList "F(1,2)".toList := by
  have stands :
      Scope.replacement
        ⟨(boxes ["x".toList] "1,2".toList "A".toList).lookup, []⟩
        ⟨"A".toList, none⟩ = .ok ⟨"1,2".toList, []⟩ := rfl
  have alone : Settings.default.mode.select
      (Scope.candidates
        ⟨(boxes ["x".toList] "1,2".toList "A".toList).lookup, []⟩ true
        "A".toList) =
      [⟨"A".toList, none, 0, 1, 0⟩] := rfl
  have inside : Settings.default.mode.select
      (Scope.candidates
        ⟨(boxes ["x".toList] "1,2".toList "A".toList).lookup, []⟩ true
        "F(A)".toList) =
      [⟨"A".toList, none, 2, 3, 1⟩] := rfl
  apply departs_boxCall rfl rfl rfl (by decide) rfl rfl
  case reduces =>
    exact Scope.finishes_of_single alone (by decide) rfl stands (by decide)
      (Scope.finishes_of_candidates_eq_nil rfl)
  case replaced => decide +kernel
  case unpastedDirect => rfl
  case finishes => exact Scope.finishes_of_candidates_eq_nil rfl
  case finishesNested =>
    exact Scope.finishes_of_single inside (by decide) rfl stands (by decide)
      (Scope.finishes_of_candidates_eq_nil rfl)
  case simple => cbv
  case simpleNested => cbv
  case differs => decide

/-- Blanks that are left at the side of an argument are trimmed when the call is
read again. -/
theorem departs_of_blank :
    Departs (boxes ["x".toList] [] "A B".toList).lookup
      (boxCall "A B".toList) (boxMacro ["x".toList]) (boxWrapper "A B".toList)
      "[ B]".toList "[B]".toList := by
  have stands :
      Scope.replacement ⟨(boxes ["x".toList] [] "A B".toList).lookup, []⟩
        ⟨"A".toList, none⟩ = .ok ⟨[], []⟩ := rfl
  have replaced : Substitution.replaced "[x]".toList ["x".toList] ["B".toList]
      (fun index => (Substitution.values ["x".toList]
        ["B".toList])[index]?.getD []) = "[B]".toList := by
    decide +kernel
  have call :
      Scope.replacement ⟨(boxes ["x".toList] [] "A B".toList).lookup, []⟩
          ⟨"F".toList, some ["B".toList]⟩ =
        .ok ⟨"[B]".toList, []⟩ :=
    Scope.replacement_of_replaced rfl rfl rfl (by decide) replaced rfl
  have alone : Settings.default.mode.select
      (Scope.candidates ⟨(boxes ["x".toList] [] "A B".toList).lookup, []⟩
          true "A B".toList) =
        [⟨"A".toList, none, 0, 1, 0⟩] := rfl
  have inside : Settings.default.mode.select
      (Scope.candidates ⟨(boxes ["x".toList] [] "A B".toList).lookup, []⟩
          true "F(A B)".toList) =
        [⟨"A".toList, none, 2, 3, 1⟩] := rfl
  have around : Settings.default.mode.select
      (Scope.candidates ⟨(boxes ["x".toList] [] "A B".toList).lookup, []⟩
          true "F( B)".toList) =
        [⟨"F".toList, some [⟨"B".toList, ⟨3, 4⟩⟩], 0, 5, 0⟩] := rfl
  apply departs_boxCall rfl rfl rfl (by decide) rfl rfl
  case reduces =>
    exact Scope.finishes_of_single alone (by decide) rfl stands (by decide)
      (Scope.finishes_of_candidates_eq_nil rfl)
  case replaced => decide +kernel
  case unpastedDirect => rfl
  case finishes => exact Scope.finishes_of_candidates_eq_nil rfl
  case finishesNested =>
    apply Scope.finishes_of_single inside (by decide) rfl stands (by decide)
    refine Scope.finishes_of_single around (by decide) ?_ call (by decide) ?_
    · cbv
    · exact Scope.finishes_of_candidates_eq_nil rfl
  case simple => cbv
  case simpleNested => cbv
  case differs => decide

/-- A lone argument that comes to nothing leaves a call without arguments. -/
theorem departs_of_nothing :
    Departs (boxes ["x".toList, "...".toList] [] "A".toList).lookup
      (boxCall "A".toList) (boxMacro ["x".toList, "...".toList])
      (boxWrapper "A".toList) "[]".toList "F()".toList := by
  have stands :
      Scope.replacement
        ⟨(boxes ["x".toList, "...".toList] [] "A".toList).lookup, []⟩
        ⟨"A".toList, none⟩ = .ok ⟨[], []⟩ := rfl
  have alone : Settings.default.mode.select
      (Scope.candidates
        ⟨(boxes ["x".toList, "...".toList] [] "A".toList).lookup, []⟩
        true "A".toList) = [⟨"A".toList, none, 0, 1, 0⟩] := rfl
  have inside : Settings.default.mode.select
      (Scope.candidates
          ⟨(boxes ["x".toList, "...".toList] [] "A".toList).lookup, []⟩
          true "F(A)".toList) =
        [⟨"A".toList, none, 2, 3, 1⟩] := rfl
  apply departs_boxCall rfl rfl rfl (by decide) rfl rfl
  case reduces =>
    exact Scope.finishes_of_single alone (by decide) rfl stands (by decide)
      (Scope.finishes_of_candidates_eq_nil rfl)
  case replaced => decide +kernel
  case unpastedDirect => rfl
  case finishes => exact Scope.finishes_of_candidates_eq_nil rfl
  case finishesNested =>
    exact Scope.finishes_of_single inside (by decide) rfl stands (by decide)
      (Scope.finishes_of_candidates_eq_nil rfl)
  case simple => cbv
  case simpleNested => cbv
  case differs => decide

/-- A pass that puts an argument back unchanged ends the rescan in front of the
call. -/
theorem departs_of_stall :
    Departs (boxes ["x".toList] "A".toList "A".toList).lookup
      (boxCall "A".toList) (boxMacro ["x".toList]) (boxWrapper "A".toList)
      "[A]".toList "F(A)".toList := by
  apply departs_boxCall rfl rfl rfl (by decide) rfl rfl
  case reduces =>
    rw [Scope.Finishes, Scope.rescan]
    exact ⟨rfl, rfl⟩
  case replaced => decide +kernel
  case unpastedDirect => rfl
  case finishes =>
    rw [Scope.Finishes, Scope.rescan]
    exact ⟨rfl, rfl⟩
  case finishesNested =>
    rw [Scope.Finishes, Scope.rescan]
    exact ⟨rfl, rfl⟩
  case simple => cbv
  case simpleNested => cbv
  case differs => decide

end Expansion

end MacroTrace
