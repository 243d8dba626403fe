import MacroTrace.Proofs.Passes

/-!
# Evaluating expansions

Rescans are computed pass by pass.  The lemmas give the outcome of a rescan from
that of the next pass, and the outcome of an expansion from those of its
rescans, as long as nothing is pasted.
-/

namespace MacroTrace

namespace Scope

variable {scope : Scope} {settings : Settings} {chain : List Text} {level : Nat}
  {draft : Draft}

/-- A rescan that succeeds. -/
def Finishes (scope : Scope) (settings : Settings) (chain : List Text)
    (level : Nat) (draft : Draft) (text : Text) : Prop :=
  (scope.rescan settings chain level draft).outcome = .ok text ∧
    (scope.rescan settings chain level draft).pasted = draft.pasted

theorem finishes_of_candidates_eq_nil
    (none : scope.candidates true draft.text = []) :
    scope.Finishes settings chain level draft draft.text := by
  rw [Finishes, rescan, none]
  exact ⟨rfl, rfl⟩

theorem finishes_of_single
    {invocation : Invocation} {written text : Text}
    (selected : settings.mode.select (scope.candidates true draft.text) =
      [invocation])
    (room : level < settings.maxDepth)
    (fresh : (chain ++ Region.chainAt draft.regions invocation.start).contains
      invocation.use.key = false)
    (replaced : scope.replacement invocation.use = .ok ⟨written, []⟩)
    (changed : draft.text.take invocation.start ++ written ++
        draft.text.drop invocation.stop ≠
      draft.text)
    (later : scope.Finishes settings chain (level + 1)
      ⟨draft.text.take invocation.start ++ written ++
        draft.text.drop invocation.stop,
          Region.replace draft.regions invocation.start invocation.stop
            written.length
          (Region.chainAt draft.regions invocation.start ++
            [invocation.use.key]), draft.pasted⟩
      text) :
    scope.Finishes settings chain level draft text := by
  have some : (scope.candidates true draft.text).isEmpty = false := by
    rw [Bool.eq_false_iff, ne_eq, List.isEmpty_iff]
    intro none
    rw [none, Mode.select_nil] at selected
    cases selected
  have expanded : scope.expandInvocations chain [invocation] draft =
      .ok ⟨draft.text.take invocation.start ++ written ++
        draft.text.drop invocation.stop,
          Region.replace draft.regions invocation.start invocation.stop
            written.length
          (Region.chainAt draft.regions invocation.start ++
            [invocation.use.key]),
        draft.pasted⟩ := by
    simp only [expandInvocations, expandInvocation, fresh, Bool.false_eq_true,
      if_false, replaced, notePastes, List.foldl_nil]
  rw [Finishes, rescan]
  simp only [some, Bool.false_eq_true, if_false, if_neg (Nat.not_le.mpr room),
    selected, expanded, if_neg changed]
  exact later

theorem replacement_of_replaced
    {use : Use} {definition : Definition} {parameters : List Text}
    {written : Text}
    (defined : scope.definition? use.name = some definition)
    (balanced : definition.isUnbalanced = false)
    (parameterized : definition.parameters = some parameters)
    (clean : '\x00' ∉ definition.body)
    (replaced :
      Substitution.replaced definition.body parameters (use.arguments.getD [])
      (fun index =>
        (Substitution.values parameters (use.arguments.getD []))[index]?.getD
          []) =
        written)
    (unpasted : Text.holds ['#', '#'] written = false) :
    scope.replacement use = .ok ⟨written, []⟩ := by
  simp only [replacement, defined, balanced, parameterized,
    Substitution.applyRaw_eq clean, replaced, Paste.apply, unpasted]
  rfl

/-- The first body for a call of a macro with one plain parameter. -/
theorem firstBody_of_finishes
    {definition : Definition} {parameters arguments pasted : List Text}
    {index : Nat} {reduced written : Text}
    (parameterized : definition.parameters = some parameters)
    (clean : '\x00' ∉ definition.body)
    (asked : Substitution.plainParameters definition.body parameters = [index])
    (finishes : scope.Finishes settings chain level
      ⟨(Substitution.values parameters arguments)[index]?.getD [], [],
        pasted⟩ reduced)
    (replaced : Substitution.replaced definition.body parameters arguments
      (fun other => ([(index, reduced)].lookup other).getD []) = written)
    (unpasted : Text.holds ['#', '#'] written = false) :
    scope.firstBody settings chain level definition (some arguments) pasted =
      .ok (⟨written, []⟩, pasted, "Function-like macro expansion") := by
  obtain ⟨outcome, kept⟩ := finishes
  simp only [firstBody, parameterized, asked, expandArguments, outcome, kept,
    Substitution.apply_eq clean, replaced, Paste.apply, unpasted]
  rfl

end Scope

/-- An expansion ends with the text that the rescan of its first body ends
with. -/
theorem Expansion.exists_of_finishes
    {lookup : Lookup} {settings : Settings} {use : Use}
    {definition : Definition} {written text : Text} {note : String}
    (selects : use.Selects lookup definition)
    (balanced : definition.isUnbalanced = false)
    (room : 0 < settings.maxDepth)
    (opened : Scope.firstBody ⟨lookup, []⟩ settings [use.key] 1 definition
        use.arguments [] =
      .ok (⟨written, []⟩, [], note))
    (finishes :
      Scope.Finishes ⟨lookup, []⟩ settings [use.key] 1 ⟨written, [], []⟩ text) :
    ∃ expansion, ofUse lookup settings use = .ok expansion ∧
      expansion.error = none ∧
      expansion.finalText = if settings.stripParentheses then
        Group.simplify text else text := by
  have defined : Scope.definition? ⟨lookup, []⟩ use.name = some definition :=
    selects.defined
  have outcome : (Scope.expandUse ⟨lookup, []⟩ settings [] 0 use []).outcome =
      .ok text := by
    simp only [Scope.expandUse, if_neg (Nat.not_le.mpr room), List.contains_nil,
      Bool.false_eq_true, if_false, defined, selects.isMacro,
      Bool.not_true, balanced, List.nil_append, opened]
    exact finishes.1
  refine ⟨finished lookup settings definition text
    (Scope.expandUse ⟨lookup, []⟩ settings [] 0 use []), ?_, rfl, rfl⟩
  rw [ofUse_of_selects selects, ofRescan, outcome]

namespace Expansion

/-- A use is expanded without an error, and this is the text at the end. -/
def EndsWith (lookup : Lookup) (use : Use) (text : Text) : Prop :=
  ∃ expansion, ofUse lookup Settings.default use = .ok expansion ∧
    expansion.error = none ∧ expansion.finalText = text

variable {lookup : Lookup} {use : Use} {definition : Definition}
  {written text : Text}

theorem endsWith_of_finishes
    {note : String}
    (selects : use.Selects lookup definition)
    (balanced : definition.isUnbalanced = false)
    (opened : Scope.firstBody ⟨lookup, []⟩ Settings.default [use.key] 1
      definition use.arguments [] = .ok (⟨written, []⟩, [], note))
    (finishes : Scope.Finishes ⟨lookup, []⟩ Settings.default [use.key] 1
      ⟨written, [], []⟩ text)
    (simple : Group.simplify text = text) :
    EndsWith lookup use text := by
  obtain ⟨expansion, result, complete, final⟩ :=
    exists_of_finishes selects balanced (by decide) opened finishes
  exact ⟨expansion, result, complete, final.trans simple⟩

/-- The end of a call of a macro with one plain parameter. -/
theorem endsWith_call
    {parameters arguments : List Text} {index : Nat} {value reduced : Text}
    (selects : use.Selects lookup definition)
    (balanced : definition.isUnbalanced = false)
    (called : use.arguments = some arguments)
    (parameterized : definition.parameters = some parameters)
    (clean : '\x00' ∉ definition.body)
    (asked : Substitution.plainParameters definition.body parameters = [index])
    (given :
      (Substitution.values parameters arguments)[index]?.getD [] = value)
    (reduces : Scope.Finishes ⟨lookup, []⟩ Settings.default [use.key] 1
      ⟨value, [], []⟩ reduced)
    (replaced : Substitution.replaced definition.body parameters arguments
      (fun other => ([(index, reduced)].lookup other).getD []) = written)
    (unpasted : Text.holds ['#', '#'] written = false)
    (finishes : Scope.Finishes ⟨lookup, []⟩ Settings.default [use.key] 1
      ⟨written, [], []⟩ text)
    (simple : Group.simplify text = text) :
    EndsWith lookup use text := by
  subst given
  have opened := Scope.firstBody_of_finishes parameterized clean asked reduces
    replaced unpasted
  rw [← called] at opened
  exact endsWith_of_finishes selects balanced opened finishes simple

end Expansion

end MacroTrace
