import MacroTrace.Proofs.Trace

/-!
# Full reduction

An expansion that reports no error ends with a text in which nothing can be
expanded, except where a pass puts every chosen invocation back as it was.  Such
a pass ends the expansion as well, and what it did not choose stays unexpanded.
-/

namespace MacroTrace

theorem Scope.Settled.candidates_eq_nil_iff
    {scope : Scope} {mode : Mode} {text : Text}
    (settled : scope.Settled mode text) :
    scope.candidates true text = [] ↔ ¬ scope.Stalls mode text := by
  constructor
  · intro none stalls
    exact stalls.expandable none
  · intro moves
    exact settled.resolve_right moves

namespace Expansion

variable {lookup : Lookup} {settings : Settings} {use : Use}
  {definition : Definition} {expansion : Expansion}

/-- The last step of an expansion without an error leads to a settled text. -/
theorem Outcome.settled
    (outcome : Outcome lookup settings use expansion)
    (selects : use.Selects lookup definition)
    (complete : expansion.error = none) :
    ∃ step, expansion.steps.getLast? = some step ∧
      Scope.Settled ⟨lookup, []⟩ settings.mode step.target := by
  obtain ⟨first, rest, last, run, settled, steps, _⟩ :=
    outcome.exists_run selects complete
  have present := List.getLast?_cons (a := first) (l := rest)
  refine ⟨_, (congrArg List.getLast? steps).trans present, ?_⟩
  rw [run.target_eq_last present]
  exact settled

/-- An expansion without an error is fully reduced, unless its last text
stalls. -/
theorem candidates_eq_nil_iff_not_stalls
    (result : ofUse lookup settings use = .ok expansion)
    (selects : use.Selects lookup definition)
    (complete : expansion.error = none) :
    ∃ step, expansion.steps.getLast? = some step ∧
      (Scope.candidates ⟨lookup, []⟩ true step.target = [] ↔
        ¬ Scope.Stalls ⟨lookup, []⟩ settings.mode step.target) := by
  obtain ⟨step, last, settled⟩ :=
    (outcome_of_ofUse result).settled selects complete
  exact ⟨step, last, settled.candidates_eq_nil_iff⟩

/-- A macro whose body is its own name, in front of one that could be
expanded. -/
def selfReference : Snapshot :=
  ⟨[⟨"W".toList, none, "A B".toList, "self.h", 1, true⟩,
    ⟨"A".toList, none, "A".toList, "self.h", 2, true⟩,
    ⟨"B".toList, none, "1".toList, "self.h", 3, true⟩]⟩

def oneByOne : Settings :=
  { Settings.default with mode := .singleMacro }

def selfReferenceStep : Step :=
  ⟨"W".toList, "A B".toList, "W".toList, "Object-like macro expansion", 0⟩

private theorem expandUse_selfReference :
    Scope.expandUse ⟨selfReference.lookup, []⟩ oneByOne [] 0
        ⟨"W".toList, none⟩ [] =
      ⟨.ok "A B".toList, [selfReferenceStep], []⟩ := by
  have stalled : Scope.rescan ⟨selfReference.lookup, []⟩ oneByOne ["W".toList] 1
      ⟨"A B".toList, [], []⟩ = ⟨.ok "A B".toList, [], []⟩ := by
    rw [Scope.rescan]
    rfl
  calc
    Scope.expandUse ⟨selfReference.lookup, []⟩ oneByOne [] 0
      ⟨"W".toList, none⟩ [] =
        { Scope.rescan ⟨selfReference.lookup, []⟩ oneByOne ["W".toList] 1
            ⟨"A B".toList, [], []⟩ with
          steps :=
            selfReferenceStep ::
              (Scope.rescan ⟨selfReference.lookup, []⟩ oneByOne
                ["W".toList] 1 ⟨"A B".toList, [], []⟩).steps } := rfl
    _ = ⟨.ok "A B".toList, [selfReferenceStep], []⟩ := by rw [stalled]

private theorem ofUse_selfReference :
    ∃ expansion, ofUse selfReference.lookup oneByOne ⟨"W".toList, none⟩ =
      .ok expansion ∧
      expansion.error = none ∧ expansion.steps = [selfReferenceStep] := by
  refine ⟨finished selfReference.lookup oneByOne
    ⟨"W".toList, none, "A B".toList, "self.h", 1, true⟩ "A B".toList
    ⟨.ok "A B".toList, [selfReferenceStep], []⟩, ?_, rfl, rfl⟩
  rw [← expandUse_selfReference]
  apply ofUse_of_ok rfl rfl
  rw [expandUse_selfReference]

private theorem selects_selfReference :
    Use.Selects selfReference.lookup ⟨"W".toList, none⟩
      ⟨"W".toList, none, "A B".toList, "self.h", 1, true⟩ :=
  ⟨rfl, rfl, nofun⟩

theorem candidates_eq_nil_iff_not_stalls_selfReference :
    ∃ expansion, ofUse selfReference.lookup oneByOne ⟨"W".toList, none⟩ =
      .ok expansion ∧
      Use.Selects selfReference.lookup ⟨"W".toList, none⟩
        ⟨"W".toList, none, "A B".toList, "self.h", 1, true⟩ ∧
      expansion.error = none ∧
      ∃ step, expansion.steps.getLast? = some step ∧
        (Scope.candidates ⟨selfReference.lookup, []⟩ true step.target = [] ↔
          ¬ Scope.Stalls ⟨selfReference.lookup, []⟩ oneByOne.mode
            step.target) := by
  obtain ⟨expansion, result, complete, _⟩ := ofUse_selfReference
  exact ⟨expansion, result, selects_selfReference, complete,
    candidates_eq_nil_iff_not_stalls result selects_selfReference complete⟩

/-- An expansion can end without an error in front of a macro that is still to
be expanded. -/
theorem selfReference_not_reduced :
    ∃ expansion step,
      ofUse selfReference.lookup oneByOne ⟨"W".toList, none⟩ = .ok expansion ∧
        expansion.error = none ∧ expansion.steps.getLast? = some step ∧
        (Scope.candidates ⟨selfReference.lookup, []⟩ true step.target).map
            (·.name) =
          ["A".toList, "B".toList] := by
  obtain ⟨expansion, result, complete, steps⟩ := ofUse_selfReference
  exact ⟨expansion, selfReferenceStep, result, complete,
    by rw [steps]; rfl, rfl⟩

end Expansion

end MacroTrace
