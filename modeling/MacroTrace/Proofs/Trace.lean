import MacroTrace.Proofs.Passes

/-!
# Traces

The steps of an expansion form a connected trace whose length is bounded by the
limit on the depth, whether the expansion succeeds or fails.
-/

namespace MacroTrace

namespace Scope.Passes

variable {scope : Scope} {settings : Settings} {level : Nat} {text last : Text}
  {steps : List Step}

theorem length_le
    (passes : scope.Passes settings level text steps last)
    (room : level ≤ settings.maxDepth) :
    level + steps.length ≤ settings.maxDepth := by
  induction passes with
  | nil level text => exact room
  | cons subject note below expandable rewritten changed passes ih =>
      have later := ih below
      rw [List.length_cons]
      omega

/-- Every pass is one level. -/
theorem level_of_getElem?
    (passes : scope.Passes settings level text steps last)
    {index : Nat} {step : Step}
    (present : steps[index]? = some step) :
    step.level = level + index := by
  induction passes generalizing index with
  | nil level text => cases present
  | cons subject note below expandable rewritten changed passes ih =>
      cases index with
      | zero =>
          cases present
          rfl
      | succ index =>
          have later := ih present
          omega

theorem source_of_head?
    (passes : scope.Passes settings level text steps last)
    {step : Step}
    (present : steps.head? = some step) :
    step.source = text := by
  cases passes with
  | nil => cases present
  | cons =>
      cases present
      rfl

/-- Passes begin where the one before ended. -/
theorem connected
    (passes : scope.Passes settings level text steps last)
    {index : Nat} {step next : Step}
    (present : steps[index]? = some step)
    (following : steps[index + 1]? = some next) :
    next.source = step.target := by
  induction passes generalizing index with
  | nil level text => cases present
  | cons subject note below expandable rewritten changed passes ih =>
      cases index with
      | zero =>
          cases present
          rw [List.getElem?_cons_succ, ← List.head?_eq_getElem?] at following
          exact passes.source_of_head? following
      | succ index => exact ih present following

theorem source_ne_target
    (passes : scope.Passes settings level text steps last)
    {step : Step}
    (member : step ∈ steps) :
    step.source ≠ step.target := by
  induction passes with
  | nil level text => cases member
  | cons subject note below expandable rewritten changed passes ih =>
      rcases List.mem_cons.mp member with rfl | member
      · exact fun same => changed same.symm
      · exact ih member

/-- Passes end at the target of the last one. -/
theorem last_eq
    (passes : scope.Passes settings level text steps last) :
    last = ((steps.getLast?.map (·.target)).getD text) := by
  induction passes with
  | nil level text => rfl
  | @cons level text next last steps subject note below expandable rewritten
      changed passes ih =>
      cases steps with
      | nil => exact ih
      | cons step steps => simpa [List.getLast?_cons] using ih

end Scope.Passes

namespace Expansion

/-- A connected trace within the limit on the depth that leads from the use to
the final text. -/
structure Traced (settings : Settings) (use : Use)
    (expansion : Expansion) : Prop where
  bounded : expansion.steps.length ≤ settings.maxDepth
  levels : ∀ (index : Nat) (step : Step), expansion.steps[index]? = some step →
    step.level = index
  starts : ∀ step : Step, expansion.steps.head? = some step →
    step.source = use.spelling
  connected : ∀ (index : Nat) (step next : Step),
    expansion.steps[index]? = some step →
    expansion.steps[index + 1]? = some next → step.target = next.source
  changes : ∀ (index : Nat) (step : Step),
    expansion.steps[index + 1]? = some step →
    step.source ≠ step.target
  ends : expansion.error = none →
    ∀ step : Step, expansion.steps.getLast? = some step →
    expansion.finalText =
      if settings.stripParentheses then Group.simplify step.target
      else step.target

variable {lookup : Lookup} {settings : Settings} {use : Use}

theorem Traced.of_no_steps
    {expansion : Expansion}
    (none : expansion.steps = []) :
    Traced settings use expansion := by
  constructor <;> simp [none]

theorem Run.target_eq_last
    {definition : Definition} {first : Step} {rest : List Step} {last : Text}
    (run : Run lookup settings use definition first rest last)
    {step : Step}
    (present : (first :: rest).getLast? = some step) :
    step.target = last := by
  rw [run.passes.last_eq]
  cases rest with
  | nil =>
      cases present
      rfl
  | cons second rest =>
      rw [List.getLast?_cons_cons] at present
      rw [present]
      rfl

/-- The steps of a run form a trace, whatever becomes of the text that it ends
with. -/
theorem Run.traced
    {definition : Definition} {first : Step} {rest : List Step} {last : Text}
    (run : Run lookup settings use definition first rest last)
    {expansion : Expansion}
    (steps : expansion.steps = first :: rest)
    (ends : expansion.error = none → expansion.finalText =
      if settings.stripParentheses then Group.simplify last else last) :
    Traced settings use expansion where
  bounded := by
    have bounded := run.passes.length_le run.room
    rw [steps, List.length_cons]
    omega
  levels index step present := by
    rw [steps] at present
    cases index with
    | zero =>
        cases present
        exact run.level
    | succ index =>
        have level := run.passes.level_of_getElem? present
        omega
  starts step present := by
    rw [steps] at present
    cases present
    exact run.source
  connected index step next present following := by
    rw [steps] at present following
    cases index with
    | zero =>
        cases present
        rw [List.getElem?_cons_succ, ← List.head?_eq_getElem?] at following
        exact (run.passes.source_of_head? following).symm
    | succ index => exact (run.passes.connected present following).symm
  changes index step present := by
    rw [steps, List.getElem?_cons_succ] at present
    exact run.passes.source_ne_target (List.mem_of_getElem? present)
  ends complete step present := by
    rw [steps] at present
    rw [ends complete, run.target_eq_last present]

theorem Outcome.traced
    {expansion : Expansion}
    (outcome : Outcome lookup settings use expansion) :
    Traced settings use expansion := by
  cases outcome with
  | untouched remarks => exact .of_no_steps rfl
  | refused error => exact .of_no_steps rfl
  | broken error run =>
      refine run.traced rfl ?_
      intro complete
      cases complete
  | finished run settled steps => exact run.traced steps fun _ => rfl

/-- Every expansion has a result, and its steps form a trace. -/
theorem exists_traced
    (clean : ∀ name, ∀ definition ∈ lookup name, '\x00' ∉ definition.body)
    (settings : Settings) (use : Use) :
    ∃ expansion, ofUse lookup settings use = .ok expansion ∧
      Traced settings use expansion := by
  obtain ⟨expansion, result⟩ := ofUse_isOk (clean_of_lookup clean) settings use
  exact ⟨expansion, result, (outcome_of_ofUse result).traced⟩

/-- Two macros that grow and call each other, one through the arguments of the
other. -/
def growingCycle : Snapshot :=
  ⟨[⟨"GROW".toList, some ["x".toList], "SHRINK((x) + x)".toList,
      "grow.h", 1, true⟩,
    ⟨"SHRINK".toList, some ["y".toList], "GROW(y + 1)".toList,
      "grow.h", 2, true⟩]⟩

theorem exists_traced_growingCycle :
    (∀ name, ∀ definition ∈ growingCycle.lookup name,
      '\x00' ∉ definition.body) ∧
      ∃ expansion, ofUse growingCycle.lookup Settings.default
          ⟨"GROW".toList, some ["GROW(2)".toList]⟩ = .ok expansion ∧
        Traced Settings.default ⟨"GROW".toList,
          some ["GROW(2)".toList]⟩ expansion := by
  have clean : ∀ name, ∀ definition ∈ growingCycle.lookup name,
      '\x00' ∉ definition.body := by
    intro name definition member
    have all : ∀ definition ∈ growingCycle.definitions,
        '\x00' ∉ definition.body := by decide
    exact all definition (List.mem_of_mem_filter member)
  exact ⟨clean, exists_traced clean Settings.default _⟩

end Expansion

end MacroTrace
