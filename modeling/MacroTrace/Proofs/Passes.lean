import MacroTrace.Expansion.Basic
import MacroTrace.Proofs.Selection
import MacroTrace.Proofs.Splice

/-!
# Passes

What rescans and expansions do, said once.  A pass rewrites a text by replacing
the chosen invocations one after another; the chains and regions that guard
against circular uses decide whether it succeeds, never what it writes.
`Scope.Passes` is a sequence of passes with the steps that record it, and
`Expansion.Outcome` lists the ways in which an expansion ends.
-/

namespace MacroTrace

namespace Scope

variable {scope : Scope} {settings : Settings}

/-- Replace invocations one after another, looking at nothing but the text. -/
def rewriteAll (scope : Scope) : List Invocation → Text → Except Failure Text
  | [], text => .ok text
  | invocation :: rest, text =>
      match scope.replacement invocation.use with
      | .error failure => .error failure
      | .ok result =>
          scope.rewriteAll rest
            (text.take invocation.start ++ result.text ++
              text.drop invocation.stop)

/-- What one pass makes of a text. -/
def rewrite (scope : Scope) (mode : Mode) (text : Text) : Except Failure Text :=
  scope.rewriteAll (mode.select (scope.candidates true text)) text

theorem expandInvocation_ok
    {chain : List Text} {draft next : Draft} {invocation : Invocation}
    (expanded : scope.expandInvocation chain draft invocation = .ok next) :
    ∃ result, scope.replacement invocation.use = .ok result ∧
      next.text =
        draft.text.take invocation.start ++ result.text ++
          draft.text.drop invocation.stop := by
  unfold expandInvocation at expanded
  simp only at expanded
  split at expanded
  · cases expanded
  · split at expanded
    next => cases expanded
    next result replaced =>
      cases expanded
      exact ⟨result, replaced, rfl⟩

/-- A pass that succeeds writes what the text alone determines. -/
theorem rewriteAll_of_expandInvocations
    {chain : List Text} {chosen : List Invocation} {draft next : Draft}
    (expanded : scope.expandInvocations chain chosen draft = .ok next) :
    scope.rewriteAll chosen draft.text = .ok next.text := by
  induction chosen generalizing draft with
  | nil =>
      cases expanded
      rfl
  | cons invocation chosen ih =>
      unfold expandInvocations at expanded
      split at expanded
      next middle first =>
        obtain ⟨result, replaced, written⟩ := expandInvocation_ok first
        rw [rewriteAll, replaced]
        simp only
        rw [← written]
        exact ih expanded
      next => cases expanded

/-- Passes that lead from a text to another one, each at one level more and each
changing the text, together with the steps that record them. -/
inductive Passes (scope : Scope) (settings : Settings) :
    Nat → Text → List Step → Text → Prop where
  | nil (level : Nat) (text : Text) : Passes scope settings level text [] text
  | cons {level : Nat} {text next last : Text} {steps : List Step}
      (subject : Text) (note : String) :
      level < settings.maxDepth →
      scope.candidates true text ≠ [] →
      scope.rewrite settings.mode text = .ok next →
      next ≠ text →
      Passes scope settings (level + 1) next steps last →
      Passes scope settings level text
        (⟨text, next, subject, note, level⟩ :: steps) last

/-- Whether a pass over a text that can be expanded leaves it as it is. -/
structure Stalls (scope : Scope) (mode : Mode) (text : Text) : Prop where
  expandable : scope.candidates true text ≠ []
  unchanged : scope.rewrite mode text = .ok text

/-- A text at which passes end without a failure: nothing can be expanded, or a
pass changes nothing. -/
def Settled (scope : Scope) (mode : Mode) (text : Text) : Prop :=
  scope.candidates true text = [] ∨ scope.Stalls mode text

/-- A rescan makes passes.  If it succeeds, they end at a settled text, which is
the outcome. -/
theorem rescan_passes
    (scope : Scope) (settings : Settings) (chain : List Text) (level : Nat)
    (draft : Draft) :
    ∃ last, scope.Passes settings level draft.text
        (scope.rescan settings chain level draft).steps last ∧
      ∀ text, (scope.rescan settings chain level draft).outcome = .ok text →
        text = last ∧ scope.Settled settings.mode last := by
  fun_induction Scope.rescan scope settings chain level draft with
  | case1 level draft candidates none =>
      refine ⟨draft.text, .nil level draft.text, ?_⟩
      intro text outcome
      cases outcome
      exact ⟨rfl, .inl (List.isEmpty_iff.mp none)⟩
  | case2 level draft candidates some deep =>
      refine ⟨draft.text, .nil level draft.text, ?_⟩
      intro text outcome
      cases outcome
  | case3 level draft candidates some room chosen failure pasted failed =>
      refine ⟨draft.text, .nil level draft.text, ?_⟩
      intro text outcome
      cases outcome
  | case4 level draft candidates some room chosen next expanded unchanged =>
      refine ⟨draft.text, .nil level draft.text, ?_⟩
      intro text outcome
      cases outcome
      refine ⟨rfl, .inr ⟨fun none => some (List.isEmpty_iff.mpr none), ?_⟩⟩
      have written := rewriteAll_of_expandInvocations expanded
      rwa [unchanged] at written
  | case5 level draft candidates some room chosen next expanded changed subject
      note described step rest ih =>
      obtain ⟨last, passes, ending⟩ := ih
      refine ⟨last, ?_, ending⟩
      exact .cons subject note (Nat.lt_of_not_le room)
        (fun none => some (List.isEmpty_iff.mpr none))
        (rewriteAll_of_expandInvocations expanded) changed passes

/-- Passes keep what every pass keeps. -/
theorem Passes.invariant
    {holds : Text → Prop}
    (kept : ∀ text next, holds text → scope.rewrite settings.mode text =
      .ok next → holds next)
    {level : Nat} {text last : Text} {steps : List Step}
    (passes : scope.Passes settings level text steps last)
    (start : holds text) :
    holds last ∧ ∀ step ∈ steps, holds step.target := by
  induction passes with
  | nil level text => exact ⟨start, by simp⟩
  | cons subject note room expandable rewritten changed passes ih =>
      have next := kept _ _ start rewritten
      obtain ⟨atEnd, later⟩ := ih next
      refine ⟨atEnd, ?_⟩
      intro step member
      rcases List.mem_cons.mp member with rfl | member
      · exact next
      · exact later step member

/-- Passes without a failure lead from a text to a settled one. -/
def Reduces (scope : Scope) (settings : Settings) (text last : Text) : Prop :=
  ∃ level steps, scope.Passes settings level text steps last ∧
    scope.Settled settings.mode last

theorem reduces_of_rescan
    {chain : List Text} {level : Nat} {draft : Draft} {text : Text}
    (outcome : (scope.rescan settings chain level draft).outcome = .ok text) :
    scope.Reduces settings draft.text text := by
  obtain ⟨last, passes, ending⟩ :=
    scope.rescan_passes settings chain level draft
  obtain ⟨rfl, settled⟩ := ending text outcome
  exact ⟨level, _, passes, settled⟩

theorem Reduces.invariant
    {holds : Text → Prop}
    (kept : ∀ text next, holds text → scope.rewrite settings.mode text =
      .ok next → holds next)
    {text last : Text}
    (reduces : scope.Reduces settings text last)
    (start : holds text) :
    holds last := by
  obtain ⟨_, _, passes, _⟩ := reduces
  exact (passes.invariant kept start).1

theorem mem_all_of_mem_candidates
    {withUnbalanced : Bool} {text : Text} {invocation : Invocation}
    (member : invocation ∈ scope.candidates withUnbalanced text) :
    invocation ∈ Invocation.all text ∧
      scope.isCandidate withUnbalanced invocation = true :=
  List.mem_filter.mp (List.mem_of_mem_filter member)

theorem definition?_of_isCandidate
    {withUnbalanced : Bool} {invocation : Invocation}
    (candidate : scope.isCandidate withUnbalanced invocation = true) :
    ∃ definition, scope.definition? invocation.name = some definition ∧
      definition.isMacro = true := by
  unfold isCandidate at candidate
  split at candidate
  next => cases candidate
  next definition defined =>
    rw [Bool.and_eq_true] at candidate
    exact ⟨definition, defined, candidate.1⟩

/-- The name of an invocation that a pass chooses is the name of a macro. -/
theorem definition?_of_mem_select
    {mode : Mode} {text : Text} {invocation : Invocation}
    (member : invocation ∈ mode.select (scope.candidates true text)) :
    ∃ definition, scope.definition? invocation.name = some definition ∧
      definition.isMacro = true :=
  definition?_of_isCandidate
    (mem_all_of_mem_candidates (Mode.mem_of_mem_select member)).2

/-- No body of a macro holds a character that could begin a placeholder. -/
def Clean (scope : Scope) : Prop :=
  ∀ name definition, scope.definition? name = some definition →
    definition.isMacro = true →
    '\x00' ∉ definition.body

/-- Only an unbalanced definition keeps a use of a macro from being replaced. -/
theorem replacement_error
    (clean : scope.Clean)
    {use : Use} {definition : Definition}
    (defined : scope.definition? use.name = some definition)
    (isMacro : definition.isMacro = true)
    {failure : Failure}
    (failed : scope.replacement use = .error failure) :
    failure = .expansion (.unbalanced use.name) := by
  unfold replacement at failed
  simp only [defined] at failed
  split at failed
  next => cases failed; rfl
  next =>
    split at failed
    next => cases failed
    next parameters _ =>
      rw [Substitution.applyRaw_eq (clean _ _ defined isMacro)] at failed
      cases failed

theorem expandInvocations_error
    (clean : scope.Clean)
    {chain : List Text} {chosen : List Invocation}
    (macros : ∀ invocation ∈ chosen, ∃ definition,
      scope.definition? invocation.name = some definition ∧
        definition.isMacro = true)
    {draft : Draft} {failure : Failure} {pasted : List Text}
    (failed : scope.expandInvocations chain chosen draft =
      .error (failure, pasted)) :
    ∃ error, failure = .expansion error := by
  induction chosen generalizing draft with
  | nil => cases failed
  | cons invocation chosen ih =>
      obtain ⟨definition, defined, isMacro⟩ :=
        macros invocation List.mem_cons_self
      unfold expandInvocations at failed
      split at failed
      next =>
        exact ih
          (fun other member => macros other (List.mem_cons_of_mem _ member))
          failed
      next reason stopped =>
        cases failed
        unfold expandInvocation at stopped
        simp only at stopped
        split at stopped
        next => cases stopped; exact ⟨_, rfl⟩
        next =>
          split at stopped
          next replaced =>
            cases stopped
            exact ⟨_, replacement_error clean defined isMacro replaced⟩
          next => cases stopped

theorem rescan_error
    (clean : scope.Clean)
    {chain : List Text} {level : Nat} {draft : Draft} {failure : Failure}
    (failed : (scope.rescan settings chain level draft).outcome =
      .error failure) :
    ∃ error, failure = .expansion error := by
  fun_induction Scope.rescan scope settings chain level draft with
  | case1 => cases failed
  | case2 =>
      cases failed
      exact ⟨_, rfl⟩
  | case3 level draft candidates some room chosen reason pasted stopped =>
      cases failed
      exact expandInvocations_error clean
        (fun _ member => definition?_of_mem_select member) stopped
  | case4 => cases failed
  | case5 level draft candidates some room chosen next expanded changed subject
      note described step rest ih => exact ih failed

/-- Every argument that is asked for is reduced. -/
theorem expandArguments_ok
    {chain : List Text} {level : Nat} {values : List Text} {wanted : List Nat}
    {done expanded : ExpandedArguments}
    (success : scope.expandArguments settings chain level values wanted done =
      .ok expanded)
    (earlier : ∀ entry ∈ done.texts,
      scope.Reduces settings (values[entry.1]?.getD []) entry.2) :
    (∀ entry ∈ expanded.texts,
      scope.Reduces settings (values[entry.1]?.getD []) entry.2) ∧
      ∀ index, (index ∈ wanted ∨ index ∈ done.texts.map (·.1)) →
        index ∈ expanded.texts.map (·.1) := by
  induction wanted generalizing done with
  | nil =>
      cases success
      exact ⟨earlier, fun index asked => asked.resolve_left List.not_mem_nil⟩
  | cons first wanted ih =>
      unfold expandArguments at success
      simp only at success
      split at success
      next text outcome =>
        obtain ⟨reduced, present⟩ := ih success (by
          intro entry member
          rcases List.mem_cons.mp member with rfl | before
          · exact reduces_of_rescan outcome
          · exact earlier entry before)
        refine ⟨reduced, ?_⟩
        intro index asked
        apply present
        simp only [List.map_cons, List.mem_cons] at asked ⊢
        tauto
      next => cases success

/-- What a definition becomes in the first step of an expansion: its body with
the arguments filled in, plain ones reduced, or its body as it is if there is
nothing to fill in. -/
inductive Opens (scope : Scope) (settings : Settings)
    (definition : Definition) :
    Option (List Text) → Paste.Result → Prop where
  | called {parameters arguments : List Text} {plain : Nat → Text}
      {result : Paste.Result} :
      definition.parameters = some parameters →
      (∀ index ∈ Substitution.plainParameters definition.body parameters,
        scope.Reduces settings
          ((Substitution.values parameters arguments)[index]?.getD [])
          (plain index)) →
      Substitution.apply definition.body parameters arguments plain =
        .ok result →
      Opens scope settings definition (some arguments) result
  | bare {arguments : Option (List Text)} :
      definition.parameters = none ∨ arguments = none →
      Opens scope settings definition arguments (Paste.apply definition.body)

theorem opens_of_firstBody
    {chain : List Text} {level : Nat} {definition : Definition}
    {arguments : Option (List Text)} {before after : List Text}
    {result : Paste.Result} {note : String}
    (success :
      scope.firstBody settings chain level definition arguments before =
        .ok (result, after, note)) :
    scope.Opens settings definition arguments result := by
  unfold firstBody at success
  split at success
  next parameters arguments parameterized =>
    simp only at success
    split at success
    next => cases success
    next expanded success' =>
      split at success
      next applied =>
        cases success
        refine .called parameterized ?_ applied
        obtain ⟨reduced, present⟩ := expandArguments_ok success' (by simp)
        intro index asked
        obtain ⟨entry, member, same⟩ :=
          List.mem_map.mp (present index (.inl asked))
        cases found : expanded.texts.lookup index with
        | none =>
            have missing := List.lookup_eq_none_iff.mp found entry member
            simp [same] at missing
        | some text =>
            obtain ⟨front, back, shape, _⟩ := List.lookup_eq_some_iff.mp found
            exact reduced (index, text) (by simp [shape])
      next => cases success
  next =>
    cases success
    exact .bare (.inr rfl)
  next objectLike =>
    cases success
    exact .bare (.inl objectLike)

/-- An expansion of a macro fails before its first step, or takes that step and
rescans. -/
theorem expandUse_cases
    {use : Use} {definition : Definition} {chain : List Text} {level : Nat}
    {before : List Text}
    (defined : scope.definition? use.name = some definition)
    (isMacro : definition.isMacro = true) :
    (∃ failure pasted, scope.expandUse settings chain level use before =
      ⟨.error failure, [], pasted⟩) ∨
    (level < settings.maxDepth ∧ definition.isUnbalanced = false ∧
      ∃ result note pasted,
        scope.Opens settings definition use.arguments result ∧
        scope.expandUse settings chain level use before =
          let rest := scope.rescan settings (chain ++ [use.key]) (level + 1)
            ⟨result.text, [], pasted⟩
          { rest with steps :=
              ⟨use.spelling, result.text, use.name, note,
                level⟩ :: rest.steps }) := by
  unfold expandUse
  split
  next => exact .inl ⟨_, _, rfl⟩
  next room =>
    split
    next => exact .inl ⟨_, _, rfl⟩
    next =>
      simp only [defined, isMacro, Bool.not_true, Bool.false_eq_true, if_false]
      split
      next => exact .inl ⟨_, _, rfl⟩
      next balanced =>
        split
        next => exact .inl ⟨_, _, rfl⟩
        next result pasted note opened =>
          exact .inr ⟨Nat.lt_of_not_le room, Bool.not_eq_true _ ▸ balanced,
            result, note, _, opens_of_firstBody opened, rfl⟩

theorem expandArguments_error
    (clean : scope.Clean)
    {chain : List Text} {level : Nat} {values : List Text} {wanted : List Nat}
    {done : ExpandedArguments} {failure : Failure} {pasted : List Text}
    (failed : scope.expandArguments settings chain level values wanted done =
      .error (failure, pasted)) :
    ∃ error, failure = .expansion error := by
  induction wanted generalizing done with
  | nil => cases failed
  | cons first wanted ih =>
      unfold expandArguments at failed
      simp only at failed
      split at failed
      next => exact ih failed
      next stopped =>
        cases failed
        exact rescan_error clean stopped

theorem firstBody_error
    (clean : scope.Clean)
    {chain : List Text} {level : Nat} {definition : Definition}
    (cleanBody : '\x00' ∉ definition.body)
    {arguments : Option (List Text)} {before after : List Text}
    {failure : Failure}
    (failed : scope.firstBody settings chain level definition arguments before =
      .error (failure, after)) :
    ∃ error, failure = .expansion error := by
  unfold firstBody at failed
  split at failed
  next parameters arguments _ =>
    simp only at failed
    split at failed
    next stopped =>
      cases failed
      exact expandArguments_error clean stopped
    next =>
      rw [Substitution.apply_eq cleanBody] at failed
      cases failed
  next => cases failed
  next => cases failed

theorem expandUse_error
    (clean : scope.Clean)
    {chain : List Text} {level : Nat} {use : Use} {before : List Text}
    {failure : Failure}
    (failed : (scope.expandUse settings chain level use before).outcome =
      .error failure) :
    ∃ error, failure = .expansion error := by
  unfold expandUse at failed
  split at failed
  next => cases failed; exact ⟨_, rfl⟩
  next =>
    split at failed
    next => cases failed; exact ⟨_, rfl⟩
    next =>
      split at failed
      next => cases failed
      next definition defined =>
        split at failed
        next => cases failed
        next isMacro =>
          split at failed
          next => cases failed; exact ⟨_, rfl⟩
          next =>
            simp only at failed
            split at failed
            next stopped =>
              cases failed
              exact firstBody_error clean
                (clean _ _ defined (by simpa using isMacro)) stopped
            next => exact rescan_error clean failed

end Scope

/-- The definition that an expansion of a use begins with.  A call with
arguments that the definition does not accept is passed over, unless the
definition is unbalanced. -/
structure Use.Selects (lookup : Lookup) (use : Use)
    (definition : Definition) : Prop where
  defined : (lookup use.name).head? = some definition
  isMacro : definition.isMacro = true
  matching : use.arguments.isSome = true →
    definition.isUnbalanced = true ∨ definition.accepts use.arguments = true

namespace Expansion

/-- The first step of an expansion and the passes behind it, up to a text. -/
structure Run (lookup : Lookup) (settings : Settings) (use : Use)
    (definition : Definition) (first : Step) (rest : List Step)
    (last : Text) : Prop where
  selects : use.Selects lookup definition
  balanced : definition.isUnbalanced = false
  room : 0 < settings.maxDepth
  source : first.source = use.spelling
  level : first.level = 0
  opens : ∃ result,
    Scope.Opens ⟨lookup, []⟩ settings definition use.arguments result ∧
    first.target = result.text
  passes : Scope.Passes ⟨lookup, []⟩ settings 1 first.target rest last

/-- The ways in which an expansion ends. -/
inductive Outcome (lookup : Lookup) (settings : Settings) (use : Use) :
    Expansion → Prop where
      | untouched (remarks : List Log.Entry) :
          (¬ ∃ definition, use.Selects lookup definition) →
          Outcome lookup settings use (.untouched use remarks)
      | refused (error : ExpansionError) :
          Outcome lookup settings use (.failed use [] error)
      | broken {definition : Definition} {first : Step} {rest : List Step}
          {last : Text} (error : ExpansionError) :
          Run lookup settings use definition first rest last →
          Outcome lookup settings use (.failed use (first :: rest) error)
      | finished {definition : Definition} {first : Step} {rest : List Step}
          {last : Text} {scanned : Rescan} :
          Run lookup settings use definition first rest last →
          Scope.Settled ⟨lookup, []⟩ settings.mode last →
          scanned.steps = first :: rest →
          Outcome lookup settings use
            (.finished lookup settings definition last scanned)

variable {lookup : Lookup} {settings : Settings} {use : Use}

theorem definition?_eq (lookup : Lookup) (name : Text) :
    Scope.definition? ⟨lookup, []⟩ name = (lookup name).head? := rfl

/-- What becomes of the rescan of a use. -/
def ofRescan (lookup : Lookup) (settings : Settings) (use : Use)
    (definition : Definition) (scanned : Rescan) :
      Except Substitution.PlaceholderError Expansion :=
  match scanned.outcome with
  | .ok text => .ok (finished lookup settings definition text scanned)
  | .error (.expansion error) => .ok (failed use scanned.steps error)
  | .error (.placeholder error) => .error error

/-- A use of a macro is rescanned. -/
theorem ofUse_of_selects
    {definition : Definition}
    (selects : use.Selects lookup definition)
    (settings : Settings) :
    ofUse lookup settings use =
      ofRescan lookup settings use definition
        (Scope.expandUse ⟨lookup, []⟩ settings [] 0 use []) := by
  have matched : (use.arguments.isSome && !definition.accepts use.arguments &&
      !definition.isUnbalanced) = false := by
    cases given : use.arguments.isSome with
    | false => rfl
    | true =>
        rcases selects.matching given with unbalanced | accepted
        · rw [unbalanced, Bool.not_true, Bool.and_false]
        · rw [accepted]
          rfl
  simp only [ofUse, definition?_eq, selects.defined, selects.isMacro,
    Bool.not_true, Bool.false_eq_true, if_false, matched]
  rfl

private theorem outcome_of_ofRescan
    {definition : Definition} {expansion : Expansion}
    (selects : use.Selects lookup definition)
    (result : ofRescan lookup settings use definition
      (Scope.expandUse ⟨lookup, []⟩ settings [] 0 use []) = .ok expansion) :
    Outcome lookup settings use expansion := by
  unfold ofRescan at result
  have defined : Scope.definition? ⟨lookup, []⟩ use.name = some definition :=
    selects.defined
  rcases Scope.expandUse_cases defined selects.isMacro with
    ⟨failure, pasted, expanded⟩ |
      ⟨room, balanced, opened, note, pasted, opens, expanded⟩
  · rw [expanded] at result
    cases failure with
    | expansion error =>
        cases result
        exact .refused error
    | placeholder error => cases result
  · obtain ⟨last, passes, ending⟩ :=
      Scope.rescan_passes ⟨lookup, []⟩ settings ([] ++ [use.key])
        (0 + 1) ⟨opened.text, [], pasted⟩
    have run : Run lookup settings use definition
        ⟨use.spelling, opened.text, use.name, note, 0⟩ _ last :=
      ⟨selects, balanced, room, rfl, rfl, ⟨opened, opens, rfl⟩, passes⟩
    rw [expanded] at result
    simp only at result
    split at result
    next text success =>
      cases result
      obtain ⟨rfl, settled⟩ := ending text success
      exact .finished run settled rfl
    next =>
      cases result
      exact .broken _ run
    next => cases result

/-- The result of an expansion is one of the outcomes. -/
theorem outcome_of_ofUse
    {expansion : Expansion}
    (result : ofUse lookup settings use = .ok expansion) :
    Outcome lookup settings use expansion := by
  unfold ofUse at result
  simp only [definition?_eq] at result
  split at result
  next undefined =>
    cases result
    refine .untouched [] ?_
    rintro ⟨definition, selects⟩
    rw [selects.defined] at undefined
    cases undefined
  next definition defined =>
    have unique {other : Definition} (selects : use.Selects lookup other) :
        other = definition := by
      rw [selects.defined] at defined
      exact Option.some.inj defined
    split at result
    next notMacro =>
      cases result
      refine .untouched [] ?_
      rintro ⟨other, selects⟩
      obtain rfl := unique selects
      simp [selects.isMacro] at notMacro
    next isMacro =>
      split at result
      next mismatched =>
        cases result
        refine .untouched _ ?_
        rintro ⟨other, selects⟩
        obtain rfl := unique selects
        simp only [Bool.and_eq_true, Bool.not_eq_true'] at mismatched
        rcases selects.matching mismatched.1.1 with unbalanced | accepted
        · rw [mismatched.2] at unbalanced
          cases unbalanced
        · rw [mismatched.1.2] at accepted
          cases accepted
      next matched =>
        have selects : use.Selects lookup definition := by
          refine ⟨defined, by simpa using isMacro, ?_⟩
          intro called
          simp only [called, Bool.true_and, Bool.and_eq_true,
            Bool.not_eq_true', not_and, Bool.not_eq_false] at matched
          cases accepted : definition.accepts use.arguments with
          | true => exact .inr rfl
          | false => exact .inl (matched accepted)
        exact outcome_of_ofRescan selects result

/-- An expansion without an error runs until its text is settled. -/
theorem Outcome.exists_run
    {definition : Definition} {expansion : Expansion}
    (outcome : Outcome lookup settings use expansion)
    (selects : use.Selects lookup definition)
    (complete : expansion.error = none) :
    ∃ first rest last, Run lookup settings use definition first rest last ∧
      Scope.Settled ⟨lookup, []⟩ settings.mode last ∧
      expansion.steps = first :: rest ∧
      expansion.finalText = if settings.stripParentheses then
        Group.simplify last else last := by
  cases outcome with
  | untouched remarks untouched => exact absurd ⟨definition, selects⟩ untouched
  | refused error => cases complete
  | broken error run => cases complete
  | @finished other first rest last scanned run settled steps =>
      have same : other = definition := by
        have defined := run.selects.defined
        rw [selects.defined] at defined
        exact (Option.some.inj defined).symm
      subst same
      exact ⟨first, rest, last, run, settled, steps, rfl⟩

section Bare

variable {name : Text} {definition : Definition}

theorem selects_of_bare
    (defined : (lookup name).head? = some definition)
    (isMacro : definition.isMacro = true) :
    Use.Selects lookup ⟨name, none⟩ definition :=
  ⟨defined, isMacro, fun called => absurd called Bool.false_ne_true⟩

theorem ofUse_of_ok
    {text : Text}
    (defined : (lookup name).head? = some definition)
    (isMacro : definition.isMacro = true)
    (outcome :
      (Scope.expandUse ⟨lookup, []⟩ settings [] 0 ⟨name, none⟩ []).outcome =
        .ok text) :
    ofUse lookup settings ⟨name, none⟩ =
      .ok (finished lookup settings definition text
        (Scope.expandUse ⟨lookup, []⟩ settings [] 0 ⟨name, none⟩ [])) := by
  rw [ofUse_of_selects (selects_of_bare defined isMacro), ofRescan, outcome]

theorem ofUse_of_error
    {error : ExpansionError}
    (defined : (lookup name).head? = some definition)
    (isMacro : definition.isMacro = true)
    (outcome :
      (Scope.expandUse ⟨lookup, []⟩ settings [] 0 ⟨name, none⟩ []).outcome =
        .error (.expansion error)) :
    ofUse lookup settings ⟨name, none⟩ =
      .ok (failed ⟨name, none⟩
        (Scope.expandUse ⟨lookup, []⟩ settings [] 0 ⟨name, none⟩
          []).steps error) := by
  rw [ofUse_of_selects (selects_of_bare defined isMacro), ofRescan, outcome]

end Bare

theorem clean_of_lookup
    (clean : ∀ name, ∀ definition ∈ lookup name, '\x00' ∉ definition.body) :
    Scope.Clean ⟨lookup, []⟩ := by
  intro name definition defined _
  exact clean name definition (List.mem_of_head? defined)

/-- An expansion with bodies that hold no placeholders of their own has a
result. -/
theorem ofUse_isOk
    (clean : Scope.Clean ⟨lookup, []⟩)
    (settings : Settings) (use : Use) :
    ∃ expansion, ofUse lookup settings use = .ok expansion := by
  unfold ofUse
  simp only
  split
  next => exact ⟨_, rfl⟩
  next =>
    split
    next => exact ⟨_, rfl⟩
    next =>
      split
      next => exact ⟨_, rfl⟩
      next =>
        split
        next => exact ⟨_, rfl⟩
        next => exact ⟨_, rfl⟩
        next placeholder =>
          obtain ⟨error, impossible⟩ := Scope.expandUse_error clean placeholder
          cases impossible

end Expansion

end MacroTrace
