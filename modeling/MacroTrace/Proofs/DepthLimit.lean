import MacroTrace.Proofs.Passes

/-!
# The limit on the depth

The limit is looked at when a use is entered, before every pass and before every
pass over an argument.  Two runs that differ in it alone go side by side until
the one with the lower limit stops there.  So a lower limit gives the same
expansion, or one that fails for want of depth and has only the first steps of
the other.
-/

namespace MacroTrace

def Settings.withDepth (settings : Settings) (depth : Nat) : Settings :=
  { settings with maxDepth := depth }

@[simp] theorem Settings.mode_withDepth (settings : Settings) (depth : Nat) :
    (settings.withDepth depth).mode = settings.mode := rfl

theorem Settings.room_withDepth
    {settings : Settings} {shallow deep level : Nat}
    (order : shallow ≤ deep)
    (room : ¬ (settings.withDepth shallow).maxDepth ≤ level) :
    ¬ (settings.withDepth deep).maxDepth ≤ level :=
  fun reached => room (Nat.le_trans order reached)

/-- A rescan with less depth beside one with more: nothing changes, or the limit
stops it after some of the steps. -/
inductive Rescan.CutShort : Rescan → Rescan → Prop where
  | same (run : Rescan) : CutShort run run
  | stopped {short long : Rescan} :
      short.outcome = .error (.expansion .maxDepth) →
      short.steps <+: long.steps →
      CutShort short long

theorem Rescan.CutShort.cons
    {short long : Rescan}
    (cut : CutShort short long)
    (step : Step) :
    CutShort { short with steps := step :: short.steps }
      { long with steps := step :: long.steps } := by
  cases cut with
  | same => exact .same _
  | stopped limit shorter =>
      apply stopped
      · exact limit
      · exact (List.prefix_cons_inj step).mpr shorter

namespace Scope

variable (scope : Scope) (settings : Settings) {shallow deep : Nat}

theorem rescan_withDepth
    (order : shallow ≤ deep)
    (chain : List Text) (level : Nat) (draft : Draft) :
    Rescan.CutShort
      (scope.rescan (settings.withDepth shallow) chain level draft)
      (scope.rescan (settings.withDepth deep) chain level draft) := by
  -- The induction follows the passes of the run with the lower limit.
  fun_induction Scope.rescan scope (settings.withDepth shallow) chain
    level draft with
  | case1 level draft candidates none =>
      rw [Scope.rescan, if_pos none]
      exact .same _
  | case2 level draft candidates some reached =>
      apply Rescan.CutShort.stopped
      · rfl
      · exact List.nil_prefix
  | case3 level draft candidates some room chosen failure pasted failed =>
      rw [Scope.rescan, if_neg some,
        if_neg (Settings.room_withDepth order room)]
      simp only [Settings.mode_withDepth, chosen, candidates] at failed ⊢
      rw [failed]
      exact .same _
  | case4 level draft candidates some room chosen next expanded unchanged =>
      rw [Scope.rescan, if_neg some,
        if_neg (Settings.room_withDepth order room)]
      simp only [Settings.mode_withDepth, chosen, candidates] at expanded ⊢
      simp only [expanded, if_pos unchanged]
      exact .same _
  | case5 level draft candidates some room chosen next expanded changed subject
      note described step rest ih =>
      rw [Scope.rescan, if_neg some,
        if_neg (Settings.room_withDepth order room)]
      simp only [Settings.mode_withDepth, chosen, candidates]
        at expanded described ⊢
      simp only [expanded, if_neg changed, described]
      exact ih.cons _

/-- Work in front of a rescan with less depth: it comes to the same, or the
limit stops it. -/
def Hindered {α : Type} (short long : Except (Failure × List Text) α) : Prop :=
  short = long ∨ ∃ pasted, short = .error (.expansion .maxDepth, pasted)

theorem expandArguments_withDepth
    (order : shallow ≤ deep)
    (chain : List Text) (level : Nat) (values : List Text) (wanted : List Nat)
    (done : ExpandedArguments) :
    Hindered (scope.expandArguments (settings.withDepth shallow) chain level
      values wanted done)
      (scope.expandArguments (settings.withDepth deep) chain level values
        wanted done) := by
  induction wanted generalizing done with
  | nil => exact .inl rfl
  | cons index wanted ih =>
      have cut := rescan_withDepth scope settings order chain level
        ⟨values[index]?.getD [], [], done.pasted⟩
      simp only [expandArguments]
      revert cut
      generalize scope.rescan (settings.withDepth shallow) chain level _ = short
      generalize scope.rescan (settings.withDepth deep) chain level _ = long
      intro cut
      cases cut with
      | same =>
          cases short.outcome with
          | ok text => exact ih _
          | error failure => exact .inl rfl
      | stopped limit shorter =>
          rw [limit]
          exact .inr ⟨_, rfl⟩

theorem firstBody_withDepth
    (order : shallow ≤ deep)
    (chain : List Text) (level : Nat) (definition : Definition)
    (arguments : Option (List Text)) (pasted : List Text) :
    Hindered
      (scope.firstBody (settings.withDepth shallow) chain level definition
        arguments pasted)
      (scope.firstBody (settings.withDepth deep) chain level definition
        arguments pasted) := by
  unfold firstBody
  split
  next parameters arguments parameterized =>
    simp only
    rcases expandArguments_withDepth scope settings order chain level
      (Substitution.values parameters arguments)
      (Substitution.plainParameters definition.body parameters)
      ⟨[], pasted⟩ with
      same | ⟨names, limit⟩
    · rw [same]
      exact .inl rfl
    · rw [limit]
      exact .inr ⟨names, rfl⟩
  next => exact .inl rfl
  next => exact .inl rfl

theorem expandUse_withDepth
    (order : shallow ≤ deep)
    (chain : List Text) (level : Nat) (use : Use) (pasted : List Text) :
    Rescan.CutShort
      (scope.expandUse (settings.withDepth shallow) chain level use pasted)
      (scope.expandUse (settings.withDepth deep) chain level use pasted) := by
  by_cases room : (settings.withDepth shallow).maxDepth ≤ level
  · rw [expandUse, if_pos room]
    apply Rescan.CutShort.stopped
    · rfl
    · exact List.nil_prefix
  · unfold expandUse
    rw [if_neg room, if_neg (Settings.room_withDepth order room)]
    split
    next => exact .same _
    next =>
      split
      next => exact .same _
      next definition defined =>
        split
        next => exact .same _
        next =>
          split
          next => exact .same _
          next =>
            simp only
            rcases firstBody_withDepth scope settings order
              (chain ++ [use.key]) (level + 1)
              definition use.arguments pasted with same | ⟨names, limit⟩
            · rw [same]
              split
              next => exact .same _
              next body names note opened =>
                exact (rescan_withDepth scope settings order _ _ _).cons _
            · rw [limit]
              apply Rescan.CutShort.stopped
              · rfl
              · exact List.nil_prefix

end Scope

namespace Expansion

variable {lookup : Lookup} {settings : Settings} {use : Use}
  {shallow deep : Nat}

/-- An expansion with less depth is the same, or the limit stops it after some
of the steps. -/
theorem ofUse_cases_of_le
    (order : shallow ≤ deep) :
    ofUse lookup (settings.withDepth shallow) use =
      ofUse lookup (settings.withDepth deep) use ∨
      ∃ steps, ofUse lookup (settings.withDepth shallow) use =
        .ok (failed use steps .maxDepth) ∧
        ∀ expansion, ofUse lookup (settings.withDepth deep) use =
          .ok expansion →
          steps <+: expansion.steps := by
  unfold ofUse
  simp only
  split
  next => exact .inl rfl
  next definition defined =>
    split
    next => exact .inl rfl
    next =>
      split
      next => exact .inl rfl
      next =>
        have cut :=
          Scope.expandUse_withDepth ⟨lookup, []⟩ settings order [] 0 use []
        revert cut
        generalize Scope.expandUse _ (settings.withDepth shallow) [] 0 use [] =
          short
        generalize Scope.expandUse _ (settings.withDepth deep) [] 0 use [] =
          long
        intro cut
        cases cut with
        | same => exact .inl rfl
        | stopped limit shorter =>
            rw [limit]
            refine .inr ⟨short.steps, rfl, ?_⟩
            intro expansion result
            split at result
            next =>
              cases result
              exact shorter
            next =>
              cases result
              exact shorter
            next => cases result

/-- The limit on the depth only cuts an expansion short: if it does not make one
fail, a higher limit gives the same result, and if it does, the steps are the
first ones of those that a higher limit allows. -/
theorem ofUse_withDepth_of_le
    (order : shallow ≤ deep) :
    ((∀ expansion, ofUse lookup (settings.withDepth shallow) use =
      .ok expansion →
        expansion.error ≠ some .maxDepth) →
      ofUse lookup (settings.withDepth deep) use =
        ofUse lookup (settings.withDepth shallow) use) ∧
    ∀ short long, ofUse lookup (settings.withDepth shallow) use = .ok short →
      ofUse lookup (settings.withDepth deep) use = .ok long →
      short.steps <+: long.steps := by
  rcases ofUse_cases_of_le order with same | ⟨steps, limit, shorter⟩
  · constructor
    · intro _
      exact same.symm
    · intro short long resultShort resultLong
      rw [same, resultLong] at resultShort
      cases resultShort
      exact List.prefix_rfl
  · constructor
    · intro inTime
      exact absurd rfl (inTime _ limit)
    · intro short long resultShort resultLong
      rw [limit] at resultShort
      cases resultShort
      exact shorter long resultLong

/-- Two macros that stand for each other. -/
def pingPong : Snapshot :=
  ⟨[⟨"PING".toList, none, "PONG".toList, "loop.h", 1, true⟩,
    ⟨"PONG".toList, none, "PING".toList, "loop.h", 2, true⟩]⟩

private theorem error_pingPong :
    (ofUse pingPong.lookup (Settings.default.withDepth 3)
      ⟨"PING".toList, none⟩).toOption.map
        (·.error) =
      some (some (.circular ["PING".toList, "PONG".toList,
        "PING".toList])) := by
  decide +kernel

theorem ofUse_withDepth_of_le_pingPong :
    3 ≤ 30 ∧
      (∀ expansion,
        ofUse pingPong.lookup (Settings.default.withDepth 3)
            ⟨"PING".toList, none⟩ =
          .ok expansion → expansion.error ≠ some .maxDepth) ∧
      ofUse pingPong.lookup (Settings.default.withDepth 30)
          ⟨"PING".toList, none⟩ =
        ofUse pingPong.lookup (Settings.default.withDepth 3)
          ⟨"PING".toList, none⟩ := by
  have inTime : ∀ expansion,
      ofUse pingPong.lookup (Settings.default.withDepth 3)
          ⟨"PING".toList, none⟩ =
        .ok expansion → expansion.error ≠ some .maxDepth := by
    intro expansion result limit
    have error := error_pingPong
    rw [result] at error
    simp [Except.toOption, limit] at error
  exact ⟨by decide, inTime, (ofUse_withDepth_of_le (by decide)).1 inTime⟩

end Expansion

end MacroTrace
