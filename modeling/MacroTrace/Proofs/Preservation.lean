import MacroTrace.Proofs.Passes
import MacroTrace.Proofs.Paste
import MacroTrace.Proofs.Thinning

/-!
# Preservation of well-formedness

If the bodies of all macros in force are well-formed, then so is every text that
an expansion passes through, and the text that it ends with.
-/

namespace MacroTrace

namespace Scope

variable {scope : Scope} {settings : Settings}

/-- Every macro in force is balanced and has a well-formed body without
placeholders. -/
def Formed (scope : Scope) : Prop :=
  ∀ name definition, scope.definition? name = some definition →
    definition.isMacro = true →
    definition.isUnbalanced = false ∧ WellFormed definition.body ∧
      '\x00' ∉ definition.body

theorem Formed.clean
    (formed : scope.Formed) :
    scope.Clean :=
  fun name definition defined isMacro =>
    (formed name definition defined isMacro).2.2

theorem wellFormed_replacement
    (formed : scope.Formed)
    {use : Use} {definition : Definition}
    (defined : scope.definition? use.name = some definition)
    (isMacro : definition.isMacro = true)
    (arguments : ∀ argument ∈ use.arguments.getD [], WellFormed argument)
    {result : Paste.Result}
    (replaced : scope.replacement use = .ok result) :
    WellFormed result.text := by
  obtain ⟨_, formedBody, clean⟩ := formed use.name definition defined isMacro
  unfold replacement at replaced
  simp only [defined] at replaced
  split at replaced
  next => cases replaced
  next =>
    split at replaced
    next =>
      cases replaced
      exact Paste.wellFormed_apply formedBody
    next parameters _ =>
      rw [Substitution.applyRaw_eq clean] at replaced
      cases replaced
      apply Paste.wellFormed_apply
      apply Substitution.wellFormed_replaced formedBody arguments
      intro index _
      exact Substitution.wellFormed_getD
        (fun _ member => Substitution.wellFormed_of_mem_values arguments member)
        index

theorem wellFormed_rewriteAll
    (formed : scope.Formed)
    {chosen : List Invocation} {text next : Text}
    (macros : ∀ invocation ∈ chosen, ∃ definition,
      scope.definition? invocation.name = some definition ∧
        definition.isMacro = true)
    (ordered : chosen.Pairwise fun later earlier => earlier.stop ≤ later.start)
    (standing : ∀ invocation ∈ chosen, Invocation.Standing text invocation)
    (formedText : WellFormed text)
    (rewritten : scope.rewriteAll chosen text = .ok next) :
    WellFormed next := by
  induction chosen generalizing text with
  | nil =>
      cases rewritten
      exact formedText
  | cons invocation chosen ih =>
      obtain ⟨definition, defined, isMacro⟩ :=
        macros invocation List.mem_cons_self
      obtain ⟨before, ordered⟩ := List.pairwise_cons.mp ordered
      have here := standing invocation List.mem_cons_self
      rw [rewriteAll] at rewritten
      split at rewritten
      next => cases rewritten
      next result replaced =>
        have arguments : ∀ argument ∈ invocation.use.arguments.getD [],
            WellFormed argument := by
          intro argument member
          cases listed : invocation.arguments with
          | none => simp [Invocation.use, listed] at member
          | some list =>
              simp only [Invocation.use, listed, Option.map_some,
                Option.getD_some] at member
              obtain ⟨found, present, rfl⟩ := List.mem_map.mp member
              exact here.formed list listed found present
        have formedResult :=
          wellFormed_replacement formed defined isMacro arguments replaced
        have within := Nat.le_trans here.neutral.order here.neutral.within
        apply ih
          (fun other member => macros other (List.mem_cons_of_mem _ member))
          ordered ?_ ?_ rewritten
        · -- What lies further left does not see the replacement.
          intro other member
          have standingOther := standing other (List.mem_cons_of_mem _ member)
          refine ⟨standingOther.neutral.of_take (before other member) ?_ ?_,
            standingOther.formed⟩
          · simp only [List.length_append, List.length_take]
            omega
          · rw [List.append_assoc,
              List.take_append_of_le_length (by simp; omega), List.take_take,
              Nat.min_self]
        · rw [wellFormed_iff]
          exact here.neutral.replace formedResult (formedText.walk? 0)

/-- A pass preserves well-formedness. -/
theorem wellFormed_rewrite
    (formed : scope.Formed)
    {mode : Mode}
    (text next : Text)
    (formedText : WellFormed text)
    (rewritten : scope.rewrite mode text = .ok next) :
    WellFormed next := by
  refine wellFormed_rewriteAll formed
    (fun _ member => definition?_of_mem_select member)
    (mode.pairwise_select ?_) ?_ formedText rewritten
  · exact ((Invocation.pairwise_all text).filter _).filter _
  · intro invocation member
    exact Invocation.standing_of_mem_all formedText
      (mem_all_of_mem_candidates (Mode.mem_of_mem_select member)).1

theorem Opens.wellFormed
    (formed : scope.Formed)
    {definition : Definition}
    (formedBody : WellFormed definition.body)
    (clean : '\x00' ∉ definition.body)
    {arguments : Option (List Text)} {result : Paste.Result}
    (formedArguments : ∀ argument ∈ arguments.getD [], WellFormed argument)
    (opens : scope.Opens settings definition arguments result) :
    WellFormed result.text := by
  cases opens with
  | bare => exact Paste.wellFormed_apply formedBody
  | @called parameters arguments plain _ parameterized reduced applied =>
      rw [Substitution.apply_eq clean] at applied
      cases applied
      apply Paste.wellFormed_apply
      apply Substitution.wellFormed_replaced formedBody formedArguments
      intro index wanted
      refine (reduced index wanted).invariant (wellFormed_rewrite formed) ?_
      exact Substitution.wellFormed_getD
        (fun _ member => Substitution.wellFormed_of_mem_values formedArguments
          member) index

end Scope

theorem Use.wellFormed_spelling
    {use : Use}
    (identifier : use.name.isIdentifier = true)
    (arguments : ∀ argument ∈ use.arguments.getD [], WellFormed argument) :
    WellFormed use.spelling := by
  have name : WellFormed use.name := by
    apply WellFormed.of_inert
    intro c member
    simp only [Text.isIdentifier, Bool.and_eq_true, List.all_eq_true]
      at identifier
    exact Text.isInert_of_isWordChar (identifier.2 c member)
  unfold spelling written
  cases called : use.arguments with
  | none => exact name
  | some list =>
      rw [called] at arguments
      have separator : WellFormed [',', ' '] := (wellFormed_iff _).mpr rfl
      exact name.append (WellFormed.joinWith separator arguments).parenthesized

namespace Expansion

variable {lookup : Lookup} {settings : Settings} {use : Use}

theorem Run.wellFormed
    (formed : Scope.Formed ⟨lookup, []⟩)
    (arguments : ∀ argument ∈ use.arguments.getD [], WellFormed argument)
    {definition : Definition} {first : Step} {rest : List Step} {last : Text}
    (run : Run lookup settings use definition first rest last) :
    (∀ step ∈ first :: rest, WellFormed step.target) ∧ WellFormed last := by
  obtain ⟨result, opens, target⟩ := run.opens
  obtain ⟨_, formedBody, clean⟩ :=
    formed use.name definition run.selects.defined run.selects.isMacro
  have start : WellFormed first.target := by
    rw [target]
    exact opens.wellFormed formed formedBody clean arguments
  obtain ⟨atEnd, later⟩ :=
    run.passes.invariant (Scope.wellFormed_rewrite formed) start
  refine ⟨?_, atEnd⟩
  intro step member
  rcases List.mem_cons.mp member with rfl | member
  · exact start
  · exact later step member

/-- Expansion preserves well-formedness, from the use to the final text. -/
theorem exists_wellFormed
    (formed : Scope.Formed ⟨lookup, []⟩)
    (settings : Settings)
    (identifier : use.name.isIdentifier = true)
    (arguments : ∀ argument ∈ use.arguments.getD [], WellFormed argument) :
    ∃ expansion, ofUse lookup settings use = .ok expansion ∧
      (∀ step ∈ expansion.steps, WellFormed step.target) ∧
      WellFormed expansion.finalText := by
  obtain ⟨expansion, result⟩ := ofUse_isOk formed.clean settings use
  have spelling := Use.wellFormed_spelling identifier arguments
  refine ⟨expansion, result, ?_⟩
  cases outcome_of_ofUse result with
  | untouched remarks => exact ⟨nofun, spelling⟩
  | refused error => exact ⟨nofun, spelling⟩
  | broken error run => exact ⟨(run.wellFormed formed arguments).1, spelling⟩
  | finished run settled steps =>
      obtain ⟨targets, last⟩ := run.wellFormed formed arguments
      refine ⟨?_, ?_⟩
      · change ∀ step ∈ Rescan.steps _, WellFormed step.target
        rw [steps]
        exact targets
      · change WellFormed (if settings.stripParentheses then
          Group.simplify _ else _)
        split
        · exact Group.wellFormed_simplify last
        · exact last

/-- Macros that make a string of an argument, paste it, and put it into
parentheses. -/
def quotingMacros : Snapshot :=
  ⟨[⟨"SHOW".toList, some ["x".toList], "puts(#x \"(\" ')' x)".toList,
      "show.h", 1, true⟩,
    ⟨"GLUE".toList, some ["a".toList, "b".toList], "((a ## _ ## b))".toList,
      "show.h", 2, true⟩]⟩

theorem exists_wellFormed_quotingMacros :
    Scope.Formed ⟨quotingMacros.lookup, []⟩ ∧
      (∀ argument ∈ ["GLUE((\")\"), ')')".toList], WellFormed argument) ∧
      ∃ expansion, ofUse quotingMacros.lookup Settings.default
          ⟨"SHOW".toList, some ["GLUE((\")\"), ')')".toList]⟩ = .ok expansion ∧
        (∀ step ∈ expansion.steps, WellFormed step.target) ∧
        WellFormed expansion.finalText := by
  have formed : Scope.Formed ⟨quotingMacros.lookup, []⟩ := by
    intro name definition defined _
    have all : ∀ definition ∈ quotingMacros.definitions,
        definition.isUnbalanced = false ∧
        WellFormed definition.body ∧ '\x00' ∉ definition.body := by decide
    have member : definition ∈ quotingMacros.lookup name :=
      List.mem_of_head? defined
    exact all definition (List.mem_of_mem_filter member)
  have arguments : ∀ argument ∈ ["GLUE((\")\"), ')')".toList],
      WellFormed argument := by decide
  exact ⟨formed, arguments,
    exists_wellFormed formed Settings.default (by decide) arguments⟩

end Expansion

end MacroTrace
