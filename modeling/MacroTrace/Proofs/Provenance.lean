import MacroTrace.Proofs.Context
import MacroTrace.Proofs.Passes
import MacroTrace.Proofs.Piece
import MacroTrace.Proofs.Region
import Mathlib.Data.List.Chain
import Mathlib.Logic.Relation

/-!
# Where identifiers come from

A macro mentions the identifiers of its body.  While a text is rescanned, the
regions attribute to every offset the uses whose replacements made it; for
object-like macros these are a path of mentions that leads from the expanded
name to the identifier at that offset.  An expansion is therefore circular only
if some macro reaches itself by mentions.
-/

namespace MacroTrace

namespace Scope

/-- A name occurs as an identifier in the body of a macro. -/
def Mentions (scope : Scope) (name mentioned : Text) : Prop :=
  ∃ definition, scope.definition? name = some definition ∧
    definition.isMacro = true ∧
    mentioned ∈ (Word.identifiers definition.body).map (·.spelling)

/-- No macro reaches itself by mentions. -/
def Acyclic (scope : Scope) : Prop :=
  ∀ name, ¬ Relation.TransGen scope.Mentions name name

/-- Every macro is object-like and pastes nothing. -/
def ObjectLike (scope : Scope) : Prop :=
  ∀ name definition, scope.definition? name = some definition →
    definition.isMacro = true →
    definition.parameters = none ∧ Text.holds ['#', '#'] definition.body = false

variable {scope : Scope} {settings : Settings}

theorem acyclic_of_rank
    {rank : Text → Nat}
    (increases : ∀ name mentioned, scope.Mentions name mentioned →
      rank name < rank mentioned) :
    scope.Acyclic := by
  intro name cycle
  have climbs {first last : Text}
      (path : Relation.TransGen scope.Mentions first last) :
      rank first < rank last := by
    induction path with
    | single mentions => exact increases _ _ mentions
    | tail _ mentions ih => exact Nat.lt_trans ih (increases _ _ mentions)
  exact Nat.lt_irrefl _ (climbs cycle)

/-- The definitions of a snapshot are in force under their names. -/
theorem mem_of_definition?_lookup
    {snapshot : Snapshot} {name : Text} {definition : Definition}
    (defined : Scope.definition? ⟨snapshot.lookup, []⟩ name = some definition) :
    definition ∈ snapshot.definitions ∧ definition.name = name := by
  obtain ⟨member, same⟩ := List.mem_filter.mp (List.mem_of_head? defined)
  exact ⟨member, of_decide_eq_true same⟩

theorem objectLike_lookup
    {snapshot : Snapshot}
    (all : ∀ definition ∈ snapshot.definitions,
      definition.parameters = none ∧
        Text.holds ['#', '#'] definition.body = false) :
    ObjectLike ⟨snapshot.lookup, []⟩ := by
  intro name definition defined _
  exact all definition (mem_of_definition?_lookup defined).1

theorem acyclic_lookup
    {snapshot : Snapshot} {rank : Text → Nat}
    (all : ∀ definition ∈ snapshot.definitions,
      ∀ word ∈ Word.identifiers definition.body, rank definition.name <
        rank word.spelling) :
    Acyclic ⟨snapshot.lookup, []⟩ := by
  apply acyclic_of_rank
  rintro name mentioned ⟨definition, defined, _, listed⟩
  obtain ⟨member, rfl⟩ := mem_of_definition?_lookup defined
  obtain ⟨word, found, rfl⟩ := List.mem_map.mp listed
  exact all definition member word found

theorem mentions_iff
    {name mentioned : Text} :
    scope.Mentions name mentioned ↔
      ∃ definition offset, scope.definition? name = some definition ∧
        definition.isMacro = true ∧
        (offset, mentioned) ∈ Text.identifiers definition.body := by
  constructor
  · rintro ⟨definition, defined, isMacro, member⟩
    obtain ⟨offset, listed⟩ := Word.mem_map_spelling_iff.mp member
    exact ⟨definition, offset, defined, isMacro, listed⟩
  · rintro ⟨definition, offset, defined, isMacro, listed⟩
    exact ⟨definition, defined, isMacro,
      Word.mem_map_spelling_iff.mpr ⟨offset, listed⟩⟩

theorem Mentions.isIdentifier
    {name mentioned : Text}
    (mentions : scope.Mentions name mentioned) :
    Text.isIdentifier mentioned = true := by
  obtain ⟨_, _, _, _, listed⟩ := mentions_iff.mp mentions
  exact (List.mem_filter.mp listed).2

/-- Everything on a path leads to its last member. -/
theorem transGen_of_isChain
    {path : List Text} {last : Text}
    (chain : (path ++ [last]).IsChain scope.Mentions)
    {name : Text}
    (member : name ∈ path) :
    Relation.TransGen scope.Mentions name last := by
  have pairs : (path ++ [last]).Pairwise (Relation.TransGen scope.Mentions) :=
    List.isChain_iff_pairwise.mp
      (chain.imp fun _ _ mentions => .single mentions)
  exact (List.pairwise_append.mp pairs).2.2 name member last
    (List.mem_singleton_self last)

theorem isChain_concat
    {path : List Text} {last mentioned : Text}
    (chain : (path ++ [last]).IsChain scope.Mentions)
    (mentions : scope.Mentions last mentioned) :
    (path ++ [last] ++ [mentioned]).IsChain scope.Mentions := by
  rw [List.append_assoc]
  exact List.isChain_append_cons_cons.mpr ⟨chain, mentions, .singleton _⟩

theorem isIdentifier_of_isChain
    {root : Text} {path : List Text}
    (chain : (root :: path).IsChain scope.Mentions) :
    ∀ name ∈ path, Text.isIdentifier name = true := by
  induction path generalizing root with
  | nil => nofun
  | cons first path ih =>
      obtain ⟨mentions, later⟩ := List.isChain_cons_cons.mp chain
      intro name member
      rcases List.mem_cons.mp member with rfl | member
      · exact mentions.isIdentifier
      · exact ih later name member

theorem opening_not_mem_of_isIdentifier
    {name : Text}
    (identifier : Text.isIdentifier name = true) :
    '(' ∉ name := by
  intro opening
  have isWord := Text.isWordChar_of_isIdentifier identifier _ opening
  revert isWord
  decide

/-- The uses that an offset of a draft is attributed to are a path of mentions,
from the expanded name to the identifier at that offset. -/
structure Sourced (scope : Scope) (root : Text) (draft : Draft) : Prop where
  coherent : Region.Coherent draft.regions
  path : ∀ offset name, (offset, name) ∈ Text.identifiers draft.text →
    (root :: Region.chainAt draft.regions offset ++ [name]).IsChain
      scope.Mentions

namespace Sourced

variable {root : Text} {draft : Draft}

/-- The first body of an expansion comes from the expanded name. -/
theorem start
    {definition : Definition}
    (defined : scope.definition? root = some definition)
    (isMacro : definition.isMacro = true)
    (pasted : List Text) :
    Sourced scope root ⟨definition.body, [], pasted⟩ := by
  constructor
  · exact Region.coherent_nil
  · intro offset name member
    have mentions :=
      mentions_iff.mpr ⟨definition, offset, defined, isMacro, member⟩
    exact .cons_cons mentions (.singleton name)

/-- An identifier does not occur on the path to it. -/
theorem not_mem
    (sourced : Sourced scope root draft)
    (acyclic : scope.Acyclic)
    {offset : Nat} {name : Text}
    (member : (offset, name) ∈ Text.identifiers draft.text) :
    name ∉ root :: Region.chainAt draft.regions offset := by
  intro repeated
  exact acyclic name
    (transGen_of_isChain (sourced.path offset name member) repeated)

/-- A call does not occur on a path, which holds names only. -/
theorem not_mem_of_opening
    (sourced : Sourced scope root draft)
    (bare : '(' ∉ root)
    {offset : Nat} {name key : Text}
    (member : (offset, name) ∈ Text.identifiers draft.text)
    (opening : '(' ∈ key) :
    key ∉ root :: Region.chainAt draft.regions offset := by
  intro repeated
  rcases List.mem_cons.mp repeated with rfl | repeated
  · exact bare opening
  · have chain := (List.isChain_append.mp (sourced.path offset name member)).1
    exact opening_not_mem_of_isIdentifier
      (isIdentifier_of_isChain chain key repeated) opening

/-- Replacing an identifier by the body of its macro extends the path to it. -/
theorem replace
    (sourced : Sourced scope root draft)
    {offset : Nat} {name : Text}
    (member : (offset, name) ∈ Text.identifiers draft.text)
    {definition : Definition}
    (defined : scope.definition? name = some definition)
    (isMacro : definition.isMacro = true)
    (pasted : List Text) :
    Sourced scope root
      ⟨draft.text.take offset ++ definition.body ++
        draft.text.drop (offset + name.length),
          Region.replace draft.regions offset (offset + name.length)
            definition.body.length
          (Region.chainAt draft.regions offset ++ [name]), pasted⟩ := by
  have order : offset ≤ offset + name.length := Nat.le_add_right _ _
  obtain ⟨front, back, shape, place, before, behind⟩ :=
    Text.exists_append_of_mem_identifiers member
  have identifier : Text.isIdentifier name = true :=
    (List.mem_filter.mp member).2
  have old := Text.identifiers_of_pieces shape
  refine ⟨sourced.coherent.replace order, ?_⟩
  intro other mentioned listed
  simp only [before, behind] at listed ⊢
  rw [Text.identifiers_splice shape identifier, ← place] at listed
  rcases List.mem_append.mp listed with listed | listed
  · rcases List.mem_append.mp listed with inFront | inBody
    · -- In front of the replaced name nothing has changed.
      have bounds := Text.bounds_of_mem_identifiersFrom inFront
      rw [Nat.zero_add, ← place] at bounds
      rw [Region.chainAt_replace_of_lt sourced.coherent order bounds.2]
      apply sourced.path
      rw [old]
      exact List.mem_append_left _ inFront
    · have bounds := Text.bounds_of_mem_identifiersFrom inBody
      rw [Text.flatten_pieces] at bounds
      have moved := Text.mem_identifiersFrom_of_mem inBody 0
      rw [Region.chainAt_replace_of_mem sourced.coherent order
        bounds.1 bounds.2]
      have mentions : scope.Mentions name mentioned :=
        mentions_iff.mpr ⟨definition, _, defined, isMacro, moved⟩
      exact isChain_concat (sourced.path offset name member) mentions
  · -- What stands behind the replaced name has moved.
    have moved := Text.mem_identifiersFrom_of_mem listed (offset + name.length)
    have bounds := Text.bounds_of_mem_identifiersFrom listed
    have place' : other =
        other - (offset + definition.body.length) + (offset + name.length) -
        (offset + name.length) + (offset + definition.body.length) := by omega
    rw [place',
      Region.chainAt_replace_of_le sourced.coherent order (Nat.le_add_left _ _)]
    apply sourced.path
    rw [old, ← place, ← List.singleton_append, Text.identifiersFrom_append]
    apply List.mem_append_right
    apply List.mem_append_right
    rw [List.flatten_singleton]
    exact moved

end Sourced

/-- An invocation that a pass over a text can choose. -/
structure Chosen (scope : Scope) (text : Text)
    (invocation : Invocation) : Prop where
  named : (invocation.start, invocation.name) ∈ Text.identifiers text
  extent : invocation.arguments = none →
    invocation.stop = invocation.start + invocation.name.length
  candidate : scope.isCandidate true invocation = true

theorem chosen_of_mem_candidates
    {text : Text} {invocation : Invocation}
    (member : invocation ∈ scope.candidates true text) :
    Chosen scope text invocation := by
  obtain ⟨listed, candidate⟩ := mem_all_of_mem_candidates member
  obtain ⟨named, extent⟩ := Invocation.mem_identifiers_of_mem_all listed
  exact ⟨named, extent, candidate⟩

theorem pairwise_start_select (scope : Scope) (mode : Mode) (text : Text) :
    (mode.select (scope.candidates true text)).Pairwise
      fun later earlier => earlier.start < later.start := by
  have ordered : (scope.candidates true text).Pairwise Invocation.Precedes :=
    ((Invocation.pairwise_all text).filter _).filter _
  apply (mode.pairwise_select ordered).imp_of_mem
  intro later earlier _ member disjoint
  have listed := (mem_all_of_mem_candidates (Mode.mem_of_mem_select member)).1
  exact Nat.lt_of_lt_of_le (Invocation.within_of_mem_all listed).order disjoint

/-- A macro whose body is marked as unbalanced. -/
def Marked (scope : Scope) (name : Text) : Prop :=
  ∃ definition, scope.definition? name = some definition ∧
    definition.isMacro = true ∧
    definition.isUnbalanced = true

/-- An object-like macro is expanded where it is not called, and one that is
marked never. -/
theorem Chosen.cases
    {text : Text} {invocation : Invocation}
    (chosen : Chosen scope text invocation)
    (objectLike : scope.ObjectLike) :
    (scope.Marked invocation.name ∧
      scope.replacement invocation.use =
        .error (.expansion (.unbalanced invocation.name))) ∨
    (∃ definition, scope.definition? invocation.name = some definition ∧
      definition.isMacro = true ∧ invocation.arguments = none ∧
      scope.replacement invocation.use = .ok ⟨definition.body, []⟩) := by
  obtain ⟨definition, defined, isMacro⟩ :=
    definition?_of_isCandidate chosen.candidate
  obtain ⟨noParameters, unpasted⟩ := objectLike _ _ defined isMacro
  have definedUse : scope.definition? invocation.use.name = some definition :=
    defined
  cases marked : definition.isUnbalanced with
  | true =>
      refine .inl ⟨⟨definition, defined, isMacro, marked⟩, ?_⟩
      simp only [replacement, definedUse, marked, if_true]
      rfl
  | false =>
      have accepted := chosen.candidate
      simp only [isCandidate, defined, isMacro, marked, Bool.true_and,
        Definition.accepts, noParameters] at accepted
      refine .inr ⟨definition, defined, isMacro, ?_, ?_⟩
      · cases arguments : invocation.arguments with
        | none => rfl
        | some list =>
            rw [Invocation.use, arguments] at accepted
            cases accepted
      · simp only [replacement, definedUse, marked, noParameters,
          Paste.apply, unpasted]
        rfl

namespace Sourced

variable {root : Text} {draft : Draft}

/-- No invocation that a pass chooses is circular. -/
theorem contains_key
    (sourced : Sourced scope root draft)
    (acyclic : scope.Acyclic)
    {invocation : Invocation}
    (chosen : Chosen scope draft.text invocation)
    (bare : invocation.arguments = none ∨ '(' ∉ root) :
    ([root] ++ Region.chainAt draft.regions invocation.start).contains
        invocation.use.key =
      false := by
  rw [List.singleton_append, List.contains_eq_mem, decide_eq_false_iff_not]
  cases arguments : invocation.arguments with
  | none =>
      have key : invocation.use.key = invocation.name := by
        simp [Invocation.use, Use.key, Use.written, arguments]
      rw [key]
      exact sourced.not_mem acyclic chosen.named
  | some list =>
      have opening : '(' ∈ invocation.use.key := by
        simp [Invocation.use, Use.key, Use.written, arguments]
      rw [arguments] at bare
      have unopened := bare.resolve_left (Option.some_ne_none list)
      exact sourced.not_mem_of_opening unopened chosen.named opening

/-- Expanding an invocation fails at a marked macro only. -/
theorem expandInvocation_cases
    (sourced : Sourced scope root draft)
    (objectLike : scope.ObjectLike)
    (acyclic : scope.Acyclic)
    {invocation : Invocation}
    (chosen : Chosen scope draft.text invocation)
    (bare : invocation.arguments = none ∨ '(' ∉ root) :
    (scope.Marked invocation.name ∧
      scope.expandInvocation [root] draft invocation =
        .error (.expansion (.unbalanced invocation.name))) ∨
    (∃ next, scope.expandInvocation [root] draft invocation = .ok next ∧
      Sourced scope root next ∧
      ∀ earlier, Chosen scope draft.text earlier →
        earlier.start < invocation.start →
        Chosen scope next.text earlier) := by
  have fresh := sourced.contains_key acyclic chosen bare
  rcases chosen.cases objectLike with
    ⟨marked, replaced⟩ | ⟨definition, defined, isMacro, arguments, replaced⟩
  · left
    refine ⟨marked, ?_⟩
    simp only [expandInvocation, fresh, Bool.false_eq_true, if_false, replaced]
  · right
    have key : invocation.use.key = invocation.name := by
      simp [Invocation.use, Use.key, Use.written, arguments]
    have stop := chosen.extent arguments
    refine ⟨_,
      by
        simp only [expandInvocation, fresh, Bool.false_eq_true, if_false,
          replaced]
        rfl,
      ?_, ?_⟩
    · rw [stop, key]
      exact sourced.replace chosen.named defined isMacro _
    · intro earlier other order
      obtain ⟨front, back, shape, place, before, behind⟩ :=
        Text.exists_append_of_mem_identifiers chosen.named
      have identifier := (List.mem_filter.mp chosen.named).2
      refine ⟨?_, other.extent, other.candidate⟩
      simp only [stop, before, behind]
      rw [Text.identifiers_splice shape identifier, List.append_assoc]
      apply List.mem_append_left
      have listed := other.named
      rw [Text.identifiers_of_pieces shape, ← place] at listed
      rcases List.mem_append.mp listed with inFront | later
      · exact inFront
      · have bounds := Text.bounds_of_mem_identifiersFrom later
        omega

theorem expandInvocations_cases
    (sourced : Sourced scope root draft)
    (objectLike : scope.ObjectLike)
    (acyclic : scope.Acyclic)
    {chosen : List Invocation}
    (all : ∀ invocation ∈ chosen, Chosen scope draft.text invocation ∧
      (invocation.arguments = none ∨ '(' ∉ root))
    (ordered : chosen.Pairwise fun later earlier => earlier.start <
      later.start) :
    (∃ name pasted, scope.Marked name ∧
      scope.expandInvocations [root] chosen draft =
        .error (.expansion (.unbalanced name), pasted)) ∨
    (∃ next, scope.expandInvocations [root] chosen draft = .ok next ∧
      Sourced scope root next) := by
  induction chosen generalizing draft with
  | nil => exact .inr ⟨draft, rfl, sourced⟩
  | cons invocation chosen ih =>
      obtain ⟨before, later⟩ := List.pairwise_cons.mp ordered
      obtain ⟨first, bare⟩ := all invocation List.mem_cons_self
      rcases sourced.expandInvocation_cases objectLike acyclic first bare with
        ⟨marked, failed⟩ | ⟨next, expanded, sourcedNext, kept⟩
      · left
        refine ⟨invocation.name, draft.pasted, marked, ?_⟩
        simp only [expandInvocations, failed]
      · simp only [expandInvocations, expanded]
        apply ih sourcedNext _ later
        intro earlier member
        obtain ⟨other, bareOther⟩ := all earlier (List.mem_cons_of_mem _ member)
        exact ⟨kept earlier other (before earlier member), bareOther⟩

/-- A pass fails at a marked macro only. -/
theorem pass_cases
    (sourced : Sourced scope root draft)
    (objectLike : scope.ObjectLike)
    (acyclic : scope.Acyclic)
    (mode : Mode)
    (bare : '(' ∉ root ∨
      ∀ invocation ∈ scope.candidates true draft.text,
        invocation.arguments = none) :
    (∃ name pasted, scope.Marked name ∧
      scope.expandInvocations [root]
          (mode.select (scope.candidates true draft.text)) draft =
        .error (.expansion (.unbalanced name), pasted)) ∨
    (∃ next,
      scope.expandInvocations [root]
          (mode.select (scope.candidates true draft.text)) draft =
        .ok next ∧ Sourced scope root next) := by
  apply sourced.expandInvocations_cases objectLike acyclic
  · intro invocation member
    have candidate := Mode.mem_of_mem_select member
    refine ⟨chosen_of_mem_candidates candidate, ?_⟩
    rcases bare with bare | uncalled
    · exact .inr bare
    · exact .inl (uncalled invocation candidate)
  · exact pairwise_start_select scope mode draft.text

/-- A rescan ends without a failure, at the limit, or at a marked macro. -/
theorem rescan_cases
    (objectLike : scope.ObjectLike)
    (acyclic : scope.Acyclic)
    (bare : '(' ∉ root)
    (settings : Settings) (level : Nat)
    (sourced : Sourced scope root draft) :
    (∃ text, (scope.rescan settings [root] level draft).outcome = .ok text) ∨
      (scope.rescan settings [root] level draft).outcome =
        .error (.expansion .maxDepth) ∨
      ∃ name, (scope.rescan settings [root] level draft).outcome =
        .error (.expansion (.unbalanced name)) := by
  generalize around : [root] = chain
  fun_induction Scope.rescan scope settings chain level draft with
  | case1 level draft candidates none => exact .inl ⟨_, rfl⟩
  | case2 level draft candidates some deep => exact .inr (.inl rfl)
  | case3 level draft candidates some room chosen failure pasted failed =>
      subst around
      rcases sourced.pass_cases objectLike acyclic settings.mode
        (.inl bare) with
        ⟨name, _, _, stopped⟩ | ⟨next, expanded, _⟩
      · rw [stopped] at failed
        cases failed
        exact .inr (.inr ⟨name, rfl⟩)
      · rw [expanded] at failed
        cases failed
  | case4 level draft candidates some room chosen next expanded unchanged =>
      exact .inl ⟨_, rfl⟩
  | case5 level draft candidates some room chosen next expanded changed subject
      note described step rest ih =>
      subst around
      rcases sourced.pass_cases objectLike acyclic settings.mode
        (.inl bare) with
        ⟨name, _, _, stopped⟩ | ⟨other, same, sourcedNext⟩
      · rw [stopped] at expanded
        cases expanded
      · rw [same] at expanded
        cases expanded
        exact ih sourcedNext

/-- Where no macro is marked, a rescan makes all passes that its text allows. -/
theorem rescan_of_passes
    (objectLike : scope.ObjectLike)
    (acyclic : scope.Acyclic)
    (unmarked : ∀ name, ¬ scope.Marked name)
    {level : Nat} {text last : Text} {steps : List Step}
    (passes : scope.Passes settings level text steps last)
    (reduced : scope.candidates true last = [])
    (sourced : Sourced scope root draft)
    (same : draft.text = text) :
    (scope.rescan settings [root] level draft).outcome = .ok last ∧
      (scope.rescan settings [root] level draft).steps.length =
        steps.length := by
  induction passes generalizing draft with
  | nil level text =>
      subst same
      rw [rescan, reduced]
      exact ⟨rfl, rfl⟩
  | @cons level text next last steps subject note room expandable rewritten
      changed passes ih =>
      subst same
      have uncalled : ∀ invocation ∈ scope.candidates true draft.text,
          invocation.arguments = none := by
        intro invocation member
        rcases (chosen_of_mem_candidates member).cases objectLike with
          ⟨marked, _⟩ | ⟨_, _, _, bare, _⟩
        · exact absurd marked (unmarked invocation.name)
        · exact bare
      rcases sourced.pass_cases objectLike acyclic settings.mode
        (.inr uncalled) with
        ⟨name, _, marked, _⟩ | ⟨other, expanded, sourcedNext⟩
      · exact absurd marked (unmarked name)
      · have written : other.text = next := by
          have again := rewriteAll_of_expandInvocations expanded
          change scope.rewrite settings.mode draft.text =
            .ok other.text at again
          rw [rewritten] at again
          exact (Except.ok.inj again).symm
        have later := ih reduced sourcedNext written
        have some : (scope.candidates true draft.text).isEmpty = false := by
          rw [Bool.eq_false_iff, ne_eq, List.isEmpty_iff]
          exact expandable
        rw [← written] at changed
        rw [rescan]
        simp only [some, Bool.false_eq_true, if_false,
          if_neg (Nat.not_le.mpr room), expanded, if_neg changed]
        exact ⟨later.1, congrArg Nat.succ later.2⟩

end Sourced

theorem expandUse_objectLike
    {name : Text} {definition : Definition}
    (defined : scope.definition? name = some definition)
    (isMacro : definition.isMacro = true)
    (objectLike : scope.ObjectLike)
    (room : 0 < settings.maxDepth)
    (balanced : definition.isUnbalanced = false) :
    scope.expandUse settings [] 0 ⟨name, none⟩ [] =
      let rest := scope.rescan settings [name] 1 ⟨definition.body, [], []⟩
      { rest with steps :=
          ⟨name, definition.body, name, "Object-like macro expansion",
            0⟩ :: rest.steps } := by
  obtain ⟨noParameters, unpasted⟩ := objectLike _ _ defined isMacro
  have opened : scope.firstBody settings [name] 1 definition none [] =
      .ok (⟨definition.body, []⟩, [], "Object-like macro expansion") := by
    simp only [firstBody, noParameters, Paste.apply, unpasted]
    rfl
  simp only [expandUse, if_neg (Nat.not_le.mpr room), List.contains_nil,
    Bool.false_eq_true, if_false, defined, isMacro, Bool.not_true, balanced]
  rw [show [] ++ [(Use.mk name none).key] = [name] from rfl,
    Nat.zero_add, opened]
  rfl

/-- An expansion of an object-like macro ends without a failure, at the limit,
or at a marked macro. -/
theorem expandUse_outcome_cases
    {name : Text} {definition : Definition}
    (defined : scope.definition? name = some definition)
    (isMacro : definition.isMacro = true)
    (objectLike : scope.ObjectLike)
    (acyclic : scope.Acyclic)
    (bare : '(' ∉ name)
    (settings : Settings) :
    (∃ text,
      (scope.expandUse settings [] 0 ⟨name, none⟩ []).outcome = .ok text) ∨
      (scope.expandUse settings [] 0 ⟨name, none⟩ []).outcome =
        .error (.expansion .maxDepth) ∨
      ∃ other, (scope.expandUse settings [] 0 ⟨name, none⟩ []).outcome =
        .error (.expansion (.unbalanced other)) := by
  rcases Nat.eq_zero_or_pos settings.maxDepth with deep | room
  · right; left
    rw [expandUse, if_pos (Nat.le_of_eq deep)]
  · cases marked : definition.isUnbalanced with
    | true =>
        right; right
        refine ⟨name, ?_⟩
        simp only [expandUse, if_neg (Nat.not_le.mpr room), List.contains_nil,
          Bool.false_eq_true, if_false, defined, isMacro, Bool.not_true,
          marked, if_true]
    | false =>
        rw [expandUse_objectLike defined isMacro objectLike room marked]
        exact Sourced.rescan_cases objectLike acyclic bare settings 1
          (.start defined isMacro [])

end Scope

namespace Expansion

variable {lookup : Lookup} {settings : Settings}

theorem ofUse_eq_of_not_selects
    {name : Text}
    (unselected : ¬ ∃ definition, Use.Selects lookup ⟨name, none⟩ definition)
    (settings : Settings) :
    ofUse lookup settings ⟨name, none⟩ = .ok (untouched ⟨name, none⟩ []) := by
  cases defined : (lookup name).head? with
  | none => simp only [ofUse, definition?_eq, defined]
  | some definition =>
      cases isMacro : definition.isMacro with
      | false =>
          simp only [ofUse, definition?_eq, defined, isMacro,
            Bool.not_false, if_true]
      | true =>
          exact absurd ⟨definition, selects_of_bare defined isMacro⟩ unselected

/-- If no macro reaches itself by mentions, and all macros are object-like and
paste nothing, then no expansion of a name is circular.  A name that is spelled
like a call could be taken for one. -/
theorem error_ne_circular
    (objectLike : Scope.ObjectLike ⟨lookup, []⟩)
    (acyclic : Scope.Acyclic ⟨lookup, []⟩)
    (settings : Settings)
    {name : Text}
    (bare : '(' ∉ name) :
    ∃ expansion, ofUse lookup settings ⟨name, none⟩ = .ok expansion ∧
      ∀ path, expansion.error ≠ some (.circular path) := by
  by_cases selected : ∃ definition, Use.Selects lookup ⟨name, none⟩ definition
  · obtain ⟨definition, defined, isMacro, _⟩ := selected
    have known : Scope.definition? ⟨lookup, []⟩ name = some definition :=
      defined
    rcases Scope.expandUse_outcome_cases known isMacro objectLike acyclic bare
      settings with
      ⟨text, outcome⟩ | outcome | ⟨other, outcome⟩
    · exact ⟨_, ofUse_of_ok defined isMacro outcome, nofun⟩
    · exact ⟨_, ofUse_of_error defined isMacro outcome, nofun⟩
    · exact ⟨_, ofUse_of_error defined isMacro outcome, nofun⟩
  · exact ⟨_, ofUse_eq_of_not_selects selected settings, nofun⟩

/-- A macro that is reached in two ways, with a parenthesis that is never closed
and one that was never opened. -/
def diamond : Snapshot :=
  ⟨[⟨"TOP".toList, none, "(LEFT + RIGHT) \"LEFT\"".toList,
      "diamond.h", 1, true⟩,
    ⟨"LEFT".toList, none, "LEAF)".toList, "diamond.h", 2, true⟩,
    ⟨"RIGHT".toList, none, "(LEAF LEAF".toList, "diamond.h", 3, true⟩,
    ⟨"LEAF".toList, none, "leaf".toList, "diamond.h", 4, true⟩]⟩

def diamondRank (name : Text) : Nat :=
  (diamond.definitions.map (·.name)).idxOf name

theorem error_ne_circular_diamond :
    Scope.ObjectLike ⟨diamond.lookup, []⟩ ∧ Scope.Acyclic ⟨diamond.lookup, []⟩ ∧
      '(' ∉ "TOP".toList ∧
      ∃ expansion, ofUse diamond.lookup Settings.default ⟨"TOP".toList, none⟩ =
        .ok expansion ∧
        ∀ path, expansion.error ≠ some (.circular path) := by
  have objectLike : Scope.ObjectLike ⟨diamond.lookup, []⟩ :=
    Scope.objectLike_lookup (by decide)
  have ranked : ∀ definition ∈ diamond.definitions,
      ∀ word ∈ Word.identifiers definition.body,
      diamondRank definition.name < diamondRank word.spelling := by decide
  have acyclic := Scope.acyclic_lookup ranked
  have bare : '(' ∉ "TOP".toList := by decide
  exact ⟨objectLike, acyclic, bare,
    error_ne_circular objectLike acyclic Settings.default bare⟩

/-- An object-like macro whose name and body are spelled like a call of an
unbalanced one. -/
def callNamed : Snapshot :=
  ⟨[⟨"U(1)".toList, none, "U(1)".toList, "odd.h", 1, true⟩,
    ⟨"U".toList, none, Definition.unbalancedMark ++ "(".toList,
      "odd.h", 2, true⟩]⟩

def callNamedRank (name : Text) : Nat :=
  (callNamed.definitions.map (·.name)).idxOf name

/-- A name that is spelled like a call is taken for the call, and the expansion
counts as circular. -/
theorem circular_callNamed :
    Scope.ObjectLike ⟨callNamed.lookup, []⟩ ∧
      Scope.Acyclic ⟨callNamed.lookup, []⟩ ∧
      ∃ expansion path,
        ofUse callNamed.lookup Settings.default ⟨"U(1)".toList, none⟩ =
          .ok expansion ∧ expansion.error = some (.circular path) := by
  have objectLike : Scope.ObjectLike ⟨callNamed.lookup, []⟩ :=
    Scope.objectLike_lookup (by decide)
  have ranked : ∀ definition ∈ callNamed.definitions,
      ∀ word ∈ Word.identifiers definition.body,
      callNamedRank definition.name < callNamedRank word.spelling := by decide
  have rescanned :
      (Scope.rescan ⟨callNamed.lookup, []⟩ Settings.default ["U(1)".toList] 1
        ⟨"U(1)".toList, [], []⟩).outcome =
          .error (.expansion (.circular ["U(1)".toList, "U(1)".toList])) := by
    rw [Scope.rescan]
    rfl
  have opened :=
    @Scope.expandUse_objectLike ⟨callNamed.lookup, []⟩ Settings.default
      "U(1)".toList _ rfl rfl objectLike (by decide) (by decide)
  have outcome : (Scope.expandUse ⟨callNamed.lookup, []⟩ Settings.default [] 0
      ⟨"U(1)".toList, none⟩ []).outcome =
        .error (.expansion (.circular ["U(1)".toList, "U(1)".toList])) := by
    rw [opened]
    exact rescanned
  exact ⟨objectLike, Scope.acyclic_lookup ranked, _, _,
    ofUse_of_error rfl rfl outcome, rfl⟩

end Expansion

end MacroTrace
