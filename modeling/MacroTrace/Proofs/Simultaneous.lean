import MacroTrace.Proofs.Context
import MacroTrace.Proofs.Passes
import MacroTrace.Proofs.Region

/-!
# One pass at once

A pass replaces the invocations that it has chosen one after another, each in
the text that the replacements before it left behind, and asks each time which
uses the name comes from.  For a pass that starts with no uses around the text
neither matters: the chosen extents are disjoint and go from right to left, so
no replacement moves an extent that is still to come or puts a region over its
name.  The pass is a splice of the text that it started from, and nothing in it
can be circular.
-/

namespace MacroTrace

namespace Text

theorem slice_append_of_le
    {left : Text} {span : Span Nat}
    (inside : span.stop ≤ left.length)
    (right : Text) :
    slice (left ++ right) span = slice left span := by
  by_cases order : span.start ≤ left.length
  · rw [slice, slice, List.drop_append_of_le_length order,
      List.take_append_of_le_length]
    rw [List.length_drop]
    omega
  · have empty : span.stop - span.start = 0 := by omega
    rw [slice, slice, empty, List.take_zero, List.take_zero]

theorem slice_take_of_le
    {text : Text} {span : Span Nat} {boundary : Nat}
    (inside : span.stop ≤ boundary) :
    slice (text.take boundary) span = slice text span := by
  rw [slice, slice, List.drop_take, List.take_take,
    Nat.min_eq_left (Nat.sub_le_sub_right inside _)]

/-- The last of several edits may be made first: the others do not notice. -/
theorem splice_concat
    {text : Text} {position : Nat} {edits : List Edit} {last : Edit}
    (inside : last.start ≤ text.length)
    (reached : position ≤ last.start)
    (before : ∀ edit ∈ edits, edit.start ≤ last.start ∧
      edit.stop ≤ last.start) :
    splice text position (edits ++ [last]) =
      splice (text.take last.start ++ last.replacement ++ text.drop last.stop)
        position edits := by
  have length : (text.take last.start).length = last.start :=
    List.length_take_of_le inside
  induction edits generalizing position with
  | nil =>
      have front : (text.take last.start).drop position =
          slice text ⟨position, last.start⟩ :=
        List.drop_take
      rw [List.nil_append, splice, splice, splice, List.append_assoc,
        List.append_assoc, List.drop_append_of_le_length (by omega), front]
  | cons edit edits ih =>
      obtain ⟨starts, stops⟩ := before edit List.mem_cons_self
      have later :=
        ih stops fun other member =>
          before other (List.mem_cons_of_mem _ member)
      have copied :
          slice (text.take last.start ++ last.replacement ++
            text.drop last.stop)
            ⟨position, edit.start⟩ = slice text ⟨position, edit.start⟩ := by
        rw [List.append_assoc,
          slice_append_of_le (by simpa [length] using starts),
          slice_take_of_le starts]
      rw [List.cons_append, splice, splice, later, copied]

end Text

/-- The regions of a draft say nothing about its text in front of a boundary. -/
structure Draft.Fresh (draft : Draft) (boundary : Nat) : Prop where
  coherent : Region.Coherent draft.regions
  unmade : ∀ offset, offset < boundary →
    Region.chainAt draft.regions offset = []

namespace Scope

variable {scope : Scope}

/-- A name in front of all regions is not circular, and its replacement makes no
region in front of it. -/
theorem expandInvocation_of_fresh
    (scope : Scope)
    {draft : Draft} {boundary : Nat} {invocation : Invocation}
    (fresh : draft.Fresh boundary)
    (inside : invocation.start < boundary)
    (order : invocation.start ≤ invocation.stop) :
    (∃ result next,
      scope.replacement invocation.use = .ok result ∧
        scope.expandInvocation [] draft invocation = .ok next ∧
        next.text =
          draft.text.take invocation.start ++ result.text ++
            draft.text.drop invocation.stop ∧
        next.Fresh invocation.start) ∨
    (∃ failure,
      scope.replacement invocation.use = .error failure ∧
        scope.expandInvocation [] draft invocation = .error failure) := by
  have origin := fresh.unmade invocation.start inside
  unfold expandInvocation
  simp only [origin, List.append_nil, List.contains_nil,
    Bool.false_eq_true, if_false]
  cases replaced : scope.replacement invocation.use with
  | error failure => exact .inr ⟨failure, rfl, rfl⟩
  | ok result =>
      refine .inl ⟨result, _, rfl, rfl, rfl, fresh.coherent.replace order, ?_⟩
      intro offset before
      rw [Region.chainAt_replace_of_lt fresh.coherent order before]
      exact fresh.unmade offset (Nat.lt_trans before inside)

/-- Replacements from right to left do what the text alone determines: the
regions in the way of circular uses always lie behind the name that is looked
at. -/
theorem expandInvocations_of_fresh
    {draft : Draft} {boundary : Nat} {chosen : List Invocation}
    (fresh : draft.Fresh boundary)
    (inside : ∀ invocation ∈ chosen,
      invocation.start < invocation.stop ∧ invocation.start < boundary)
    (ordered : chosen.Pairwise fun later earlier => earlier.stop ≤
      later.start) :
    (∃ next,
      scope.expandInvocations [] chosen draft = .ok next ∧
        scope.rewriteAll chosen draft.text = .ok next.text) ∨
    (∃ failure pasted,
      scope.expandInvocations [] chosen draft = .error (failure, pasted) ∧
        scope.rewriteAll chosen draft.text = .error failure) := by
  induction chosen generalizing draft boundary with
  | nil => exact .inl ⟨draft, rfl, rfl⟩
  | cons invocation chosen ih =>
      obtain ⟨order, bound⟩ := inside invocation List.mem_cons_self
      obtain ⟨before, rest⟩ := List.pairwise_cons.mp ordered
      unfold expandInvocations rewriteAll
      rcases scope.expandInvocation_of_fresh fresh bound
        (Nat.le_of_lt order) with
        ⟨result, next, replaced, expanded, written, fresh⟩ |
          ⟨failure, replaced, expanded⟩
      · simp only [replaced, expanded, ← written]
        apply ih fresh
        · intro earlier member
          have ends := (inside earlier (List.mem_cons_of_mem _ member)).1
          exact ⟨ends, Nat.lt_of_lt_of_le ends (before earlier member)⟩
        · exact rest
      · simp only [replaced, expanded]
        exact .inr ⟨failure, draft.pasted, rfl, rfl⟩

/-- The edit that a pass makes for an invocation: its replacement takes the
place of its extent. -/
def edit (scope : Scope) (invocation : Invocation) : Edit where
  start := invocation.start
  stop := invocation.stop
  replacement :=
    match scope.replacement invocation.use with
    | .ok result => result.text
    | .error _ => []

/-- The extents of invocations, given from right to left, are not empty, lie in
a text of the given length, and are disjoint. -/
structure Apart (length : Nat) (chosen : List Invocation) : Prop where
  within : ∀ invocation ∈ chosen,
    invocation.start < invocation.stop ∧ invocation.stop ≤ length
  ordered : chosen.Pairwise fun later earlier => earlier.stop ≤ later.start

theorem Apart.tail
    {length : Nat} {invocation : Invocation} {chosen : List Invocation}
    (apart : Apart length (invocation :: chosen)) :
    Apart invocation.start chosen ∧ invocation.start < length := by
  obtain ⟨before, rest⟩ := List.pairwise_cons.mp apart.ordered
  obtain ⟨order, ends⟩ := apart.within invocation List.mem_cons_self
  refine ⟨⟨?_, rest⟩, Nat.lt_of_lt_of_le order ends⟩
  intro earlier member
  exact ⟨(apart.within earlier (List.mem_cons_of_mem _ member)).1,
    before earlier member⟩

theorem Apart.mono
    {length longer : Nat} {chosen : List Invocation}
    (apart : Apart length chosen)
    (order : length ≤ longer) :
    Apart longer chosen := by
  refine ⟨?_, apart.ordered⟩
  intro invocation member
  obtain ⟨nonempty, ends⟩ := apart.within invocation member
  exact ⟨nonempty, Nat.le_trans ends order⟩

/-- Replacing disjoint extents one after another, from right to left, replaces
them all at once. -/
theorem rewriteAll_eq_splice
    {text : Text} {chosen : List Invocation}
    (replaced : ∀ invocation ∈ chosen, ∃ result,
      scope.replacement invocation.use = .ok result)
    (apart : Apart text.length chosen) :
    scope.rewriteAll chosen text =
      .ok (text.splice 0 (chosen.reverse.map scope.edit)) := by
  induction chosen generalizing text with
  | nil => simp [rewriteAll, Text.splice]
  | cons invocation chosen ih =>
      obtain ⟨rest, bound⟩ := apart.tail
      obtain ⟨result, here⟩ := replaced invocation List.mem_cons_self
      have written : (scope.edit invocation).replacement = result.text := by
        simp [edit, here]
      have length : invocation.start ≤
          (text.take invocation.start ++ result.text ++
            text.drop invocation.stop).length := by
        rw [List.append_assoc, List.length_append,
          List.length_take_of_le (Nat.le_of_lt bound)]
        exact Nat.le_add_right _ _
      have before : ∀ other ∈ chosen.reverse.map scope.edit,
          other.start ≤ invocation.start ∧ other.stop ≤ invocation.start := by
        intro other member
        obtain ⟨earlier, listed, rfl⟩ := List.mem_map.mp member
        obtain ⟨nonempty, ends⟩ :=
          rest.within earlier (List.mem_reverse.mp listed)
        exact ⟨Nat.le_trans (Nat.le_of_lt nonempty) ends, ends⟩
      have later :=
        ih (fun other member => replaced other (List.mem_cons_of_mem _ member))
          (rest.mono length)
      rw [rewriteAll, here, List.reverse_cons, List.map_append,
        List.map_singleton,
        Text.splice_concat (Nat.le_of_lt bound) (Nat.zero_le _) before, written]
      exact later

theorem balanced_of_isCandidate
    {invocation : Invocation}
    (candidate : scope.isCandidate false invocation = true) :
    ∃ definition,
      scope.definition? invocation.name = some definition ∧
        definition.isMacro = true ∧ definition.isUnbalanced = false := by
  unfold isCandidate at candidate
  split at candidate
  next => cases candidate
  next definition defined =>
    rw [Bool.and_eq_true] at candidate
    refine ⟨definition, defined, candidate.1, ?_⟩
    cases marked : definition.isUnbalanced with
    | false => rfl
    | true => simp [marked] at candidate

/-- What replaces a candidate of a pass is known, unless its body holds a
placeholder of its own. -/
theorem replacement_of_isCandidate
    {invocation : Invocation}
    (candidate : scope.isCandidate false invocation = true) :
    (∃ result, scope.replacement invocation.use = .ok result) ∨
    (∃ error, scope.replacement invocation.use =
      .error (.placeholder error)) := by
  obtain ⟨definition, defined, _, balanced⟩ := balanced_of_isCandidate candidate
  have named : scope.definition? invocation.use.name = some definition :=
    defined
  unfold replacement
  simp only [named, balanced, Bool.false_eq_true, if_false]
  split
  next => exact .inl ⟨_, rfl⟩
  next =>
    split
    next => exact .inl ⟨_, rfl⟩
    next => exact .inr ⟨_, rfl⟩

theorem replacement_isOk
    (clean : scope.Clean)
    {invocation : Invocation}
    (candidate : scope.isCandidate false invocation = true) :
    ∃ result, scope.replacement invocation.use = .ok result := by
  rcases replacement_of_isCandidate candidate with known | ⟨error, failed⟩
  · exact known
  · obtain ⟨definition, defined, isMacro, _⟩ :=
      balanced_of_isCandidate candidate
    have impossible := replacement_error clean defined isMacro failed
    cases impossible

theorem apart_select
    (scope : Scope) (mode : Mode) (withUnbalanced : Bool) (text : Text) :
    Apart text.length (mode.select (scope.candidates withUnbalanced text)) := by
  constructor
  · intro invocation member
    have within := Invocation.within_of_mem_all
      (mem_all_of_mem_candidates (Mode.mem_of_mem_select member)).1
    exact ⟨within.order, Nat.zero_add text.length ▸ within.ends⟩
  · apply Mode.pairwise_select
    exact ((Invocation.pairwise_all text).filter _).filter _

theorem fresh_start (text : Text) (pasted : List Text) (boundary : Nat) :
    Draft.Fresh ⟨text, [], pasted⟩ boundary :=
  ⟨Region.coherent_nil, fun _ _ => rfl⟩

/-- What a pass does with the invocations that it chooses, if no uses surround
the text. -/
theorem expandInvocations_select
    (scope : Scope) (mode : Mode) (text : Text) (pasted : List Text) :
    let chosen := mode.select (scope.candidates false text)
    (∃ next,
      scope.expandInvocations [] chosen ⟨text, [], pasted⟩ = .ok next ∧
        scope.rewriteAll chosen text = .ok next.text) ∨
    (∃ failure pasted',
      scope.expandInvocations [] chosen ⟨text, [], pasted⟩ =
        .error (failure, pasted') ∧
        scope.rewriteAll chosen text = .error failure) := by
  have apart := scope.apart_select mode false text
  apply expandInvocations_of_fresh (fresh_start text pasted text.length)
  · intro invocation member
    obtain ⟨nonempty, ends⟩ := apart.within invocation member
    exact ⟨nonempty, Nat.lt_of_lt_of_le nonempty ends⟩
  · exact apart.ordered

theorem rewriteAll_error
    {chosen : List Invocation} {text : Text} {failure : Failure}
    (failed : scope.rewriteAll chosen text = .error failure) :
    ∃ invocation ∈ chosen, scope.replacement invocation.use =
      .error failure := by
  induction chosen generalizing text with
  | nil => cases failed
  | cons invocation chosen ih =>
      unfold rewriteAll at failed
      split at failed
      next replaced =>
        cases failed
        exact ⟨invocation, List.mem_cons_self, replaced⟩
      next =>
        obtain ⟨other, member, replaced⟩ := ih failed
        exact ⟨other, List.mem_cons_of_mem _ member, replaced⟩

/-- The failures of an expansion cannot stop a pass: only a body with a
placeholder of its own can. -/
theorem pass?_error
    {settings : Settings} {text : Text} {failure : Failure}
    (failed : scope.pass? settings text = .error failure) :
    ∃ error, failure = .placeholder error := by
  unfold pass? at failed
  simp only at failed
  split at failed
  next => cases failed
  next =>
    rcases scope.expandInvocations_select settings.mode text [] with
      ⟨next, expanded, _⟩ | ⟨reason, pasted, expanded, rewritten⟩
    · rw [expanded] at failed
      simp only at failed
      split at failed
      next => cases failed
      next => cases failed
    · rw [expanded] at failed
      cases failed
      obtain ⟨invocation, member, stopped⟩ := rewriteAll_error rewritten
      have candidate :=
        (mem_all_of_mem_candidates (Mode.mem_of_mem_select member)).2
      rcases replacement_of_isCandidate candidate with
        ⟨result, replaced⟩ | ⟨error, replaced⟩
      · rw [replaced] at stopped
        cases stopped
      · rw [replaced] at stopped
        cases stopped
        exact ⟨error, rfl⟩

theorem clean_of_pinned
    {lookup : Lookup} {pinned : List (Text × Definition)}
    (clean : ∀ name, ∀ definition ∈ lookup name, '\x00' ∉ definition.body)
    (cleanPinned : ∀ entry ∈ pinned, '\x00' ∉ entry.2.body) :
    Scope.Clean ⟨lookup, pinned⟩ := by
  intro name definition defined _
  unfold definition? at defined
  split at defined
  next chosen found =>
    cases defined
    obtain ⟨front, back, shape, _⟩ := List.lookup_eq_some_iff.mp found
    exact cleanPinned (name, definition) (by simp [show pinned = _ from shape])
  next => exact clean name definition (List.mem_of_head? defined)

/-- The text after a pass: all chosen extents are replaced at once. -/
def afterPass (scope : Scope) (mode : Mode) (text : Text) : Text :=
  text.splice 0
    ((mode.select (scope.candidates false text)).reverse.map scope.edit)

theorem expandInvocations_eq_afterPass
    (clean : scope.Clean)
    (mode : Mode) (text : Text) (pasted : List Text) :
    ∃ draft,
      scope.expandInvocations [] (mode.select (scope.candidates false text))
        ⟨text, [], pasted⟩ =
          .ok draft ∧
        draft.text = scope.afterPass mode text := by
  have rewritten := rewriteAll_eq_splice
    (fun invocation member => replacement_isOk clean
      (mem_all_of_mem_candidates (Mode.mem_of_mem_select member)).2)
    (scope.apart_select mode false text)
  rcases scope.expandInvocations_select mode text pasted with
    ⟨draft, expanded, written⟩ | ⟨failure, _, _, failed⟩
  · rw [rewritten] at written
    exact ⟨draft, expanded, (Except.ok.inj written).symm⟩
  · rw [rewritten] at failed
    cases failed

theorem pass?_eq_afterPass
    (clean : scope.Clean)
    (settings : Settings) (text : Text) :
    scope.pass? settings text =
      .ok (if scope.afterPass settings.mode text = text then none
        else some ⟨scope.afterPass settings.mode text,
          (settings.mode.select (scope.candidates false text)).reverse.map
            (·.name)⟩) := by
  unfold pass?
  simp only
  split
  next none =>
    have unchanged : scope.afterPass settings.mode text = text := by
      rw [afterPass, List.isEmpty_iff.mp none, Mode.select_nil]
      rfl
    rw [if_pos unchanged]
  next =>
    obtain ⟨draft, expanded, written⟩ :=
      expandInvocations_eq_afterPass clean settings.mode text []
    rw [expanded]
    simp only [written]
    split
    next => rfl
    next => rfl

/-- A pass is a simultaneous replacement and does not fail.  The chosen extents
are disjoint, the replacements take their places all at once, whatever they
hold, and the names of the pass are those of the chosen invocations from left to
right. -/
theorem pass_eq_splice
    (clean : scope.Clean)
    (settings : Settings) (text : Text)
    (expandable : scope.candidates false text ≠ []) :
    let chosen := settings.mode.select (scope.candidates false text)
    let spliced := text.splice 0 (chosen.reverse.map scope.edit)
    chosen ≠ [] ∧
      Apart text.length chosen ∧
      (∀ invocation ∈ chosen, ∃ result,
        scope.replacement invocation.use = .ok result ∧
          (scope.edit invocation).replacement = result.text) ∧
      (∀ pasted, ∃ draft,
        scope.expandInvocations [] chosen ⟨text, [], pasted⟩ = .ok draft ∧
          draft.text = spliced) ∧
      scope.pass? settings text =
        .ok (if spliced = text then none
          else some ⟨spliced, chosen.reverse.map (·.name)⟩) := by
  refine ⟨Mode.select_ne_nil expandable,
    scope.apart_select settings.mode false text, ?_, ?_,
    pass?_eq_afterPass clean settings text⟩
  · intro invocation member
    obtain ⟨result, replaced⟩ := replacement_isOk clean
      (mem_all_of_mem_candidates (Mode.mem_of_mem_select member)).2
    exact ⟨result, replaced, by simp [edit, replaced]⟩
  · intro pasted
    exact expandInvocations_eq_afterPass clean settings.mode text pasted

/-- Macros whose replacements hold the names of others. -/
def crossing : Snapshot where
  definitions := [
    ⟨"ONE".toList, none, "1".toList, "c.h", 1, true⟩,
    ⟨"TWO".toList, none, "2".toList, "c.h", 2, true⟩,
    ⟨"SWAP".toList, some ["a".toList, "b".toList], "b ONE a".toList,
      "c.h", 3, true⟩]

/-- One of them is pinned to another definition. -/
def crossingScope : Scope where
  lookup := crossing.lookup
  pinned :=
    [("TWO".toList, ⟨"TWO".toList, none, "ONE + ONE".toList, "d.h", 1, true⟩)]

/-- Parentheses are closed that were not opened, and opened that are not
closed. -/
def crossingText : Text :=
  "SWAP(TWO, ONE) ) + (SWAP(ONE, TWO".toList

theorem pass_eq_splice_crossing :
    crossingScope.Clean ∧
      crossingScope.candidates false crossingText ≠ [] ∧
      crossingScope.pass? .default crossingText =
        .ok (some ⟨"SWAP(TWO, ONE) ) + (SWAP(1, ONE + ONE".toList,
          ["ONE".toList, "TWO".toList]⟩) := by
  have clean : crossingScope.Clean := by
    apply clean_of_pinned
    · intro name definition member
      have all : ∀ definition ∈ crossing.definitions,
          '\x00' ∉ definition.body := by decide
      exact all definition (List.mem_of_mem_filter member)
    · decide
  have expandable : crossingScope.candidates false crossingText ≠ [] := by
    decide
  refine ⟨clean, expandable, ?_⟩
  obtain ⟨_, _, _, _, passed⟩ :=
    pass_eq_splice clean .default crossingText expandable
  rw [passed]
  decide

end Scope

end MacroTrace
