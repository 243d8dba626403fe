import MacroTrace.Proofs.Blanking
import MacroTrace.Source.LogicalLine

/-!
# Physical and logical lines

Cutting a text into lines undoes gluing lines together.  A logical line is the
run of physical lines from behind one that is not continued up to the next such
line, and its text is made of what each of them adds to it.
-/

namespace MacroTrace

namespace Line

/-- Lines as they are cut from a text: none holds a line feed, and all but the
last one end in one. -/
inductive Cut : List Line → Prop where
  | last {text : Text} : '\n' ∉ text → Cut [⟨text, .textEnd⟩]
  | feed {text : Text} {rest : List Line} :
      '\n' ∉ text →
      text.getLast? ≠ some '\r' →
      Cut rest →
      Cut (⟨text, .feed⟩ :: rest)
  | returnFeed {text : Text} {rest : List Line} :
      '\n' ∉ text →
      Cut rest →
      Cut (⟨text, .returnFeed⟩ :: rest)

theorem allFrom_found (found : List Line) (current text : Text) :
    allFrom found current text = found.reverse ++ allFrom [] current text := by
  induction text generalizing found current with
  | nil => simp [allFrom]
  | cons c rest ih =>
      rw [allFrom, allFrom]
      split
      next =>
        rw [ih, ih [_]]
        simp
      next => exact ih _ _

theorem allFrom_text
    {text : Text}
    (free : '\n' ∉ text)
    (found : List Line) (current rest : Text) :
    allFrom found current (text ++ rest) =
      allFrom found (text.reverse ++ current) rest := by
  induction text generalizing current with
  | nil => rfl
  | cons c text ih =>
      rw [List.mem_cons, not_or] at free
      rw [List.cons_append, allFrom, if_neg (Ne.symm free.1), ih free.2]
      simp

theorem cut_allFrom
    {current : Text}
    (free : '\n' ∉ current)
    (text : Text) :
    Cut (allFrom [] current text) := by
  induction text generalizing current with
  | nil => exact .last (by simpa using free)
  | cons c rest ih =>
      rw [allFrom]
      split
      next =>
        have later : Cut (allFrom [] [] rest) := ih List.not_mem_nil
        rw [allFrom_found]
        unfold ofReversed
        split
        next inner =>
          apply Cut.returnFeed _ later
          rw [List.mem_reverse]
          exact fun member => free (List.mem_cons_of_mem _ member)
        next other =>
          apply Cut.feed _ _ later
          · simpa using free
          · rw [List.getLast?_reverse]
            intro returns
            obtain ⟨inner, rfl⟩ := List.head?_eq_some_iff.mp returns
            exact other inner rfl
      next other =>
        apply ih
        rw [List.mem_cons, not_or]
        exact ⟨Ne.symm other, free⟩

theorem cut_all (text : Text) :
    Cut (all text) :=
  cut_allFrom List.not_mem_nil text

/-- Cutting undoes gluing. -/
theorem all_render
    {lines : List Line}
    (cut : Cut lines) :
    all (render lines) = lines := by
  induction cut with
  | @last text free =>
      have glued : render [⟨text, .textEnd⟩] = text ++ [] := by
        simp [render, LineEnd.text]
      rw [glued, all, allFrom_text free]
      simp [allFrom]
  | @feed text rest free notReturn _ ih =>
      have glued : render (⟨text, .feed⟩ :: rest) =
          text ++ '\n' :: render rest := by
        simp [render, LineEnd.text]
      have line : ofReversed (text.reverse ++ []) = ⟨text, .feed⟩ := by
        unfold ofReversed
        split
        next inner shape =>
          rw [List.append_nil, List.reverse_eq_cons_iff] at shape
          simp [shape] at notReturn
        next => simp
      rw [glued, all, allFrom_text free, allFrom, if_pos rfl,
        allFrom_found, line]
      exact congrArg _ ih
  | @returnFeed text rest free _ ih =>
      have glued : render (⟨text, .returnFeed⟩ :: rest) =
          text ++ '\r' :: '\n' :: render rest := by
        simp [render, LineEnd.text]
      have line : ofReversed ('\r' :: (text.reverse ++ [])) =
          ⟨text, .returnFeed⟩ := by
        simp [ofReversed]
      rw [glued, all, allFrom_text free, allFrom, if_neg (by decide),
        allFrom, if_pos rfl, allFrom_found, line]
      exact congrArg _ ih

theorem Cut.of_append
    {front : List Line} {line : Line} {back : List Line}
    (cut : Cut (front ++ line :: back)) :
    ∀ earlier ∈ front, '\n' ∉ earlier.text ∧ earlier.ending ≠ .textEnd := by
  induction front with
  | nil => nofun
  | cons first front ih =>
      rw [List.cons_append] at cut
      intro earlier member
      generalize rest : front ++ line :: back = lines at cut
      cases cut with
      | last => simp at rest
      | feed free _ later =>
          rcases List.mem_cons.mp member with rfl | among
          · exact ⟨free, nofun⟩
          · exact ih (rest ▸ later) earlier among
      | returnFeed free later =>
          rcases List.mem_cons.mp member with rfl | among
          · exact ⟨free, nofun⟩
          · exact ih (rest ▸ later) earlier among

theorem render_cons (line : Line) (rest : List Line) :
    render (line :: rest) = line.text ++ (line.ending.text ++ render rest) := by
  simp [render]

/-- Lines that end in a line feed have as many of these as there are lines. -/
theorem count_render
    {lines : List Line}
    (ended : ∀ line ∈ lines, '\n' ∉ line.text ∧ line.ending ≠ .textEnd) :
    (render lines).count '\n' = lines.length := by
  induction lines with
  | nil => rfl
  | cons line rest ih =>
      obtain ⟨free, feeds⟩ := ended line List.mem_cons_self
      have ending : line.ending.text.count '\n' = 1 := by
        cases shape : line.ending with
        | textEnd => exact absurd shape feeds
        | feed => rfl
        | returnFeed => rfl
      rw [render_cons, List.count_append, List.count_append,
        List.count_eq_zero.mpr free, ending, ih fun other member =>
          ended other (List.mem_cons_of_mem _ member), List.length_cons]
      omega

theorem isLineBreak_of_mem_ending
    {ending : LineEnd} {c : Char}
    (member : c ∈ ending.text) :
    Text.isLineBreak c = true := by
  cases ending with
  | textEnd => cases member
  | feed =>
      rw [List.mem_singleton.mp member]
      rfl
  | returnFeed =>
      rcases List.mem_pair.mp member with rfl | rfl
      · rfl
      · rfl

/-- A character that is no line break belongs to the text of one of the
lines. -/
theorem exists_of_render_eq
    {lines : List Line} {front after : Text} {c : Char}
    (shape : render lines = front ++ c :: after)
    (visible : Text.isLineBreak c = false) :
    ∃ earlier line later inner rest,
      lines = earlier ++ line :: later ∧
        front = render earlier ++ inner ∧
        line.text = inner ++ c :: rest := by
  induction lines generalizing front with
  | nil => simp [render] at shape
  | cons line lines ih =>
      rw [render_cons] at shape
      rcases List.append_eq_append_cons shape with
        ⟨rest, text, _⟩ | ⟨inner, rfl, ended⟩
      · exact ⟨[], line, lines, front, rest, rfl, rfl, text⟩
      · rcases List.append_eq_append_cons ended with
          ⟨rest, ending, _⟩ | ⟨more, rfl, behind⟩
        · have inEnding : c ∈ line.ending.text := by simp [ending]
          have broken := isLineBreak_of_mem_ending inEnding
          rw [visible] at broken
          cases broken
        · obtain ⟨earlier, found, later, inside, rest, rfl, before, text⟩ :=
            ih behind
          subst before
          refine ⟨line :: earlier, found, later, inside, rest, rfl, ?_, text⟩
          simp [render_cons]

end Line

namespace LogicalLine

/-- What a physical line adds to its logical line. -/
def part (line : Line) : Text :=
  if Line.isContinued line.text then (Text.trimRight line.text).dropLast
  else line.text

/-- A logical line is joined from a run of physical lines. -/
structure Joins (lines front run back : List Line)
    (line : LogicalLine) : Prop where
  split : lines = front ++ (run ++ back)
  first : line.first = front.length + 1
  last : line.last = front.length + run.length
  text : line.text = Text.joinWith [' '] (run.map part)
  nonempty : run ≠ []
  before : ∀ line ∈ front.getLast?, Line.isContinued line.text = false
  inner : ∀ line ∈ run.dropLast, Line.isContinued line.text = true
  closed : back ≠ [] → ∀ line ∈ run.getLast?, Line.isContinued line.text = false

/-- The logical line under construction holds the parts of the lines that are
pending. -/
structure Pending (earlier pending : List Line) (open? : Option Draft)
    (number : Nat) : Prop where
  empty : open? = none ↔ pending = []
  first : (open?.getD ⟨[], number + 1, []⟩).first = earlier.length + 1
  parts : (open?.getD ⟨[], number + 1, []⟩).parts.reverse = pending.map part
  number : number = earlier.length + pending.length
  continued : ∀ line ∈ pending, Line.isContinued line.text = true
  before : ∀ line ∈ earlier.getLast?, Line.isContinued line.text = false

namespace Pending

variable {earlier pending : List Line} {open? : Option Draft} {number : Nat}
  {physical : Line}

theorem start : Pending [] [] none 0 := by
  constructor
  case empty => simp
  case first => rfl
  case parts => rfl
  case number => rfl
  case continued => nofun
  case before => nofun

/-- A continued line is taken into the logical line under construction. -/
theorem extend
    (state : Pending earlier pending open? number)
    (path : String)
    (continued : Line.isContinued physical.text = true) :
    Pending earlier (pending ++ [physical])
      (some ((open?.getD ⟨[], number + 1, []⟩).extend path
        (number + 1) physical.text))
      (number + 1) := by
  have added : part physical = (Text.trimRight physical.text).dropLast :=
    if_pos continued
  constructor
  case empty => simp
  case first => exact state.first
  case parts =>
    simp only [Option.getD_some, Draft.extend, List.reverse_cons, state.parts,
      List.map_append, List.map_cons, List.map_nil, added]
  case number =>
    rw [state.number, List.length_append, List.length_singleton]
    omega
  case continued =>
    intro line listed
    rcases List.mem_append.mp listed with old | new
    · exact state.continued line old
    · rw [List.mem_singleton.mp new]
      exact continued
  case before => exact state.before

/-- Behind a line that is not continued nothing is pending. -/
theorem restart
    (state : Pending earlier pending open? number)
    (closed : Line.isContinued physical.text = false) :
    Pending (earlier ++ (pending ++ [physical])) [] none (number + 1) := by
  constructor
  case empty => simp
  case first => simp [state.number, Nat.add_assoc]
  case parts => rfl
  case number =>
    simp only [state.number, List.length_append, List.length_singleton,
      List.length_nil]
    omega
  case continued => nofun
  case before =>
    intro line last
    rw [← List.append_assoc, List.getLast?_concat, Option.mem_some_iff] at last
    rw [← last]
    exact closed

/-- A line that is not continued completes the logical line under
construction. -/
theorem joins
    (state : Pending earlier pending open? number)
    (closed : Line.isContinued physical.text = false)
    (rest : List Line) :
    Joins (earlier ++ (pending ++ physical :: rest)) earlier
      (pending ++ [physical]) rest ({ open?.getD ⟨[], number + 1, []⟩ with
        parts :=
          physical.text :: (open?.getD ⟨[], number + 1, []⟩).parts }.finish
            (number + 1)) := by
  have added : part physical = physical.text := if_neg (by simp [closed])
  constructor
  case split => simp
  case first => exact state.first
  case last =>
    simp only [Draft.finish, state.number, List.length_append,
      List.length_singleton]
    omega
  case text =>
    simp only [Draft.finish, List.reverse_cons, state.parts, List.map_append,
      List.map_cons, List.map_nil, added]
  case nonempty => simp
  case before => exact state.before
  case inner =>
    intro line inside
    rw [List.dropLast_concat] at inside
    exact state.continued line inside
  case closed =>
    intro _ line last
    rw [List.getLast?_concat, Option.mem_some_iff] at last
    rw [← last]
    exact closed

/-- The end of the text completes the logical line under construction. -/
theorem joins_end
    {draft : Draft}
    (state : Pending earlier pending (some draft) number)
    (remarks : List Log.Entry) :
    Joins (earlier ++ (pending ++ [])) earlier pending []
      ({ draft with remarks := remarks }.finish number) := by
  constructor
  case split => rfl
  case first => exact state.first
  case last => exact state.number
  case text => exact congrArg (Text.joinWith [' ']) state.parts
  case nonempty => exact fun none => nomatch state.empty.mpr none
  case before => exact state.before
  case inner =>
    exact fun line inside =>
      state.continued line (List.dropLast_subset _ inside)
  case closed => exact fun absent => absurd rfl absent

end Pending

theorem exists_joins_of_mem_joinFrom
    {path : String} {found : List LogicalLine} {open? : Option Draft}
    {number : Nat} {earlier pending lines : List Line}
    (state : Pending earlier pending open? number)
    {line : LogicalLine}
    (member : line ∈ joinFrom path found open? number lines) :
    line ∈ found ∨
      ∃ front run back,
        Joins (earlier ++ (pending ++ lines)) front run back line := by
  induction lines generalizing found open? number earlier pending with
  | nil =>
      cases open? with
      | none => exact .inl (List.mem_reverse.mp member)
      | some draft =>
          rcases List.mem_cons.mp (List.mem_reverse.mp member) with rfl | known
          · exact .inr ⟨_, _, _, state.joins_end _⟩
          · exact .inl known
  | cons physical rest ih =>
      rw [joinFrom] at member
      split at member
      next continued =>
        rcases ih (state.extend path continued) member with known | joined
        · exact .inl known
        · rw [List.append_assoc, List.singleton_append] at joined
          exact .inr joined
      next continues =>
        have closed : Line.isContinued physical.text = false := by
          simpa using continues
        rcases ih (state.restart closed) member with known | joined
        · rcases List.mem_cons.mp known with rfl | known
          · exact .inr ⟨_, _, _, state.joins closed rest⟩
          · exact .inl known
        · have shape : earlier ++ (pending ++ physical :: rest) =
              (earlier ++ (pending ++ [physical])) ++ ([] ++ rest) := by simp
          rw [shape]
          exact .inr joined

/-- Every logical line of a text is joined from a run of its physical lines. -/
theorem exists_joins
    {path : String} {text : Text} {line : LogicalLine}
    (member : line ∈ all path text) :
    ∃ front run back, Joins (Line.all text) front run back line := by
  rcases exists_joins_of_mem_joinFrom .start member with none | joined
  · cases none
  · exact joined

namespace Joins

variable {lines front front' run run' back back' : List Line}
  {line line' : LogicalLine}

theorem first_le
    (joins : Joins lines front run back line) :
    line.first ≤ lines.length := by
  have positive := List.length_pos_iff.mpr joins.nonempty
  rw [joins.first, joins.split, List.length_append, List.length_append]
  omega

/-- A line between the first and the last one of a run belongs to it. -/
theorem exists_inner
    (joins : Joins lines front run back line)
    {before after : List Line} {physical : Line}
    (split : lines = before ++ physical :: after)
    (notBefore : line.first ≤ before.length + 1)
    (notBehind : before.length < line.last) :
    ∃ inner rest, before = front ++ inner ∧
      run = inner ++ physical :: rest := by
  rw [joins.first] at notBefore
  rw [joins.last] at notBehind
  have whole := joins.split.symm.trans split
  have begins : front <+: before := by
    apply List.prefix_of_prefix_length_le
      (List.prefix_append front (run ++ back)) _ (by omega)
    rw [whole]
    exact List.prefix_append _ _
  obtain ⟨inner, rfl⟩ := begins
  rw [List.append_assoc, List.append_cancel_left_eq] at whole
  rcases List.append_eq_append_cons whole with ⟨rest, shape, _⟩ | ⟨more, rfl, _⟩
  · exact ⟨inner, rest, rfl, shape⟩
  · simp only [List.length_append] at notBehind
    omega

theorem length_le
    (joins : Joins lines front run back line)
    (joins' : Joins lines front run' back' line') :
    run.length ≤ run'.length := by
  by_contra longer
  rw [Nat.not_le] at longer
  have same : run ++ back = run' ++ back' := by
    have shape := joins.split.symm.trans joins'.split
    exact List.append_cancel_left shape
  have within : run' <+: run := by
    apply List.prefix_of_prefix_length_le _ (List.prefix_append run back)
      (Nat.le_of_lt longer)
    rw [same]
    exact List.prefix_append run' back'
  obtain ⟨more, rfl⟩ := within
  have further : more ≠ [] := by
    rintro rfl
    simp at longer
  have open? : back' ≠ [] := by
    rintro rfl
    rw [List.append_nil, List.append_assoc] at same
    exact further
      (List.append_eq_nil_iff.mp (List.append_right_eq_self.mp same)).1
  -- The last line of the shorter run is closed, and it is an inner line of the
  -- longer one.
  have closed :=
    joins'.closed open? _ (List.getLast?_eq_getLast_of_ne_nil joins'.nonempty)
  have continued := joins.inner (run'.getLast joins'.nonempty) (by
    rw [List.dropLast_append_of_ne_nil further]
    exact List.mem_append_left _ (List.getLast_mem _))
  rw [closed] at continued
  cases continued

/-- Where a run begins, the lines that it holds are fixed. -/
theorem unique
    (joins : Joins lines front run back line)
    (joins' : Joins lines front' run' back' line')
    (same : line.first = line'.first) :
    front = front' ∧ run = run' := by
  have length : front.length = front'.length := by
    rw [joins.first, joins'.first] at same
    omega
  have shape := joins.split.symm.trans joins'.split
  obtain ⟨rfl, rest⟩ := List.append_inj shape length
  have lengths :=
    Nat.le_antisymm (joins.length_le joins') (joins'.length_le joins)
  exact ⟨rfl, (List.append_inj rest lengths).1⟩

end Joins

end LogicalLine

end MacroTrace
