import MacroTrace.Proofs.Detection
import MacroTrace.Proofs.PhysicalLines

/-!
# Tiling

The logical lines of a text are numbered with the physical lines that they are
joined from, without gap or overlap.  A definition has the number of the first
physical line of its logical line, so definitions are read in the order of their
lines.
-/

namespace MacroTrace

namespace Line

/-- A line ends in a backslash, blanks apart, and `kept` is in front of the
backslash. -/
def ContinuedAs (line : Line) (kept : Text) : Prop :=
  ∃ blanks, line.text = kept ++ '\\' :: blanks ∧ ∀ c ∈ blanks,
    Text.isBlank c = true

def Continues (line : Line) : Prop :=
  ∃ kept, line.ContinuedAs kept

theorem trimRight_of_continuedAs
    {line : Line} {kept : Text}
    (continued : line.ContinuedAs kept) :
    Text.trimRight line.text = kept ++ ['\\'] := by
  obtain ⟨blanks, shape, blank⟩ := continued
  rw [Text.trimRight, shape, List.reverse_append, List.reverse_cons,
    List.append_assoc, List.dropWhile_append_of_pos (by simpa using blank),
    List.singleton_append, List.dropWhile_cons_of_neg (by decide),
    List.reverse_cons, List.reverse_reverse]

theorem continuedAs_of_isContinued
    {line : Line}
    (continued : isContinued line.text = true) :
    line.ContinuedAs (Text.trimRight line.text).dropLast := by
  obtain ⟨blanks, blank, shape⟩ := Text.exists_trimRight_append line.text
  have last : (Text.trimRight line.text).getLast? = some '\\' := by
    simpa [isContinued] using continued
  refine ⟨blanks, ?_, blank⟩
  rw [List.append_cons, List.dropLast_append_getLast? _ last]
  exact shape

theorem isContinued_iff (line : Line) :
    isContinued line.text = true ↔ line.Continues := by
  constructor
  · intro continued
    exact ⟨_, continuedAs_of_isContinued continued⟩
  · rintro ⟨kept, continued⟩
    rw [isContinued, trimRight_of_continuedAs continued]
    simp

/-- There is one line more than line feeds. -/
theorem Cut.length_eq
    {lines : List Line}
    (cut : Cut lines) :
    lines.length = (render lines).count '\n' + 1 := by
  induction cut with
  | @last text free =>
      have glued : render [⟨text, .textEnd⟩] = text := by
        simp [render, LineEnd.text]
      rw [glued, List.count_eq_zero.mpr free]
      rfl
  | feed free _ _ ih =>
      have ending : LineEnd.feed.text.count '\n' = 1 := rfl
      rw [render_cons, List.count_append, List.count_append,
        List.count_eq_zero.mpr free, ending, List.length_cons, ih]
      omega
  | returnFeed free _ ih =>
      have ending : LineEnd.returnFeed.text.count '\n' = 1 := rfl
      rw [render_cons, List.count_append, List.count_append,
        List.count_eq_zero.mpr free, ending, List.length_cons, ih]
      omega

end Line

namespace LogicalLine

/-- Logical lines that take the physical lines behind number `done` up to number
`total`, each one from where the one in front of it ends. -/
inductive Tiles (total : Nat) : Nat → List LogicalLine → Prop where
  | nil : Tiles total total []
  | cons {done : Nat} {line : LogicalLine} {rest : List LogicalLine} :
      line.first = done + 1 →
      line.first ≤ line.last →
      Tiles total line.last rest →
      Tiles total done (line :: rest)

theorem joinFrom_found
    (path : String) (found : List LogicalLine) (open? : Option Draft)
    (number : Nat) (lines : List Line) :
    joinFrom path found open? number lines =
      found.reverse ++ joinFrom path [] open? number lines := by
  induction lines generalizing found open? number with
  | nil => cases open? <;> simp [joinFrom]
  | cons line rest ih =>
      rw [joinFrom, joinFrom]
      split
      next => exact ih _ _ _
      next =>
        rw [ih, ih [_]]
        simp

theorem Joins.first_le_last
    {lines front run back : List Line} {line : LogicalLine}
    (joins : Joins lines front run back line) :
    line.first ≤ line.last := by
  have positive := List.length_pos_iff.mpr joins.nonempty
  rw [joins.first, joins.last]
  omega

theorem tiles_joinFrom
    {earlier pending : List Line} {open? : Option Draft} {number : Nat}
    (path : String)
    (state : Pending earlier pending open? number)
    (lines : List Line) :
    Tiles (number + lines.length) earlier.length
      (joinFrom path [] open? number lines) := by
  induction lines generalizing earlier pending open? number with
  | nil =>
      cases open? with
      | none =>
          have number : number = earlier.length := by
            rw [state.number, state.empty.mp rfl]
            rfl
          rw [number]
          exact .nil
      | some draft =>
          have joins :=
            state.joins_end (backslashAtEnd path number :: draft.remarks)
          exact .cons joins.first joins.first_le_last .nil
  | cons physical rest ih =>
      have total : number + (physical :: rest).length =
          number + 1 + rest.length := by
        rw [List.length_cons]
        omega
      rw [joinFrom, total]
      split
      next continued => exact ih (state.extend path continued)
      next continues =>
        have closed : Line.isContinued physical.text = false := by
          simpa using continues
        have joins := state.joins closed rest
        have later := ih (state.restart closed)
        rw [List.length_append, ← joins.last] at later
        rw [joinFrom_found]
        exact .cons joins.first joins.first_le_last later

theorem tiles_all (path : String) (text : Text) :
    Tiles (text.count '\n' + 1) 0 (all path text) := by
  have tiles := tiles_joinFrom path .start (Line.all text)
  rw [(Line.cut_all text).length_eq, Line.render_all, Nat.zero_add] at tiles
  exact tiles

theorem Tiles.lt_first
    {total done : Nat} {logical : List LogicalLine}
    (tiles : Tiles total done logical) :
    ∀ line ∈ logical, done < line.first := by
  induction tiles with
  | nil => simp
  | cons first nonempty _ ih =>
      intro line member
      rcases List.mem_cons.mp member with rfl | later
      · omega
      · have := ih line later
        omega

theorem Tiles.pairwise
    {total done : Nat} {logical : List LogicalLine}
    (tiles : Tiles total done logical) :
    logical.Pairwise fun line later => line.first < later.first := by
  induction tiles with
  | nil => exact .nil
  | cons first nonempty rest ih =>
      refine List.pairwise_cons.mpr ⟨?_, ih⟩
      intro later member
      exact Nat.lt_of_le_of_lt nonempty (rest.lt_first later member)

/-- The physical lines that a logical line is numbered with. -/
def physical (lines : List Line) (line : LogicalLine) : List Line :=
  (lines.take line.last).drop (line.first - 1)

/-- What a physical line adds to its logical line: all of it, or what is in
front of the backslash that continues it. -/
inductive Gives : Line → Text → Prop where
  | whole {line : Line} : ¬ line.Continues → Gives line line.text
  | cut {line : Line} {kept : Text} : line.ContinuedAs kept → Gives line kept

/-- A logical line is made of the physical lines that it is numbered with.  All
but the last are continued; the last one is only if it ends the text. -/
structure Spells (lines : List Line) (line : LogicalLine) : Prop where
  inner : ∀ continued ∈ (line.physical lines).dropLast, continued.Continues
  final : ∀ last ∈ (line.physical lines).getLast?,
    last.Continues ↔ line.last = lines.length ∧
      ∃ ending ∈ lines.getLast?, ending.Continues
  text : ∃ parts, List.Forall₂ Gives (line.physical lines) parts ∧
    line.text = Text.joinWith [' '] parts

theorem gives_part (line : Line) :
    Gives line (part line) := by
  unfold part
  split
  next continued => exact .cut (Line.continuedAs_of_isContinued continued)
  next whole => exact .whole (by rwa [← Line.isContinued_iff])

namespace Joins

variable {lines front run back : List Line} {line : LogicalLine}

theorem physical_eq
    (joins : Joins lines front run back line) :
    line.physical lines = run := by
  rw [physical, joins.split, joins.first, joins.last, ← List.append_assoc,
    Nat.add_sub_cancel, List.take_left' List.length_append, List.drop_left]

theorem spells
    (joins : Joins lines front run back line) :
    Spells lines line := by
  have length : lines.length = line.last + back.length := by
    rw [joins.split, joins.last, List.length_append, List.length_append,
      Nat.add_assoc]
  constructor
  case inner =>
    intro continued member
    rw [joins.physical_eq] at member
    exact (Line.isContinued_iff continued).mp (joins.inner continued member)
  case final =>
    intro last member
    rw [joins.physical_eq] at member
    by_cases ends : back = []
    · -- The run ends the text, so its last line is the last one of all.
      have same : lines.getLast? = some last := by
        rw [joins.split, ends, List.append_nil, List.getLast?_append, member]
        rfl
      rw [same, length, ends]
      simp
    · have closed := joins.closed ends last member
      have before : line.last ≠ lines.length := by
        have positive := List.length_pos_iff.mpr ends
        omega
      rw [← Line.isContinued_iff, closed]
      simp [before]
  case text =>
    refine ⟨run.map part, ?_, joins.text⟩
    rw [joins.physical_eq, List.forall₂_map_right_iff]
    exact List.forall₂_same.mpr fun physical _ => gives_part physical

end Joins

end LogicalLine

namespace Extraction

theorem pairwise_line (path : String) (detectTypes : Bool) (text : Text) :
    (ofText path detectTypes text).definitions.Pairwise
      fun earlier later => earlier.line ≤ later.line := by
  obtain ⟨blocks, read, sublist, adds⟩ :=
    exists_blocks_ofText path detectTypes text
  have numbered : (blocks.map (·.1)).Pairwise fun line later =>
    line.number ≤ later.number := by
    apply List.Pairwise.sublist sublist
    apply List.pairwise_map.mpr
    apply (LogicalLine.tiles_all path (Comment.blank text)).pairwise.imp
    intro line later before
    exact Int.ofNat_le.mpr (Nat.le_of_lt before)
  rw [read, List.pairwise_flatMap]
  constructor
  · intro block listed
    apply List.pairwise_of_forall_mem_list
    intro earlier member later memberLater
    rw [(adds block listed earlier member).origin.2,
      (adds block listed later memberLater).origin.2]
  · apply (List.pairwise_map.mp numbered).imp_of_mem
    intro block behind listed listedBehind ordered earlier member
      later memberLater
    rw [(adds block listed earlier member).origin.2,
      (adds behind listedBehind later memberLater).origin.2]
    exact ordered

end Extraction

namespace LogicalLine

/-- The logical lines of a text are numbered from its first physical line to its
last one without gap or overlap, each is joined from the physical lines that it
is numbered with, and definitions come in the order of the logical lines that
they begin. -/
theorem all_tiles (path : String) (detectTypes : Bool) (text : Text) :
    (Line.all text).length = text.count '\n' + 1 ∧
      Tiles (text.count '\n' + 1) 0 (all path text) ∧
      (∀ line ∈ all path text, Spells (Line.all text) line) ∧
      ((Extraction.ofText path detectTypes text).definitions.Pairwise
        fun earlier later => earlier.line ≤ later.line) ∧
      ∀ definition ∈ (Extraction.ofText path detectTypes text).definitions,
        ∃ line ∈ all path (Comment.blank text),
          definition.line = line.first := by
  refine ⟨?_, tiles_all path text, ?_,
    Extraction.pairwise_line path detectTypes text, ?_⟩
  · rw [(Line.cut_all text).length_eq, Line.render_all]
  · intro line member
    obtain ⟨front, run, back, joins⟩ := exists_joins member
    exact joins.spells
  · intro definition member
    obtain ⟨line, joined, adds⟩ := Extraction.exists_adds member
    exact ⟨line, joined, adds.origin.2⟩

def splicedText : Text :=
  "#define A \\ \n\\\n x\\y\r\nenum \x7bB,\nC\x7d;\\".toList

theorem all_tiles_spliced :
    (all "s.h" splicedText).map (fun line => (line.first, line.last)) =
      [(1, 3), (4, 4), (5, 5)] ∧
      Tiles 5 0 (all "s.h" splicedText) ∧
      (∃ line ∈ all "s.h" splicedText,
        line.text = "#define A    x\\y".toList ∧
          Spells (Line.all splicedText) line) ∧
      ∃ definition ∈ (Extraction.ofText "s.h" true splicedText).definitions,
        definition.name = ['C'] ∧
          ∃ line ∈ all "s.h" (Comment.blank splicedText),
            definition.line = line.first := by
  have spliced : ∃ line ∈ all "s.h" splicedText,
      line.text = "#define A    x\\y".toList := by
    decide +kernel
  have constant :
      ∃ definition ∈ (Extraction.ofText "s.h" true splicedText).definitions,
        definition.name = ['C'] := by
    decide +kernel
  obtain ⟨line, listed, text⟩ := spliced
  obtain ⟨definition, member, named⟩ := constant
  obtain ⟨-, tiles, spells, -, begins⟩ := all_tiles "s.h" true splicedText
  exact ⟨by decide +kernel, tiles, ⟨line, listed, text, spells line listed⟩,
    definition, member, named, begins definition member⟩

end LogicalLine

end MacroTrace
