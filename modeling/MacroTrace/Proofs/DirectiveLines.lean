import MacroTrace.Proofs.Cleaning
import MacroTrace.Proofs.DefineLines
import MacroTrace.Proofs.Tiling

/-!
# Blanked directives and logical lines

A directive is blanked with the lines that continue it.  Whether one begins is
asked of every physical line that does not continue a blanked one, so a line is
blanked if and only if a physical line of its logical line, itself or one in
front, looks like a directive that is to be hidden.  This follows the logical
lines only where the first physical line decides: a `#` operator at the start of
a line that continues a definition is taken for a directive.
-/

namespace MacroTrace.Directive

open LogicalLine (Joins)

/-- The lines of a run that has been blanked: all from the first hidden one
on. -/
def blankRun (run : List Line) : List Line :=
  run.mapIdx fun index line =>
    if (run.take (index + 1)).any (isHidden ·.text) then hide line else line

theorem shown_eq_mapIdx
    {run : List Line}
    (continued : ∀ line ∈ run.dropLast, Line.isContinued line.text = true)
    (carried : Bool) :
    shown carried run =
      run.mapIdx fun index line =>
        if carried || (run.take (index + 1)).any (isHidden ·.text) then
          hide line else line := by
  induction run generalizing carried with
  | nil => rfl
  | cons line rest ih =>
      have later :
          shown ((carried || isHidden line.text) &&
              Line.isContinued line.text) rest =
            shown (carried || isHidden line.text) rest := by
        cases rest with
        | nil => rfl
        | cons next rest => rw [continued line (by simp), Bool.and_true]
      have inner : ∀ other ∈ rest.dropLast,
          Line.isContinued other.text = true := by
        intro other member
        apply continued
        cases rest with
        | nil => cases member
        | cons next rest => exact List.mem_cons_of_mem _ member
      rw [shown, later, ih inner, List.mapIdx_cons]
      simp [Bool.or_assoc]

theorem shown_run
    {lines front run back : List Line} {logical : LogicalLine}
    (joins : Joins lines front run back logical) :
    logical.physical (shown false lines) = blankRun run := by
  have shape : shown false lines =
      shown false front ++
        (shown false run ++ shown (Line.carries isHidden false run) back) := by
    rw [joins.split, shown_append, shown_append,
      Line.carries_of_closed joins.before]
  have first : logical.first - 1 = (shown false front).length := by
    rw [joins.first, length_shown, Nat.add_sub_cancel]
  have last : logical.last = (shown false front ++ shown false run).length := by
    rw [joins.last, List.length_append, length_shown, length_shown]
  rw [LogicalLine.physical, shape, first, last, ← List.append_assoc,
    List.take_left, List.drop_left, shown_eq_mapIdx joins.inner]
  simp [blankRun]

/-- The lines of a run, all of them blanked or none. -/
def blankWhole (hides : Bool) (run : List Line) : List Line :=
  run.map fun line => if hides then hide line else line

theorem hide_ne
    {line : Line} {c : Char}
    (member : c ∈ line.text)
    (visible : c ≠ ' ') :
    hide line ≠ line := by
  intro same
  have spaces : List.replicate line.text.length ' ' = line.text :=
    congrArg Line.text same
  rw [← spaces] at member
  exact visible (List.eq_of_mem_replicate member)

theorem hide_ne_of_isHidden
    {line : Line}
    (hidden : isHidden line.text = true) :
    hide line ≠ line := by
  rw [isHidden, Bool.and_eq_true, beq_iff_eq] at hidden
  have hash : '#' ∈ line.text :=
    List.dropWhile_subset _ (List.mem_of_head? hidden.1)
  exact hide_ne hash (by decide)

theorem hide_ne_of_isContinued
    {line : Line}
    (continued : Line.isContinued line.text = true) :
    hide line ≠ line := by
  obtain ⟨blanks, shape, _⟩ := Line.continuedAs_of_isContinued continued
  have backslash : '\\' ∈ line.text := by
    rw [shape]
    simp
  exact hide_ne backslash (by decide)

theorem getElem?_blankRun
    {run inner rest : List Line} {line : Line}
    (split : run = inner ++ line :: rest) :
    (blankRun run)[inner.length]? =
      some (if (inner ++ [line]).any (isHidden ·.text) then
        hide line else line) := by
  have front : run.take (inner.length + 1) = inner ++ [line] := by
    rw [split, List.append_cons, List.take_left' (by simp)]
  rw [blankRun, List.getElem?_mapIdx, front, split]
  simp

theorem getElem?_blankWhole
    {run inner rest : List Line} {line : Line}
    (split : run = inner ++ line :: rest)
    (hides : Bool) :
    (blankWhole hides run)[inner.length]? =
      some (if hides then hide line else line) := by
  rw [blankWhole, split]
  simp

/-- A run is blanked as its logical line says if and only if the first of its
lines is hidden when the logical line is, and none of them otherwise. -/
theorem blankRun_eq_blankWhole_iff
    {lines front run back : List Line} {logical : LogicalLine}
    (joins : Joins lines front run back logical) :
    blankRun run = blankWhole (isHidden logical.text) run ↔
      (isHidden logical.text = true → run.head?.any (isHidden ·.text) = true) ∧
        ∀ line ∈ run, isHidden line.text = true →
          isHidden logical.text = true := by
  constructor
  · intro same
    have here {inner rest : List Line} {line : Line}
        (split : run = inner ++ line :: rest) :
          (if (inner ++ [line]).any (isHidden ·.text) then
              hide line else line) =
            if isHidden logical.text then hide line else line := by
      apply Option.some.inj
      rw [← getElem?_blankRun split, ← getElem?_blankWhole split, same]
    constructor
    · intro hides
      obtain ⟨first, rest, shape⟩ := List.exists_cons_of_ne_nil joins.nonempty
      rw [shape, List.head?_cons, Option.any_some]
      by_contra visible
      have blanked := @here [] rest first shape
      rw [if_pos hides, List.nil_append, List.any_cons, List.any_nil,
        Bool.or_false, if_neg visible] at blanked
      -- A line that is blank anyway is not continued, so it would be the whole
      -- logical line.
      by_cases continued : Line.isContinued first.text = true
      · exact hide_ne_of_isContinued continued blanked.symm
      · have alone : rest = [] := by
          by_contra further
          apply continued
          apply joins.inner
          rw [shape, List.dropLast_cons_of_ne_nil further]
          exact List.mem_cons_self
        have text : logical.text = first.text := by
          rw [joins.text, shape, alone]
          simp [Text.joinWith, LogicalLine.part, continued]
        rw [text] at hides
        exact visible hides
    · intro line member hidden
      by_contra visible
      obtain ⟨inner, rest, split⟩ := List.append_of_mem member
      have blanked := here split
      rw [if_neg visible, if_pos (by simp [hidden])] at blanked
      exact hide_ne_of_isHidden hidden blanked
  · rintro ⟨first, others⟩
    apply List.ext_getElem?
    intro index
    cases found : run[index]? with
    | none => simp [blankRun, blankWhole, found]
    | some line =>
        obtain ⟨inner, rest, split, rfl⟩ := List.exists_append_of_getElem? found
        have decided : (inner ++ [line]).any (isHidden ·.text) =
            isHidden logical.text := by
          apply Bool.eq_iff_iff.mpr
          constructor
          · intro hidden
            obtain ⟨earlier, among, hides⟩ := List.any_eq_true.mp hidden
            apply others earlier _ hides
            rw [split, List.append_cons]
            exact List.mem_append_left _ among
          · intro hides
            have heads := first hides
            rw [split] at heads
            cases inner with
            | nil => simpa using heads
            | cons next inner =>
                rw [List.cons_append, List.head?_cons, Option.any_some] at heads
                rw [List.cons_append, List.any_cons, heads, Bool.true_or]
        rw [getElem?_blankRun split, getElem?_blankWhole split, decided]

/-- Blanking keeps the length of a text and its line feeds.  Every physical line
belongs to one logical line, and it is blanked if and only if a line of that one
up to it is hidden.  So a logical line is blanked as its text asks if and only
if its first line is hidden when the text is, and none of its lines
otherwise. -/
theorem blank_follows_lines (path : String) (text : Text) :
    (blank text).length = text.length ∧
      (∀ offset : Nat, (blank text)[offset]? = some '\n' ↔
        text[offset]? = some '\n') ∧
      (Line.all (blank text)).length = (Line.all text).length ∧
      LogicalLine.Tiles (Line.all text).length 0 (LogicalLine.all path text) ∧
      ∀ logical ∈ LogicalLine.all path text,
        logical.physical (Line.all (blank text)) =
            blankRun (logical.physical (Line.all text)) ∧
          (logical.physical (Line.all (blank text)) =
              blankWhole (isHidden logical.text)
                (logical.physical (Line.all text)) ↔
            (isHidden logical.text = true →
              (logical.physical (Line.all text)).head?.any (isHidden ·.text) =
                true) ∧
            ∀ line ∈ logical.physical (Line.all text),
              isHidden line.text = true → isHidden logical.text = true) := by
  have hidden := hidden_blank text
  refine ⟨(List.Forall₂.length_eq hidden).symm,
    hidden.getElem?_eq_some_iff rfl (by decide), ?_, ?_, ?_⟩
  · rw [all_blank, length_shown]
  · have tiles := LogicalLine.tiles_all path text
    rwa [← Line.render_all text, ← (Line.cut_all text).length_eq,
      Line.render_all] at tiles
  · intro logical member
    obtain ⟨front, run, back, joins⟩ := LogicalLine.exists_joins member
    rw [all_blank, shown_run joins, joins.physical_eq]
    exact ⟨rfl, blankRun_eq_blankWhole_iff joins⟩

/-- A definition with a `#` operator at the start of its second line, an
included file, and a directive whose first line is blank. -/
def operatorText : Text :=
  "#define STR(x) \\\n  #x\n#include \\\r\n<A>\n\\\n#if B\nC".toList

theorem blank_follows_lines_operatorText :
    (∃ logical ∈ LogicalLine.all "s.h" operatorText,
      (logical.first, logical.last, isHidden logical.text) = (3, 4, true) ∧
        logical.physical (Line.all (blank operatorText)) =
          blankWhole true (logical.physical (Line.all operatorText))) ∧
    ∃ logical ∈ LogicalLine.all "s.h" operatorText,
      (logical.first, logical.last, isHidden logical.text) = (5, 6, true) ∧
        logical.physical (Line.all (blank operatorText)) =
          blankRun (logical.physical (Line.all operatorText)) ∧
        logical.physical (Line.all (blank operatorText)) ≠
          blankWhole true (logical.physical (Line.all operatorText)) := by
  have included : ∃ logical ∈ LogicalLine.all "s.h" operatorText,
      (logical.first, logical.last, isHidden logical.text) = (3, 4, true) ∧
        (logical.physical (Line.all operatorText)).head?.any (isHidden ·.text) =
          true := by
    decide +kernel
  have conditional : ∃ logical ∈ LogicalLine.all "s.h" operatorText,
      (logical.first, logical.last, isHidden logical.text) = (5, 6, true) ∧
        (logical.physical (Line.all operatorText)).head?.any (isHidden ·.text) =
          false := by
    decide +kernel
  obtain ⟨-, -, -, -, follows⟩ := blank_follows_lines "s.h" operatorText
  constructor
  · obtain ⟨logical, member, shape, first⟩ := included
    have hides : isHidden logical.text = true := congrArg (·.2.2) shape
    refine ⟨logical, member, shape, ?_⟩
    rw [← hides]
    exact (follows logical member).2.mpr ⟨fun _ => first, fun _ _ _ => hides⟩
  · obtain ⟨logical, member, shape, first⟩ := conditional
    have hides : isHidden logical.text = true := congrArg (·.2.2) shape
    refine ⟨logical, member, shape, (follows logical member).1, ?_⟩
    rw [← hides]
    intro whole
    have asked := ((follows logical member).2.mp whole).1 hides
    rw [first] at asked
    cases asked

/-- The operator at the start of the second line is blanked with all that is
behind it, although the line belongs to a definition. -/
theorem blank_ne_whole_operatorText :
    ∃ logical ∈ LogicalLine.all "s.h" operatorText,
      (logical.first, logical.last, isHidden logical.text) = (1, 2, false) ∧
        (logical.physical (Line.all operatorText)).map (·.text) =
          ["#define STR(x) \\".toList, "  #x".toList] ∧
        (logical.physical (Line.all (blank operatorText))).map (·.text) =
          ["#define STR(x) \\".toList, "    ".toList] := by
  decide +kernel

end MacroTrace.Directive
