import Mathlib.Data.List.TakeWhile
import MacroTrace.Diagnostic.Sheet
import MacroTrace.Proofs.PhysicalLines

/-!
# Lines that define

Three readers decide what a `#define` is.  The reader of definitions and the one
that blanks the other directives allow any blanks around the hash; the one that
marks the lines of definitions allows spaces and tabs only.  All three go by
physical lines that may continue one another, and a line is left as it is and
unmarked exactly when no line of its run up to it begins a directive that is
blanked or marked.
-/

namespace MacroTrace

namespace Line

/-- Whether the line behind some lines continues one that begins what is looked
for; `carried` says that the first of them does. -/
def carries (begins : Text → Bool) (carried : Bool)
    (lines : List Line) : Bool :=
  lines.foldl
    (fun carried line => (carried || begins line.text) && isContinued line.text)
    carried

variable {begins : Text → Bool} {lines : List Line}

theorem carries_append
    (begins : Text → Bool) (carried : Bool) (front back : List Line) :
    carries begins carried (front ++ back) =
      carries begins (carries begins carried front) back :=
  List.foldl_append

/-- Nothing is carried over from a line that is not continued. -/
theorem carries_of_closed
    (closed : ∀ line ∈ lines.getLast?, isContinued line.text = false) :
    carries begins false lines = false := by
  rcases List.eq_nil_or_concat lines with rfl | ⟨front, last, rfl⟩
  · rfl
  · rw [List.concat_eq_append] at closed ⊢
    have ends : isContinued last.text = false := closed last (by simp)
    rw [carries_append]
    simp [carries, ends]

theorem carries_of_continued
    (continued : ∀ line ∈ lines, isContinued line.text = true)
    (carried : Bool) :
    carries begins carried lines =
      (carried || lines.any fun line => begins line.text) := by
  induction lines generalizing carried with
  | nil => simp [carries]
  | cons line rest ih =>
      have here : isContinued line.text = true :=
        continued line List.mem_cons_self
      have later :=
        ih fun other member => continued other (List.mem_cons_of_mem _ member)
      have step : carries begins carried (line :: rest) =
          carries begins
            ((carried || begins line.text) && isContinued line.text) rest := rfl
      rw [step, here, Bool.and_true, later, List.any_cons, Bool.or_assoc]

theorem isContinued_spaces (count : Nat) :
    isContinued (List.replicate count ' ') = false := by
  have none : (List.replicate count ' ').dropWhile Text.isBlank = [] := by
    rw [List.dropWhile_eq_nil_iff]
    intro c member
    rw [List.eq_of_mem_replicate member]
    rfl
  rw [isContinued, Text.trimRight, List.reverse_replicate, none]
  rfl

end Line

namespace Directive

open Line (carries)

def hide (line : Line) : Line :=
  { line with text := List.replicate line.text.length ' ' }

/-- The lines with hidden directives blanked; `carried` says that the first line
continues one. -/
def shown (carried : Bool) : List Line → List Line
  | [] => []
  | line :: rest =>
      let hides := carried || isHidden line.text
      (if hides then hide line else line) ::
        shown (hides && Line.isContinued line.text) rest

theorem blankLines_eq (carried : Bool) (done lines : List Line) :
    blankLines carried done lines = done.reverse ++ shown carried lines := by
  induction lines generalizing carried done with
  | nil => simp [blankLines, shown]
  | cons line rest ih =>
      rw [blankLines, shown]
      split
      next hides =>
        rw [ih, hides, List.reverse_cons, List.append_assoc]
        rfl
      next shows =>
        rw [ih, Bool.eq_false_iff.mpr shows, List.reverse_cons,
          List.append_assoc]
        rfl

theorem shown_append (carried : Bool) (front back : List Line) :
    shown carried (front ++ back) =
      shown carried front ++ shown (carries isHidden carried front) back := by
  induction front generalizing carried with
  | nil => rfl
  | cons line front ih =>
      rw [List.cons_append, shown, shown, ih]
      rfl

theorem length_shown (carried : Bool) (lines : List Line) :
    (shown carried lines).length = lines.length := by
  induction lines generalizing carried with
  | nil => rfl
  | cons line rest ih => rw [shown, List.length_cons, List.length_cons, ih]

/-- Each line shown is a line of the text, blanked if it begins or continues a
hidden directive. -/
theorem exists_of_shown_eq
    {carried : Bool} {lines earlier later : List Line} {displayed : Line}
    (shape : shown carried lines = earlier ++ displayed :: later) :
    ∃ front line back,
      lines = front ++ line :: back ∧
        earlier = shown carried front ∧
        displayed =
          if carries isHidden carried front || isHidden line.text then
            hide line else line := by
  induction lines generalizing carried earlier with
  | nil => simp [shown] at shape
  | cons line rest ih =>
      rw [shown] at shape
      cases earlier with
      | nil =>
          obtain ⟨here, _⟩ := List.cons.inj shape
          exact ⟨[], line, rest, rfl, rfl, here.symm⟩
      | cons first earlier =>
          obtain ⟨here, behind⟩ := List.cons.inj shape
          obtain ⟨front, found, back, rfl, rfl, same⟩ := ih behind
          refine ⟨line :: front, found, back, rfl, ?_, same⟩
          rw [shown, here]

theorem shown_eq_self
    {lines : List Line}
    (visible : ∀ line ∈ lines, isHidden line.text = false) :
    shown false lines = lines := by
  induction lines with
  | nil => rfl
  | cons line rest ih =>
      have here : isHidden line.text = false := visible line List.mem_cons_self
      have later :=
        ih fun other member => visible other (List.mem_cons_of_mem _ member)
      rw [shown, here]
      simpa using later

theorem cut_shown
    {lines : List Line}
    (cut : Line.Cut lines)
    (carried : Bool) :
    Line.Cut (shown carried lines) := by
  have spaces (count : Nat) : '\n' ∉ List.replicate count ' ' := by
    intro member
    cases List.eq_of_mem_replicate member
  induction cut generalizing carried with
  | @last text free =>
      rw [shown, shown]
      split
      next => exact .last (spaces _)
      next => exact .last free
  | @feed text rest free notReturn _ ih =>
      rw [shown]
      split
      next =>
        refine .feed (spaces _) ?_ (ih _)
        intro returns
        cases List.eq_of_mem_replicate (List.mem_of_getLast? returns)
      next => exact .feed free notReturn (ih _)
  | @returnFeed text rest free _ ih =>
      rw [shown]
      split
      next => exact .returnFeed (spaces _) (ih _)
      next => exact .returnFeed free (ih _)

/-- Blanking directives blanks lines and leaves the others as they are. -/
theorem all_blank (text : Text) :
    Line.all (blank text) = shown false (Line.all text) := by
  rw [blank, blankLines_eq, List.reverse_nil, List.nil_append]
  exact Line.all_render (cut_shown (Line.cut_all text) false)

theorem closed_shown
    {lines : List Line}
    (closed : ∀ line ∈ lines.getLast?, Line.isContinued line.text = false)
    (carried : Bool) :
    ∀ line ∈ (shown carried lines).getLast?,
      Line.isContinued line.text = false := by
  rcases List.eq_nil_or_concat lines with rfl | ⟨front, last, rfl⟩
  · nofun
  · rw [List.concat_eq_append] at closed ⊢
    rw [shown_append, shown, shown, List.getLast?_concat]
    rintro line ⟨⟩
    split
    next => exact Line.isContinued_spaces _
    next => exact closed last (by simp)

end Directive

namespace Sheet

open Line (carries)

/-- A position in one of the extents. -/
def Marked (extents : List (Span Nat)) (position : Nat) : Prop :=
  ∃ span ∈ extents, span.start ≤ position ∧ position < span.stop

theorem marked_cons_iff
    {span : Span Nat} {extents : List (Span Nat)} {position : Nat} :
    Marked (span :: extents) position ↔
      (span.start ≤ position ∧ position < span.stop) ∨
        Marked extents position := by
  simp [Marked]

/-- The extents found in front of an offset, the last one first.  If the line at
the offset continues a definition, the last extent reaches up to it. -/
structure Found (offset : Nat) (carried : Bool)
    (extents : List (Span Nat)) : Prop where
  separated : Span.Separated extents.reverse
  bounded : ∀ span ∈ extents, span.stop ≤ offset
  reaches : carried = true → ∃ last earlier, extents = last :: earlier ∧
    last.stop = offset

theorem separated_reverse_cons_iff
    {span : Span Nat} {extents : List (Span Nat)} :
    Span.Separated (span :: extents).reverse ↔
      span.start < span.stop ∧
        (∀ earlier ∈ extents, earlier.stop ≤ span.start) ∧
        Span.Separated extents.reverse := by
  constructor
  · intro ⟨nonempty, ordered⟩
    rw [List.pairwise_reverse, List.pairwise_cons] at ordered
    refine ⟨nonempty span (by simp), ordered.1, ?_,
      List.pairwise_reverse.mpr ordered.2⟩
    exact fun earlier member => nonempty earlier (by simp_all)
  · intro ⟨long, before, nonempty, ordered⟩
    rw [List.pairwise_reverse] at ordered
    refine ⟨?_,
      List.pairwise_reverse.mpr (List.pairwise_cons.mpr ⟨before, ordered⟩)⟩
    intro earlier member
    rcases List.mem_cons.mp (List.mem_reverse.mp member) with rfl | among
    · exact long
    · exact nonempty earlier (List.mem_reverse.mpr among)

theorem marked_reverse_iff
    {extents : List (Span Nat)} {position : Nat} :
    Marked extents.reverse position ↔ Marked extents position := by
  simp [Marked]

theorem Found.push
    {start stop : Nat} {extents : List (Span Nat)}
    (separated : Span.Separated extents.reverse)
    (before : ∀ earlier ∈ extents, earlier.stop ≤ start)
    (long : start < stop)
    (carried : Bool) :
    Found stop carried (⟨start, stop⟩ :: extents) := by
  refine ⟨separated_reverse_cons_iff.mpr ⟨long, before, separated⟩, ?_,
    fun _ => ⟨_, _, rfl, rfl⟩⟩
  intro other member
  rcases List.mem_cons.mp member with rfl | among
  · exact Nat.le_refl _
  · exact (before other among).trans (Nat.le_of_lt long)

/-- Adding the extent of a line that continues a definition or is not empty. -/
theorem Found.add
    {offset length : Nat} {carried : Bool} {extents : List (Span Nat)}
    (found : Found offset carried extents)
    (advances : carried = true ∨ 0 < length)
    (continued : Bool) :
    Found (offset + length) continued
      (addExtent extents offset (offset + length)) ∧
      ∀ position, Marked (addExtent extents offset (offset + length)) position ↔
        Marked extents position ∨ offset ≤ position ∧
          position < offset + length := by
  have long (apart : ¬ ∃ last earlier, extents = last :: earlier ∧
      last.stop = offset) :
      offset < offset + length := by
    rcases advances with carried | long
    · exact absurd (found.reaches carried) apart
    · omega
  -- A new extent, behind all others.
  have alone (apart : ¬ ∃ last earlier, extents = last :: earlier ∧
      last.stop = offset) :
      Found (offset + length) continued (⟨offset, offset + length⟩ :: extents) ∧
        ∀ position, Marked (⟨offset, offset + length⟩ :: extents) position ↔
          Marked extents position ∨ offset ≤ position ∧
            position < offset + length := by
    refine ⟨.push found.separated found.bounded (long apart) continued, ?_⟩
    intro position
    rw [marked_cons_iff]
    exact or_comm
  unfold addExtent
  split
  next => exact alone (by simp)
  next last earlier =>
    split
    next touches =>
      -- The last extent is made longer.
      obtain ⟨nonempty, before, separated⟩ :=
        separated_reverse_cons_iff.mp found.separated
      have longer : last.start < offset + length := by omega
      refine ⟨.push separated before longer continued, ?_⟩
      intro position
      rw [marked_cons_iff, marked_cons_iff, or_right_comm]
      apply or_congr_left
      simp only
      omega
    next apart =>
      apply alone
      rintro ⟨_, _, ⟨⟩, touches⟩
      exact apart touches

/-- One line is read. -/
theorem definesFrom_cons
    {offset : Nat} {carried : Bool} {extents : List (Span Nat)}
    (found : Found offset carried extents)
    (line : Line) (rest : List Line) :
    ∃ more,
      definesFrom carried offset extents (line :: rest) =
          definesFrom
            ((carried || isDefineLine line.text) && Line.isContinued line.text)
            (offset + (line.text.length + line.ending.text.length)) more rest ∧
        Found (offset + (line.text.length + line.ending.text.length))
          ((carried || isDefineLine line.text) &&
            Line.isContinued line.text) more ∧
        ∀ position, Marked more position ↔
          Marked extents position ∨
            (carried || isDefineLine line.text) = true ∧ offset ≤ position ∧
              position <
                offset + (line.text.length + line.ending.text.length) := by
  rw [definesFrom, Nat.add_assoc]
  cases mark : carried || isDefineLine line.text with
  | true =>
      have advances : carried = true ∨
          0 < line.text.length + line.ending.text.length := by
        rcases Bool.or_eq_true_iff.mp mark with continues | defines
        · exact .inl continues
        · cases shape : line.text with
          | nil =>
              rw [shape] at defines
              cases defines
          | cons c text =>
              rw [List.length_cons]
              omega
      obtain ⟨next, marked⟩ :=
        found.add advances (true && Line.isContinued line.text)
      exact ⟨_, rfl, next, by simpa using marked⟩
  | false =>
      refine ⟨extents, rfl, ⟨found.separated, ?_, nofun⟩, by simp⟩
      exact fun span member =>
        (found.bounded span member).trans (Nat.le_add_right _ _)

/-- Lines at an offset leave the extents in front of it as they are. -/
theorem definesFrom_spec
    {offset : Nat} {carried : Bool} {extents : List (Span Nat)}
    (found : Found offset carried extents)
    (lines : List Line) :
    Span.Separated (definesFrom carried offset extents lines) ∧
      ∀ position < offset,
        Marked (definesFrom carried offset extents lines) position ↔
          Marked extents position := by
  induction lines generalizing offset carried extents with
  | nil => exact ⟨found.separated, fun position _ => marked_reverse_iff⟩
  | cons line rest ih =>
      obtain ⟨more, step, next, marked⟩ := definesFrom_cons found line rest
      obtain ⟨separated, kept⟩ := ih next
      rw [step]
      refine ⟨separated, fun position before => ?_⟩
      rw [kept position (by omega), marked]
      constructor
      · rintro (old | ⟨_, inside, _⟩)
        · exact old
        · omega
      · exact .inl

/-- A line is marked if it continues a definition or begins one. -/
theorem marked_definesFrom_iff
    {offset : Nat} {carried : Bool} {extents : List (Span Nat)}
    (found : Found offset carried extents)
    (earlier : List Line) (line : Line) (later : List Line)
    {inside : Nat}
    (within : inside < line.text.length) :
    Marked (definesFrom carried offset extents (earlier ++ line :: later))
        (offset + (Line.render earlier).length + inside) ↔
      (carries isDefineLine carried earlier || isDefineLine line.text) =
        true := by
  induction earlier generalizing offset carried extents with
  | nil =>
      obtain ⟨more, step, next, marked⟩ := definesFrom_cons found line later
      have place : offset + (Line.render []).length + inside =
          offset + inside := rfl
      have front : ¬ Marked extents (offset + inside) := by
        rintro ⟨span, member, _, below⟩
        have bound := found.bounded span member
        omega
      rw [List.nil_append, step, place,
        (definesFrom_spec next later).2 _ (by omega), marked,
        or_iff_right front]
      constructor
      · exact And.left
      · exact fun marks => ⟨marks, by omega, by omega⟩
  | cons first earlier ih =>
      obtain ⟨more, step, next, _⟩ :=
        definesFrom_cons found first (earlier ++ line :: later)
      have place : offset + (Line.render (first :: earlier)).length + inside =
          offset + (first.text.length + first.ending.text.length) +
            (Line.render earlier).length + inside := by
        rw [Line.render_cons, List.length_append, List.length_append]
        omega
      rw [List.cons_append, step, place]
      exact ih next

/-- Which positions of the prepared text belong to definitions. -/
theorem covered_defines
    {path : String} {text : Text} {earlier later : List Line} {line : Line}
    (split : Line.all (ofText path text).clean = earlier ++ line :: later)
    {inside : Nat}
    (within : inside < line.text.length) :
    Span.covered (ofText path text).defines
        ((Line.render earlier).length + inside) =
      (carries isDefineLine false earlier || isDefineLine line.text) := by
  have start : Found 0 false [] := ⟨.nil, nofun, nofun⟩
  have separated := (definesFrom_spec start (earlier ++ line :: later)).1
  have marked := marked_definesFrom_iff start earlier line later within
  rw [Nat.zero_add] at marked
  have defines : (ofText path text).defines =
      definesFrom false 0 [] (earlier ++ line :: later) := by
    rw [← split]
    rfl
  rw [defines]
  exact Bool.eq_iff_iff.mpr ((Span.covered_iff separated _).trans marked)

end Sheet

end MacroTrace
