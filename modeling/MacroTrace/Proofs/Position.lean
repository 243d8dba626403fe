import MacroTrace.Diagnostic.Sheet
import MacroTrace.Proofs.Blanking

/-!
# Positions

An offset becomes a line and a column by looking it up among the starts of the
lines.  Counted from one, these are the number of line feeds in front of the
offset and the length of the line that they leave open there; reading the
original text at that line and column gives what stands at the offset.  Blanking
moves neither.
-/

namespace MacroTrace

namespace Text

/-- The reversed line that is open behind a text, `line` being the one that is
open in front. -/
def openLine (line : Text) (text : Text) : Text :=
  text.foldl (fun line c => if c = '\n' then [] else c :: line) line

theorem openLine_cons (line : Text) (c : Char) (text : Text) :
    openLine line (c :: text) =
      openLine (if c = '\n' then [] else c :: line) text := rfl

theorem openLine_append (line front back : Text) :
    openLine line (front ++ back) = openLine (openLine line front) back :=
  List.foldl_append

theorem splitFrom_parts
    (separator : Char) (parts : List Text) (current text : Text) :
    splitFrom separator parts current text =
      parts.reverse ++ splitFrom separator [] current text := by
  induction text generalizing parts current with
  | nil => simp [splitFrom]
  | cons c rest ih =>
      simp only [splitFrom]
      split
      next =>
        rw [ih, ih [_]]
        simp
      next => exact ih parts _

theorem head?_splitFrom (separator : Char) (current text : Text) :
    (splitFrom separator [] current text).head? =
      some (current.reverse ++ text.takeWhile (· ≠ separator)) := by
  induction text generalizing current with
  | nil => simp [splitFrom]
  | cons c rest ih =>
      simp only [splitFrom]
      split
      next separates =>
        subst separates
        rw [splitFrom_parts]
        simp
      next other =>
        rw [ih]
        simp [other]

theorem splitFrom_append (parts : List Text) (line front rest : Text) :
    ∃ earlier, earlier.length = parts.length + front.count '\n' ∧
      splitFrom '\n' parts line (front ++ rest) =
        splitFrom '\n' earlier (openLine line front) rest := by
  induction front generalizing parts line with
  | nil => exact ⟨parts, rfl, rfl⟩
  | cons c front ih =>
      rw [List.cons_append, splitFrom, openLine_cons]
      by_cases feed : c = '\n'
      · obtain ⟨earlier, length, shape⟩ := ih (line.reverse :: parts) []
        refine ⟨earlier, ?_, ?_⟩
        · rw [length, feed, List.count_cons_self, List.length_cons]
          omega
        · rw [if_pos feed, if_pos feed]
          exact shape
      · obtain ⟨earlier, length, shape⟩ := ih parts (c :: line)
        refine ⟨earlier, ?_, ?_⟩
        · rw [length, List.count_cons_of_ne feed]
        · rw [if_neg feed, if_neg feed]
          exact shape

/-- The line that an offset lies in: what the text in front leaves open, and
what follows up to the next line feed. -/
theorem getElem?_splitOn (front rest : Text) :
    (splitOn '\n' (front ++ rest))[front.count '\n']? =
      some ((openLine [] front).reverse ++ rest.takeWhile (· ≠ '\n')) := by
  obtain ⟨earlier, length, shape⟩ := splitFrom_append [] [] front rest
  rw [List.length_nil, Nat.zero_add] at length
  rw [splitOn, shape, splitFrom_parts,
    List.getElem?_append_right (by simp [length]), List.length_reverse, length,
    Nat.sub_self, ← List.head?_eq_getElem?, head?_splitFrom]

/-- The characters at a line and a column, both counted from one. -/
def readAt (text : Text) (line column length : Nat) : Text :=
  (((splitOn '\n' text)[line - 1]?.getD []).drop (column - 1)).take length

theorem readAt_append
    {name : Text}
    (front after : Text)
    (oneLine : '\n' ∉ name) :
    readAt (front ++ (name ++ after)) (front.count '\n' + 1)
      ((openLine [] front).length + 1) name.length = name := by
  have kept : ∀ c ∈ name, decide (c ≠ '\n') = true := by
    intro c member
    rw [decide_eq_true_eq]
    rintro rfl
    exact oneLine member
  rw [readAt, Nat.add_sub_cancel, Nat.add_sub_cancel, getElem?_splitOn,
    Option.getD_some, List.drop_left' List.length_reverse,
    List.takeWhile_append_of_pos kept, List.take_left]

theorem Hidden.count_feed
    {text blanked : Text}
    (hidden : Hidden isFeed text blanked) :
    blanked.count '\n' = text.count '\n' := by
  induction hidden with
  | nil => rfl
  | @cons c d text blanked here _ ih =>
      rcases here with rfl | ⟨rfl, free⟩
      · rw [List.count_cons, List.count_cons, ih]
      · have other : c ≠ '\n' := by simpa [isFeed] using free
        rw [List.count_cons_of_ne other, List.count_cons_of_ne (by decide), ih]

theorem Hidden.length_openLine
    {text blanked : Text}
    (hidden : Hidden isFeed text blanked)
    {line other : Text}
    (length : other.length = line.length) :
    (openLine other blanked).length = (openLine line text).length := by
  induction hidden generalizing line other with
  | nil => exact length
  | @cons c d text blanked here _ ih =>
      rw [openLine_cons, openLine_cons]
      apply ih
      rcases here with rfl | ⟨rfl, free⟩
      · split
        next => rfl
        next => simp [length]
      · have feedless : c ≠ '\n' := by simpa [isFeed] using free
        rw [if_neg (by decide), if_neg feedless]
        simp [length]

/-- A name without spaces that a blanked text holds behind `front` is read in
the text itself at the same position. -/
theorem Hidden.readAt_eq
    {text front name after : Text}
    (hidden : Hidden isFeed text (front ++ (name ++ after)))
    (visible : ' ' ∉ name)
    (oneLine : '\n' ∉ name) :
    readAt text (front.count '\n' + 1) ((openLine [] front).length + 1)
      name.length = name := by
  obtain ⟨before, rest, rfl, hiddenFront, hiddenRest⟩ := hidden.exists_append
  obtain ⟨same, behind, rfl, hiddenName, _⟩ := hiddenRest.exists_append
  obtain rfl := hiddenName.eq_of_not_mem_space visible
  rw [hiddenFront.count_feed, hiddenFront.length_openLine rfl]
  exact readAt_append before behind oneLine

end Text

namespace Text

/-- The line and the column of an offset, both counted from one. -/
def placeOf (text : Text) (offset : Nat) : Nat × Nat :=
  ((text.take offset).count '\n' + 1,
    (openLine [] (text.take offset)).length + 1)

theorem openLine_of_not_mem
    {text : Text}
    (oneLine : '\n' ∉ text)
    (line : Text) :
    openLine line text = text.reverse ++ line := by
  induction text generalizing line with
  | nil => rfl
  | cons c rest ih =>
      rw [List.mem_cons, not_or] at oneLine
      rw [openLine_cons, if_neg (Ne.symm oneLine.1), ih oneLine.2]
      simp

theorem placeOf_ne_of_lt
    {text : Text} {offset later : Nat}
    (before : offset < later)
    (within : later ≤ text.length) :
    text.placeOf offset ≠ text.placeOf later := by
  intro same
  have shape := (List.take_append_drop offset (text.take later)).symm
  rw [List.take_take, Nat.min_eq_left (Nat.le_of_lt before)] at shape
  generalize (text.take later).drop offset = more at shape
  simp only [placeOf, shape, Prod.mk.injEq, Nat.add_right_cancel_iff,
    List.count_append] at same
  obtain ⟨lines, columns⟩ := same
  have oneLine : '\n' ∉ more := List.count_eq_zero.mp (by omega)
  have opened : openLine [] (text.take offset ++ more) =
      more.reverse ++ openLine [] (text.take offset) := by
    rw [openLine_append, openLine_of_not_mem oneLine]
  rw [opened, List.length_append, List.length_reverse] at columns
  have lengths := congrArg List.length shape
  rw [List.length_append, List.length_take_of_le within,
    List.length_take_of_le (by omega)] at lengths
  omega

theorem placeOf_injective
    {text : Text} {left right : Nat}
    (leftWithin : left ≤ text.length)
    (rightWithin : right ≤ text.length)
    (same : text.placeOf left = text.placeOf right) :
    left = right := by
  rcases Nat.lt_trichotomy left right with before | equal | behind
  · exact absurd same (placeOf_ne_of_lt before rightWithin)
  · exact equal
  · exact absurd same.symm (placeOf_ne_of_lt behind leftWithin)

theorem Hidden.placeOf_eq
    {text blanked : Text}
    (hidden : Hidden isFeed text blanked)
    (offset : Nat) :
    blanked.placeOf offset = text.placeOf offset := by
  have taken : Hidden isFeed (text.take offset) (blanked.take offset) :=
    List.forall₂_take offset hidden
  rw [placeOf, placeOf, taken.count_feed, taken.length_openLine rfl]

end Text

namespace Sheet

theorem lineStartsFrom_starts (offset : Nat) (starts : List Nat) (text : Text) :
    ∃ later, lineStartsFrom offset starts text = starts.reverse ++ later ∧
      ∀ start ∈ later, offset < start := by
  induction text generalizing offset starts with
  | nil => exact ⟨[], by simp [lineStartsFrom], nofun⟩
  | cons c rest ih =>
      rw [lineStartsFrom]
      by_cases feed : c = '\n'
      · obtain ⟨later, shape, behind⟩ :=
          ih (offset + 1) ((offset + 1) :: starts)
        refine ⟨(offset + 1) :: later, ?_, ?_⟩
        · rw [if_pos feed, shape]
          simp
        · intro start member
          rcases List.mem_cons.mp member with rfl | member
          · exact Nat.lt_succ_self offset
          · exact Nat.lt_of_succ_lt (behind start member)
      · obtain ⟨later, shape, behind⟩ := ih (offset + 1) starts
        refine ⟨later, ?_, ?_⟩
        · rw [if_neg feed, shape]
        · intro start member
          exact Nat.lt_of_succ_lt (behind start member)

/-- The starts found up to an offset: as many as line feeds were read, the last
one as far back as the open line is long. -/
theorem lineStartsFrom_append
    {offset first : Nat}
    (starts : List Nat) (line : Text)
    (reached : first + line.length = offset)
    (sorted : ∀ start ∈ first :: starts, start ≤ offset)
    (front rest : Text) :
    ∃ last earlier,
      lineStartsFrom offset (first :: starts) (front ++ rest) =
          lineStartsFrom (offset + front.length) (last :: earlier) rest ∧
        earlier.length = starts.length + front.count '\n' ∧
        last + (Text.openLine line front).length = offset + front.length ∧
        ∀ start ∈ last :: earlier, start ≤ offset + front.length := by
  induction front generalizing offset first starts line with
  | nil => exact ⟨first, starts, rfl, rfl, reached, sorted⟩
  | cons c front ih =>
      have length : offset + (c :: front).length =
          offset + 1 + front.length := by
        rw [List.length_cons]
        omega
      rw [List.cons_append, lineStartsFrom, Text.openLine_cons, length]
      by_cases feed : c = '\n'
      · have sorted' : ∀ start ∈ (offset + 1) :: first :: starts,
            start ≤ offset + 1 := by
          intro start member
          rcases List.mem_cons.mp member with rfl | member
          · exact Nat.le_refl _
          · exact Nat.le_succ_of_le (sorted start member)
        obtain ⟨last, earlier, shape, count, opened, below⟩ :=
          ih (first :: starts) [] (Nat.add_zero _) sorted'
        refine ⟨last, earlier, ?_, ?_, ?_, below⟩
        · rw [if_pos feed]
          exact shape
        · rw [count, feed, List.count_cons_self, List.length_cons]
          omega
        · rw [if_pos feed]
          exact opened
      · have sorted' : ∀ start ∈ first :: starts, start ≤ offset + 1 :=
          fun start member => Nat.le_succ_of_le (sorted start member)
        obtain ⟨last, earlier, shape, count, opened, below⟩ :=
          ih starts (c :: line) (by rw [List.length_cons]; omega) sorted'
        refine ⟨last, earlier, ?_, ?_, ?_, below⟩
        · rw [if_neg feed]
          exact shape
        · rw [count, List.count_cons_of_ne feed]
        · rw [if_neg feed]
          exact opened

theorem position_eq
    {sheet : Sheet} {front rest : Text}
    (starts : sheet.lineStarts = lineStartsFrom 0 [0] (front ++ rest)) :
    sheet.position front.length =
      (front.count '\n' + 1, (Text.openLine [] front).length + 1) := by
  obtain ⟨last, earlier, shape, count, reached, below⟩ :=
    lineStartsFrom_append [] [] (Nat.zero_add 0) (by simp) front rest
  obtain ⟨later, found, behind⟩ :=
    lineStartsFrom_starts (0 + front.length) (last :: earlier) rest
  rw [Nat.zero_add] at shape found behind below reached
  have before : sheet.lineStarts.takeWhile (· ≤ front.length) =
      (last :: earlier).reverse := by
    rw [starts, shape, found, List.takeWhile_append_of_pos]
    · cases later with
      | nil => simp
      | cons start later =>
          have beyond := behind start List.mem_cons_self
          rw [List.takeWhile_cons_of_neg (by simpa using beyond),
            List.append_nil]
    · intro start member
      simpa using below start (List.mem_reverse.mp member)
  simp only [position, before, List.length_reverse, List.length_cons, count,
    List.length_nil, Nat.zero_add, List.getLast?_reverse, List.head?_cons,
    Option.getD_some, Prod.mk.injEq, true_and]
  omega

theorem hidden_clean (path : String) (text : Text) :
    Text.Hidden Text.isFeed text (ofText path text).clean :=
  (Comment.hidden_feeds text).trans (Directive.hidden_blank _)

/-- The line and the column that are found in the prepared text are those in the
file. -/
theorem position_eq_placeOf
    {path : String} {text : Text} {offset : Nat}
    (within : offset ≤ (ofText path text).clean.length) :
    (ofText path text).position offset = text.placeOf offset := by
  have starts : (ofText path text).lineStarts = lineStartsFrom 0 [0]
      ((ofText path text).clean.take offset ++
        (ofText path text).clean.drop offset) := by
    rw [List.take_append_drop]
    rfl
  have position := position_eq starts
  rw [List.length_take_of_le within] at position
  rw [position, ← (hidden_clean path text).placeOf_eq]
  rfl

end Sheet

end MacroTrace
