import MacroTrace.Substitution.Basic
import Mathlib.Data.List.Basic

/-!
# Simultaneous replacement

An edit says what takes the place of a part of a text, and `Text.splice` makes
all edits of a list at once: the text between them is copied, and what is put in
is never looked at again.

Substitution goes through a template with numbered placeholders.  The main
statement here is that the template does not show: filling it in is a splice of
the body, whatever the arguments hold, as long as the body itself holds no
character that could begin a placeholder.
-/

namespace MacroTrace

/-- A part of a text and what takes its place. -/
structure Edit where
  start : Nat
  stop : Nat
  replacement : Text
  deriving DecidableEq, Repr

namespace Text

/-- The text from `position` on with all edits made.  They are given from left
to right. -/
def splice (text : Text) (position : Nat) : List Edit → Text
  | [] => text.drop position
  | edit :: rest =>
      slice text ⟨position, edit.start⟩ ++ edit.replacement ++
        splice text edit.stop rest

theorem mem_of_mem_slice
    {text : Text} {span : Span Nat} {c : Char}
    (member : c ∈ slice text span) :
    c ∈ text :=
  List.mem_of_mem_drop (List.mem_of_mem_take member)

theorem digitValue?_of_isDigit
    {c : Char}
    (digit : c.isDigit = true) :
    digitValue? c = some (c.toNat - 48) := by
  have bounds : 48 ≤ c.val ∧ c.val ≤ 57 := by
    simpa [Char.isDigit] using digit
  have ascii : isAsciiDigit c = true := by
    simp only [isAsciiDigit, Bool.and_eq_true, decide_eq_true_eq]
    exact ⟨bounds.1, bounds.2⟩
  simp [digitValue?, ascii]

theorem numeralValue_eq_ofDigitChars
    {digits : Text}
    (decimal : ∀ c ∈ digits, c.isDigit = true) :
    numeralValue digits = Nat.ofDigitChars 10 digits 0 := by
  suffices general : ∀ value,
      digits.foldl (fun value c => 10 * value + (digitValue? c).getD 0) value =
        Nat.ofDigitChars 10 digits value from general 0
  induction digits with
  | nil => intro value; rfl
  | cons c digits ih =>
      intro value
      have first := digitValue?_of_isDigit (decimal c List.mem_cons_self)
      have rest :=
        ih (fun d member => decimal d (List.mem_cons_of_mem _ member))
      simp only [List.foldl_cons, first, Option.getD_some,
        Nat.ofDigitChars_cons]
      exact rest _

theorem toList_toString (index : Nat) :
    (toString index).toList = Nat.toDigits 10 index := by
  rw [Nat.toString_eq_ofList_toDigits, String.toList_ofList]

theorem isDigit_of_mem_toString
    {index : Nat} {c : Char}
    (member : c ∈ (toString index).toList) :
    isDigit c = true := by
  rw [toList_toString] at member
  have digit := Nat.isDigit_of_mem_toDigits (by decide) (by decide) member
  simp [isDigit, digitValue?_of_isDigit digit]

theorem numeralValue_toString (index : Nat) :
    numeralValue (toString index).toList = index := by
  rw [toList_toString, numeralValue_eq_ofDigitChars]
  · exact Nat.ofDigitChars_ten_toDigits
  · intro c member
    exact Nat.isDigit_of_mem_toDigits (by decide) (by decide) member

theorem length_toString_mono
    {small large : Nat}
    (order : small ≤ large) :
    (toString small).toList.length ≤ (toString large).length := by
  rw [← String.length_toList, toList_toString, toList_toString]
  rw [Nat.length_toDigits_le_iff (by decide) Nat.length_toDigits_pos]
  have bound : large < 10 ^ (Nat.toDigits 10 large).length :=
    (Nat.length_toDigits_le_iff (by decide) Nat.length_toDigits_pos).mp
      (Nat.le_refl _)
  exact Nat.lt_of_le_of_lt order bound

end Text

namespace Substitution

theorem takePlaceholder?_of_ne
    {c : Char} {rest : Text}
    (different : c ≠ '\x00') :
    takePlaceholder? (c :: rest) = none := by
  unfold takePlaceholder?
  split
  next equality =>
    injection equality with same
    exact absurd same different
  next => rfl

theorem takePlaceholder?_placeholder (index : Nat) (rest : Text) :
    takePlaceholder? (placeholder index ++ rest) =
      some ((toString index).toList, rest) := by
  have digits : ∀ c ∈ (toString index).toList, Text.isDigit c = true :=
    fun _ member => Text.isDigit_of_mem_toString member
  have boundary : Text.isDigit '\x00' = false := by decide
  have behind :
      ((toString index).toList ++ '\x00' :: rest).dropWhile Text.isDigit =
        '\x00' :: rest := by
    rw [List.dropWhile_append_of_pos digits,
      List.dropWhile_cons_of_neg (by simp [boundary])]
  have front :
      ((toString index).toList ++ '\x00' :: rest).takeWhile Text.isDigit =
        (toString index).toList := by
    rw [List.takeWhile_append_of_pos digits,
      List.takeWhile_cons_of_neg (by simp [boundary]), List.append_nil]
  have shape : placeholder index ++ rest =
      '\x00' :: ((toString index).toList ++ '\x00' :: rest) := by
    simp [placeholder]
  rw [shape]
  simp only [takePlaceholder?, behind, front]
  simp

/-- Text without the character that begins a placeholder is copied. -/
theorem fillFrom_append
    {replacements : List Text} {piece : Text}
    (clean : '\x00' ∉ piece)
    (written rest : Text) :
    fillFrom replacements written (piece ++ rest) =
      fillFrom replacements (piece.reverse ++ written) rest := by
  induction piece generalizing written with
  | nil => rfl
  | cons c piece ih =>
      have different : c ≠ '\x00' := fun equality => clean (by simp [equality])
      have cleanRest : '\x00' ∉ piece :=
        fun member => clean (List.mem_cons_of_mem _ member)
      rw [List.cons_append, fillFrom]
      split
      next =>
        rw [ih cleanRest]
        simp
      next found =>
        rw [takePlaceholder?_of_ne different] at found
        cases found

/-- A placeholder with a replacement is filled in, and its replacement is not
read again. -/
theorem fillFrom_placeholder
    {replacements : List Text} {index : Nat} {replacement : Text}
    (present : replacements[index]? = some replacement)
    (written rest : Text) :
    fillFrom replacements written (placeholder index ++ rest) =
      fillFrom replacements (replacement.reverse ++ written) rest := by
  have bound : index < replacements.length :=
    (List.getElem?_eq_some_iff.mp present).1
  have short : ¬ (toString replacements.length).length <
      (toString index).toList.length :=
    Nat.not_lt_of_le (Text.length_toString_mono (Nat.le_of_lt bound))
  have found := takePlaceholder?_placeholder index rest
  have shape : placeholder index ++ rest =
      '\x00' :: ((toString index).toList ++ ['\x00'] ++ rest) := rfl
  rw [shape] at found ⊢
  rw [fillFrom]
  split
  next missing =>
    rw [found] at missing
    cases missing
  next digits after taken =>
    rw [found] at taken
    cases taken
    simp only [short, decide_false, Bool.and_false,
      Bool.false_eq_true, if_false, Text.numeralValue_toString, present]

/-- The edits that put replacements in the place of occurrences. -/
def edits (occurrences : List Occurrence)
    (replacements : List Text) : List Edit :=
  List.zipWith (fun occurrence replacement => ⟨occurrence.start,
    occurrence.stop, replacement⟩) occurrences replacements

theorem edits_map
    (occurrences : List Occurrence) (replacement : Occurrence → Text) :
    edits occurrences (occurrences.map replacement) =
      occurrences.map fun occurrence =>
        ⟨occurrence.start, occurrence.stop, replacement occurrence⟩ := by
  rw [edits, List.zipWith_map_right, List.zipWith_self]

/-- The part of a template behind the first `earlier` replacements fills in as a
splice. -/
theorem fillFrom_templateFrom
    {body : Text}
    (clean : '\x00' ∉ body)
    (earlier later : List Text) (occurrences : List Occurrence)
    (counted : later.length = occurrences.length)
    (written : Text) (position : Nat) :
    fillFrom (earlier ++ later) written
        (templateFrom body position earlier.length occurrences) =
      .ok (written.reverse ++ Text.splice body position
        (edits occurrences later)) := by
  induction occurrences generalizing earlier later written position with
  | nil =>
      have cleanRest : '\x00' ∉ body.drop position :=
        fun member => clean (List.mem_of_mem_drop member)
      have copied :
          fillFrom (earlier ++ later) written (body.drop position ++ []) =
            fillFrom (earlier ++ later)
              ((body.drop position).reverse ++ written) [] :=
        fillFrom_append cleanRest written []
      rw [List.append_nil] at copied
      simp [templateFrom, edits, Text.splice, copied, fillFrom]
  | cons occurrence occurrences ih =>
      cases later with
      | nil => simp at counted
      | cons replacement later =>
          have cleanSlice : '\x00' ∉
              Text.slice body ⟨position, occurrence.start⟩ :=
            fun member => clean (Text.mem_of_mem_slice member)
          have present : (earlier ++ replacement :: later)[earlier.length]? =
              some replacement := by
            simp
          have rest :=
            ih (earlier ++ [replacement]) later (by simpa using counted)
              (replacement.reverse ++
                ((Text.slice body ⟨position, occurrence.start⟩).reverse ++
                  written))
              occurrence.stop
          simp only [List.append_assoc, List.singleton_append,
            List.length_append, List.length_singleton] at rest
          simp only [templateFrom, List.append_assoc]
          rw [fillFrom_append cleanSlice, fillFrom_placeholder present, rest]
          simp [edits, Text.splice]

/-- What takes the place of an occurrence: `plain` gives the text for plain
uses, operands of `#` and `##` are used as written. -/
def replacementOf (parameters arguments : List Text) (plain : Nat → Text)
    (occurrence : Occurrence) : Text :=
  let value := (values parameters arguments)[occurrence.parameter]?.getD []
  match occurrence.context with
  | .stringify => stringify value
  | .paste => value
  | .plain => plain occurrence.parameter

theorem apply_eq_fillFrom
    (body : Text) (parameters arguments : List Text) (plain : Nat → Text) :
    apply body parameters arguments plain =
      match fillFrom ((Occurrence.all body parameters).map
        (replacementOf parameters arguments plain)) []
        (templateFrom body 0 0 (Occurrence.all body parameters)) with
      | .ok text => .ok (Paste.apply text)
      | .error error => .error error := rfl

/-- Substitution depends on what takes the places of the occurrences and on
nothing else. -/
theorem apply_congr
    {body : Text} {parameters arguments others : List Text}
    {plain plainOthers : Nat → Text}
    (same : ∀ occurrence ∈ Occurrence.all body parameters,
      replacementOf parameters arguments plain occurrence =
        replacementOf parameters others plainOthers occurrence) :
    apply body parameters arguments plain =
      apply body parameters others plainOthers := by
  rw [apply_eq_fillFrom, apply_eq_fillFrom, List.map_congr_left same]

theorem applyRaw_congr
    {body : Text} {parameters arguments others : List Text}
    (same : values parameters arguments = values parameters others) :
    applyRaw body parameters arguments = applyRaw body parameters others := by
  unfold applyRaw
  apply apply_congr
  intro occurrence _
  simp only [replacementOf, same]

/-- The body with every parameter replaced, before pasting. -/
def replaced (body : Text) (parameters arguments : List Text)
    (plain : Nat → Text) : Text :=
  let occurrences := Occurrence.all body parameters
  Text.splice body 0 (edits occurrences
    (occurrences.map (replacementOf parameters arguments plain)))

/-- Substitution in a body without placeholders of its own always succeeds, and
replaces all parameters at once. -/
theorem apply_eq
    {body : Text}
    (clean : '\x00' ∉ body)
    (parameters arguments : List Text) (plain : Nat → Text) :
    apply body parameters arguments plain =
      .ok (Paste.apply (replaced body parameters arguments plain)) := by
  have filled := fillFrom_templateFrom clean []
    ((Occurrence.all body parameters).map
      (replacementOf parameters arguments plain))
    (Occurrence.all body parameters) (by simp) [] 0
  simp only [List.nil_append, List.length_nil, List.reverse_nil] at filled
  rw [apply_eq_fillFrom, filled]
  rfl

theorem applyRaw_eq
    {body : Text}
    (clean : '\x00' ∉ body)
    (parameters arguments : List Text) :
    applyRaw body parameters arguments =
      .ok (Paste.apply (replaced body parameters arguments
        fun index => (values parameters arguments)[index]?.getD [])) := by
  unfold applyRaw
  exact apply_eq clean parameters arguments _

end Substitution

end MacroTrace
