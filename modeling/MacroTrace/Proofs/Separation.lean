import MacroTrace.Proofs.ArgumentList
import MacroTrace.Proofs.DirectiveNames

/-!
# Separated parts and merged blanks

Cutting a text at a separator, taking what stands in front of a character and
trimming the ends can each change places with merging the blanks of the text.
-/

namespace MacroTrace

namespace Text

theorem splitOn_eq (separator : Char) (text : Text) :
    splitOn separator text = List.splitOn separator text := by
  suffices general : ∀ current,
      splitFrom separator [] current text =
        (List.splitOn separator text).modifyHead (current.reverse ++ ·) by
    have whole := general []
    rwa [List.reverse_nil, show (fun part : Text => [] ++ part) = id from rfl,
      List.modifyHead_id] at whole
  induction text with
  | nil =>
      intro current
      simp [splitFrom]
  | cons c rest ih =>
      intro current
      rw [splitFrom, List.splitOn_cons_eq_if_modifyHead]
      by_cases separates : c = separator
      · rw [if_pos separates, if_pos (beq_iff_eq.mpr separates),
          splitFrom_parts, ih]
        simp [show (fun part : Text => part) = id from rfl]
      · rw [if_neg separates, if_neg (mt beq_iff_eq.mp separates), ih,
          List.modifyHead_modifyHead]
        congr 1
        funext part
        simp

theorem head?_splitOn (separator : Char) (text : Text) :
    (List.splitOn separator text).head? =
      some (text.takeWhile (· ≠ separator)) := by
  rw [← splitOn_eq]
  exact head?_splitFrom separator [] text

theorem not_mem_padded
    {lead name trail : Text}
    (blankLead : ∀ c ∈ lead, isBlank c = true)
    (letters : ∀ c ∈ name, isWordChar c = true)
    (blankTrail : ∀ c ∈ trail, isBlank c = true)
    {c : Char}
    (solid : isBlank c = false)
    (noLetter : isWordChar c = false) :
    c ∉ lead ++ (name ++ trail) := by
  intro member
  rw [List.mem_append, List.mem_append] at member
  rcases member with inLead | inName | inTrail
  · rw [blankLead c inLead] at solid
    cases solid
  · rw [letters c inName] at noLetter
    cases noLetter
  · rw [blankTrail c inTrail] at solid
    cases solid

theorem trimmed_of_letters
    {text : Text}
    (letters : ∀ c ∈ text, isWordChar c = true) :
    Trimmed text where
  first c first :=
    isBlank_of_isWordChar (letters c (List.mem_of_mem_head? first))
  last c last := isBlank_of_isWordChar (letters c (List.mem_of_getLast? last))

theorem beginsApart_blanks
    {blanks rest : Text}
    (allBlank : ∀ c ∈ blanks, isBlank c = true)
    (begins : BeginsApart rest) :
    BeginsApart (blanks ++ rest) := by
  cases blanks with
  | nil => exact begins
  | cons c blanks =>
      intro d first
      cases first
      exact isWordChar_of_isBlank (allBlank c List.mem_cons_self)

theorem trim_of_trimmed
    {lead text trail : Text}
    (blankLead : ∀ c ∈ lead, isBlank c = true)
    (blankTrail : ∀ c ∈ trail, isBlank c = true)
    (trimmed : Trimmed text) :
    trim (lead ++ (text ++ trail)) = text := by
  cases text with
  | nil =>
      rw [trim_eq_nil_iff, isAllBlank_iff, List.nil_append,
        List.forall_mem_append]
      exact ⟨blankLead, blankTrail⟩
  | cons c rest =>
      have left : trimLeft (lead ++ (c :: rest ++ trail)) =
          c :: rest ++ trail := by
        rw [trimLeft, List.dropWhile_append_of_pos blankLead, List.cons_append]
        apply List.dropWhile_cons_of_neg
        rw [trimmed.first c rfl]
        exact Bool.false_ne_true
      obtain ⟨init, d, last⟩ : ∃ init d, c :: rest = init ++ [d] :=
        ⟨_, _, (List.dropLast_concat_getLast (List.cons_ne_nil c rest)).symm⟩
      have ending : (c :: rest).getLast? = some d := by
        rw [last, List.getLast?_concat]
      have gone : trimRight trail = [] := by
        rw [trimRight, List.dropWhile_eq_nil_iff.mpr fun e member =>
          blankTrail e (List.mem_reverse.mp member)]
        rfl
      rw [trim, left, trimRight_append ending (trimmed.last d ending), gone,
        List.append_nil]

section Squeeze

variable {merged : Char → Bool}
  (blank : ∀ c, merged c = true → isBlank c = true)

theorem squeeze_append_cons
    {c : Char}
    (apart : merged c = false)
    (front rest : Text) :
    squeeze merged (front ++ c :: rest) =
      squeeze merged front ++ c :: squeeze merged rest := by
  suffices general : ∀ inRun written,
      squeezeFrom merged inRun written (front ++ c :: rest) =
        squeezeFrom merged inRun written front ++ c ::
          squeeze merged rest from general false []
  induction front with
  | nil =>
      intro inRun written
      have solid : ∀ d ∈ [c], merged d = false :=
        List.forall_mem_singleton.mpr apart
      have cut :=
        squeezeFrom_solid solid (List.cons_ne_nil c []) inRun written rest
      rw [List.nil_append, ← List.singleton_append, cut, squeezeFrom_written]
      simp [squeezeFrom, squeeze]
  | cons d front ih =>
      intro inRun written
      rw [List.cons_append, squeezeFrom, squeezeFrom]
      split
      next => exact ih _ _
      next => exact ih _ _

theorem squeeze_cons
    {c : Char}
    (apart : merged c = false)
    (rest : Text) :
    squeeze merged (c :: rest) = c :: squeeze merged rest :=
  squeeze_append_cons apart [] rest

theorem squeeze_of_solid
    {text : Text}
    (solid : ∀ c ∈ text, merged c = false) :
    squeeze merged text = text := by
  induction text with
  | nil => rfl
  | cons c rest ih =>
      rw [List.forall_mem_cons] at solid
      rw [squeeze_cons solid.1, ih solid.2]

theorem space_mem_squeeze
    {text : Text} {c : Char}
    (member : c ∈ text)
    (merges : merged c = true) :
    ' ' ∈ squeeze merged text := by
  induction text with
  | nil => cases member
  | cons d rest ih =>
      cases mergesFirst : merged d with
      | true =>
          rw [squeeze, squeezeFrom, if_pos mergesFirst, squeezeFrom_written]
          exact List.mem_append_left _ (List.mem_singleton_self _)
      | false =>
          have later : c ∈ rest := by
            rcases List.mem_cons.mp member with rfl | later
            · rw [mergesFirst] at merges
              cases merges
            · exact later
          rw [squeeze_cons mergesFirst]
          exact List.mem_cons_of_mem _ (ih later)

theorem squeeze_ne_nil
    {text : Text}
    (nonempty : text ≠ []) :
    squeeze merged text ≠ [] := by
  obtain ⟨c, rest, rfl⟩ := List.exists_cons_of_ne_nil nonempty
  cases merges : merged c with
  | true =>
      exact List.ne_nil_of_mem (space_mem_squeeze List.mem_cons_self merges)
  | false =>
      rw [squeeze_cons merges]
      exact List.cons_ne_nil _ _

include blank

theorem merged_eq_false
    {c : Char}
    (solid : isBlank c = false) :
    merged c = false := by
  by_contra merges
  have hidden := blank c (by simpa using merges)
  rw [solid] at hidden
  cases hidden

theorem mem_squeeze_iff
    {c : Char}
    (solid : isBlank c = false)
    (text : Text) :
    c ∈ squeeze merged text ↔ c ∈ text := by
  have visible (other : Text) : c ∈ other.filter (!isBlank ·) ↔ c ∈ other := by
    simp [solid]
  rw [← visible, squeeze, filter_squeezeFrom blank, List.reverse_nil,
    List.nil_append, visible]

theorem splitOn_squeeze
    {separator : Char}
    (solid : isBlank separator = false)
    (text : Text) :
    List.splitOn separator (squeeze merged text) =
      (List.splitOn separator text).map (squeeze merged) := by
  -- A separator is not blank, so no run of blanks reaches over it.
  have joined (parts : List Text) :
      squeeze merged ([separator].intercalate parts) =
        [separator].intercalate (parts.map (squeeze merged)) := by
    induction parts with
    | nil => rfl
    | cons part parts ih =>
        cases parts with
        | nil => simp
        | cons other parts =>
            rw [List.map_cons] at ih
            rw [List.intercalate_cons_cons, List.append_assoc,
              List.singleton_append,
              squeeze_append_cons (merged_eq_false blank solid), ih,
              List.map_cons, List.map_cons, List.intercalate_cons_cons,
              List.append_assoc, List.singleton_append]
  rw [← @List.intercalate_splitOn Char text _ _ separator, joined,
    List.intercalate_splitOn]
  apply List.splitOn_intercalate
  · intro part member
    obtain ⟨before, among, rfl⟩ := List.mem_map.mp member
    rw [mem_squeeze_iff blank solid]
    exact List.not_mem_of_mem_splitOn among
  · simp [List.splitOn_ne_nil]

theorem takeWhile_squeeze
    {stop : Char}
    (solid : isBlank stop = false)
    (text : Text) :
    (squeeze merged text).takeWhile (· ≠ stop) =
      squeeze merged (text.takeWhile (· ≠ stop)) := by
  have heads := congrArg List.head? (splitOn_squeeze blank solid text)
  rw [List.head?_map, head?_splitOn, head?_splitOn] at heads
  exact Option.some.inj heads

theorem isBlank_of_mem_squeeze
    {blanks : Text}
    (allBlank : ∀ c ∈ blanks, isBlank c = true) :
    ∀ c ∈ squeeze merged blanks, isBlank c = true := by
  intro c member
  by_contra solid
  rw [Bool.not_eq_true] at solid
  rw [mem_squeeze_iff blank solid] at member
  rw [allBlank c member] at solid
  cases solid

theorem squeeze_append_of_head
    {rest : Text}
    (first : ∀ c, rest.head? = some c → isBlank c = false)
    (front : Text) :
    squeeze merged (front ++ rest) =
      squeeze merged front ++ squeeze merged rest := by
  cases rest with
  | nil => simp [squeeze, squeezeFrom]
  | cons c rest =>
      have apart := merged_eq_false blank (first c rfl)
      rw [squeeze_append_cons apart, squeeze_cons apart]

theorem squeeze_append_of_getLast
    {front : Text}
    (last : ∀ c, front.getLast? = some c → isBlank c = false)
    (rest : Text) :
    squeeze merged (front ++ rest) =
      squeeze merged front ++ squeeze merged rest := by
  rcases List.eq_nil_or_concat front with rfl | ⟨init, c, rfl⟩
  · rfl
  · rw [List.concat_eq_append] at last ⊢
    have apart := merged_eq_false blank (last c List.getLast?_concat)
    rw [List.append_assoc, List.singleton_append, squeeze_append_cons apart,
      squeeze_append_cons apart init []]
    simp [squeeze, squeezeFrom]

theorem trimmed_squeeze
    {text : Text}
    (trimmed : Trimmed text) :
    Trimmed (squeeze merged text) := by
  constructor
  · intro c first
    cases text with
    | nil => cases first
    | cons d rest =>
        have solid := trimmed.first d rfl
        rw [squeeze_cons (merged_eq_false blank solid)] at first
        cases first
        exact solid
  · intro c last
    rcases List.eq_nil_or_concat text with rfl | ⟨init, d, rfl⟩
    · cases last
    · rw [List.concat_eq_append] at trimmed last
      have solid := trimmed.last d List.getLast?_concat
      rw [squeeze_append_cons (merged_eq_false blank solid)] at last
      have ending : (squeeze merged init ++ [d]).getLast? = some c := last
      rw [List.getLast?_concat] at ending
      cases ending
      exact solid

/-- Trimming and merging blanks can change places. -/
theorem trim_squeeze (text : Text) :
    trim (squeeze merged text) = squeeze merged (trim text) := by
  obtain ⟨trail, blankTrail, shape⟩ := exists_trim_append text
  rw [isAllBlank_iff] at blankTrail
  have blankLead : ∀ c ∈ text.takeWhile isBlank, isBlank c = true :=
    fun _ member => List.mem_takeWhile_imp member
  have trimmed := trimmed_trim text
  generalize text.takeWhile isBlank = lead at shape blankLead
  generalize trim text = inner at shape trimmed
  subst shape
  cases inner with
  | nil =>
      rw [show squeeze merged [] = [] from rfl, trim_eq_nil_iff, isAllBlank_iff]
      apply isBlank_of_mem_squeeze blank
      rw [List.nil_append, List.forall_mem_append]
      exact ⟨blankLead, blankTrail⟩
  | cons c rest =>
      have first : ∀ d, (c :: rest ++ trail).head? = some d →
          isBlank d = false := trimmed.first
      rw [squeeze_append_of_head blank first,
        squeeze_append_of_getLast blank trimmed.last]
      exact trim_of_trimmed (isBlank_of_mem_squeeze blank blankLead)
        (isBlank_of_mem_squeeze blank blankTrail)
        (trimmed_squeeze blank trimmed)

end Squeeze

theorem isWordChar_of_isMacroName
    {name : Text}
    (named : isMacroName name = true) :
    ∀ c ∈ name, isWordChar c = true := by
  have letter {c : Char}
      (allowed : (isUpper c || isAsciiDigit c || c == '_') = true) :
      isWordChar c = true := by
    simp only [isUpper, isAsciiDigit, Bool.or_eq_true, Bool.and_eq_true,
      decide_eq_true_eq, beq_iff_eq] at allowed
    have low : c.toNat < 128 := by
      rcases allowed with (⟨_, le⟩ | ⟨_, le⟩) | rfl
      · exact Nat.lt_of_le_of_lt le (by decide)
      · exact Nat.lt_of_le_of_lt le (by decide)
      · decide
    rw [isWordChar, if_pos low]
    rcases allowed with (upper | digit) | rfl
    · simp [isAsciiLetter, isUpper, upper]
    · simp [isAsciiDigit, digit]
    · rfl
  cases name with
  | nil => cases named
  | cons c rest =>
      rw [isMacroName, Bool.and_eq_true, Bool.or_eq_true,
        List.all_eq_true] at named
      rw [List.forall_mem_cons]
      refine ⟨letter ?_, fun d member => letter (named.2 d member)⟩
      rcases named.1 with upper | underscore
      · rw [upper, Bool.true_or, Bool.true_or]
      · rw [underscore, Bool.or_true]

end Text

end MacroTrace
