import MacroTrace.Proofs.OverlookedLines

/-!
# Names of directives

A line defines a name if it is a hash, the keyword and the name, with blanks
around the hash and between the last two.  Merging and trimming the blanks of
the line changes nothing about that, and neither does what is joined to it
behind a space, so the name can be read from the first line of a definition
alone.
-/

namespace MacroTrace

namespace Text

theorem BeginsApart.append
    {front back : Text}
    (begins : BeginsApart front)
    (beginsBack : BeginsApart back) :
    BeginsApart (front ++ back) := by
  cases front with
  | nil => exact beginsBack
  | cons c front => exact begins

theorem BeginsApart.of_append
    {front back : Text}
    (begins : BeginsApart (front ++ back)) :
    BeginsApart front := by
  cases front with
  | nil => nofun
  | cons c front => exact begins

theorem EndsApart.append
    {front back : Text}
    (ends : EndsApart front)
    (endsBack : EndsApart back) :
    EndsApart (front ++ back) := by
  intro c last
  rw [List.getLast?_append] at last
  cases final : back.getLast? with
  | none =>
      rw [final, Option.none_or] at last
      exact ends c last
  | some d =>
      rw [final, Option.some_or] at last
      exact endsBack c (final.trans last)

theorem EndsApart.of_append
    {front back : Text}
    (ends : EndsApart (front ++ back)) :
    EndsApart back := by
  intro c last
  apply ends c
  rw [List.getLast?_append, last]
  rfl

section Squeeze

variable {merged : Char → Bool}

theorem squeezeFrom_written (inRun : Bool) (written text : Text) :
    squeezeFrom merged inRun written text =
      written.reverse ++ squeezeFrom merged inRun [] text := by
  induction text generalizing inRun written with
  | nil => simp [squeezeFrom]
  | cons c rest ih =>
      simp only [squeezeFrom]
      split
      next =>
        cases inRun with
        | true => exact ih true written
        | false =>
            rw [if_neg (by decide), if_neg (by decide), ih, ih true [' ']]
            simp
      next =>
        rw [ih, ih false [c]]
        simp

theorem squeezeFrom_solid
    {solid : Text}
    (free : ∀ c ∈ solid, merged c = false)
    (nonempty : solid ≠ [])
    (inRun : Bool) (written rest : Text) :
    squeezeFrom merged inRun written (solid ++ rest) =
      squeezeFrom merged false (solid.reverse ++ written) rest := by
  induction solid generalizing inRun written with
  | nil => exact absurd rfl nonempty
  | cons c solid ih =>
      rw [List.forall_mem_cons] at free
      rw [List.cons_append, squeezeFrom, if_neg (by simp [free.1])]
      cases solid with
      | nil => rfl
      | cons d solid =>
          rw [ih free.2 (List.cons_ne_nil d solid)]
          simp

/-- Blanks are merged into blanks, at least one if there were any. -/
theorem exists_squeezeFrom_blanks
    {blanks : Text}
    (allBlank : ∀ c ∈ blanks, isBlank c = true)
    (inRun : Bool) (written rest : Text) :
    ∃ fewer inRun',
      squeezeFrom merged inRun written (blanks ++ rest) =
          squeezeFrom merged inRun' (fewer.reverse ++ written) rest ∧
        (∀ c ∈ fewer, isBlank c = true) ∧
        (inRun = false → blanks ≠ [] → fewer ≠ []) := by
  induction blanks generalizing inRun written with
  | nil => exact ⟨[], inRun, rfl, allBlank, fun _ some => absurd rfl some⟩
  | cons c blanks ih =>
      rw [List.forall_mem_cons] at allBlank
      rw [List.cons_append, squeezeFrom]
      split
      next =>
        obtain ⟨fewer, inRun', shape, blankFewer, -⟩ :=
          ih allBlank.2 true (if inRun then written else ' ' :: written)
        cases inRun with
        | true => exact ⟨fewer, inRun', shape, blankFewer, by simp⟩
        | false =>
            refine ⟨' ' :: fewer, inRun', ?_,
              List.forall_mem_cons.mpr ⟨rfl, blankFewer⟩, ?_⟩
            · simpa using shape
            · intro _ _
              exact List.cons_ne_nil _ _
      next =>
        obtain ⟨fewer, inRun', shape, blankFewer, -⟩ :=
          ih allBlank.2 false (c :: written)
        refine ⟨c :: fewer, inRun', ?_,
          List.forall_mem_cons.mpr ⟨allBlank.1, blankFewer⟩, ?_⟩
        · simpa using shape
        · intro _ _
          exact List.cons_ne_nil _ _

theorem exists_squeeze_append
    {blanks solid : Text}
    (allBlank : ∀ c ∈ blanks, isBlank c = true)
    (free : ∀ c ∈ solid, merged c = false)
    (nonempty : solid ≠ [])
    (rest : Text) :
    ∃ fewer,
      squeeze merged (blanks ++ (solid ++ rest)) =
        fewer ++ (solid ++ squeeze merged rest) ∧
        (∀ c ∈ fewer, isBlank c = true) ∧
        (blanks ≠ [] → fewer ≠ []) := by
  obtain ⟨fewer, inRun, shape, blankFewer, some⟩ :=
    exists_squeezeFrom_blanks allBlank false [] (solid ++ rest)
  refine ⟨fewer, ?_, blankFewer, some rfl⟩
  rw [squeeze, shape, squeezeFrom_solid free nonempty, squeezeFrom_written]
  simp [squeeze]

theorem beginsApart_squeeze
    {rest : Text}
    (begins : BeginsApart rest) :
    BeginsApart (squeeze merged rest) := by
  cases rest with
  | nil => nofun
  | cons c rest =>
      rw [squeeze, squeezeFrom]
      split
      next =>
        rw [squeezeFrom_written]
        intro d first
        cases first
        rfl
      next =>
        rw [squeezeFrom_written]
        intro d first
        cases first
        exact begins c rfl

end Squeeze

end Text

namespace Definition

/-- The parts of a line that defines a name. -/
structure NameParts (line before between gap name rest : Text) : Prop where
  shape : line =
    before ++ '#' :: (between ++ ("define".toList ++ (gap ++ (name ++ rest))))
  blank : ∀ c ∈ before ++ (between ++ gap), Text.isBlank c = true
  gapped : gap ≠ []
  named : Text.isIdentifier name = true
  ends : Text.BeginsApart rest

def Names (line name : Text) : Prop :=
  ∃ before between gap rest, NameParts line before between gap name rest

theorem exists_gap_of_afterKeyword?
    {keyword text found : Text}
    (after : afterKeyword? keyword text = some found) :
    ∃ gap, text = keyword ++ (gap ++ found) ∧ gap ≠ [] ∧ ∀ c ∈ gap,
      Text.isBlank c = true := by
  unfold afterKeyword? at after
  split at after
  next starts =>
    obtain ⟨behind, rfl⟩ := List.isPrefixOf_iff_prefix.mp starts
    rw [List.drop_left] at after
    split at after
    next c rest =>
      obtain ⟨blank, found⟩ := Option.ite_none_right_eq_some.mp after
      cases found
      refine ⟨c :: rest.takeWhile Text.isBlank, ?_, List.cons_ne_nil _ _, ?_⟩
      · rw [List.cons_append, Text.trimLeft_append]
      · rw [List.forall_mem_cons]
        exact ⟨blank, fun _ member => List.mem_takeWhile_imp member⟩
    next => cases after
  next => cases after

theorem names_of_directive?
    {line name rest : Text}
    (directive : directive? line = some (name, rest)) :
    Names line name := by
  unfold directive? at directive
  split at directive
  next behind hash =>
    split at directive
    next found keyword =>
      obtain ⟨first, directive⟩ := Option.ite_none_right_eq_some.mp directive
      obtain ⟨gap, shape, gapped, blankGap⟩ :=
        exists_gap_of_afterKeyword? keyword
      cases directive
      refine ⟨line.takeWhile Text.isBlank, behind.takeWhile Text.isBlank, gap,
        found.dropWhile Text.isWordChar, ?_⟩
      constructor
      case shape =>
        rw [List.takeWhile_append_dropWhile, ← shape,
          Text.trimLeft_append, ← hash, Text.trimLeft_append]
      case blank =>
        rw [List.forall_mem_append, List.forall_mem_append]
        exact ⟨fun _ member => List.mem_takeWhile_imp member,
          fun _ member => List.mem_takeWhile_imp member, blankGap⟩
      case gapped => exact gapped
      case named =>
        cases found with
        | nil => cases first
        | cons c found =>
            have letter := Text.isWordChar_of_isIdentifierStart first
            rw [List.takeWhile_cons_of_pos letter, Text.isIdentifier,
              Bool.and_eq_true]
            refine ⟨first, List.all_eq_true.mpr ?_⟩
            rw [List.forall_mem_cons]
            exact ⟨letter, fun _ member => List.mem_takeWhile_imp member⟩
      case ends => exact Text.beginsApart_dropWhile found
    next => cases directive
  next => cases directive

namespace Names

variable {line name : Text}

theorem exists_directive?
    (names : Names line name) :
    ∃ rest, directive? line = some (name, rest) := by
  obtain ⟨before, between, gap, rest, parts⟩ := names
  refine ⟨rest, ?_⟩
  rw [parts.shape]
  exact directive?_append parts.blank parts.gapped parts.named parts.ends

theorem append
    (names : Names line name)
    {more : Text}
    (begins : Text.BeginsApart more) :
    Names (line ++ more) name := by
  obtain ⟨before, between, gap, rest, parts⟩ := names
  refine ⟨before, between, gap, rest ++ more, ?_, parts.blank, parts.gapped,
    parts.named, ?_⟩
  · rw [parts.shape]
    simp
  · exact parts.ends.append begins

theorem squeeze
    {merged : Char → Bool}
    (blank : ∀ c, merged c = true → Text.isBlank c = true)
    (names : Names line name) :
    Names (Text.squeeze merged line) name := by
  have solid {text : Text} (visible : ∀ c ∈ text, Text.isBlank c = false) :
      ∀ c ∈ text, merged c = false := by
    intro c member
    by_contra merges
    have hidden := blank c (by simpa using merges)
    rw [visible c member] at hidden
    cases hidden
  obtain ⟨before, between, gap, rest, parts⟩ := names
  obtain ⟨blankBefore, blankBetween, blankGap⟩ :
      (∀ c ∈ before, Text.isBlank c = true) ∧
        (∀ c ∈ between, Text.isBlank c = true) ∧
        ∀ c ∈ gap, Text.isBlank c = true := by
    simpa only [List.forall_mem_append] using parts.blank
  have letters {word : Text} (identifier : Text.isIdentifier word = true) :
      ∀ c ∈ word, Text.isBlank c = false := fun c member =>
    Text.isBlank_of_isWordChar
      (Text.isWordChar_of_isIdentifier identifier c member)
  -- Each of the three solid parts ends the run of blanks in front of it.
  obtain ⟨before', hash, blankBefore', -⟩ :=
    Text.exists_squeeze_append blankBefore
      (solid (List.forall_mem_singleton.mpr rfl)) (List.cons_ne_nil '#' [])
      (between ++ ("define".toList ++ (gap ++ (name ++ rest))))
  obtain ⟨between', keyword, blankBetween', -⟩ :=
    Text.exists_squeeze_append blankBetween
      (solid (@letters "define".toList (by decide))) (by decide)
      (gap ++ (name ++ rest))
  obtain ⟨gap', spelled, blankGap', gapped⟩ :=
    Text.exists_squeeze_append blankGap
      (solid (letters parts.named))
      (Text.ne_nil_of_isIdentifier parts.named) rest
  refine ⟨before', between', gap', Text.squeeze merged rest, ?_, ?_, ?_,
    parts.named, ?_⟩
  · rw [keyword, spelled] at hash
    rw [parts.shape]
    exact hash
  · simpa only [List.forall_mem_append]
      using ⟨blankBefore', blankBetween', blankGap'⟩
  · exact gapped parts.gapped
  · exact Text.beginsApart_squeeze parts.ends

theorem trim
    (names : Names line name) :
    Names (Text.trim line) name := by
  obtain ⟨before, between, gap, rest, parts⟩ := names
  obtain ⟨blankBefore, blankInside⟩ := List.forall_mem_append.mp parts.blank
  obtain ⟨init, c, spelled⟩ : ∃ init c, name = init ++ [c] :=
    ⟨_, _,
      (List.dropLast_concat_getLast
        (Text.ne_nil_of_isIdentifier parts.named)).symm⟩
  have solid : Text.isBlank c = false := by
    apply Text.isBlank_of_isWordChar
    apply Text.isWordChar_of_isIdentifier parts.named
    simp [spelled]
  have left : Text.trimLeft line =
      ('#' :: (between ++ ("define".toList ++ (gap ++ name)))) ++ rest := by
    rw [parts.shape, Text.trimLeft, List.dropWhile_append_of_pos blankBefore,
      List.dropWhile_cons_of_neg (by decide)]
    simp only [List.cons_append, List.append_assoc]
  have last :
      ('#' :: (between ++ ("define".toList ++ (gap ++ name)))).getLast? =
        some c := by
    rw [spelled]
    simp only [← List.append_assoc, ← List.cons_append, List.getLast?_concat]
  obtain ⟨blanks, -, shape⟩ := Text.exists_trimRight_append rest
  refine ⟨[], between, gap, Text.trimRight rest, ?_, blankInside, parts.gapped,
    parts.named, ?_⟩
  · rw [Text.trim, left, Text.trimRight_append last solid]
    simp only [List.nil_append, List.cons_append, List.append_assoc]
  · apply Text.BeginsApart.of_append
    rw [← shape]
    exact parts.ends

theorem tidy
    (names : Names line name) :
    Names (LineQueue.tidy line) name :=
  (names.squeeze fun _ gap => Text.isBlank_of_gap gap).trim

/-- The name is a word of the line. -/
theorem exists_apart
    (names : Names line name) :
    Text.isIdentifier name = true ∧
      ∃ front rest,
        line = front ++ (name ++ rest) ∧ Text.EndsApart front ∧
          Text.BeginsApart rest := by
  obtain ⟨before, between, gap, rest, parts⟩ := names
  obtain ⟨init, c, rfl⟩ : ∃ init c, gap = init ++ [c] :=
    ⟨_, _, (List.dropLast_concat_getLast parts.gapped).symm⟩
  refine ⟨parts.named,
    before ++ '#' :: (between ++ ("define".toList ++ (init ++ [c]))), rest, ?_,
    ?_, parts.ends⟩
  · rw [parts.shape]
    simp only [List.cons_append, List.append_assoc]
  · intro d last
    simp only [← List.append_assoc, ← List.cons_append, List.getLast?_concat,
      Option.mem_some_iff] at last
    subst last
    exact Text.isWordChar_of_isBlank (parts.blank c (by simp))

end Names

end Definition

end MacroTrace
