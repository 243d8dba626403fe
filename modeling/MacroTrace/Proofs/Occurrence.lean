import MacroTrace.Proofs.Extent
import MacroTrace.Proofs.Splice

/-!
# Occurrences of parameters

The occurrences of parameters in a body are disjoint and in order, and in a
well-formed body each of them stands in code.  Substitution therefore turns a
well-formed body and well-formed arguments into a well-formed text.
-/

namespace MacroTrace

namespace Text

/-- The code points of the blank characters. -/
private def blankCodes : List Nat :=
  List.range' 9 5 ++ List.range' 28 5 ++ List.range' 0x2000 11 ++
    [0x85, 0xA0, 0x1680, 0x2028, 0x2029, 0x202F, 0x205F, 0x3000]

private theorem toNat_mem_blankCodes
    {c : Char}
    (blank : isBlank c = true) :
    c.toNat ∈ blankCodes := by
  simp only [isBlank, Bool.or_eq_true, Bool.and_eq_true, decide_eq_true_eq,
    beq_iff_eq] at blank
  simp only [blankCodes, List.mem_append, List.mem_range'_1, List.mem_cons,
    List.not_mem_nil]
  omega

theorem isBlank_of_isWordChar
    {c : Char}
    (isWord : isWordChar c = true) :
    isBlank c = false := by
  have noWord : ∀ code ∈ blankCodes, isWordChar (Char.ofNat code) = false := by
    decide +kernel
  by_contra blank
  rw [Bool.not_eq_false] at blank
  have absent := noWord c.toNat (toNat_mem_blankCodes blank)
  rw [Char.ofNat_toNat, isWord] at absent
  cases absent

theorem isWordChar_of_isBlank
    {c : Char}
    (blank : isBlank c = true) :
    isWordChar c = false := by
  by_contra isWord
  rw [Bool.not_eq_false] at isWord
  rw [isBlank_of_isWordChar isWord] at blank
  cases blank

theorem isLineBreak_of_isWordChar
    {c : Char}
    (isWord : isWordChar c = true) :
    isLineBreak c = false := by
  by_contra breaks
  simp only [isLineBreak, Bool.not_eq_false, Bool.or_eq_true,
    beq_iff_eq] at breaks
  rcases breaks with rfl | rfl <;> exact absurd isWord (by decide)

/-- Blanks are trimmed up to the last character that is not blank. -/
theorem trimRight_append
    {front : Text} {c : Char}
    (last : front.getLast? = some c)
    (solid : isBlank c = false)
    (rest : Text) :
    trimRight (front ++ rest) = front ++ trimRight rest := by
  obtain ⟨shorter, rfl⟩ := List.getLast?_eq_some_iff.mp last
  simp only [trimRight, List.reverse_append, List.reverse_cons,
    List.reverse_nil, List.nil_append, List.singleton_append,
    List.dropWhile_append]
  split
  next empty =>
    rw [List.isEmpty_iff.mp empty, List.dropWhile_cons_of_neg (by simp [solid])]
    simp
  next => simp

/-- A text without blanks at its ends. -/
structure Trimmed (text : Text) : Prop where
  first : ∀ c, text.head? = some c → isBlank c = false
  last : ∀ c, text.getLast? = some c → isBlank c = false

theorem Trimmed.trimLeft_eq
    {text : Text}
    (trimmed : Trimmed text) :
    trimLeft text = text := by
  cases text with
  | nil => rfl
  | cons c rest =>
      apply List.dropWhile_cons_of_neg
      rw [trimmed.first c rfl]
      exact Bool.false_ne_true

theorem Trimmed.trimRight_eq
    {text : Text}
    (trimmed : Trimmed text) :
    trimRight text = text := by
  cases ending : text.getLast? with
  | none =>
      rw [List.getLast?_eq_none_iff.mp ending]
      rfl
  | some c =>
      have right := trimRight_append ending (trimmed.last c ending) []
      rwa [List.append_nil, show trimRight [] = [] from rfl,
        List.append_nil] at right

theorem Trimmed.trim_eq
    {text : Text}
    (trimmed : Trimmed text) :
    trim text = text := by
  rw [trim, trimmed.trimLeft_eq, trimmed.trimRight_eq]

theorem head?_dropWhile_isBlank
    {text : Text} {c : Char}
    (head : (text.dropWhile isBlank).head? = some c) :
    isBlank c = false := by
  have solid := List.head?_dropWhile_not isBlank text
  rw [head] at solid
  exact solid

theorem trimmed_trim (text : Text) : Trimmed (trim text) := by
  constructor
  · intro c head
    obtain ⟨blanks, _, shape⟩ := exists_trimRight_append (trimLeft text)
    have whole : (trimLeft text).head? = some c := by
      obtain ⟨rest, begins⟩ := List.head?_eq_some_iff.mp head
      rw [shape, ← trim, begins]
      rfl
    exact head?_dropWhile_isBlank whole
  · intro c last
    rw [trim, trimRight, List.getLast?_reverse] at last
    exact head?_dropWhile_isBlank last

theorem trim_cons_of_solid
    {c : Char}
    (solid : isBlank c = false)
    (rest : Text) :
    trim (c :: rest) = c :: trimRight rest := by
  have left : trimLeft (c :: rest) = c :: rest := by
    apply List.dropWhile_cons_of_neg
    rw [solid]
    exact Bool.false_ne_true
  rw [trim, left]
  exact trimRight_append (List.getLast?_singleton) solid rest

end Text

namespace Word

/-- Where a word stands in a text. -/
structure Stands (text : Text) (word : Word) : Prop where
  split : ∃ front, text = front ++ (word.spelling ++ word.after) ∧
    word.start = front.length
  letters : ∀ c ∈ word.spelling, Text.isWordChar c = true
  nonempty : word.spelling ≠ []

theorem stands_of_mem_stream
    {before : Text} {inWord : Bool} {text : Text} {word : Word}
    (member : word ∈ stream before before.length inWord text) :
    Stands (before.reverse ++ text) word := by
  induction text generalizing before inWord with
  | nil => cases member
  | cons c rest ih =>
      have later
          (member : word ∈
            stream (c :: before) (before.length + 1) (Text.isWordChar c) rest) :
          Stands (before.reverse ++ c :: rest) word := by
        have stands := @ih (c :: before) (Text.isWordChar c) member
        rwa [List.reverse_cons, List.append_assoc,
          List.singleton_append] at stands
      simp only [stream] at member
      split at member
      next starts =>
        rcases List.mem_cons.mp member with rfl | member
        · simp only [Bool.and_eq_true, Bool.not_eq_true'] at starts
          refine ⟨⟨before.reverse, ?_, by simp⟩, ?_, ?_⟩
          · simp only [List.takeWhile_append_dropWhile]
          · intro d member
            exact List.mem_takeWhile_imp member
          · simp [starts.2]
        · exact later member
      next => exact later member

theorem start_of_mem_stream
    {before : Text} {offset : Nat} {inWord : Bool} {text : Text} {word : Word}
    (member : word ∈ stream before offset inWord text) :
    offset + (if inWord then (text.takeWhile Text.isWordChar).length else 0) ≤
      word.start := by
  induction text generalizing before offset inWord with
  | nil => cases member
  | cons c rest ih =>
      have later (member : word ∈
          stream (c :: before) (offset + 1) (Text.isWordChar c) rest) :
          offset + (if inWord then
              ((c :: rest).takeWhile Text.isWordChar).length else 0) ≤
            word.start := by
        have bound := ih member
        cases isWord : Text.isWordChar c with
        | false =>
            simp only [isWord] at bound ⊢
            simp [isWord]
            omega
        | true =>
            simp only [isWord, if_true] at bound ⊢
            simp only [List.takeWhile_cons, isWord, if_true, List.length_cons]
            split <;> omega
      simp only [stream] at member
      split at member
      next starts =>
        rcases List.mem_cons.mp member with rfl | member
        · simp only [Bool.and_eq_true, Bool.not_eq_true'] at starts
          simp [starts.1]
        · exact later member
      next => exact later member

theorem pairwise_stream
    (before : Text) (offset : Nat) (inWord : Bool) (text : Text) :
    (stream before offset inWord text).Pairwise fun first second =>
      first.stop ≤ second.start := by
  induction text generalizing before offset inWord with
  | nil => exact .nil
  | cons c rest ih =>
      simp only [stream]
      split
      next starts =>
        simp only [Bool.and_eq_true, Bool.not_eq_true'] at starts
        refine List.pairwise_cons.mpr ⟨?_, ih _ _ _⟩
        intro second member
        rw [starts.2] at member
        have bound := start_of_mem_stream member
        simp only [if_true] at bound
        simp only [stop, List.takeWhile_cons, starts.2, if_true,
          List.length_cons]
        omega
      next => exact ih _ _ _

theorem stands_of_mem_all
    {text : Text} {word : Word}
    (member : word ∈ all text) :
    Stands text word := by
  rw [all_eq_stream] at member
  have empty : ([] : Text).length = 0 := rfl
  rw [← empty] at member
  exact stands_of_mem_stream member

theorem stands_of_mem_identifiers
    {text : Text} {word : Word}
    (member : word ∈ identifiers text) :
    Stands text word :=
  stands_of_mem_all (List.mem_of_mem_filter member)

theorem pairwise_identifiers (text : Text) :
    (identifiers text).Pairwise fun first second =>
      first.stop ≤ second.start := by
  unfold identifiers
  rw [all_eq_stream]
  exact (pairwise_stream [] 0 false text).filter _

end Word

namespace Occurrence

theorem getLast?_of_stringify
    {before after : Text}
    (stringified : contextOf before after = .stringify) :
    before.getLast? = some '#' := by
  unfold contextOf at stringified
  split at stringified
  · cases stringified
  · split at stringified
    next hash => exact hash
    next => cases stringified

/-- An identifier of a well-formed text that no literal covers stands in
code. -/
theorem walk?_of_uncovered
    {body front : Text}
    (formed : WellFormed body)
    {word : Word}
    (shape : body = front ++ (word.spelling ++ word.after))
    (start : word.start = front.length)
    (identifier : word.isIdentifier = true)
    (uncovered : Span.covered (Literal.spans body) word.start = false) :
    ∃ depth, (Place.code 0).walk? front = some (Place.code depth) := by
  unfold Word.isIdentifier at identifier
  cases spelled : word.spelling with
  | nil => simp [spelled] at identifier
  | cons c rest =>
      rw [spelled, List.cons_append] at shape
      have walked := formed.walk? 0
      rw [shape] at walked
      obtain ⟨⟨scan, depth⟩, before, _⟩ := Place.exists_of_walk?_append walked
      have scanned : scan = Literal.Scan.code.run front :=
        Place.scan_of_walk? before
      rw [start, shape, Literal.covered_spans, ← scanned] at uncovered
      have first : Text.isIdentifierStart c = true := by
        simpa [spelled] using identifier
      obtain rfl := Invocation.scan_eq_code_of_start first uncovered
      exact ⟨depth, before⟩

theorem neutral_ofWord
    {body : Text}
    (formed : WellFormed body)
    {word : Word}
    (stands : Word.Stands body word)
    (identifier : word.isIdentifier = true)
    (uncovered : Span.covered (Literal.spans body) word.start = false)
    (parameter : Nat) :
    body.Neutral (ofWord body parameter word).start
      (ofWord body parameter word).stop := by
  obtain ⟨front, shape, start⟩ := stands.split
  obtain ⟨depth, before⟩ :=
    walk?_of_uncovered formed shape start identifier uncovered
  have letters : ∀ c ∈ word.spelling, Place.isInert c = true :=
    fun c member => Text.isInert_of_isWordChar (stands.letters c member)
  have taken : body.take word.start = front := by
    rw [shape, start, List.take_left]
  have stop : word.stop = front.length + word.spelling.length := by
    rw [Word.stop, start]
  simp only [ofWord, taken, stop]
  split
  next stringified =>
    -- The extent begins at the hash, with blanks between it and the word.
    obtain ⟨shorter, hashed⟩ :=
      List.getLast?_eq_some_iff.mp (getLast?_of_stringify stringified)
    obtain ⟨blanks, blank, trimmed⟩ := Text.exists_trimRight_append front
    rw [hashed, List.append_assoc, List.singleton_append] at trimmed
    have inert : ∀ c ∈ '#' :: blanks, Place.isInert c = true := by
      intro c member
      rcases List.mem_cons.mp member with rfl | member
      · decide
      · exact Text.isInert_of_isBlank (blank c member)
    rw [trimmed] at before
    obtain ⟨place, reached, onward⟩ := Place.exists_of_walk?_append before
    have genuine : place.scan.Genuine := by
      have started : Literal.Scan.code.Genuine := trivial
      rw [Place.scan_of_walk? reached]
      exact started.run shorter
    rw [Place.eq_of_walk?_inert inert genuine onward] at reached
    have through : (Place.code depth).walk? ('#' :: blanks ++ word.spelling) =
        some (Place.code depth) := by
      rw [Place.walk?_append_of_eq_some (Place.walk?_code_of_inert inert depth)]
      exact Place.walk?_code_of_inert letters depth
    have neutral := Text.Neutral.of_append reached through word.after
    have whole : shorter ++ ('#' :: blanks ++ word.spelling ++ word.after) =
        body := by
      rw [shape]
      conv => rhs; rw [trimmed]
      simp
    have length : shorter.length + ('#' :: blanks ++ word.spelling).length =
        front.length + word.spelling.length := by
      conv => rhs; rw [trimmed]
      simp only [List.length_append]
      omega
    rw [whole, length] at neutral
    have begins : (Text.trimRight front).length - 1 = shorter.length := by
      rw [hashed, List.length_append, List.length_singleton]
      rfl
    rwa [begins]
  next =>
    have neutral :=
      Text.Neutral.of_append before
        (Place.walk?_code_of_inert letters depth) word.after
    rw [start]
    rwa [← shape] at neutral

theorem neutral_of_mem_all
    {body : Text}
    (formed : WellFormed body)
    {parameters : List Text} {occurrence : Occurrence}
    (member : occurrence ∈ all body parameters) :
    body.Neutral occurrence.start occurrence.stop := by
  obtain ⟨word, found, made⟩ := List.mem_filterMap.mp member
  have identifier : word.isIdentifier = true := (List.mem_filter.mp found).2
  split at made
  next => cases made
  next index _ =>
    split at made
    next => cases made
    next uncovered =>
      cases made
      exact neutral_ofWord formed
        (Word.stands_of_mem_identifiers found) identifier
        (by simpa using uncovered) index

theorem stop_le_start_ofWord
    {body : Text} {first second : Word}
    (stands : Word.Stands body first)
    (order : first.stop ≤ second.start)
    (left right : Nat) :
    (ofWord body left first).stop ≤ (ofWord body right second).start := by
  simp only [ofWord]
  split
  next stringified =>
    -- The hash stands behind the last letter of the first word.
    obtain ⟨front, shape, start⟩ := stands.split
    have hash := getLast?_of_stringify stringified
    have stop : first.stop = (front ++ first.spelling).length := by
      rw [Word.stop, start, List.length_append]
    have taken : body.take second.start = front ++ first.spelling ++
        first.after.take (second.start - first.stop) := by
      rw [shape, ← List.append_assoc, List.take_append,
        List.take_of_length_le (by omega), stop]
    obtain ⟨letter, lastLetter⟩ : ∃ letter,
        first.spelling.getLast? = some letter :=
      List.getLast?_isSome.mpr stands.nonempty |> Option.isSome_iff_exists.mp
    have isWord := stands.letters letter (List.mem_of_getLast? lastLetter)
    have last : (front ++ first.spelling).getLast? = some letter := by
      rw [List.getLast?_append, lastLetter]
      rfl
    rw [taken, Text.trimRight_append last (Text.isBlank_of_isWordChar isWord)]
      at hash ⊢
    cases gap : Text.trimRight
      (first.after.take (second.start - first.stop)) with
    | nil =>
        rw [gap, List.append_nil, last] at hash
        cases hash
        exact absurd isWord (by decide)
    | cons c gap =>
        rw [stop]
        simp only [List.length_append, List.length_cons]
        omega
  next => exact order

private theorem exists_eq_ofWord
    {body : Text} {parameters : List Text} {word : Word}
    {occurrence : Occurrence}
    (made : (match parameterIndex? parameters word.spelling with
      | none => none
      | some index =>
          if Span.covered (Literal.spans body) word.start then none
          else some (ofWord body index word)) = some occurrence) :
    ∃ index, occurrence = ofWord body index word := by
  split at made
  next => cases made
  next index _ =>
    split at made
    next => cases made
    next => exact ⟨index, (Option.some.inj made).symm⟩

theorem pairwise_all (body : Text) (parameters : List Text) :
    (all body parameters).Pairwise fun first second =>
      first.stop ≤ second.start := by
  unfold all
  refine List.pairwise_filterMap.mpr ?_
  refine (Word.pairwise_identifiers body).imp_of_mem ?_
  intro first second member _ order left leftMade right rightMade
  have stands := Word.stands_of_mem_identifiers member
  obtain ⟨leftIndex, rfl⟩ := exists_eq_ofWord leftMade
  obtain ⟨rightIndex, rfl⟩ := exists_eq_ofWord rightMade
  exact stop_le_start_ofWord stands order leftIndex rightIndex

end Occurrence

/-- Well-formed texts may take the places of neutral parts all at once. -/
theorem Place.walk?_splice
    {text : Text} {last : Place}
    (walked : (Place.code 0).walk? text = some last)
    {edits : List Edit} {position : Nat}
    (neutral : ∀ edit ∈ edits, text.Neutral edit.start edit.stop)
    (formed : ∀ edit ∈ edits, WellFormed edit.replacement)
    (ordered : edits.Pairwise fun first second => first.stop ≤ second.start)
    (behind : ∀ edit ∈ edits, position ≤ edit.start) :
    (Place.code 0).walk?
      (text.take position ++ Text.splice text position edits) = some last := by
  induction edits generalizing position with
  | nil =>
      rw [Text.splice, List.take_append_drop]
      exact walked
  | cons edit edits ih =>
      obtain ⟨later, ordered⟩ := List.pairwise_cons.mp ordered
      have rest :=
        ih (fun other member => neutral other (List.mem_cons_of_mem _ member))
          (fun other member => formed other (List.mem_cons_of_mem _ member))
          ordered later
      have here := neutral edit List.mem_cons_self
      obtain ⟨depth, before, after⟩ := here.level
      have joined :
          text.take position ++ Text.slice text ⟨position, edit.start⟩ =
            text.take edit.start := by
        have first := behind edit List.mem_cons_self
        rw [Text.slice, ← List.take_add]
        congr 1
        simp only
        omega
      rw [Place.walk?_append_of_eq_some after] at rest
      rw [Text.splice, List.append_assoc, ← List.append_assoc, joined,
        Place.walk?_append_of_eq_some before,
        Place.walk?_append_of_eq_some
          ((formed edit List.mem_cons_self).walk? depth)]
      exact rest

namespace Text

theorem mem_of_mem_trim
    {text : Text} {c : Char}
    (member : c ∈ trim text) :
    c ∈ text := by
  unfold trim trimRight at member
  have kept :=
    List.mem_reverse.mp
      ((List.dropWhile_sublist isBlank).mem (List.mem_reverse.mp member))
  exact (List.dropWhile_sublist isBlank).mem kept

theorem mem_squeezeFrom
    {merged : Char → Bool} {inRun : Bool} {written text : Text} {c : Char}
    (member : c ∈ squeezeFrom merged inRun written text) :
    c ∈ written ∨ c = ' ' ∨ merged c = false := by
  induction text generalizing inRun written with
  | nil => exact .inl (List.mem_reverse.mp member)
  | cons d rest ih =>
      simp only [squeezeFrom] at member
      split at member
      next =>
        rcases ih member with before | other
        · split at before
          · exact .inl before
          · rcases List.mem_cons.mp before with space | before
            · exact .inr (.inl space)
            · exact .inl before
        · exact .inr other
      next solid =>
        rcases ih member with before | other
        · rcases List.mem_cons.mp before with rfl | before
          · exact .inr (.inr (by simpa using solid))
          · exact .inl before
        · exact .inr other

/-- Merging blanks keeps the other characters. -/
theorem filter_squeezeFrom
    {merged : Char → Bool}
    (blank : ∀ c, merged c = true → isBlank c = true)
    (inRun : Bool) (written text : Text) :
    (squeezeFrom merged inRun written text).filter (!isBlank ·) =
      (written.reverse ++ text).filter (!isBlank ·) := by
  induction text generalizing inRun written with
  | nil => rw [squeezeFrom, List.append_nil]
  | cons c rest ih =>
      rw [squeezeFrom]
      split
      next merges =>
        have passed : (!isBlank c) = false := by simp [blank c merges]
        have space : (!isBlank ' ') = false := rfl
        rw [ih]
        split <;> simp [List.filter_append, passed, space]
      next =>
        rw [ih]
        simp

theorem filter_of_blank
    {blanks : Text}
    (blank : ∀ c ∈ blanks, isBlank c = true) :
    blanks.filter (!isBlank ·) = [] := by
  simpa using blank

theorem filter_trim (text : Text) :
    (trim text).filter (!isBlank ·) = text.filter (!isBlank ·) := by
  obtain ⟨blanks, blank, shape⟩ := exists_trimRight_append (trimLeft text)
  have left : ∀ c ∈ text.takeWhile isBlank, isBlank c = true :=
    fun _ member => List.mem_takeWhile_imp member
  calc (trim text).filter (!isBlank ·)
      = (trim text ++ blanks).filter (!isBlank ·) := by
        rw [List.filter_append, filter_of_blank blank, List.append_nil]
    _ = (trimLeft text).filter (!isBlank ·) := by rw [trim, ← shape]
    _ = (text.takeWhile isBlank ++ trimLeft text).filter (!isBlank ·) := by
        rw [List.filter_append, filter_of_blank left, List.nil_append]
    _ = text.filter (!isBlank ·) := by rw [trimLeft_append]

theorem filter_normalizeBlanks (text : Text) :
    (normalizeBlanks text).filter (!isBlank ·) = text.filter (!isBlank ·) := by
  rw [normalizeBlanks, filter_trim, squeeze,
    filter_squeezeFrom fun _ blank => blank]
  rfl

theorem isLineBreak_of_mem_normalizeBlanks
    {text : Text} {c : Char}
    (member : c ∈ normalizeBlanks text) :
    isLineBreak c = false := by
  by_contra lineBreak
  rw [Bool.not_eq_false] at lineBreak
  simp only [isLineBreak, Bool.or_eq_true, beq_iff_eq] at lineBreak
  rcases mem_squeezeFrom (mem_of_mem_trim member) with none | rfl | solid
  · cases none
  · exact absurd lineBreak (by decide)
  · rcases lineBreak with rfl | rfl <;> exact absurd solid (by decide)

end Text

namespace Substitution

/-- The content of a literal whose quotes and backslashes are escaped does not
end it. -/
theorem walk?_escaped
    {text : Text}
    (unbroken : ∀ c ∈ text, Text.isLineBreak c = false)
    (depth : Nat) :
    Place.walk? ⟨.inside '"', depth⟩
        (escaped text) =
      some ⟨.inside '"', depth⟩ := by
  induction text with
  | nil => rfl
  | cons c text ih =>
      have rest := ih fun d member => unbroken d (List.mem_cons_of_mem _ member)
      have goesOn := unbroken c List.mem_cons_self
      rw [escaped_cons]
      split
      next => exact rest
      next plain =>
        simp only [Bool.or_eq_true, decide_eq_true_eq, not_or] at plain
        have stepped : Place.step? ⟨.inside '"', depth⟩ c =
            some ⟨.inside '"', depth⟩ := by
          simp [Place.step?, Literal.Scan.covers, Literal.Scan.step,
            plain, goesOn]
        rw [Place.walk?_cons, stepped]
        exact rest

theorem wellFormed_stringify (argument : Text) :
    WellFormed (stringify argument) := by
  have unbroken : ∀ c ∈ Comment.remove argument, Text.isLineBreak c = false :=
    fun _ member => Text.isLineBreak_of_mem_normalizeBlanks member
  have opened : (Place.code 0).step? '"' = some ⟨.inside '"', 0⟩ := rfl
  rw [wellFormed_iff, stringify, quoted, Place.walk?_cons, opened,
    Option.bind_some, Place.walk?_append_of_eq_some (walk?_escaped unbroken 0)]
  rfl

theorem wellFormed_getD
    {texts : List Text}
    (formed : ∀ text ∈ texts, WellFormed text)
    (index : Nat) :
    WellFormed (texts[index]?.getD []) := by
  cases present : texts[index]? with
  | none => exact WellFormed.nil
  | some text => exact formed text (List.mem_of_getElem? present)

theorem wellFormed_of_mem_values
    {parameters arguments : List Text}
    (formed : ∀ argument ∈ arguments, WellFormed argument)
    {value : Text}
    (member : value ∈ values parameters arguments) :
    WellFormed value := by
  obtain ⟨⟨parameter, index⟩, _, rfl⟩ := List.mem_map.mp member
  simp only
  split
  · apply WellFormed.joinWith ((wellFormed_iff _).mpr rfl)
    intro argument later
    exact formed argument (List.mem_of_mem_drop later)
  · exact wellFormed_getD formed index

/-- Substitution preserves well-formedness. -/
theorem wellFormed_replaced
    {body : Text}
    (formedBody : WellFormed body)
    {parameters arguments : List Text}
    (formed : ∀ argument ∈ arguments, WellFormed argument)
    {plain : Nat → Text}
    (formedPlain : ∀ index ∈ plainParameters body parameters,
      WellFormed (plain index)) :
    WellFormed (replaced body parameters arguments plain) := by
  have formedValue (index : Nat) :
      WellFormed ((values parameters arguments)[index]?.getD []) :=
    wellFormed_getD
      (fun _ member => wellFormed_of_mem_values formed member) index
  have formedReplacement : ∀ occurrence ∈ Occurrence.all body parameters,
      WellFormed (replacementOf parameters arguments plain occurrence) := by
    intro occurrence member
    unfold replacementOf
    simp only
    split
    next => exact wellFormed_stringify _
    next => exact formedValue _
    next plainly =>
      apply formedPlain
      rw [plainParameters, List.mem_eraseDups]
      refine List.mem_map_of_mem (List.mem_filter.mpr ⟨member, ?_⟩)
      simpa using plainly
  rw [wellFormed_iff, replaced, edits_map]
  have walked : (Place.code 0).walk? (body.take 0 ++ Text.splice body 0
      ((Occurrence.all body parameters).map fun occurrence =>
        ⟨occurrence.start, occurrence.stop,
          replacementOf parameters arguments plain occurrence⟩)) =
            some (Place.code 0) := by
    apply Place.walk?_splice (formedBody.walk? 0)
    · intro edit member
      obtain ⟨occurrence, found, rfl⟩ := List.mem_map.mp member
      exact Occurrence.neutral_of_mem_all formedBody found
    · intro edit member
      obtain ⟨occurrence, found, rfl⟩ := List.mem_map.mp member
      exact formedReplacement occurrence found
    · exact List.pairwise_map.mpr (Occurrence.pairwise_all body parameters)
    · intro edit _
      exact Nat.zero_le _
  exact walked

end Substitution

end MacroTrace
