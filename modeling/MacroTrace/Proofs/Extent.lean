import MacroTrace.Proofs.Argument
import MacroTrace.Proofs.Invocation

/-!
# Extents of invocations

Where the invocations of a text start and stop.  They start in increasing order,
one that starts inside the extent of another lies deeper, and so the extents of
invocations at one depth are disjoint.  In a well-formed text the extent of an
invocation leads back to the depth that it started from, which is why any other
well-formed text may take its place.
-/

namespace MacroTrace

open Literal (Scan)

namespace Text

theorem isInert_of_isWordChar
    {c : Char}
    (isWord : isWordChar c = true) :
    Place.isInert c = true :=
  Place.isInert_of_class (by decide) isWord

theorem isIdentifierStart_of_isBlank
    {c : Char}
    (blank : isBlank c = true) :
    isIdentifierStart c = false := by
  by_contra first
  rw [Bool.not_eq_false] at first
  have range : (65 ≤ c.toNat ∧ c.toNat ≤ 90) ∨ (97 ≤ c.toNat ∧ c.toNat ≤ 122) ∨
      c.toNat = 95 := by
    simp only [isIdentifierStart, isAsciiLetter, isUpper, Bool.or_eq_true,
      Bool.and_eq_true, decide_eq_true_eq, beq_iff_eq, Char.le_def,
      UInt32.le_iff_toNat_le] at first
    rcases first with (upper | lower) | rfl
    · exact .inl upper
    · exact .inr (.inl lower)
    · exact .inr (.inr rfl)
  simp only [isBlank, Bool.or_eq_true, Bool.and_eq_true, decide_eq_true_eq,
    beq_iff_eq] at blank
  omega

end Text

namespace Invocation

/-- The invocation in a text that has moved and stands at a greater depth. -/
def moved (distance deeper : Nat) (invocation : Invocation) : Invocation :=
  ⟨invocation.name, invocation.arguments.map (·.map (Argument.moved distance)),
    invocation.start + distance, invocation.stop + distance,
    invocation.depth + deeper⟩

@[simp] theorem use_moved (distance deeper : Nat) (invocation : Invocation) :
    (invocation.moved distance deeper).use = invocation.use := by
  cases arguments : invocation.arguments with
  | none => simp [use, moved, arguments]
  | some list => simp [use, moved, arguments, Function.comp_def]

theorem heading?_moved
    (depth offset : Nat) (text : Text) (distance deeper : Nat) :
    heading? (depth + deeper) (offset + distance) text =
      (heading? depth offset text).map (moved distance deeper) := by
  simp only [heading?]
  split
  next rest _ =>
    have place : offset + distance + (text.takeWhile Text.isWordChar).length +
          ((text.dropWhile Text.isWordChar).takeWhile Text.isBlank).length + 1 =
        offset + (text.takeWhile Text.isWordChar).length +
          ((text.dropWhile Text.isWordChar).takeWhile Text.isBlank).length +
            1 + distance := by
      omega
    have read (start : Nat) :
        ArgumentList.readFrom .code 0 (start + distance) [] [] rest =
          (ArgumentList.readFrom .code 0 start [] [] rest).map
            (ArgumentList.moved distance) :=
      @ArgumentList.readFrom_moved .code 0 start [] [] rest
        (Nat.zero_le _) distance
    rw [place, read, Option.map_map, Option.map_map]
    rfl
  next => simp [moved, Nat.add_right_comm]

/-- What an invocation found at the start of a text is: a name, or a name with a
closed argument list behind it. -/
theorem heading?_cases
    {depth offset : Nat} {text : Text} {invocation : Invocation}
    (found : heading? depth offset text = some invocation) :
    (∃ after, text = text.takeWhile Text.isWordChar ++ after ∧
      invocation = ⟨text.takeWhile Text.isWordChar, none, offset,
        offset + (text.takeWhile Text.isWordChar).length, depth⟩) ∨
    (∃ blanks rest list, (∀ c ∈ blanks, Text.isBlank c = true) ∧
      text = text.takeWhile Text.isWordChar ++ (blanks ++ '(' :: rest) ∧
      ArgumentList.readFrom .code 0
        (offset + (text.takeWhile Text.isWordChar).length + blanks.length + 1)
        [] [] rest =
          some list ∧
      invocation = ⟨text.takeWhile Text.isWordChar, some list.arguments,
        offset, list.stop, depth⟩) := by
  have words :=
    List.takeWhile_append_dropWhile (p := Text.isWordChar) (l := text)
  simp only [heading?] at found
  split at found
  next rest opened =>
    obtain ⟨list, read, rfl⟩ := Option.map_eq_some_iff.mp found
    refine .inr ⟨(text.dropWhile Text.isWordChar).takeWhile Text.isBlank, rest,
      list, ?_, ?_, read, rfl⟩
    · intro c member
      exact List.mem_takeWhile_imp member
    · rw [← opened, Text.trimLeft_append]
      exact words.symm
  next => exact .inl ⟨_, words.symm, (Option.some.inj found).symm⟩

theorem start_of_heading?
    {depth offset : Nat} {text : Text} {invocation : Invocation}
    (found : heading? depth offset text = some invocation) :
    invocation.start = offset ∧ invocation.depth = depth := by
  rcases heading?_cases found with ⟨_, _, rfl⟩ | ⟨_, _, _, _, _, _, rfl⟩ <;>
    exact ⟨rfl, rfl⟩

/-- An invocation of the stream is found at the first character, or later. -/
theorem mem_stream_cons
    {scan : Scan} {depth offset : Nat} {inWord : Bool} {c : Char}
    {rest : Text} {invocation : Invocation}
    (member : invocation ∈ stream scan depth offset inWord (c :: rest)) :
    (inWord = false ∧ Text.isIdentifierStart c = true ∧ scan.covers c = false ∧
      heading? depth offset (c :: rest) = some invocation) ∨
    invocation ∈ stream (scan.step c) (Nesting.next scan depth c) (offset + 1)
      (Text.isWordChar c) rest := by
  simp only [stream] at member
  split at member
  next starts =>
    simp only [Bool.and_eq_true, Bool.not_eq_true'] at starts
    rcases List.mem_append.mp member with here | later
    · exact .inl ⟨starts.1.1, starts.1.2, starts.2, Option.mem_toList.mp here⟩
    · exact .inr later
  next => exact .inr member

theorem start_of_mem_stream
    {scan : Scan} {depth offset : Nat} {inWord : Bool} {text : Text}
    {invocation : Invocation}
    (member : invocation ∈ stream scan depth offset inWord text) :
    offset ≤ invocation.start := by
  induction text generalizing scan depth offset inWord with
  | nil => cases member
  | cons c rest ih =>
      rcases mem_stream_cons member with ⟨_, _, _, found⟩ | later
      · exact Nat.le_of_eq (start_of_heading? found).1.symm
      · exact Nat.le_of_succ_le (ih later)

/-- Nothing is found at a character that begins no identifier, or in the middle
of a word. -/
theorem stream_cons_of_not_start
    {c : Char} {inWord : Bool}
    (quiet : inWord = true ∨ Text.isIdentifierStart c = false)
    (scan : Scan) (depth offset : Nat) (rest : Text) :
    stream scan depth offset inWord (c :: rest) =
      stream (scan.step c) (Nesting.next scan depth c) (offset + 1)
        (Text.isWordChar c) rest := by
  rcases quiet with rfl | notFirst
  · simp [stream]
  · simp [stream, notFirst]

theorem next_code_of_inert
    {c : Char}
    (inert : Place.isInert c = true)
    (depth : Nat) :
    Nesting.next .code depth c = depth := by
  rw [Place.isInert_iff] at inert
  simp [Nesting.next, Scan.covers, Nesting.depthAfter, inert]

/-- A walk and the depths of a text agree, at any greater depth. -/
theorem next_of_step?
    {scan : Scan} {depth : Nat} {c : Char} {next : Place}
    (stepped : Place.step? ⟨scan, depth⟩ c = some next)
    (deeper : Nat) :
    Nesting.next scan (depth + deeper) c = next.depth + deeper := by
  rcases Place.step?_cases stepped with
    ⟨covered, rfl⟩ | ⟨inCode, rfl, rfl⟩ | ⟨inCode, rfl, lower, _⟩ |
      ⟨inCode, inert, rfl⟩
  · simp [Nesting.next, show scan.covers c = true from covered]
  · obtain rfl : scan = .code := inCode
    exact Nat.add_right_comm depth deeper 1
  · obtain rfl : scan = .code := inCode
    obtain rfl : depth = next.depth + 1 := lower
    change next.depth + 1 + deeper - 1 = next.depth + deeper
    omega
  · obtain rfl : scan = .code := inCode
    exact next_code_of_inert inert _

theorem stream_word
    {word : Text}
    (isWord : ∀ c ∈ word, Text.isWordChar c = true)
    (depth offset : Nat) (rest : Text) :
    stream .code depth offset true (word ++ rest) =
      stream .code depth (offset + word.length) true rest := by
  induction word generalizing offset with
  | nil => rfl
  | cons c word ih =>
      have first := isWord c List.mem_cons_self
      have inert := Text.isInert_of_isWordChar first
      rw [List.cons_append, stream_cons_of_not_start (.inl rfl),
        Place.step_code_of_inert inert, next_code_of_inert inert, first,
        ih fun d member => isWord d (List.mem_cons_of_mem _ member)]
      simp [Nat.add_assoc, Nat.add_comm 1]

theorem stream_blanks
    {blanks : Text}
    (blank : ∀ c ∈ blanks, Text.isBlank c = true)
    (depth offset : Nat) (inWord : Bool) (rest : Text) :
    stream .code depth offset inWord (blanks ++ '(' :: rest) =
      stream .code (depth + 1) (offset + blanks.length + 1) false rest := by
  induction blanks generalizing inWord offset with
  | nil =>
      exact stream_cons_of_not_start (.inr (by decide)) .code depth offset rest
  | cons c blanks ih =>
      have isBlank := blank c List.mem_cons_self
      have inert := Text.isInert_of_isBlank isBlank
      rw [List.cons_append,
        stream_cons_of_not_start
          (.inr (Text.isIdentifierStart_of_isBlank isBlank)),
        Place.step_code_of_inert inert, next_code_of_inert inert,
        ih fun d member => blank d (List.mem_cons_of_mem _ member)]
      simp [Nat.add_assoc, Nat.add_comm 1]

/-- A character of an argument changes the depth in the same way at any greater
depth. -/
theorem next_of_stays
    {scan : Scan} {depth : Nat} {c : Char}
    (stays : ArgumentList.Stays scan depth c)
    (base : Nat) :
    Nesting.next scan (base + depth) c = base + Nesting.next scan depth c := by
  rcases stays.cases with
    ⟨covered, same⟩ | ⟨uncovered, rfl, deeper⟩ | ⟨uncovered, rfl, lower⟩ |
      ⟨uncovered, notOpening, notClosing, _, same⟩
  · rw [same]
    simp [Nesting.next, covered]
  · rw [deeper]
    simp [Nesting.next, Nesting.depthAfter, uncovered, Nat.add_assoc]
  · generalize Nesting.next scan depth ')' = next at lower ⊢
    subst lower
    simp [Nesting.next, Nesting.depthAfter, uncovered, ← Nat.add_assoc]
  · rw [same]
    simp [Nesting.next, Nesting.depthAfter, uncovered, notOpening, notClosing]

/-- What starts inside an argument list lies deeper than the list. -/
theorem depth_of_mem_stream
    {scan : Scan} {depth offset : Nat} {raw : Text} {found : List Argument}
    {text : Text} {list : ArgumentList}
    (read : ArgumentList.readFrom scan depth offset raw found text = some list)
    {base : Nat} {inWord : Bool} {invocation : Invocation}
    (member : invocation ∈ stream scan (base + depth) offset inWord text)
    (inside : invocation.start < list.stop) :
    base ≤ invocation.depth := by
  rw [ArgumentList.readFrom_eq_some_iff] at read
  induction read generalizing inWord with
  | @stays scan depth offset raw found c rest stays _ ih =>
      rcases mem_stream_cons member with ⟨_, _, _, here⟩ | tail
      · rw [(start_of_heading? here).2]
        exact Nat.le_add_right base depth
      · rw [next_of_stays stays] at tail
        exact ih tail
  | comma _ ih =>
      rcases mem_stream_cons member with ⟨_, _, _, here⟩ | tail
      · rw [(start_of_heading? here).2]
        exact Nat.le_add_right base 0
      · exact ih tail
  | closes finished =>
      rcases mem_stream_cons member with ⟨_, _, _, here⟩ | tail
      · rw [(start_of_heading? here).2]
        exact Nat.le_add_right base 0
      · rw [← finished] at inside
        exact absurd (start_of_mem_stream tail) (Nat.not_le_of_lt inside)

/-- An identifier that no literal covers stands in code. -/
theorem scan_eq_code_of_start
    {scan : Scan} {c : Char}
    (first : Text.isIdentifierStart c = true)
    (uncovered : scan.covers c = false) :
    scan = .code := by
  apply Scan.eq_code_of_not_covers _ uncovered
  by_contra lineBreak
  simp only [Text.isLineBreak, Bool.not_eq_false, Bool.or_eq_true, beq_iff_eq]
    at lineBreak
  rcases lineBreak with rfl | rfl <;> exact absurd first (by decide)

/-- How an invocation relates to a later one: it starts first, and does not
reach the start of the later one if that lies at the same depth or above. -/
def Precedes (first second : Invocation) : Prop :=
  first.start < second.start ∧
    (second.depth ≤ first.depth → first.stop ≤ second.start)

/-- A later invocation starts behind this one, or inside its argument list. -/
theorem behind_or_inside_of_heading?
    {depth offset : Nat} {c : Char} {rest : Text} {first second : Invocation}
    (isWord : Text.isWordChar c = true)
    (found : heading? depth offset (c :: rest) = some first)
    (later : second ∈ stream .code depth (offset + 1) true rest) :
    first.stop ≤ second.start ∨
      ∃ start inner list, second ∈ stream .code (depth + 1) start false inner ∧
        ArgumentList.readFrom .code 0 start [] [] inner = some list ∧
        first.stop = list.stop := by
  have word : (c :: rest).takeWhile Text.isWordChar =
      c :: rest.takeWhile Text.isWordChar := by
    simp [isWord]
  have isWordRest : ∀ d ∈ rest.takeWhile Text.isWordChar,
      Text.isWordChar d = true :=
    fun _ member => List.mem_takeWhile_imp member
  rcases heading?_cases found with
    ⟨after, shape, rfl⟩ | ⟨blanks, inner, list, blank, shape, read, rfl⟩
  · -- A later word starts behind the characters of this one.
    rw [word] at shape
    have split : rest = rest.takeWhile Text.isWordChar ++ after := by
      simpa using shape
    rw [split, stream_word isWordRest] at later
    have behind := start_of_mem_stream later
    simp only [word, List.length_cons]
    omega
  · rw [word] at shape read
    have split : rest =
        rest.takeWhile Text.isWordChar ++ (blanks ++ '(' :: inner) := by
      simpa using shape
    rw [split, stream_word isWordRest, stream_blanks blank] at later
    have place : offset + (c :: rest.takeWhile Text.isWordChar).length +
          blanks.length + 1 =
        offset + 1 + (rest.takeWhile Text.isWordChar).length +
          blanks.length + 1 := by
      simp only [List.length_cons]
      omega
    rw [place] at read
    exact .inr ⟨_, inner, list, later, read, rfl⟩

private theorem precedes_of_heading?
    {depth offset : Nat} {c : Char} {rest : Text} {first second : Invocation}
    (isWord : Text.isWordChar c = true)
    (found : heading? depth offset (c :: rest) = some first)
    (later : second ∈ stream .code depth (offset + 1) true rest) :
    Precedes first second := by
  have starts := start_of_mem_stream later
  obtain ⟨start, level⟩ := start_of_heading? found
  refine ⟨by omega, fun shallow => ?_⟩
  rcases behind_or_inside_of_heading? isWord found later with
    behind | ⟨_, inner, list, inside, read, stops⟩
  · exact behind
  · by_contra reaches
    rw [stops] at reaches
    have deep := depth_of_mem_stream read inside (Nat.lt_of_not_le reaches)
    omega

/-- What relates an invocation to those that are found behind the first
character of its name relates any two invocations of a text. -/
theorem pairwise_stream
    {relation : Invocation → Invocation → Prop}
    (relates : ∀ {depth offset c rest first second}, Text.isWordChar c = true →
      heading? depth offset (c :: rest) = some first →
      second ∈ stream .code depth (offset + 1) true rest →
      relation first second)
    (scan : Scan) (depth offset : Nat) (inWord : Bool) (text : Text) :
    (stream scan depth offset inWord text).Pairwise relation := by
  induction text generalizing scan depth offset inWord with
  | nil => exact .nil
  | cons c rest ih =>
      have later :=
        ih (scan.step c) (Nesting.next scan depth c) (offset + 1)
          (Text.isWordChar c)
      simp only [stream]
      split
      next starts =>
        simp only [Bool.and_eq_true, Bool.not_eq_true'] at starts
        obtain ⟨⟨_, first⟩, uncovered⟩ := starts
        obtain rfl := scan_eq_code_of_start first uncovered
        have isWord := Text.isWordChar_of_isIdentifierStart first
        have inert := Text.isInert_of_isWordChar isWord
        rw [Place.step_code_of_inert inert, next_code_of_inert inert,
          isWord] at later ⊢
        cases found : heading? depth offset (c :: rest) with
        | none => exact later
        | some invocation =>
            exact List.pairwise_cons.mpr
              ⟨fun second member => relates isWord found member, later⟩
      next => exact later

/-- The invocations of a text are in order, and those at one depth are
disjoint. -/
theorem pairwise_all (text : Text) : (all text).Pairwise Precedes := by
  rw [all_eq_stream]
  exact pairwise_stream precedes_of_heading? .code 0 0 false text

end Invocation

/-- The part between two offsets leads back to the depth in front of it.  This
depends on the text up to its end only. -/
structure Text.Neutral (text : Text) (start stop : Nat) : Prop where
  order : start ≤ stop
  within : stop ≤ text.length
  level : ∃ depth, (Place.code 0).walk? (text.take start) =
    some (Place.code depth) ∧
    (Place.code 0).walk? (text.take stop) = some (Place.code depth)

namespace Text.Neutral

theorem of_append
    {front part : Text} {depth : Nat}
    (before : (Place.code 0).walk? front = some (Place.code depth))
    (through : (Place.code depth).walk? part = some (Place.code depth))
    (rest : Text) :
    Neutral (front ++ (part ++ rest)) front.length
      (front.length + part.length) := by
  refine ⟨Nat.le_add_right _ _, by simp, depth, ?_, ?_⟩
  · rw [List.take_left]
    exact before
  · rw [← List.append_assoc, ← List.length_append, List.take_left,
      Place.walk?_append_of_eq_some before]
    exact through

theorem of_take
    {text other : Text} {start stop boundary : Nat}
    (neutral : text.Neutral start stop)
    (bounded : stop ≤ boundary)
    (reaches : boundary ≤ other.length)
    (same : other.take boundary = text.take boundary) :
    other.Neutral start stop := by
  have unchanged {offset : Nat} (low : offset ≤ boundary) :
      other.take offset = text.take offset := by
    have cut := congrArg (List.take offset) same
    rwa [List.take_take, List.take_take, Nat.min_eq_left low] at cut
  refine ⟨neutral.order, Nat.le_trans bounded reaches, ?_⟩
  rw [unchanged (Nat.le_trans neutral.order bounded), unchanged bounded]
  exact neutral.level

/-- A well-formed text may take the place of a neutral part. -/
theorem replace
    {text replacement : Text} {start stop : Nat} {last : Place}
    (neutral : text.Neutral start stop)
    (formed : WellFormed replacement)
    (walked : (Place.code 0).walk? text = some last) :
    (Place.code 0).walk? (text.take start ++ replacement ++ text.drop stop) =
      some last := by
  obtain ⟨depth, before, after⟩ := neutral.level
  have rest : (Place.code depth).walk? (text.drop stop) = some last := by
    rw [← Place.walk?_append_of_eq_some after, List.take_append_drop]
    exact walked
  rw [List.append_assoc, Place.walk?_append_of_eq_some before,
    Place.walk?_append_of_eq_some (formed.walk? depth)]
  exact rest

end Text.Neutral

namespace Invocation

/-- What a well-formed text offers for the replacement of an invocation. -/
structure Standing (text : Text) (invocation : Invocation) : Prop where
  neutral : text.Neutral invocation.start invocation.stop
  formed : ∀ list, invocation.arguments = some list →
    ∀ argument ∈ list, WellFormed argument.text

private theorem standing_of_heading?
    {front rest : Text} {depth : Nat} {last : Place} {invocation : Invocation}
    (before : (Place.code 0).walk? front = some (Place.code depth))
    (walked : (Place.code depth).walk? rest = some last)
    (found : heading? depth front.length rest = some invocation) :
    Standing (front ++ rest) invocation := by
  have word : ∀ c ∈ rest.takeWhile Text.isWordChar, Place.isInert c = true :=
    fun _ member => Text.isInert_of_isWordChar (List.mem_takeWhile_imp member)
  rcases heading?_cases found with
    ⟨after, shape, rfl⟩ | ⟨blanks, inner, list, blank, shape, read, rfl⟩
  · refine ⟨?_, nofun⟩
    have neutral :=
      Text.Neutral.of_append before (Place.walk?_code_of_inert word depth) after
    rwa [← shape] at neutral
  · have inert : ∀ c ∈ rest.takeWhile Text.isWordChar ++ blanks,
        Place.isInert c = true := by
      intro c member
      rcases List.mem_append.mp member with member | member
      · exact word c member
      · exact Text.isInert_of_isBlank (blank c member)
    have name := Place.walk?_code_of_inert inert depth
    have onward : Place.walk? ⟨.code, 0 + (depth + 1)⟩ inner = some last := by
      rw [shape, ← List.append_assoc, Place.walk?_append_of_eq_some name,
        Place.walk?_cons, Place.step?_opening, Option.bind_some] at walked
      rwa [Nat.zero_add]
    obtain ⟨⟨content, after, split, stops, through⟩, formed⟩ :=
      ArgumentList.wellFormed_of_readFrom read onward rfl (by simp)
    rw [Nat.zero_add] at through
    change (Place.code (depth + 1)).walk? content =
      some (Place.code (depth + 1)) at through
    refine ⟨?_, fun arguments same => by cases same; exact formed⟩
    have part : (Place.code depth).walk?
        (rest.takeWhile Text.isWordChar ++ blanks ++
            '(' :: (content ++ [')'])) =
          some (Place.code depth) := by
      rw [Place.walk?_append_of_eq_some name, Place.walk?_cons,
        Place.step?_opening, Option.bind_some,
        Place.walk?_append_of_eq_some through, Place.walk?_cons,
        Place.step?_closing]
      rfl
    have neutral := Text.Neutral.of_append before part after
    have whole :
        rest.takeWhile Text.isWordChar ++ blanks ++ '(' :: (content ++ [')']) ++
          after = rest := by
      conv => rhs; rw [shape, split]
      simp
    have length : front.length + (rest.takeWhile Text.isWordChar ++ blanks ++
        '(' :: (content ++ [')'])).length = list.stop := by
      rw [stops]
      simp only [List.length_append, List.length_cons, List.length_nil]
      omega
    rw [whole, length] at neutral
    exact neutral

private theorem standing_of_mem_stream
    {front rest : Text} {place last : Place} {inWord : Bool}
    {invocation : Invocation}
    (before : (Place.code 0).walk? front = some place)
    (walked : place.walk? rest = some last)
    (member : invocation ∈
      stream place.scan place.depth front.length inWord rest) :
    Standing (front ++ rest) invocation := by
  induction rest generalizing front place inWord with
  | nil => cases member
  | cons c rest ih =>
      rcases mem_stream_cons member with ⟨_, first, uncovered, found⟩ | later
      · obtain ⟨scan, depth⟩ := place
        obtain rfl := scan_eq_code_of_start first uncovered
        exact standing_of_heading? before walked found
      · obtain ⟨next, stepped, onward⟩ := Option.bind_eq_some_iff.mp walked
        have reached : (Place.code 0).walk? (front ++ [c]) = some next := by
          rw [Place.walk?_append_of_eq_some before, Place.walk?_cons, stepped]
          rfl
        have depth : Nesting.next place.scan place.depth c = next.depth :=
          next_of_step? stepped 0
        rw [depth, ← Place.scan_of_step? stepped] at later
        have standing := ih reached onward (by simpa using later)
        rwa [List.append_assoc, List.singleton_append] at standing

/-- In a well-formed text every invocation leads back to the depth that it
starts at, and its arguments are well-formed. -/
theorem standing_of_mem_all
    {text : Text}
    (formed : WellFormed text)
    {invocation : Invocation}
    (member : invocation ∈ all text) :
    Standing text invocation := by
  rw [all_eq_stream] at member
  have start : (Place.code 0).walk? [] = some (Place.code 0) := rfl
  exact standing_of_mem_stream start (formed.walk? 0) member

theorem behind_of_walk?
    {scan : Scan} {depth : Nat} {text : Text} {last : Place}
    (walked : Place.walk? ⟨scan, depth⟩ text = some last) :
    Nesting.behind scan depth text = last.depth := by
  induction text generalizing scan depth with
  | nil =>
      cases walked
      rfl
  | cons c text ih =>
      obtain ⟨⟨nextScan, nextDepth⟩, stepped, onward⟩ :=
        Option.bind_eq_some_iff.mp walked
      have scanned : nextScan = scan.step c := Place.scan_of_step? stepped
      have depth := next_of_step? stepped 0
      simp only [Nat.add_zero] at depth
      rw [scanned, ← depth] at onward
      exact ih onward

end Invocation

end MacroTrace
