import MacroTrace.Proofs.Invocation

/-!
# Reading argument lists

What `ArgumentList.readFrom` finds.  `Reading` says what one character can do:
it goes into the argument under construction, or completes it, or completes the
list.  By induction on a reading, an argument list ends at the parenthesis that
closes it, its arguments lie in front of that parenthesis, text behind it does
not matter, and in a well-formed text each argument is well-formed.
-/

namespace MacroTrace

open Literal (Scan)

namespace Argument

/-- The argument in a text that has moved. -/
def moved (distance : Nat) (argument : Argument) : Argument :=
  ⟨argument.text,
    ⟨argument.span.start + distance, argument.span.stop + distance⟩⟩

@[simp] theorem text_moved (distance : Nat) (argument : Argument) :
    (argument.moved distance).text = argument.text := rfl

theorem ofRaw_moved (raw : Text) (start distance : Nat) :
    ofRaw raw (start + distance) = (ofRaw raw start).moved distance := by
  simp only [ofRaw, moved, mk.injEq, Span.mk.injEq, true_and]
  omega

/-- An argument stands within the text that it was trimmed from. -/
theorem span_ofRaw_le (raw : Text) (start : Nat) :
    start ≤ (ofRaw raw start).span.start ∧
      (ofRaw raw start).span.start ≤ (ofRaw raw start).span.stop ∧
      (ofRaw raw start).span.stop ≤ start + raw.length := by
  have split := congrArg List.length (Text.trimLeft_append raw)
  obtain ⟨blanks, _, shape⟩ := Text.exists_trimRight_append (Text.trimLeft raw)
  have trimmed := congrArg List.length shape
  simp only [List.length_append] at split trimmed
  simp only [ofRaw, Text.trim]
  omega

end Argument

namespace ArgumentList

/-- The argument list in a text that has moved. -/
def moved (distance : Nat) (list : ArgumentList) : ArgumentList :=
  ⟨list.arguments.map (Argument.moved distance), list.stop + distance⟩

variable {scan : Scan} {depth offset : Nat} {raw : Text} {found : List Argument}
  {text : Text} {list : ArgumentList}

/-- The list that ends at a closing parenthesis at `offset`.  A list with
nothing but blanks in it has no arguments. -/
def finish (offset : Nat) (raw : Text) (found : List Argument) : ArgumentList :=
  let last := Argument.ofRaw raw.reverse (offset - raw.length)
  ⟨(if found.isEmpty && last.text.isEmpty then [] else last :: found).reverse,
    offset + 1⟩

theorem readFrom_closing
    {rest : Text}
    (uncovered : ¬ scan.covers ')' = true) :
    readFrom scan 0 offset raw found (')' :: rest) =
      some (finish offset raw found) := by
  simp [readFrom, uncovered, finish]

theorem ofRaw_reverse_moved
    (fits : raw.length ≤ offset)
    (distance : Nat) :
    Argument.ofRaw raw.reverse (offset + distance - raw.length) =
      (Argument.ofRaw raw.reverse (offset - raw.length)).moved distance := by
  rw [Nat.sub_add_comm fits, Argument.ofRaw_moved]

theorem finish_moved
    (fits : raw.length ≤ offset)
    (distance : Nat) :
    finish (offset + distance) raw (found.map (Argument.moved distance)) =
      (finish offset raw found).moved distance := by
  simp only [finish, ofRaw_reverse_moved fits, List.isEmpty_map,
    Argument.text_moved, moved]
  split <;> simp [Nat.add_right_comm]

/-- Whether a character goes into the argument under construction: every one but
the commas and the closing parenthesis of the list itself. -/
def Stays (scan : Scan) (depth : Nat) (c : Char) : Prop :=
  scan.covers c = true ∨ 0 < depth ∨ (c ≠ ',' ∧ c ≠ ')')

/-- What a character of an argument does to the depth. -/
theorem Stays.cases
    {c : Char}
    (stays : Stays scan depth c) :
    (scan.covers c = true ∧ Nesting.next scan depth c = depth) ∨
    (scan.covers c = false ∧ c = '(' ∧ Nesting.next scan depth c = depth + 1) ∨
    (scan.covers c = false ∧ c = ')' ∧ depth = Nesting.next scan depth c + 1) ∨
    (scan.covers c = false ∧ c ≠ '(' ∧ c ≠ ')' ∧ (c = ',' → 0 < depth) ∧
      Nesting.next scan depth c = depth) := by
  cases covered : scan.covers c with
  | true => exact .inl ⟨rfl, by simp [Nesting.next, covered]⟩
  | false =>
      have changed : Nesting.next scan depth c =
          Nesting.depthAfter depth c := by
        simp [Nesting.next, covered]
      have inside : c = ',' ∨ c = ')' → 0 < depth := by
        intro ending
        rcases stays with impossible | deep | ⟨notComma, notClosing⟩
        · rw [covered] at impossible
          cases impossible
        · exact deep
        · rcases ending with comma | closing
          · exact absurd comma notComma
          · exact absurd closing notClosing
      rw [changed]
      by_cases opening : c = '('
      · exact .inr (.inl ⟨rfl, opening, by simp [Nesting.depthAfter, opening]⟩)
      · by_cases closing : c = ')'
        · have deep := inside (.inr closing)
          have lower : Nesting.depthAfter depth c = depth - 1 := by
            simp [Nesting.depthAfter, closing]
          exact .inr (.inr (.inl ⟨rfl, closing, by omega⟩))
        · exact .inr (.inr (.inr ⟨rfl, opening, closing,
            fun comma => inside (.inl comma), by
              simp [Nesting.depthAfter, opening, closing]⟩))

/-- The commas and the closing parenthesis of a list stand in code, outside
inner parentheses. -/
theorem eq_of_not_stays
    {c : Char}
    (ending : ¬ Stays scan depth c) :
    scan = .code ∧ depth = 0 ∧ (c = ',' ∨ c = ')') := by
  simp only [Stays, not_or, Bool.not_eq_true, Nat.not_lt, Nat.le_zero] at ending
  obtain ⟨uncovered, top, separates⟩ := ending
  have special : c = ',' ∨ c = ')' := by
    by_contra other
    exact separates (not_or.mp other)
  have goesOn : Text.isLineBreak c = false := by
    rcases special with rfl | rfl
    · rfl
    · rfl
  exact ⟨Scan.eq_code_of_not_covers goesOn uncovered, top, special⟩

theorem readFrom_of_stays
    {c : Char}
    (stays : Stays scan depth c)
    (offset : Nat) (raw : Text) (found : List Argument) (rest : Text) :
    readFrom scan depth offset raw found (c :: rest) =
      readFrom (scan.step c) (Nesting.next scan depth c) (offset + 1)
        (c :: raw) found rest := by
  rcases stays.cases with
    ⟨covered, same⟩ | ⟨uncovered, rfl, deeper⟩ | ⟨uncovered, rfl, lower⟩ |
      ⟨uncovered, notOpening, notClosing, inside, same⟩
  · simp [readFrom, covered, same]
  · simp [readFrom, uncovered, deeper]
  · generalize Nesting.next scan depth ')' = next at lower ⊢
    subst lower
    simp [readFrom, uncovered]
  · have within : ¬ (c = ',' ∧ depth = 0) :=
      fun both => absurd (inside both.1) (by omega)
    simp [readFrom, uncovered, notOpening, notClosing, within, same]

/-- How a list is read, character by character. -/
inductive Reading (list : ArgumentList) :
    Scan → Nat → Nat → Text → List Argument → Text → Prop where
  | stays {scan : Scan} {depth offset : Nat} {raw : Text}
      {found : List Argument} {c : Char} {rest : Text} :
      Stays scan depth c →
      Reading list (scan.step c) (Nesting.next scan depth c) (offset + 1)
        (c :: raw) found rest →
      Reading list scan depth offset raw found (c :: rest)
  | comma {offset : Nat} {raw : Text} {found : List Argument} {rest : Text} :
      Reading list .code 0 (offset + 1) []
        (Argument.ofRaw raw.reverse (offset - raw.length) :: found) rest →
      Reading list .code 0 offset raw found (',' :: rest)
  | closes {offset : Nat} {raw : Text} {found : List Argument} {rest : Text} :
      finish offset raw found = list →
      Reading list .code 0 offset raw found (')' :: rest)

theorem readFrom_eq_some_iff :
    readFrom scan depth offset raw found text = some list ↔
      Reading list scan depth offset raw found text := by
  constructor
  · intro read
    induction text generalizing scan depth offset raw found with
    | nil => cases read
    | cons c rest ih =>
        by_cases stays : Stays scan depth c
        · rw [readFrom_of_stays stays] at read
          exact .stays stays (ih read)
        · obtain ⟨rfl, rfl, rfl | rfl⟩ := eq_of_not_stays stays
          · exact .comma (ih read)
          · exact .closes (Option.some.inj read)
  · intro reading
    induction reading with
    | stays stays _ ih => rwa [readFrom_of_stays stays]
    | comma _ ih => exact ih
    | closes finished => exact congrArg some finished

/-- An argument list ends just behind a closing parenthesis. -/
theorem exists_of_readFrom
    (read : readFrom scan depth offset raw found text = some list) :
    ∃ inner after, text = inner ++ ')' :: after ∧
      list.stop = offset + inner.length + 1 := by
  -- In every case but the last the character read belongs to the inner text.
  have extend {offset : Nat} {c : Char} {rest : Text}
      (later : ∃ inner after, rest = inner ++ ')' :: after ∧
        list.stop = offset + 1 + inner.length + 1) :
      ∃ inner after, c :: rest = inner ++ ')' :: after ∧
        list.stop = offset + inner.length + 1 := by
    obtain ⟨inner, after, shape, stops⟩ := later
    refine ⟨c :: inner, after, by rw [shape]; rfl, ?_⟩
    simp only [List.length_cons]
    omega
  rw [readFrom_eq_some_iff] at read
  induction read with
  | stays _ _ ih => exact extend ih
  | comma _ ih => exact extend ih
  | @closes offset raw found rest finished =>
      rw [← finished]
      exact ⟨[], rest, rfl, rfl⟩

/-- Text behind an argument list does not matter. -/
theorem readFrom_append
    (read : readFrom scan depth offset raw found text = some list)
    (more : Text) :
    readFrom scan depth offset raw found (text ++ more) = some list := by
  rw [readFrom_eq_some_iff] at read ⊢
  induction read with
  | stays stays _ ih => exact .stays stays ih
  | comma _ ih => exact .comma ih
  | closes finished => exact .closes finished

/-- Reading does not depend on where the text stands. -/
theorem readFrom_moved
    (fits : raw.length ≤ offset)
    (distance : Nat) :
    readFrom scan depth (offset + distance) raw
        (found.map (Argument.moved distance)) text =
      (readFrom scan depth offset raw found text).map (moved distance) := by
  have longer {offset : Nat} {raw : Text} (c : Char)
      (fits : raw.length ≤ offset) : (c :: raw).length ≤ offset + 1 :=
    Nat.succ_le_succ fits
  fun_induction readFrom scan depth offset raw found text with
  | case1 => rfl
  | case2 scan depth offset raw found c rest covered ih =>
      simpa [readFrom, covered, Nat.add_right_comm] using ih (longer c fits)
  | case3 scan depth offset raw found rest uncovered ih =>
      simpa [readFrom, uncovered, Nat.add_right_comm] using ih (longer '(' fits)
  | case4 scan offset raw found rest last all uncovered =>
      rw [readFrom_closing uncovered, finish_moved fits]
      rfl
  | case5 scan offset raw found rest depth uncovered _ ih =>
      simpa [readFrom, uncovered, Nat.add_right_comm] using ih (longer ')' fits)
  | case6 scan depth offset raw found c rest uncovered notOpening notClosing
      comma argument ih =>
      simp only [readFrom, uncovered, notOpening, notClosing, comma,
        ofRaw_reverse_moved fits]
      simpa [Nat.add_right_comm] using ih (Nat.zero_le _)
  | case7 scan depth offset raw found c rest uncovered notOpening notClosing
      notComma ih =>
      simp only [readFrom]
      simpa [uncovered, notOpening, notClosing, notComma, Nat.add_right_comm]
        using ih (longer c fits)

theorem mem_finish
    {argument : Argument}
    (member : argument ∈ (finish offset raw found).arguments) :
    argument ∈ found ∨
      argument = Argument.ofRaw raw.reverse (offset - raw.length) := by
  simp only [finish, List.mem_reverse] at member
  split at member
  · cases member
  · rcases List.mem_cons.mp member with last | earlier
    · exact .inr last
    · exact .inl earlier

theorem stop_of_readFrom
    (read : readFrom scan depth offset raw found text = some list) :
    offset < list.stop ∧ list.stop ≤ offset + text.length := by
  obtain ⟨inner, after, shape, stops⟩ := exists_of_readFrom read
  rw [shape, stops, List.length_append, List.length_cons]
  omega

/-- The arguments read stand in front of the parenthesis that ends the list. -/
theorem span_of_readFrom
    (read : readFrom scan depth offset raw found text = some list)
    (fits : raw.length ≤ offset)
    {argument : Argument}
    (member : argument ∈ list.arguments) :
    argument ∈ found ∨ (offset - raw.length ≤ argument.span.start ∧
      argument.span.start ≤ argument.span.stop ∧
      argument.span.stop < list.stop) := by
  rw [readFrom_eq_some_iff] at read
  induction read with
  | stays _ _ ih =>
      have later := ih (Nat.succ_le_succ fits)
      rwa [List.length_cons, Nat.add_sub_add_right] at later
  | @comma offset raw found rest reading ih =>
      have within := Argument.span_ofRaw_le raw.reverse (offset - raw.length)
      have stops := stop_of_readFrom (readFrom_eq_some_iff.mpr reading)
      rw [List.length_reverse] at within
      rcases ih (Nat.zero_le _) with earlier | inside
      · rcases List.mem_cons.mp earlier with rfl | earlier
        · omega
        · exact .inl earlier
      · rw [List.length_nil] at inside
        omega
  | @closes offset raw found rest finished =>
      rw [← finished] at member ⊢
      rcases mem_finish member with earlier | rfl
      · exact .inl earlier
      · have within := Argument.span_ofRaw_le raw.reverse (offset - raw.length)
        rw [List.length_reverse] at within
        simp only [finish]
        omega

/-- A character outside literals that a walk gets past stands in code. -/
private theorem scan_eq_code
    {c : Char} {rest : Text} {last : Place}
    (uncovered : ¬ scan.covers c = true)
    (walked : Place.walk? ⟨scan, depth⟩ (c :: rest) = some last) :
    scan = .code := by
  obtain ⟨_, stepped, _⟩ := Option.bind_eq_some_iff.mp walked
  rcases Place.step?_cases stepped with
    ⟨covered, _⟩ | ⟨inCode, _⟩ | ⟨inCode, _⟩ | ⟨inCode, _⟩
  · exact absurd covered uncovered
  · exact inCode
  · exact inCode
  · exact inCode

/-- The inner text of an argument list leads back to the depth behind its
opening parenthesis. -/
def Closes (list : ArgumentList) (base : Nat) (place : Place) (offset : Nat)
    (text : Text) : Prop :=
  ∃ inner after, text = inner ++ ')' :: after ∧
    list.stop = offset + inner.length + 1 ∧
    place.walk? inner = some (Place.code (base + 1))

section Step

variable {next : Scan} {after base : Nat} {rest : Text} {c : Char}

/-- Behind a character of an argument, the walk and the argument under
construction go on. -/
private theorem advance_of_step?
    {last : Place}
    (stepped : Place.step? ⟨scan, depth⟩ c = some ⟨next, after⟩)
    (walked : Place.walk? ⟨scan, depth + (base + 1)⟩ (c :: rest) = some last)
    (current : (Place.code 0).walk? raw.reverse = some ⟨scan, depth⟩) :
    Place.walk? ⟨next, after + (base + 1)⟩ rest = some last ∧
      (Place.code 0).walk? (c :: raw).reverse = some ⟨next, after⟩ := by
  rw [Place.walk?_cons, Place.step?_deeper stepped, Option.bind_some] at walked
  rw [List.reverse_cons, Place.walk?_append_of_eq_some current,
    Place.walk?_cons, stepped]
  exact ⟨walked, rfl⟩

private theorem Closes.cons
    (stepped : Place.step? ⟨scan, depth⟩ c = some ⟨next, after⟩)
    (closes : list.Closes base ⟨next, after + (base + 1)⟩ (offset + 1) rest) :
    list.Closes base ⟨scan, depth + (base + 1)⟩ offset (c :: rest) := by
  obtain ⟨inner, behind, shape, stops, leads⟩ := closes
  refine ⟨c :: inner, behind, by rw [shape]; rfl, ?_, ?_⟩
  · simp only [List.length_cons]
    omega
  · rw [Place.walk?_cons, Place.step?_deeper stepped, Option.bind_some]
    exact leads

end Step

private theorem step?_of_stays
    {c : Char} {rest : Text} {more : Nat} {last : Place}
    (stays : Stays scan depth c)
    (walked : Place.walk? ⟨scan, depth + more⟩ (c :: rest) = some last) :
    Place.step? ⟨scan, depth⟩ c =
      some ⟨scan.step c, Nesting.next scan depth c⟩ := by
  rcases stays.cases with
    ⟨covered, same⟩ | ⟨uncovered, rfl, deeper⟩ | ⟨uncovered, rfl, lower⟩ |
      ⟨uncovered, notOpening, notClosing, _, same⟩
  · rw [same]
    exact Place.step?_of_covers covered
  · obtain rfl := scan_eq_code (by simp [uncovered]) walked
    rw [deeper]
    exact Place.step?_opening depth
  · obtain rfl := scan_eq_code (by simp [uncovered]) walked
    generalize Nesting.next .code depth ')' = next at lower ⊢
    subst lower
    exact Place.step?_closing next
  · obtain rfl := scan_eq_code (by simp [uncovered]) walked
    have inert :=
      Place.isInert_of_uncovered (by simp [uncovered]) notOpening notClosing
    rw [same, Place.step_code_of_inert inert]
    exact Place.step?_code_of_inert inert depth

/-- In a text that can be walked through, an argument list is closed and every
argument is well-formed. -/
theorem wellFormed_of_readFrom
    (read : readFrom scan depth offset raw found text = some list)
    {base : Nat} {last : Place}
    (walked : Place.walk? ⟨scan, depth + (base + 1)⟩ text = some last)
    (current : (Place.code 0).walk? raw.reverse = some ⟨scan, depth⟩)
    (earlier : ∀ argument ∈ found, WellFormed argument.text) :
    list.Closes base ⟨scan, depth + (base + 1)⟩ offset text ∧
      ∀ argument ∈ list.arguments, WellFormed argument.text := by
  rw [readFrom_eq_some_iff] at read
  induction read with
  | stays stays _ ih =>
      have stepped := step?_of_stays stays walked
      obtain ⟨onward, longer⟩ := advance_of_step? stepped walked current
      obtain ⟨later, formed⟩ := ih onward longer earlier
      exact ⟨later.cons stepped, formed⟩
  | comma _ ih =>
      have stepped : Place.step? ⟨.code, 0⟩ ',' = some ⟨.code, 0⟩ := rfl
      obtain ⟨onward, _⟩ := advance_of_step? stepped walked current
      obtain ⟨later, formed⟩ := ih onward rfl (by
        intro argument member
        rcases List.mem_cons.mp member with rfl | before
        · exact ((wellFormed_iff _).mpr current).trim
        · exact earlier argument before)
      exact ⟨later.cons stepped, formed⟩
  | @closes offset raw found rest finished =>
      rw [← finished]
      refine ⟨⟨[], rest, rfl, rfl, by rw [Nat.zero_add]; rfl⟩, ?_⟩
      intro argument member
      rcases mem_finish member with before | rfl
      · exact earlier argument before
      · exact ((wellFormed_iff _).mpr current).trim

/-- An argument list is closed if the text gets back to the depth in front of
it. -/
theorem readFrom_isSome
    {base after : Nat}
    (low : after ≤ base)
    (walked : Place.walk? ⟨scan, depth + (base + 1)⟩ text =
      some (Place.code after)) :
    (readFrom scan depth offset raw found text).isSome = true := by
  induction text generalizing scan depth offset raw found with
  | nil =>
      simp only [Place.walk?_nil, Place.code, Option.some.injEq,
        Place.mk.injEq] at walked
      omega
  | cons c rest ih =>
      by_cases stays : Stays scan depth c
      · have stepped := step?_of_stays stays walked
        rw [Place.walk?_cons, Place.step?_deeper stepped,
          Option.bind_some] at walked
        rw [readFrom_of_stays stays]
        exact ih walked
      · obtain ⟨rfl, rfl, rfl | rfl⟩ := eq_of_not_stays stays
        · exact ih walked
        · rfl

/-- A piece without a comma at its top level is taken into the argument under
construction. -/
theorem readFrom_piece
    {piece : Text}
    (walked : Place.walk? ⟨scan, depth⟩ piece = some (Place.code 0))
    (whole : ∀ front rest, piece = front ++ ',' :: rest →
      Place.walk? ⟨scan, depth⟩ front ≠ some (Place.code 0))
    (rest : Text) :
    readFrom scan depth offset raw found (piece ++ rest) =
      readFrom .code 0 (offset + piece.length)
        (piece.reverse ++ raw) found rest := by
  induction piece generalizing scan depth offset raw with
  | nil =>
      obtain ⟨rfl, rfl⟩ : scan = .code ∧ depth = 0 := by
        simpa [Place.code] using walked
      rfl
  | cons c piece ih =>
      obtain ⟨⟨next, after⟩, stepped, onward⟩ :=
        Option.bind_eq_some_iff.mp walked
      have wholeRest : ∀ front rest, piece = front ++ ',' :: rest →
          Place.walk? ⟨next, after⟩ front ≠ some (Place.code 0) := by
        intro front behind shape reached
        refine whole (c :: front) behind (by rw [shape]; rfl) ?_
        rw [Place.walk?_cons, stepped, Option.bind_some]
        exact reached
      have later :
          readFrom next after (offset + 1) (c :: raw) found (piece ++ rest) =
            readFrom .code 0 (offset + (c :: piece).length)
              ((c :: piece).reverse ++ raw) found rest := by
        rw [ih onward wholeRest]
        simp [Nat.add_assoc, Nat.add_comm 1]
      rw [← later, List.cons_append]
      rcases Place.step?_cases stepped with
        ⟨covered, moves⟩ | ⟨inCode, rfl, moves⟩ |
          ⟨inCode, rfl, lower, outside⟩ | ⟨inCode, inert, moves⟩
      · cases moves
        simp [readFrom, covered]
      · cases moves
        obtain rfl : scan = .code := inCode
        rfl
      · obtain rfl : scan = .code := inCode
        obtain rfl : next = .code := outside
        obtain rfl : depth = after + 1 := lower
        rfl
      · cases moves
        obtain rfl : scan = .code := inCode
        have notComma : ¬ (c = ',' ∧ depth = 0) := by
          rintro ⟨rfl, rfl⟩
          exact whole [] piece rfl rfl
        have goesOn := Place.step_code_of_inert inert
        rw [Place.isInert_iff] at inert
        simp [readFrom, Scan.covers, inert, notComma, goesOn]

end ArgumentList

end MacroTrace
