import MacroTrace.Proofs.Occurrence

/-!
# Invocations in context

A well-formed piece of text has the same invocations wherever it stands, up to
their offsets and depths, if the text behind it begins with a character that no
invocation reaches over.  This gives the invocations of a list of pieces that
are separated by commas, with or without a call around it.
-/

namespace MacroTrace

open Literal (Scan)

namespace Text

/-- Whether no invocation in front of a text can reach into it. -/
def IsFence (text : Text) : Prop :=
  ∀ c, text.head? = some c → isWordChar c = false ∧ isBlank c = false ∧ c ≠ '('

end Text

namespace Invocation

/-- What follows a well-formed text does not change the invocation at its
start. -/
theorem heading?_append
    {depth offset level : Nat} {text fence : Text}
    (walked : (Place.code level).walk? text = some (Place.code 0))
    (isFence : fence.IsFence) :
    heading? depth offset (text ++ fence) = heading? depth offset text := by
  have word :=
    List.takeWhile_append_of_head? (fun c head => (isFence c head).1) text
  have after :=
    List.dropWhile_append_of_head? (fun c head => (isFence c head).1) text
  have blanks :=
    List.takeWhile_append_of_head? (fun c head => (isFence c head).2.1)
      (text.dropWhile Text.isWordChar)
  have behind :=
    List.dropWhile_append_of_head? (fun c head => (isFence c head).2.1)
      (text.dropWhile Text.isWordChar)
  simp only [heading?, word, after, blanks, Text.trimLeft, behind]
  cases opened : (text.dropWhile Text.isWordChar).dropWhile Text.isBlank with
  | nil =>
      rw [List.nil_append]
      cases fence with
      | nil => rfl
      | cons c fence =>
          have notOpening := (isFence c rfl).2.2
          simp [notOpening]
  | cons c rest =>
      by_cases opening : c = '('
      · subst opening
        -- The list is closed inside the text, which gets back to the top level.
        have inert : ∀ c ∈ text.takeWhile Text.isWordChar ++
            (text.dropWhile Text.isWordChar).takeWhile Text.isBlank,
              Place.isInert c = true := by
          intro c member
          rcases List.mem_append.mp member with member | member
          · exact Text.isInert_of_isWordChar (List.mem_takeWhile_imp member)
          · exact Text.isInert_of_isBlank (List.mem_takeWhile_imp member)
        have split : text.takeWhile Text.isWordChar ++
            (text.dropWhile Text.isWordChar).takeWhile Text.isBlank ++
              '(' :: rest = text := by
          rw [List.append_assoc, ← opened, List.takeWhile_append_dropWhile,
            List.takeWhile_append_dropWhile]
        rw [← split,
          Place.walk?_append_of_eq_some (Place.walk?_code_of_inert inert level),
          Place.walk?_cons, Place.step?_opening, Option.bind_some] at walked
        have inside : Place.walk? ⟨.code, 0 + (level + 1)⟩ rest =
            some (Place.code 0) := by
          rw [Nat.zero_add]
          exact walked
        have closed : (ArgumentList.readFrom .code 0 (offset +
            (text.takeWhile Text.isWordChar).length +
              ((text.dropWhile Text.isWordChar).takeWhile Text.isBlank).length +
                1) [] []
            rest).isSome = true :=
          ArgumentList.readFrom_isSome (Nat.zero_le level) inside
        obtain ⟨list, read⟩ := Option.isSome_iff_exists.mp closed
        simp only [List.cons_append, read,
          ArgumentList.readFrom_append read fence]
      · simp [opening]

theorem stream_fence
    {fence : Text}
    (isFence : fence.IsFence)
    (scan : Scan) (depth offset : Nat) (inWord : Bool) :
    stream scan depth offset inWord fence =
      stream scan depth offset false fence := by
  cases fence with
  | nil => rfl
  | cons c fence =>
      have notFirst : Text.isIdentifierStart c = false := by
        by_contra first
        rw [Bool.not_eq_false] at first
        have isWord := Text.isWordChar_of_isIdentifierStart first
        rw [(isFence c rfl).1] at isWord
        cases isWord
      rw [stream_cons_of_not_start (.inr notFirst),
        stream_cons_of_not_start (.inr notFirst)]

/-- The invocations of a well-formed text and of what stands behind it. -/
theorem stream_append
    {scan : Scan} {depth offset : Nat} {inWord : Bool} {text fence : Text}
    (walked : Place.walk? ⟨scan, depth⟩ text = some (Place.code 0))
    (isFence : fence.IsFence)
    (distance deeper : Nat) :
    stream scan (depth + deeper) (offset + distance) inWord (text ++ fence) =
      (stream scan depth offset inWord text).map (moved distance deeper) ++
        stream .code deeper (offset + text.length + distance) false fence := by
  induction text generalizing scan depth offset inWord with
  | nil =>
      obtain ⟨rfl, rfl⟩ : scan = .code ∧ depth = 0 := by
        simpa [Place.code] using walked
      rw [List.nil_append, stream_fence isFence, Nat.zero_add]
      rfl
  | cons c text ih =>
      obtain ⟨⟨nextScan, nextDepth⟩, stepped, onward⟩ :=
        Option.bind_eq_some_iff.mp walked
      have scanned : nextScan = scan.step c := Place.scan_of_step? stepped
      subst scanned
      have deep := next_of_step? stepped deeper
      have flat := next_of_step? stepped 0
      simp only [Nat.add_zero] at flat deep
      have later :=
        @ih (scan.step c) nextDepth (offset + 1) (Text.isWordChar c) onward
      rw [Nat.add_right_comm offset 1 distance,
        Nat.add_right_comm offset 1 text.length] at later
      simp only [List.cons_append, stream, deep, flat, later, List.length_cons]
      split
      next starts =>
        simp only [Bool.and_eq_true, Bool.not_eq_true'] at starts
        obtain rfl := scan_eq_code_of_start starts.1.2 starts.2
        have here :
            heading? (depth + deeper) (offset + distance)
                (c :: (text ++ fence)) =
              (heading? depth offset (c :: text)).map
                (moved distance deeper) := by
          rw [← List.cons_append, heading?_append walked isFence,
            heading?_moved]
        rw [here]
        cases heading? depth offset (c :: text) with
        | none => simp [Nat.add_assoc, Nat.add_comm 1]
        | some invocation => simp [Nat.add_assoc, Nat.add_comm 1]
      next => simp [Nat.add_assoc, Nat.add_comm 1]

/-- An invocation lies in the text that it is found in, begins with a letter,
and holds its arguments. -/
structure Within (text : Text) (offset : Nat)
    (invocation : Invocation) : Prop where
  begins : ∃ front c rest, text = front ++ c :: rest ∧
    invocation.start = offset + front.length ∧ Text.isBlank c = false
  order : invocation.start < invocation.stop
  ends : invocation.stop ≤ offset + text.length
  spans : ∀ span ∈ invocation.argumentSpans,
    invocation.start ≤ span.start ∧ span.stop ≤ invocation.stop

private theorem within_of_heading?
    {depth offset : Nat} {c : Char} {rest : Text} {invocation : Invocation}
    (first : Text.isIdentifierStart c = true)
    (found : heading? depth offset (c :: rest) = some invocation) :
    Within (c :: rest) offset invocation := by
  have isWord := Text.isWordChar_of_isIdentifierStart first
  have start := (start_of_heading? found).1
  have length : 0 < ((c :: rest).takeWhile Text.isWordChar).length := by
    simp [isWord]
  have begins : ∃ front d tail, c :: rest = front ++ d :: tail ∧
      invocation.start = offset + front.length ∧ Text.isBlank d = false :=
    ⟨[], c, rest, rfl, start, Text.isBlank_of_isWordChar isWord⟩
  rcases heading?_cases found with
    ⟨after, shape, rfl⟩ | ⟨blanks, inner, list, _, shape, read, rfl⟩
  · have bound := congrArg List.length shape
    rw [List.length_append] at bound
    refine ⟨begins, ?_, ?_, nofun⟩
    · simp only
      omega
    · simp only
      omega
  · have bound := congrArg List.length shape
    simp only [List.length_append, List.length_cons] at bound
    have stops := ArgumentList.stop_of_readFrom read
    refine ⟨begins, ?_, ?_, ?_⟩
    · simp only
      omega
    · simp only [List.length_cons]
      omega
    · intro span member
      obtain ⟨argument, listed, rfl⟩ := List.mem_map.mp member
      rcases ArgumentList.span_of_readFrom read (Nat.zero_le _) listed with
        earlier | inside
      · cases earlier
      · simp only [List.length_nil] at inside ⊢
        omega

theorem within_of_mem_stream
    {scan : Scan} {depth offset : Nat} {inWord : Bool} {text : Text}
    {invocation : Invocation}
    (member : invocation ∈ stream scan depth offset inWord text) :
    Within text offset invocation := by
  induction text generalizing scan depth offset inWord with
  | nil => cases member
  | cons c rest ih =>
      rcases mem_stream_cons member with ⟨_, first, _, found⟩ | later
      · exact within_of_heading? first found
      · have within := ih later
        obtain ⟨front, d, tail, shape, start, solid⟩ := within.begins
        refine ⟨⟨c :: front, d, tail, by rw [shape]; rfl, ?_, solid⟩,
          within.order, ?_, within.spans⟩
        · rw [start, List.length_cons]
          omega
        · have ends := within.ends
          rw [List.length_cons]
          omega

theorem within_of_mem_all
    {text : Text} {invocation : Invocation}
    (member : invocation ∈ all text) :
    Within text 0 invocation := by
  rw [all_eq_stream] at member
  exact within_of_mem_stream member

theorem Within.start_lt
    {text : Text} {offset : Nat} {invocation : Invocation}
    (within : Within text offset invocation) :
    invocation.start < offset + text.length :=
  Nat.lt_of_lt_of_le within.order within.ends

end Invocation

end MacroTrace
