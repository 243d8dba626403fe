import MacroTrace.Proofs.Context

/-!
# Pieces between commas

A slot is a piece of text that stands between commas, and a frame is a list of
slots, written one after another.  If the slots hold no comma of their own at
the top level, a frame is read back slot by slot: the invocations of the frame
are those of the slots, and a call with a frame between its parentheses has the
slots as its arguments.
-/

namespace MacroTrace

open Literal (Scan)

/-- Well-formed, and without a comma outside literals and parentheses. -/
structure Text.Contained (text : Text) : Prop where
  formed : WellFormed text
  commas : text.CommasEnclosed

instance (text : Text) : Decidable text.Contained :=
  decidable_of_iff (WellFormed text ∧ text.CommasEnclosed)
    ⟨fun both => ⟨both.1, both.2⟩,
      fun contained => ⟨contained.formed, contained.commas⟩⟩

theorem Text.Contained.of_not_mem
    {text : Text}
    (formed : WellFormed text)
    (absent : ',' ∉ text) :
    text.Contained :=
  ⟨formed, .of_not_mem absent⟩

theorem Text.Contained.walk?_ne
    {text front rest : Text}
    (contained : text.Contained)
    (shape : text = front ++ ',' :: rest) :
    (Place.code 0).walk? front ≠ some (Place.code 0) := by
  intro reached
  have inCode : Scan.code.run front = .code :=
    (Place.scan_of_walk? reached).symm
  have level : Nesting.behind .code 0 front = 0 :=
    Invocation.behind_of_walk? reached
  have enclosed :=
    CommasEnclosed.iff_forall_append.mp contained.commas front rest shape
  rw [inCode, level] at enclosed
  exact absurd enclosed (by decide)

/-- Two contained texts in front of a comma are found by reading up to the
comma. -/
theorem Text.Contained.eq_of_append_comma
    {one other rest restOther : Text}
    (contained : one.Contained)
    (containedOther : other.Contained)
    (same : one ++ ',' :: rest = other ++ ',' :: restOther) :
    one = other ∧ rest = restOther := by
  have noLonger {short long after behind : Text} (formed : WellFormed short)
      (contained : long.Contained) (longer : long = short ++ after)
      (same : ',' :: behind = after ++ ',' :: rest ∨
        ',' :: behind = after ++ ',' :: restOther) :
      after = [] := by
    cases after with
    | nil => rfl
    | cons c after =>
        have comma : c = ',' := by
          rcases same with same | same <;> exact (List.cons.inj same).1.symm
        rw [comma] at longer
        exact absurd (formed.walk? 0) (contained.walk?_ne longer)
  rcases List.append_eq_append_iff.mp same with
    ⟨after, shape, behind⟩ | ⟨after, shape, behind⟩
  · have none := noLonger contained.formed containedOther shape (.inr behind)
    subst none
    exact ⟨by simpa using shape.symm, by simpa using behind⟩
  · have none := noLonger containedOther.formed contained shape (.inl behind)
    subst none
    exact ⟨by simpa using shape, by simpa using behind.symm⟩

/-- A piece of text between commas, and whether what it holds may be
expanded. -/
structure Slot where
  text : Text
  isOpen : Bool
  deriving DecidableEq, Repr

namespace Slot

def join (slots : List Slot) : Text :=
  Text.joinWith [',', ' '] (slots.map (·.text))

@[simp] theorem join_nil : join [] = [] := rfl

@[simp] theorem join_singleton (slot : Slot) : join [slot] = slot.text := by
  simp [join, Text.joinWith]

theorem join_cons_cons (first second : Slot) (rest : List Slot) :
    join (first :: second :: rest) =
      first.text ++ ',' :: ' ' :: join (second :: rest) := by
  simp [join, Text.joinWith, List.intercalate_cons_cons]

/-- The slots of a frame are determined by what is written. -/
theorem text_eq_of_join_eq
    {slots others : List Slot}
    (count : slots.length = others.length)
    (contained : ∀ slot ∈ slots, slot.text.Contained)
    (containedOthers : ∀ slot ∈ others, slot.text.Contained)
    (same : join slots = join others) :
    ∀ pair ∈ slots.zip others, pair.1.text = pair.2.text := by
  match slots, others with
  | [], [] => simp
  | [slot], [other] => simpa using same
  | first :: second :: rest, firstOther :: secondOther :: restOther =>
      rw [join_cons_cons, join_cons_cons] at same
      obtain ⟨here, behind⟩ := (contained first (by simp)).eq_of_append_comma
        (containedOthers firstOther (by simp)) same
      have later := text_eq_of_join_eq (by simpa using count)
        (fun slot member => contained slot (List.mem_cons_of_mem _ member))
        (fun slot member =>
          containedOthers slot (List.mem_cons_of_mem _ member))
        (List.cons.inj behind).2
      intro pair member
      rcases List.mem_cons.mp member with rfl | member
      · exact here
      · exact later pair member

/-- The invocations of slots that stand one after another from `offset` on. -/
def invocations (depth offset : Nat) : List Slot → List Invocation
  | [] => []
  | slot :: rest =>
      (Invocation.all slot.text).map (Invocation.moved offset depth) ++
        invocations depth (offset + slot.text.length + 2) rest

theorem stream_join
    {slots : List Slot}
    (formed : ∀ slot ∈ slots, WellFormed slot.text)
    (depth offset : Nat)
    {fence : Text}
    (isFence : fence.IsFence) :
    Invocation.stream .code depth offset false (join slots ++ fence) =
      invocations depth offset slots ++
        Invocation.stream .code depth
          (offset + (join slots).length) false fence := by
  have one {slot : Slot} (formed : WellFormed slot.text) (offset : Nat)
      {fence : Text} (isFence : fence.IsFence) :
      Invocation.stream .code depth offset false (slot.text ++ fence) =
        (Invocation.all slot.text).map (Invocation.moved offset depth) ++
          Invocation.stream .code depth
            (offset + slot.text.length) false fence := by
    have split :=
      @Invocation.stream_append .code 0 0 false slot.text fence
        (formed.walk? 0) isFence offset depth
    rw [Nat.zero_add, Nat.zero_add, Nat.zero_add] at split
    rw [split, Invocation.all_eq_stream, Nat.add_comm offset]
  induction slots generalizing offset with
  | nil => rfl
  | cons first rest ih =>
      have formedFirst := formed first List.mem_cons_self
      cases rest with
      | nil =>
          rw [join_singleton, one formedFirst offset isFence]
          simp [invocations]
      | cons second rest =>
          have comma :
              Text.IsFence (',' :: ' ' :: join (second :: rest) ++ fence) := by
            intro c head
            cases head
            decide
          have later :=
            ih (fun slot member => formed slot (List.mem_cons_of_mem _ member))
              (offset + first.text.length + 2)
          have skip :
              Invocation.stream .code depth (offset + first.text.length) false
                (',' :: ' ' :: join (second :: rest) ++ fence) =
                  Invocation.stream .code depth
                    (offset + first.text.length + 2) false
                    (join (second :: rest) ++ fence) := rfl
          rw [join_cons_cons, List.append_assoc, one formedFirst offset comma,
            skip, later]
          simp [invocations, Nat.add_assoc, Nat.add_comm 2]

/-- The arguments that slots from `offset` on are read as. -/
def arguments (offset : Nat) : List Slot → List Argument
  | [] => []
  | slot :: rest =>
      Argument.ofRaw slot.text offset ::
        arguments (offset + slot.text.length + 2) rest

theorem map_text_arguments (offset : Nat) (slots : List Slot) :
    (arguments offset slots).map (·.text) = slots.map fun slot =>
      Text.trim slot.text := by
  induction slots generalizing offset with
  | nil => rfl
  | cons slot rest ih =>
      rw [arguments, List.map_cons, List.map_cons, ih]
      rfl

/-- Whether a frame is read as no argument at all. -/
def isVoid : List Slot → Bool
  | [] => true
  | [slot] => (Text.trim slot.text).isEmpty
  | _ :: _ :: _ => false

/-- Trimmed slots are read back, unless there is an empty one only. -/
theorem map_trim_of_present
    {slots : List Slot}
    (trimmed : ∀ slot ∈ slots, Text.trim slot.text = slot.text)
    (present : slots.map (·.text) ≠ [[]]) :
    (if isVoid slots then [] else slots.map fun slot => Text.trim slot.text) =
      slots.map (·.text) := by
  rw [List.map_congr_left trimmed]
  match slots with
  | [] => rfl
  | [slot] =>
      have solid : Text.trim slot.text ≠ [] := by
        rw [trimmed slot List.mem_cons_self]
        intro empty
        exact present (by rw [List.map_singleton, empty])
      have notVoid : isVoid [slot] = false := by simpa [isVoid] using solid
      rw [notVoid]
      rfl
  | _ :: _ :: _ => rfl

theorem ofRaw_blanks
    {blanks : Text}
    (blank : ∀ c ∈ blanks, Text.isBlank c = true)
    (text : Text) (start : Nat) :
    Argument.ofRaw (blanks ++ text) start =
      Argument.ofRaw text (start + blanks.length) := by
  simp only [Argument.ofRaw, Text.trim, Text.trimLeft,
    List.dropWhile_append_of_pos blank, List.takeWhile_append_of_pos blank,
    List.length_append, Nat.add_assoc]

private theorem readFrom_slot
    {slot : Slot}
    (contained : slot.text.Contained)
    {offset : Nat} {raw : Text}
    (blank : ∀ c ∈ raw, Text.isBlank c = true)
    (fits : raw.length ≤ offset)
    (found : List Argument) (rest : Text) :
    ArgumentList.readFrom .code 0 offset raw found (slot.text ++ rest) =
        ArgumentList.readFrom .code 0 (offset + slot.text.length)
          (slot.text.reverse ++ raw) found rest ∧
      Argument.ofRaw (slot.text.reverse ++ raw).reverse
          (offset + slot.text.length - (slot.text.reverse ++ raw).length) =
        Argument.ofRaw slot.text offset := by
  refine ⟨?_, ?_⟩
  · apply ArgumentList.readFrom_piece (contained.formed.walk? 0)
    intro front behind shape
    exact contained.walk?_ne shape
  · rw [List.reverse_append, List.reverse_reverse,
      ofRaw_blanks fun c member => blank c (List.mem_reverse.mp member)]
    congr 1
    simp only [List.length_append, List.length_reverse]
    omega

/-- Slots are read back one after another. -/
theorem readFrom_join
    {first : Slot} {rest : List Slot}
    (contained : ∀ slot ∈ first :: rest, slot.text.Contained)
    {offset : Nat} {raw : Text}
    (blank : ∀ c ∈ raw, Text.isBlank c = true)
    (fits : raw.length ≤ offset)
    (found : List Argument) (after : Text) :
    ArgumentList.readFrom .code 0 offset raw found
        (join (first :: rest) ++ ')' :: after) =
      some ⟨if found.isEmpty && isVoid (first :: rest) then []
        else found.reverse ++ arguments offset (first :: rest),
        offset + (join (first :: rest)).length + 1⟩ := by
  induction rest generalizing first offset raw found with
  | nil =>
      have containedFirst := contained first List.mem_cons_self
      obtain ⟨taken, made⟩ :=
        readFrom_slot containedFirst blank fits found (')' :: after)
      rw [join_singleton, taken, ArgumentList.readFrom_closing (by decide)]
      have same : (Argument.ofRaw first.text offset).text.isEmpty =
          isVoid [first] := rfl
      simp only [ArgumentList.finish, made, same, arguments, Option.some.injEq,
        ArgumentList.mk.injEq, and_true]
      by_cases void : (found.isEmpty && isVoid [first]) = true
      · rw [if_pos void, if_pos void]
        rfl
      · rw [if_neg void, if_neg void, List.reverse_cons]
  | cons second rest ih =>
      have containedFirst := contained first List.mem_cons_self
      obtain ⟨taken, made⟩ := readFrom_slot containedFirst blank fits found
        (',' :: ' ' :: (join (second :: rest) ++ ')' :: after))
      have later :=
        @ih second
          (fun slot member => contained slot (List.mem_cons_of_mem _ member))
          (offset + first.text.length + 2) [' ']
          (List.forall_mem_singleton.mpr rfl)
          (by simp only [List.length_singleton]; omega)
          (Argument.ofRaw first.text offset :: found)
      have comma : ArgumentList.readFrom .code 0 (offset + first.text.length)
          (first.text.reverse ++ raw) found
            (',' :: ' ' :: (join (second :: rest) ++ ')' :: after)) =
          ArgumentList.readFrom .code 0 (offset + first.text.length + 2) [' ']
            (Argument.ofRaw (first.text.reverse ++ raw).reverse
              (offset + first.text.length -
                (first.text.reverse ++ raw).length) :: found)
            (join (second :: rest) ++ ')' :: after) := rfl
      rw [join_cons_cons, List.append_assoc, List.cons_append, List.cons_append,
        taken, comma, made, later]
      simp [isVoid, arguments, Nat.add_assoc, Nat.add_comm 2]

/-- A call with a frame between its parentheses. -/
def callText (name : Text) (slots : List Slot) : Text :=
  name ++ '(' :: (join slots ++ [')'])

/-- The call as an invocation, at the start of its text. -/
def call (name : Text) (slots : List Slot) : Invocation :=
  ⟨name, some (if isVoid slots then [] else arguments (name.length + 1) slots),
    0, (callText name slots).length, 0⟩

theorem readFrom_callText
    (name : Text)
    {slots : List Slot}
    (contained : ∀ slot ∈ slots, slot.text.Contained) :
    ArgumentList.readFrom .code 0 (name.length + 1) [] []
        (join slots ++ [')']) =
      some ⟨if isVoid slots then [] else arguments (name.length + 1) slots,
        (callText name slots).length⟩ := by
  cases slots with
  | nil =>
      have length : (callText name []).length = name.length + 1 + 1 := by
        simp [callText]
      rw [length]
      rfl
  | cons first rest =>
      have read :=
        @readFrom_join first rest contained (name.length + 1) [] (by simp)
          (Nat.zero_le _) [] []
      have length : (callText name (first :: rest)).length =
          name.length + 1 + (join (first :: rest)).length + 1 := by
        simp only [callText, List.length_append, List.length_cons,
          List.length_nil]
        omega
      rw [length]
      exact read

theorem heading?_callText
    {name : Text}
    (letters : ∀ c ∈ name, Text.isWordChar c = true)
    {slots : List Slot}
    (contained : ∀ slot ∈ slots, slot.text.Contained) :
    Invocation.heading? 0 0 (callText name slots) = some (call name slots) := by
  have stops : ∀ c, ('(' :: (join slots ++ [')'])).head? = some c →
      Text.isWordChar c = false := by
    intro c head
    cases head
    decide
  have word : (callText name slots).takeWhile Text.isWordChar = name := by
    rw [callText, List.takeWhile_append_of_head? stops]
    exact List.takeWhile_eq_self_iff.mpr letters
  have after : (callText name slots).dropWhile Text.isWordChar =
      '(' :: (join slots ++ [')']) := by
    rw [callText, List.dropWhile_append_of_pos letters]
    rfl
  have trimmed : Text.trimLeft ('(' :: (join slots ++ [')'])) =
      '(' :: (join slots ++ [')']) := rfl
  have blanks : ('(' :: (join slots ++ [')'])).takeWhile Text.isBlank = [] :=
    rfl
  simp only [Invocation.heading?, word, after, trimmed, blanks, List.length_nil,
    Nat.add_zero, Nat.zero_add, readFrom_callText name contained]
  rfl

/-- The invocations of a call are the call itself and those of its slots. -/
theorem all_callText
    {name : Text}
    (identifier : name.isIdentifier = true)
    {slots : List Slot}
    (contained : ∀ slot ∈ slots, slot.text.Contained) :
    Invocation.all (callText name slots) =
      call name slots :: invocations 1 (name.length + 1) slots := by
  simp only [Text.isIdentifier, Bool.and_eq_true, List.all_eq_true]
    at identifier
  obtain ⟨first, letters⟩ := identifier
  have here := heading?_callText letters contained
  rw [Invocation.all_eq_stream]
  cases name with
  | nil => simp at first
  | cons c name =>
      have starts : Text.isIdentifierStart c = true := by simpa using first
      have isWord := letters c List.mem_cons_self
      have inert := Text.isInert_of_isWordChar isWord
      have uncovered : Scan.code.covers c = false := by
        simp only [Place.isInert, Bool.and_eq_true, Bool.not_eq_true'] at inert
        exact inert.1.1
      have closing : Text.IsFence [')'] := by
        intro d head
        cases head
        decide
      have inner :
          Invocation.stream .code 0 1 true
              (name ++ '(' :: (join slots ++ [')'])) =
            invocations 1 (name.length + 1 + 1) slots := by
        rw [Invocation.stream_word fun d member =>
            letters d (List.mem_cons_of_mem _ member)]
        have opened :=
          @Invocation.stream_blanks [] (by simp) 0 (1 + name.length) true
            (join slots ++ [')'])
        rw [List.nil_append, List.length_nil, Nat.add_zero] at opened
        rw [opened,
          stream_join (fun slot member => (contained slot member).formed)
            _ _ closing]
        have none (offset : Nat) :
            Invocation.stream .code (0 + 1) offset false [')'] = [] := rfl
        rw [none, List.append_nil, Nat.add_comm 1 name.length]
      change Invocation.stream .code 0 0 false
        (c :: (name ++ '(' :: (join slots ++ [')']))) = _
      change Invocation.heading? 0 0
        (c :: (name ++ '(' :: (join slots ++ [')']))) = _ at here
      rw [Invocation.stream]
      simp only [starts, uncovered, Bool.not_false, Bool.and_self,
        if_true, here]
      rw [Place.step_code_of_inert inert, Invocation.next_code_of_inert inert,
        isWord, Nat.zero_add, inner]
      rfl

end Slot

end MacroTrace
