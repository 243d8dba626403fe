import MacroTrace.Proofs.Invocation
import Mathlib.Data.List.SplitBy

/-!
# Pieces

A text falls into pieces: its words, and every other character by itself.  When
a word is replaced, the other pieces stay as they are, since a word has no word
characters beside it; so nothing is joined to the text that takes its place.
-/

namespace MacroTrace

namespace Text

/-- The words of a text and its other characters, in order. -/
def pieces (text : Text) : List Text :=
  text.splitBy fun c d => isWordChar c && isWordChar d

@[simp] theorem flatten_pieces (text : Text) : (pieces text).flatten = text :=
  List.flatten_splitBy _ text

/-- A text without a word character at its end. -/
def EndsApart (text : Text) : Prop :=
  ∀ c ∈ text.getLast?, isWordChar c = false

/-- A text without a word character at its start. -/
def BeginsApart (text : Text) : Prop :=
  ∀ c ∈ text.head?, isWordChar c = false

theorem pieces_append_of_endsApart
    {left : Text}
    (ends : EndsApart left)
    (right : Text) :
    pieces (left ++ right) = pieces left ++ pieces right := by
  apply List.splitBy_append
  intro c last d _
  rw [ends c last, Bool.false_and]

theorem pieces_append_of_beginsApart
    {right : Text}
    (begins : BeginsApart right)
    (left : Text) :
    pieces (left ++ right) = pieces left ++ pieces right := by
  apply List.splitBy_append
  intro c _ d first
  rw [begins d first, Bool.and_false]

theorem pieces_word
    {word : Text}
    (nonempty : word ≠ [])
    (letters : ∀ c ∈ word, isWordChar c = true) :
    pieces word = [word] := by
  apply List.splitBy_of_isChain nonempty
  apply List.Pairwise.isChain
  apply List.Pairwise.imp_of_mem _ (List.pairwise_of_forall fun _ _ => trivial)
  intro c d first second _
  rw [letters c first, letters d second]
  rfl

theorem pieces_word_append
    {word after : Text}
    (nonempty : word ≠ [])
    (letters : ∀ c ∈ word, isWordChar c = true)
    (begins : BeginsApart after) :
    pieces (word ++ after) = word :: pieces after := by
  rw [pieces_append_of_beginsApart begins, pieces_word nonempty letters,
    List.singleton_append]

theorem pieces_cons
    {c : Char}
    (other : isWordChar c = false)
    (rest : Text) :
    pieces (c :: rest) = [c] :: pieces rest := by
  have ends : EndsApart [c] := by
    rintro d ⟨⟩
    exact other
  exact pieces_append_of_endsApart ends rest

theorem beginsApart_dropWhile (text : Text) :
    BeginsApart (text.dropWhile isWordChar) := by
  intro c first
  have notWord := List.head?_dropWhile_not isWordChar text
  rw [Option.mem_def.mp first] at notWord
  simpa using notWord

theorem takeWhile_letters
    {name rest : Text}
    (letters : ∀ c ∈ name, isWordChar c = true)
    (begins : BeginsApart rest) :
    (name ++ rest).takeWhile isWordChar = name := by
  rw [List.takeWhile_append_of_pos letters]
  cases rest with
  | nil => exact List.append_nil name
  | cons c rest =>
      rw [List.takeWhile_cons_of_neg (by simp [begins c rfl]), List.append_nil]

/-- Texts are read piece by piece. -/
@[elab_as_elim]
theorem pieces_induction
    {motive : Text → Prop}
    (nil : motive [])
    (other : ∀ c rest, isWordChar c = false → motive rest → motive (c :: rest))
    (word : ∀ word after, word ≠ [] → (∀ c ∈ word, isWordChar c = true) →
      BeginsApart after →
      motive after → motive (word ++ after))
    (text : Text) :
    motive text := by
  induction length : text.length using Nat.strongRecOn generalizing text with
  | ind number ih =>
      cases text with
      | nil => exact nil
      | cons c rest =>
          cases isWord : isWordChar c with
          | false =>
              exact other c rest isWord
                (ih rest.length (by simp at length; omega) rest rfl)
          | true =>
              have split :=
                List.takeWhile_append_dropWhile (p := isWordChar)
                  (l := c :: rest)
              have nonempty : (c :: rest).takeWhile isWordChar ≠ [] := by
                simp [isWord]
              have shorter :
                  ((c :: rest).dropWhile isWordChar).length < number := by
                have lengths := congrArg List.length split
                have positive := List.length_pos_iff.mpr nonempty
                rw [List.length_append] at lengths
                omega
              rw [← split]
              exact word _ _ nonempty
                (fun d member => List.mem_takeWhile_imp member)
                (beginsApart_dropWhile _) (ih _ shorter _ rfl)

theorem pieces_flatten_of_append
    {text : Text} {front back : List Text}
    (shape : pieces text = front ++ back) :
    pieces front.flatten = front ∧ pieces back.flatten = back := by
  obtain ⟨_, noEmpty, runs, breaks⟩ := List.splitBy_eq_iff.mp shape
  obtain ⟨breaksFront, breaksBack, _⟩ := List.isChain_append.mp breaks
  rw [List.mem_append, not_or] at noEmpty
  constructor
  · exact List.splitBy_flatten noEmpty.1
      (fun piece member => runs piece (List.mem_append_left _ member))
      breaksFront
  · exact List.splitBy_flatten noEmpty.2
      (fun piece member => runs piece (List.mem_append_right _ member))
      breaksBack

/-- A word among the pieces has no word characters beside it. -/
theorem apart_of_pieces
    {text : Text} {front back : List Text} {word : Text}
    (shape : pieces text = front ++ word :: back)
    (letters : ∀ c ∈ word, isWordChar c = true) :
    EndsApart front.flatten ∧ BeginsApart back.flatten := by
  obtain ⟨_, _, _, breaks⟩ := List.splitBy_eq_iff.mp shape
  obtain ⟨_, breaksBack, between⟩ := List.isChain_append.mp breaks
  constructor
  · intro c last
    rcases List.eq_nil_or_concat' front with rfl | ⟨others, piece, rfl⟩
    · cases last
    · obtain ⟨nonempty, _, apart⟩ := between piece (by simp) word rfl
      rw [letters _ (List.head_mem _), Bool.and_true] at apart
      rw [List.flatten_append, List.flatten_singleton,
        List.getLast?_append_of_ne_nil _ nonempty,
        List.getLast?_eq_some_getLast nonempty] at last
      cases last
      exact apart
  · intro c first
    cases back with
    | nil => cases first
    | cons piece others =>
        obtain ⟨_, nonempty, apart⟩ :=
          (List.isChain_cons.mp breaksBack).1 piece rfl
        rw [letters _ (List.getLast_mem _), Bool.true_and] at apart
        rw [List.flatten_cons, List.head?_append_of_ne_nil _ nonempty,
          List.head?_eq_some_head nonempty] at first
        cases first
        exact apart

/-- What takes the place of a word keeps its pieces and leaves the others
alone. -/
theorem pieces_splice
    {text : Text} {front back : List Text} {word : Text}
    (shape : pieces text = front ++ word :: back)
    (letters : ∀ c ∈ word, isWordChar c = true)
    (body : Text) :
    pieces (front.flatten ++ body ++ back.flatten) =
      front ++ pieces body ++ back := by
  obtain ⟨ends, begins⟩ := apart_of_pieces shape letters
  have sameFront := (pieces_flatten_of_append shape).1
  have sameBack : pieces back.flatten = back := by
    rw [List.append_cons] at shape
    exact (pieces_flatten_of_append shape).2
  rw [pieces_append_of_beginsApart begins, pieces_append_of_endsApart ends,
    sameFront, sameBack]

/-- Pieces with the offsets at which they stand, if the first one stands at
`offset`. -/
def located (offset : Nat) : List Text → List (Nat × Text)
  | [] => []
  | piece :: rest => (offset, piece) :: located (offset + piece.length) rest

theorem located_append (offset : Nat) (front back : List Text) :
    located offset (front ++ back) =
      located offset front ++ located (offset + front.flatten.length) back := by
  induction front generalizing offset with
  | nil => rfl
  | cons piece front ih =>
      rw [List.cons_append, located, located, ih, List.flatten_cons,
        List.length_append, Nat.add_assoc, List.cons_append]

theorem bounds_of_mem_located
    {start offset : Nat} {pieces : List Text} {piece : Text}
    (member : (offset, piece) ∈ located start pieces) :
    start ≤ offset ∧ offset + piece.length ≤ start + pieces.flatten.length := by
  induction pieces generalizing start with
  | nil => cases member
  | cons first pieces ih =>
      rw [List.flatten_cons, List.length_append]
      rcases List.mem_cons.mp member with here | later
      · obtain ⟨rfl, rfl⟩ := Prod.mk.inj here
        omega
      · have bounds := ih later
        omega

theorem mem_located_of_mem_located
    {start offset : Nat} {pieces : List Text} {piece : Text}
    (member : (offset, piece) ∈ located start pieces)
    (other : Nat) :
    (offset - start + other, piece) ∈ located other pieces := by
  induction pieces generalizing start other with
  | nil => cases member
  | cons first pieces ih =>
      rcases List.mem_cons.mp member with here | later
      · obtain ⟨rfl, rfl⟩ := Prod.mk.inj here
        rw [Nat.sub_self, Nat.zero_add]
        exact List.mem_cons_self
      · have bounds := bounds_of_mem_located later
        have place : offset - start + other =
            offset - (start + first.length) + (other + first.length) := by omega
        rw [place]
        exact List.mem_cons_of_mem _ (ih later (other + first.length))

theorem exists_append_of_mem_located
    {start offset : Nat} {pieces : List Text} {piece : Text}
    (member : (offset, piece) ∈ located start pieces) :
    ∃ front back, pieces = front ++ piece :: back ∧
      offset = start + front.flatten.length := by
  induction pieces generalizing start with
  | nil => cases member
  | cons first pieces ih =>
      rcases List.mem_cons.mp member with here | later
      · obtain ⟨rfl, rfl⟩ := Prod.mk.inj here
        exact ⟨[], pieces, rfl, rfl⟩
      · obtain ⟨front, back, rfl, rfl⟩ := ih later
        refine ⟨first :: front, back, rfl, ?_⟩
        rw [List.flatten_cons, List.length_append, Nat.add_assoc]

/-- The identifiers among pieces, with their offsets. -/
def identifiersFrom (offset : Nat) (pieces : List Text) : List (Nat × Text) :=
  (located offset pieces).filter fun entry => isIdentifier entry.2

/-- The identifiers of a text, with their offsets. -/
def identifiers (text : Text) : List (Nat × Text) :=
  identifiersFrom 0 (pieces text)

theorem isWordChar_of_isIdentifier
    {name : Text}
    (identifier : isIdentifier name = true) :
    ∀ c ∈ name, isWordChar c = true := by
  rw [isIdentifier, Bool.and_eq_true] at identifier
  exact List.all_eq_true.mp identifier.2

theorem ne_nil_of_isIdentifier
    {name : Text}
    (identifier : isIdentifier name = true) :
    name ≠ [] := by
  rintro rfl
  cases identifier

theorem identifiersFrom_append (offset : Nat) (front back : List Text) :
    identifiersFrom offset (front ++ back) =
      identifiersFrom offset front ++
        identifiersFrom (offset + front.flatten.length) back := by
  rw [identifiersFrom, located_append, List.filter_append]
  rfl

theorem bounds_of_mem_identifiersFrom
    {start offset : Nat} {pieces : List Text} {name : Text}
    (member : (offset, name) ∈ identifiersFrom start pieces) :
    start ≤ offset ∧ offset < start + pieces.flatten.length := by
  obtain ⟨listed, identifier⟩ := List.mem_filter.mp member
  have bounds := bounds_of_mem_located listed
  have positive : 0 < name.length :=
    List.length_pos_iff.mpr (ne_nil_of_isIdentifier identifier)
  omega

theorem mem_identifiersFrom_of_mem
    {start offset : Nat} {pieces : List Text} {name : Text}
    (member : (offset, name) ∈ identifiersFrom start pieces)
    (other : Nat) :
    (offset - start + other, name) ∈ identifiersFrom other pieces := by
  obtain ⟨listed, identifier⟩ := List.mem_filter.mp member
  exact List.mem_filter.mpr ⟨mem_located_of_mem_located listed other,
    identifier⟩

/-- Where an identifier of a text stands. -/
theorem exists_append_of_mem_identifiers
    {text name : Text} {offset : Nat}
    (member : (offset, name) ∈ identifiers text) :
    ∃ front back,
      pieces text = front ++ name :: back ∧ offset = front.flatten.length ∧
        text.take offset = front.flatten ∧ text.drop (offset + name.length) =
          back.flatten := by
  obtain ⟨listed, _⟩ := List.mem_filter.mp member
  obtain ⟨front, back, shape, place⟩ := exists_append_of_mem_located listed
  rw [Nat.zero_add] at place
  have whole : text = front.flatten ++ (name ++ back.flatten) := by
    rw [← flatten_pieces text, shape, List.flatten_append, List.flatten_cons]
  refine ⟨front, back, shape, place, ?_, ?_⟩
  · rw [whole, place, List.take_left]
  · rw [whole, place, ← List.drop_drop, List.drop_left, List.drop_left]

/-- The identifiers of a text in which another one was replaced. -/
theorem identifiers_splice
    {text name : Text} {front back : List Text}
    (shape : pieces text = front ++ name :: back)
    (identifier : isIdentifier name = true)
    (body : Text) :
    identifiers (front.flatten ++ body ++ back.flatten) =
      identifiersFrom 0 front ++ identifiersFrom front.flatten.length
        (pieces body) ++
        identifiersFrom (front.flatten.length + body.length) back := by
  rw [identifiers, pieces_splice shape (isWordChar_of_isIdentifier identifier),
    identifiersFrom_append, identifiersFrom_append, List.flatten_append,
    flatten_pieces, List.length_append, Nat.zero_add, Nat.zero_add]

theorem identifiers_of_pieces
    {text name : Text} {front back : List Text}
    (shape : pieces text = front ++ name :: back) :
    identifiers text =
      identifiersFrom 0 front ++ identifiersFrom front.flatten.length
        (name :: back) := by
  rw [identifiers, shape, identifiersFrom_append, Nat.zero_add]

theorem isIdentifier_singleton
    {c : Char}
    (other : isWordChar c = false) :
    isIdentifier [c] = false := by
  simp [isIdentifier, other]

theorem isIdentifier_word
    {word : Text}
    (letters : ∀ c ∈ word, isWordChar c = true) :
    isIdentifier word = word.head?.any isIdentifierStart := by
  rw [isIdentifier, List.all_eq_true.mpr letters, Bool.and_true]

end Text

namespace Word

theorem stream_beginsApart
    {after : Text}
    (begins : Text.BeginsApart after)
    (before : Text) (offset : Nat) (inWord : Bool) :
    stream before offset inWord after = stream before offset false after := by
  cases after with
  | nil => rfl
  | cons c rest => simp [stream, begins c rfl]

theorem stream_letters
    {word : Text}
    (letters : ∀ c ∈ word, Text.isWordChar c = true)
    (before : Text) (offset : Nat) (after : Text) :
    stream before offset true (word ++ after) =
      stream (word.reverse ++ before) (offset + word.length) true after := by
  induction word generalizing before offset with
  | nil => rfl
  | cons c word ih =>
      have later :=
        ih (fun d member => letters d (List.mem_cons_of_mem _ member))
          (c :: before) (offset + 1)
      simp only [List.cons_append, stream, letters c List.mem_cons_self, later]
      simp [Nat.add_assoc, Nat.add_comm 1]

theorem stream_word
    {word after : Text}
    (nonempty : word ≠ [])
    (letters : ∀ c ∈ word, Text.isWordChar c = true)
    (begins : Text.BeginsApart after)
    (before : Text) (offset : Nat) :
    stream before offset false (word ++ after) =
      ⟨word, offset, before, after⟩ ::
        stream (word.reverse ++ before) (offset + word.length) false after := by
  cases word with
  | nil => exact absurd rfl nonempty
  | cons c word =>
      have isWord := letters c List.mem_cons_self
      have inner : ∀ d ∈ word, Text.isWordChar d = true :=
        fun d member => letters d (List.mem_cons_of_mem _ member)
      have taken : (c :: (word ++ after)).takeWhile Text.isWordChar =
          c :: word := by
        rw [← List.cons_append, List.takeWhile_append_of_pos letters]
        cases after with
        | nil => simp
        | cons d after => simp [begins d rfl]
      have dropped : (c :: (word ++ after)).dropWhile Text.isWordChar =
          after := by
        rw [← List.cons_append, List.dropWhile_append_of_pos letters]
        cases after with
        | nil => rfl
        | cons d after => simp [begins d rfl]
      simp only [List.cons_append, stream, isWord, Bool.not_false,
        Bool.and_self, if_true, taken, dropped, stream_letters inner]
      rw [stream_beginsApart begins]
      simp [Nat.add_assoc, Nat.add_comm 1]

theorem filter_stream (before : Text) (offset : Nat) (text : Text) :
    ((stream before offset false text).filter isIdentifier).map
        (fun word => (word.start, word.spelling)) =
      Text.identifiersFrom offset (Text.pieces text) := by
  induction text using Text.pieces_induction generalizing before offset with
  | nil => rfl
  | other c rest other ih =>
      rw [Text.pieces_cons other, Text.identifiersFrom, Text.located,
        List.filter_cons_of_neg (by simp [Text.isIdentifier_singleton other])]
      simp only [stream, other, Bool.and_false, Bool.false_eq_true, if_false]
      exact ih (c :: before) (offset + 1)
  | word word after nonempty letters begins ih =>
      have later := ih (word.reverse ++ before) (offset + word.length)
      rw [stream_word nonempty letters begins,
        Text.pieces_word_append nonempty letters begins, Text.identifiersFrom,
        Text.located, List.filter_cons, List.filter_cons,
        Text.isIdentifier_word letters]
      change List.map _ (if word.head?.any Text.isIdentifierStart = true then
        _ else _) = _
      split
      · rw [List.map_cons, later]
        rfl
      · exact later

/-- The identifiers of a text are its identifiers among the pieces. -/
theorem map_identifiers (text : Text) :
    (identifiers text).map (fun word => (word.start, word.spelling)) =
      Text.identifiers text := by
  rw [identifiers, all_eq_stream]
  exact filter_stream [] 0 text

theorem mem_map_spelling_iff
    {text name : Text} :
    name ∈ (identifiers text).map (·.spelling) ↔
      ∃ offset, (offset, name) ∈ Text.identifiers text := by
  rw [← map_identifiers]
  constructor
  · intro member
    obtain ⟨word, listed, rfl⟩ := List.mem_map.mp member
    exact ⟨word.start, List.mem_map.mpr ⟨word, listed, rfl⟩⟩
  · rintro ⟨offset, member⟩
    obtain ⟨word, listed, same⟩ := List.mem_map.mp member
    exact List.mem_map.mpr ⟨word, listed, congrArg Prod.snd same⟩

/-- A name without word characters beside it is an identifier of the text. -/
theorem exists_of_apart
    {front name after : Text}
    (ends : Text.EndsApart front)
    (identifier : Text.isIdentifier name = true)
    (begins : Text.BeginsApart after) :
    ∃ word ∈ identifiers (front ++ (name ++ after)),
      word.start = front.length ∧ word.spelling = name := by
  have shape : Text.pieces (front ++ (name ++ after)) =
      Text.pieces front ++ name :: Text.pieces after := by
    rw [Text.pieces_append_of_endsApart ends, Text.pieces_word_append
      (Text.ne_nil_of_isIdentifier identifier)
      (Text.isWordChar_of_isIdentifier identifier) begins]
  have listed : (front.length, name) ∈
      Text.identifiers (front ++ (name ++ after)) := by
    rw [Text.identifiers_of_pieces shape, Text.flatten_pieces]
    apply List.mem_append_right
    exact List.mem_filter.mpr ⟨List.mem_cons_self, identifier⟩
  rw [← map_identifiers] at listed
  obtain ⟨word, member, same⟩ := List.mem_map.mp listed
  exact ⟨word, member, congrArg Prod.fst same, congrArg Prod.snd same⟩

end Word

/-- An invocation is made by an identifier, and reaches to its end if it is no
call. -/
theorem Invocation.mem_identifiers_of_mem_all
    {text : Text} {invocation : Invocation}
    (member : invocation ∈ all text) :
    (invocation.start, invocation.name) ∈ Text.identifiers text ∧
      (invocation.arguments = none →
        invocation.stop = invocation.start + invocation.name.length) := by
  obtain ⟨word, listed, made⟩ := List.mem_filterMap.mp member
  have named : (word.start, word.spelling) ∈ Text.identifiers text := by
    rw [← Word.map_identifiers]
    exact List.mem_map.mpr ⟨word, listed, rfl⟩
  split at made
  next => cases made
  next =>
    unfold ofWord? at made
    split at made
    next =>
      obtain ⟨list, _, rfl⟩ := Option.map_eq_some_iff.mp made
      exact ⟨named, fun absent => absurd absent (Option.some_ne_none _)⟩
    next =>
      cases made
      exact ⟨named, fun _ => rfl⟩

end MacroTrace
