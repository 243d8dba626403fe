import MacroTrace.Proofs.Occurrence

/-!
# Looking up a position

The use at a position and the invocations of a text are found by two readers,
and only the second one leaves out names inside literals.  They agree unless
such a name misleads the first: read as a use, it reaches the position and
begins in front of every other use that does.  A name that is not called can
mislead only at the end of a literal that is cut short there; a call can,
because the closing quote of its literal opens one for the reader of its
arguments.
-/

namespace MacroTrace

open Literal (Scan)

/-- A word that begins inside a literal does not leave it. -/
theorem Literal.Scan.run_ne_code_of_letters
    {scan : Scan} {letters : Text}
    (genuine : scan.Genuine)
    (inLiteral : scan ≠ .code)
    (word : ∀ c ∈ letters, Text.isWordChar c = true) :
    scan.run letters ≠ .code := by
  induction letters generalizing scan with
  | nil => exact inLiteral
  | cons c rest ih =>
      have letter : Text.isWordChar c = true := word c List.mem_cons_self
      have plain := Place.isQuote_of_isInert (Text.isInert_of_isWordChar letter)
      have covered :=
        Scan.covers_of_ne_code inLiteral (Text.isLineBreak_of_isWordChar letter)
      apply ih (genuine.step c) (genuine.step_ne_code inLiteral plain covered)
      exact fun d member => word d (List.mem_cons_of_mem _ member)

/-- All characters of an identifier that begins inside a literal belong to
literals. -/
theorem Word.covered_of_mem_identifiers
    {text : Text} {word : Word}
    (member : word ∈ identifiers text)
    (quoted : Span.covered (Literal.spans text) word.start = true)
    {offset : Nat}
    (notBefore : word.start ≤ offset)
    (notBehind : offset < word.stop) :
    Span.covered (Literal.spans text) offset = true := by
  obtain ⟨⟨front, shape, start⟩, letters, nonempty⟩ :=
    stands_of_mem_identifiers member
  have inLiteral : Scan.code.run front ≠ .code := by
    obtain ⟨c, rest, spelled⟩ := List.exists_cons_of_ne_nil nonempty
    have plain := Place.isQuote_of_isInert
      (Text.isInert_of_isWordChar (letters c (by simp [spelled])))
    rw [shape, start, spelled, List.cons_append,
      Literal.covered_spans] at quoted
    intro outside
    rw [outside, Scan.covers, plain] at quoted
    cases quoted
  -- The characters in front of the offset keep the scan inside the literal.
  rw [stop, start] at notBehind
  rw [start] at notBefore
  obtain ⟨c, here⟩ : ∃ c, word.spelling[offset - front.length]? = some c :=
    ⟨_, List.getElem?_eq_getElem (by omega)⟩
  obtain ⟨inner, rest, spelled, length⟩ := List.exists_append_of_getElem? here
  have position : offset = (front ++ inner).length := by
    rw [List.length_append]
    omega
  have whole : text = (front ++ inner) ++ c :: (rest ++ word.after) := by
    rw [shape, spelled]
    simp
  have before : ∀ d ∈ inner, Text.isWordChar d = true := by
    intro d among
    apply letters
    rw [spelled]
    exact List.mem_append_left _ among
  have genuine : Scan.code.Genuine := trivial
  have stays := Scan.run_ne_code_of_letters (genuine.run front) inLiteral before
  rw [position, whole, Literal.covered_spans, Scan.run_append]
  apply Scan.covers_of_ne_code stays
  exact Text.isLineBreak_of_isWordChar (letters c (List.mem_of_getElem? here))

namespace Invocation

variable {text : Text} {offset : Int} {word : Word}

/-- Whether an offset lies in the extent of an invocation or just behind it. -/
def reaches (invocation : Invocation) (offset : Int) : Bool :=
  invocation.start ≤ offset && offset ≤ invocation.stop

/-- What the names that begin inside literals would invoke. -/
def misreadings (text : Text) : List Invocation :=
  (Word.identifiers text).filterMap fun word =>
    if Span.covered (Literal.spans text) word.start then
      ofWord? text 0 word else none

/-- A misreading that reaches an offset and begins in front of all else that
does. -/
structure Misleads (text : Text) (offset : Int)
    (misread : Invocation) : Prop where
  listed : misread ∈ misreadings text
  reaches : misread.reaches offset = true
  first : ∀ other ∈ all text ++ misreadings text, other.reaches offset = true →
    misread.start ≤ other.start

/-- The use that an invocation makes, if it reaches an offset. -/
def useAt? (offset : Int) (invocation : Invocation) : Option Use :=
  if invocation.reaches offset then some invocation.use else none

theorem ofWord?_eq_map (text : Text) (depth : Nat) (word : Word) :
    ofWord? text depth word =
      (ofWord? text 0 word).map fun invocation => { invocation with
        depth := depth } := by
  unfold ofWord?
  split
  next => rw [Option.map_map]; rfl
  next => rfl

theorem start_of_ofWord?
    {depth : Nat} {invocation : Invocation}
    (made : ofWord? text depth word = some invocation) :
    invocation.start = word.start := by
  unfold ofWord? at made
  split at made
  next =>
    obtain ⟨list, _, rfl⟩ := Option.map_eq_some_iff.mp made
    rfl
  next =>
    cases made
    rfl

theorem stop_of_ofWord?
    {depth : Nat} {invocation : Invocation}
    (made : ofWord? text depth word = some invocation)
    (bare : invocation.arguments = none) :
    invocation.stop = word.stop := by
  unfold ofWord? at made
  split at made
  next =>
    obtain ⟨list, _, rfl⟩ := Option.map_eq_some_iff.mp made
    cases bare
  next =>
    cases made
    rfl

theorem find?_filterMap_eq_findSome?
    (made : Word → Option Invocation) (offset : Int) (words : List Word) :
    ((words.filterMap made).find? (·.reaches offset)).map use =
      words.findSome? fun word => (made word).bind (useAt? offset) := by
  induction words with
  | nil => rfl
  | cons word words ih =>
      rw [List.filterMap_cons, List.findSome?_cons, ← ih]
      cases made word with
      | none => rfl
      | some invocation =>
          rw [List.find?_cons, Option.bind_some, useAt?]
          cases invocation.reaches offset with
          | true => rfl
          | false => rfl

end Invocation

namespace Word

open Invocation (ofWord? misreadings Misleads)

variable {text : Text} {offset : Int} {word : Word}

/-- The use that a word makes, inside a literal or not, if it reaches an
offset. -/
def useAt? (text : Text) (offset : Int) (word : Word) : Option Use :=
  (ofWord? text 0 word).bind (·.useAt? offset)

theorem useAt?_eq_some_iff
    {use : Use} :
    word.useAt? text offset = some use ↔
      ∃ invocation, ofWord? text 0 word = some invocation ∧
        invocation.reaches offset = true ∧ invocation.use = use := by
  simp [useAt?, Option.bind_eq_some_iff, Invocation.useAt?]

/-- The depth of an invocation plays no part in what it uses and how far it
reaches. -/
theorem bind_ofWord? (text : Text) (offset : Int) (depth : Nat) (word : Word) :
    (ofWord? text depth word).bind (·.useAt? offset) =
      word.useAt? text offset := by
  rw [Invocation.ofWord?_eq_map, useAt?, Option.bind_map]
  rfl

theorem at?_eq_findSome? (text : Text) (offset : Int) :
    Use.at? text offset =
      (identifiers text).findSome? (useAt? text offset) := by
  unfold Use.at?
  congr 1
  funext word
  unfold useAt?
  cases ofWord? text 0 word with
  | none => rfl
  | some invocation => simp [Invocation.useAt?, Invocation.reaches]

theorem find?_all_eq_findSome? (text : Text) (offset : Int) :
    ((Invocation.all text).find? (·.reaches offset)).map Invocation.use =
      (identifiers text).findSome? fun word =>
        if Span.covered (Literal.spans text) word.start then none
        else word.useAt? text offset := by
  rw [Invocation.all, Invocation.find?_filterMap_eq_findSome?]
  congr 1
  funext word
  split
  next => rfl
  next => exact bind_ofWord? text offset _ word

/-- What reaches an offset is read off a word, and the other way round. -/
theorem exists_reaches_iff (text : Text) (offset : Int) (start : Nat) :
    (∃ other ∈ Invocation.all text ++ misreadings text,
        other.start = start ∧ other.reaches offset = true) ↔
      ∃ word ∈ identifiers text, word.start = start ∧
        word.useAt? text offset ≠ none := by
  constructor
  · rintro ⟨other, member, rfl, reached⟩
    have read : ∃ word ∈ identifiers text, ∃ depth,
        ofWord? text depth word = some other := by
      rcases List.mem_append.mp member with outside | inside
      · obtain ⟨word, listed, found⟩ := List.mem_filterMap.mp outside
        obtain ⟨_, made⟩ := Option.ite_none_left_eq_some.mp found
        exact ⟨word, listed, _, made⟩
      · obtain ⟨word, listed, found⟩ := List.mem_filterMap.mp inside
        obtain ⟨_, made⟩ := Option.ite_none_right_eq_some.mp found
        exact ⟨word, listed, 0, made⟩
    obtain ⟨word, listed, depth, made⟩ := read
    refine ⟨word, listed, (Invocation.start_of_ofWord? made).symm, ?_⟩
    rw [← bind_ofWord? text offset depth, made]
    simp [Invocation.useAt?, reached]
  · rintro ⟨word, listed, rfl, used⟩
    obtain ⟨use, found⟩ := Option.ne_none_iff_exists'.mp used
    obtain ⟨invocation, made, reached, _⟩ := useAt?_eq_some_iff.mp found
    have starts := Invocation.start_of_ofWord? made
    by_cases quoted : Span.covered (Literal.spans text) word.start = true
    · refine ⟨invocation, List.mem_append_right _ ?_, starts, reached⟩
      exact List.mem_filterMap.mpr ⟨word, listed, by rw [if_pos quoted, made]⟩
    · have counted := Invocation.ofWord?_eq_map text
        ((Nesting.depths text).toArray[word.start]?.getD 0) word
      rw [made, Option.map_some] at counted
      have known : _ ∈ Invocation.all text :=
        List.mem_filterMap.mpr ⟨word, listed, (if_neg quoted).trans counted⟩
      exact ⟨_, List.mem_append_left _ known, starts, reached⟩

/-- A misreading misleads if no word in front of it reaches the offset. -/
theorem misleads_iff
    {misread : Invocation} :
    Misleads text offset misread ↔
      ∃ front word back,
        identifiers text = front ++ word :: back ∧
          Span.covered (Literal.spans text) word.start = true ∧
          ofWord? text 0 word = some misread ∧
          misread.reaches offset = true ∧
          ∀ earlier ∈ front, earlier.useAt? text offset = none := by
  have ordered := pairwise_identifiers text
  constructor
  · rintro ⟨listed, reached, first⟩
    obtain ⟨word, member, found⟩ := List.mem_filterMap.mp listed
    obtain ⟨quoted, made⟩ := Option.ite_none_right_eq_some.mp found
    obtain ⟨front, back, shape⟩ := List.append_of_mem member
    refine ⟨front, word, back, shape, quoted, made, reached, ?_⟩
    intro earlier among
    by_contra used
    have inText : earlier ∈ identifiers text := by simp [shape, among]
    obtain ⟨other, known, starts, reaches⟩ :=
      (exists_reaches_iff text offset earlier.start).mpr
        ⟨earlier, inText, rfl, used⟩
    have notBehind := first other known reaches
    rw [shape] at ordered
    have before :=
      (List.pairwise_append.mp ordered).2.2 earlier among word
        List.mem_cons_self
    have long :=
      List.length_pos_iff.mpr (stands_of_mem_identifiers inText).nonempty
    have place := Invocation.start_of_ofWord? made
    rw [stop] at before
    omega
  · rintro ⟨front, word, back, shape, quoted, made, reached, unused⟩
    have member : word ∈ identifiers text := by simp [shape]
    refine ⟨List.mem_filterMap.mpr ⟨word, member, by rw [if_pos quoted, made]⟩,
      reached, ?_⟩
    intro other known reaches
    obtain ⟨candidate, inText, starts, used⟩ :=
      (exists_reaches_iff text offset other.start).mp
        ⟨other, known, rfl, reaches⟩
    have place := Invocation.start_of_ofWord? made
    rw [shape] at inText ordered
    rcases List.mem_append.mp inText with before | behind
    · exact absurd (unused candidate before) used
    · rcases List.mem_cons.mp behind with rfl | later
      · omega
      · have sorted := (List.pairwise_append.mp ordered).2.1
        have order := (List.pairwise_cons.mp sorted).1 candidate later
        rw [stop] at order
        omega

/-- No literal begins inside a word. -/
theorem not_starts_inside
    (member : word ∈ identifiers text)
    {span : Span Nat}
    (listed : span ∈ Literal.spans text)
    (notBefore : word.start ≤ span.start) :
    word.stop ≤ span.start := by
  obtain ⟨⟨front, shape, start⟩, letters, -⟩ := stands_of_mem_identifiers member
  obtain ⟨c, found, quoted⟩ := Literal.quote_of_mem_spans listed
  by_contra inside
  rw [stop, start] at inside
  rw [start] at notBefore
  rw [shape, List.getElem?_append_right notBefore,
    List.getElem?_append_left (by omega)] at found
  have letter := letters c (List.mem_of_getElem? found)
  rw [Place.isQuote_of_isInert (Text.isInert_of_isWordChar letter)] at quoted
  cases quoted

/-- A name inside a literal that is not called reaches an offset outside
literals only if the literal ends with the name and the offset is just
behind. -/
theorem stop_of_quoted
    (member : word ∈ identifiers text)
    (quoted : Span.covered (Literal.spans text) word.start = true)
    (outside : ∀ span ∈ Literal.spans text,
      ¬ (span.start ≤ offset ∧ offset < span.stop))
    (notBefore : word.start ≤ offset)
    (notBehind : offset ≤ word.stop) :
    offset = word.stop ∧
      ∃ span ∈ Literal.spans text, span.start < word.start ∧
      span.stop = word.stop := by
  have length : word.stop = word.start + word.spelling.length := rfl
  have long :=
    List.length_pos_iff.mpr (stands_of_mem_identifiers member).nonempty
  have covered {position : Nat}
      (notBefore : word.start ≤ position)
      (inside : position < word.stop) :
      ∃ span ∈ Literal.spans text, span.start ≤ position ∧
        position < span.stop :=
    (Span.covered_iff (Literal.separated_spans text) position).mp
      (covered_of_mem_identifiers member quoted notBefore inside)
  have ends : offset = word.stop := by
    by_contra different
    obtain ⟨span, listed, starts, stops⟩ :=
      @covered offset.toNat (by omega) (by omega)
    exact outside span listed ⟨by omega, by omega⟩
  -- The literal that holds the last letter holds the first one too.
  obtain ⟨span, listed, starts, stops⟩ :=
    @covered (word.stop - 1) (by omega) (by omega)
  have apart := outside span listed
  refine ⟨ends, span, listed, ?_, by omega⟩
  by_contra inside
  have behind := not_starts_inside member listed (by omega)
  omega

end Word

namespace Use

open Invocation (Misleads)

/-- The use at an offset outside literals is that of the first invocation that
reaches the offset, unless a name inside a literal misleads.  Then it is what
that name would invoke, and unless this is a call, the literal is cut short at
the offset. -/
theorem at?_eq_first_unless_misled
    {text : Text} {offset : Int}
    (outside : ∀ span ∈ Literal.spans text,
      ¬ (span.start ≤ offset ∧ offset < span.stop)) :
    ((¬ ∃ misread, Misleads text offset misread) →
      at? text offset =
        ((Invocation.all text).find? (·.reaches offset)).map Invocation.use) ∧
    ∀ misread, Misleads text offset misread →
      at? text offset = some misread.use ∧
        (misread.arguments = none →
          offset = misread.stop ∧
            ∃ span ∈ Literal.spans text,
              span.start < misread.start ∧ span.stop = misread.stop) := by
  rw [Word.at?_eq_findSome?, Word.find?_all_eq_findSome?]
  constructor
  · intro unmisled
    cases found : (Word.identifiers text).findSome?
      (Word.useAt? text offset) with
    | none =>
        symm
        apply List.findSome?_eq_none_iff.mpr
        intro word member
        rw [List.findSome?_eq_none_iff.mp found word member, ite_self]
    | some use =>
        obtain ⟨front, word, back, shape, used, unused⟩ :=
          List.findSome?_eq_some_iff.mp found
        obtain ⟨invocation, made, reached, rfl⟩ :=
          Word.useAt?_eq_some_iff.mp used
        have plain : ¬ Span.covered (Literal.spans text) word.start = true := by
          intro quoted
          apply unmisled
          exact ⟨invocation,
            Word.misleads_iff.mpr ⟨front, word, back, shape, quoted, made,
              reached, unused⟩⟩
        symm
        apply List.findSome?_eq_some_iff.mpr
        refine ⟨front, word, back, shape, by rw [if_neg plain, used], ?_⟩
        intro earlier among
        rw [unused earlier among, ite_self]
  · intro misread misleads
    obtain ⟨front, word, back, shape, quoted, made, reached, unused⟩ :=
      Word.misleads_iff.mp misleads
    have used : word.useAt? text offset = some misread.use :=
      Word.useAt?_eq_some_iff.mpr ⟨misread, made, reached, rfl⟩
    refine ⟨List.findSome?_eq_some_iff.mpr ⟨front, word, back, shape, used,
      unused⟩, ?_⟩
    intro bare
    have starts := Invocation.start_of_ofWord? made
    have stops := Invocation.stop_of_ofWord? made bare
    have member : word ∈ Word.identifiers text := by simp [shape]
    rw [starts, stops]
    simp only [Invocation.reaches, starts, stops, Bool.and_eq_true,
      decide_eq_true_eq] at reached
    exact Word.stop_of_quoted member quoted outside reached.1 reached.2

/-- A literal that holds an opening parenthesis, and behind it a call. -/
def quotedCallText : Text :=
  "puts(\"MAX(\"); x = MAX(1, 2); puts(\")\");".toList

def quotedCall : Invocation :=
  ⟨"MAX".toList, some [⟨"\"); x = MAX(1, 2); puts(\"".toList, ⟨10, 35⟩⟩], 6, 36,
    0⟩

theorem at?_eq_first_unless_misled_quotedCall :
    (∀ span ∈ Literal.spans quotedCallText,
        ¬ (span.start ≤ (2 : Int) ∧ (2 : Int) < span.stop) ∧
          ¬ (span.start ≤ (19 : Int) ∧ (19 : Int) < span.stop)) ∧
      (¬ ∃ misread, Misleads quotedCallText 2 misread) ∧
      at? quotedCallText 2 =
        ((Invocation.all quotedCallText).find? (·.reaches 2)).map
          Invocation.use ∧
      Misleads quotedCallText 19 quotedCall ∧
      at? quotedCallText 19 = some quotedCall.use := by
  have outside : ∀ span ∈ Literal.spans quotedCallText,
      ¬ (span.start ≤ (2 : Int) ∧ (2 : Int) < span.stop) ∧
        ¬ (span.start ≤ (19 : Int) ∧ (19 : Int) < span.stop) := by
    decide +kernel
  have unreached : ∀ misread ∈ Invocation.misreadings quotedCallText,
      misread.reaches 2 = false := by
    decide +kernel
  have unmisled : ¬ ∃ misread, Misleads quotedCallText 2 misread := by
    rintro ⟨misread, listed, reached, _⟩
    rw [unreached misread listed] at reached
    cases reached
  have misleads : Misleads quotedCallText 19 quotedCall := by
    constructor <;> decide +kernel
  refine ⟨outside, unmisled, ?_, misleads, ?_⟩
  · exact (at?_eq_first_unless_misled fun span listed =>
        (outside span listed).1).1 unmisled
  · exact ((at?_eq_first_unless_misled fun span listed =>
        (outside span listed).2).2 _ misleads).1

/-- Inside the second call the first one is found, which begins in a literal and
ends in another one. -/
theorem at?_ne_first_quotedCall :
    (∀ span ∈ Literal.spans quotedCallText,
        ¬ (span.start ≤ (19 : Int) ∧ (19 : Int) < span.stop)) ∧
      ((Invocation.all quotedCallText).find? (·.reaches 19)).map
          Invocation.use =
        some ⟨"MAX".toList, some ["1".toList, "2".toList]⟩ ∧
      at? quotedCallText 19 =
        some ⟨"MAX".toList, some ["\"); x = MAX(1, 2); puts(\"".toList]⟩ := by
  decide +kernel

end Use

end MacroTrace
