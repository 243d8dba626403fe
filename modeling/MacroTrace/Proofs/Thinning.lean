import MacroTrace.Proofs.NormalForm

/-!
# What simplifying removes

Simplifying a balanced text drops some of its characters and keeps the others in
their order.  Which ones are dropped is said by choices, one for each character.
The main statement is that only redundancy is dropped: pairs of parentheses and
blanks outside literals, and no pair is dropped unless what it encloses stays
enclosed by another one.  So simplifying a well-formed text gives a well-formed
one.
-/

namespace MacroTrace

open Literal (Scan)

namespace Nesting

/-- A parenthesis outside literals and the one that closes it. -/
structure Pair (text : Text) (start stop : Nat) : Prop where
  opening : text[start]? = some '('
  uncovered : Span.covered (Literal.spans text) start = false
  closing : closing? text start = some stop

/-- A position between the parentheses of a group. -/
def Enclosed (text : Text) (index : Nat) : Prop :=
  ∃ start stop, Pair text start stop ∧ start < index ∧ index < stop

end Nesting

namespace Part

/-- A balanced text that leads a literal scan to another one. -/
def Written (scan : Scan) (text : Text) (last : Scan) : Prop :=
  ∃ parts, Reads scan parts last ∧ write parts = text

namespace Written

variable {scan middle last : Scan}

theorem nil (scan : Scan) : Written scan [] scan :=
  ⟨[], .nil scan, rfl⟩

theorem append
    {left right : Text}
    (first : Written scan left middle)
    (second : Written middle right last) :
    Written scan (left ++ right) last := by
  obtain ⟨leftParts, readsLeft, rfl⟩ := first
  obtain ⟨rightParts, readsRight, rfl⟩ := second
  exact ⟨leftParts ++ rightParts, readsLeft.append readsRight, write_append _ _⟩

theorem char
    {c : Char}
    (allowed : scan.covers c = true ∨ (c ≠ '(' ∧ c ≠ ')')) :
    Written scan [c] (scan.step c) :=
  ⟨[.char c], .char allowed (.nil _), write_char c []⟩

theorem group
    {inner : Text}
    (written : Written .code inner .code) :
    Written .code ('(' :: (inner ++ [')'])) .code := by
  obtain ⟨parts, reads, rfl⟩ := written
  exact ⟨[.group parts], .group reads (.nil .code), write_group parts []⟩

theorem of_isBlank
    {blanks : Text}
    (blank : ∀ c ∈ blanks, Text.isBlank c = true) :
    Written .code blanks .code := by
  induction blanks with
  | nil => exact .nil .code
  | cons c rest ih =>
      have inert := Text.isInert_of_isBlank (blank c List.mem_cons_self)
      have later := ih fun d member => blank d (List.mem_cons_of_mem _ member)
      have here : Written .code [c] (Scan.code.step c) :=
        char (.inr ((Place.isInert_iff c).mp inert).2)
      rw [Place.step_code_of_inert inert] at here
      exact here.append later

theorem run
    {text : Text}
    (written : Written scan text last) :
    scan.run text = last := by
  obtain ⟨parts, reads, rfl⟩ := written
  exact reads.run

theorem isBalanced
    {text : Text}
    (written : Written .code text last) :
    Nesting.isBalanced text = true := by
  obtain ⟨parts, reads, rfl⟩ := written
  exact reads.isBalanced

/-- The pair around a balanced text that ends outside literals. -/
theorem pair
    {front inner : Text}
    (inCode : Scan.code.run front = .code)
    (written : Written .code inner .code)
    (after : Text) :
    Nesting.Pair (front ++ '(' :: (inner ++ ')' :: after)) front.length
      (front.length + 1 + inner.length) := by
  obtain ⟨parts, reads, rfl⟩ := written
  refine ⟨by simp, ?_, reads.closing? front after⟩
  rw [Literal.covered_spans, inCode]
  rfl

/-- A pair that begins in a balanced text ends there, and has a balanced text
between. -/
theorem exists_of_pair
    {text rest : Text}
    (written : Written .code text last)
    {start stop : Nat}
    (pair : Nesting.Pair (text ++ rest) start stop)
    (within : start < text.length) :
    ∃ front inner after,
      text = front ++ '(' :: (inner ++ ')' :: after) ∧
        start = front.length ∧ stop = front.length + 1 + inner.length ∧
        Scan.code.run front = .code ∧ Written .code inner .code := by
  obtain ⟨parts, reads, rfl⟩ := written
  have here : (write parts)[start]? = some '(' := by
    rw [← List.getElem?_append_left within]
    exact pair.opening
  obtain ⟨front, behind, shape, rfl⟩ := List.exists_append_of_getElem? here
  have uncovered := pair.uncovered
  rw [shape, List.append_assoc, List.cons_append, Literal.covered_spans]
    at uncovered
  obtain ⟨inner, after, rfl, readsInner, _⟩ :=
    reads.exists_group shape uncovered
  have closing := pair.closing
  rw [shape, List.append_assoc, List.cons_append, List.append_assoc,
    List.cons_append, readsInner.closing?, Option.some.injEq] at closing
  exact ⟨front, write inner, after, shape, rfl, closing.symm,
    Scan.eq_code_of_uncovered (.inl rfl) uncovered, inner, readsInner, rfl⟩

/-- No group reaches over the end of a balanced text. -/
theorem not_enclosed
    {front : Text}
    (written : Written .code front last)
    (rest : Text) :
    ¬ Nesting.Enclosed (front ++ rest) front.length := by
  rintro ⟨start, stop, pair, before, behind⟩
  obtain ⟨lead, inner, after, rfl, _, rfl, _⟩ :=
    written.exists_of_pair pair before
  simp only [List.length_append, List.length_cons] at behind
  omega

end Written

theorem written_of_isBalanced
    {text : Text}
    (balanced : Nesting.isBalanced text = true) :
    ∃ last, Written .code text last := by
  obtain ⟨parts, last, reads, written⟩ := exists_reads balanced
  exact ⟨last, parts, reads, written⟩

end Part

open MacroTrace.Part (Reads Written write)

/-- The same positions are enclosed when blanks at the ends of a text are
trimmed. -/
theorem Nesting.enclosed_trim_iff
    {text : Text}
    (balanced : isBalanced text = true)
    (index : Nat) :
    Enclosed text ((text.takeWhile Text.isBlank).length + index) ↔
      Enclosed (Text.trim text) index := by
  obtain ⟨trail, blank, shape⟩ :=
    Text.exists_trimRight_append (Text.trimLeft text)
  rw [← Text.trim] at shape
  have whole : text =
      text.takeWhile Text.isBlank ++ (Text.trim text ++ trail) := by
    rw [← shape, Text.trimLeft_append]
  have lead : ∀ c ∈ text.takeWhile Text.isBlank, Text.isBlank c = true :=
    fun c member => List.mem_takeWhile_imp member
  have inCode := (Written.of_isBlank lead).run
  obtain ⟨_, writtenTrim⟩ :=
    Part.written_of_isBalanced ((isBalanced_trim text).trans balanced)
  obtain ⟨_, written⟩ := Part.written_of_isBalanced balanced
  generalize text.takeWhile Text.isBlank = blanks at whole lead inCode
  generalize Text.trim text = trimmed at whole writtenTrim
  subst whole
  constructor
  · rintro ⟨start, stop, pair, before, behind⟩
    have within : start < (blanks ++ (trimmed ++ trail)).length :=
      (List.getElem?_eq_some_iff.mp pair.opening).1
    rw [← List.append_nil (blanks ++ (trimmed ++ trail))] at pair
    obtain ⟨front, inner, after, split, rfl, rfl, reached, writtenInner⟩ :=
      written.exists_of_pair pair within
    rcases List.append_eq_append_cons split with
      ⟨rest, inBlanks, _⟩ | ⟨middle, rfl, later⟩
    · have impossible := lead '(' (by simp [inBlanks])
      cases impossible
    · have ends : trimmed ++ trail =
          (middle ++ '(' :: inner) ++ ')' :: after := by
        rw [later, List.append_assoc, List.cons_append]
      rcases List.append_eq_append_cons ends with
        ⟨rest, inTrimmed, _⟩ | ⟨last, _, inTrail⟩
      · rw [Scan.run_append, inCode] at reached
        rw [List.append_assoc, List.cons_append] at inTrimmed
        refine ⟨_, _, inTrimmed ▸ writtenInner.pair reached rest, ?_, ?_⟩
        · simp only [List.length_append] at before
          omega
        · simp only [List.length_append] at behind
          omega
      · have impossible := blank ')' (by simp [inTrail])
        cases impossible
  · rintro ⟨start, stop, pair, before, behind⟩
    have within : start < trimmed.length :=
      (List.getElem?_eq_some_iff.mp pair.opening).1
    rw [← List.append_nil trimmed] at pair
    obtain ⟨front, inner, after, rfl, rfl, rfl, reached, writtenInner⟩ :=
      writtenTrim.exists_of_pair pair within
    have shifted : Scan.code.run (blanks ++ front) = .code := by
      rw [Scan.run_append, inCode, reached]
    have moved := writtenInner.pair shifted (after ++ trail)
    simp only [List.append_assoc, List.cons_append] at moved ⊢
    refine ⟨_, _, moved, ?_, ?_⟩
    · simp only [List.length_append]
      omega
    · simp only [List.length_append]
      omega

namespace Group

/-- A character and whether it is kept. -/
structure Choice where
  char : Char
  isKept : Bool
  deriving DecidableEq

namespace Choice

/-- The text for whose characters the choices are made. -/
def whole (choices : List Choice) : Text :=
  choices.map char

/-- The text that is left of it. -/
def left (choices : List Choice) : Text :=
  (choices.filter isKept).map char

/-- Keep nothing of a text. -/
def drop (text : Text) : List Choice :=
  text.map fun c => ⟨c, false⟩

@[simp] theorem whole_nil : whole [] = [] := rfl

@[simp] theorem whole_cons (choice : Choice) (rest : List Choice) :
    whole (choice :: rest) = choice.char :: whole rest := rfl

@[simp] theorem whole_append (front rest : List Choice) :
    whole (front ++ rest) = whole front ++ whole rest :=
  List.map_append

@[simp] theorem left_nil : left [] = [] := rfl

@[simp] theorem left_kept (c : Char) (rest : List Choice) :
    left (⟨c, true⟩ :: rest) = c :: left rest := rfl

@[simp] theorem left_dropped (c : Char) (rest : List Choice) :
    left (⟨c, false⟩ :: rest) = left rest := rfl

@[simp] theorem left_append (front rest : List Choice) :
    left (front ++ rest) = left front ++ left rest := by
  simp [left]

@[simp] theorem whole_drop (text : Text) : whole (drop text) = text := by
  induction text with
  | nil => rfl
  | cons c rest ih => exact congrArg (c :: ·) ih

@[simp] theorem left_drop (text : Text) : left (drop text) = [] := by
  induction text with
  | nil => rfl
  | cons c rest ih => exact ih

/-- The groups around `inner` of which only the innermost one is kept, with all
blanks between their parentheses dropped. -/
inductive Layer (inner : List Choice) : List Choice → Prop where
  | kept : Layer inner (⟨'(', true⟩ :: (inner ++ [⟨')', true⟩]))
  | dropped {before after : Text} {layer : List Choice} :
      (∀ c ∈ before, Text.isBlank c = true) →
      (∀ c ∈ after, Text.isBlank c = true) →
      Layer inner layer →
      Layer inner
        (⟨'(', false⟩ :: (drop before ++ layer ++ drop after ++ [⟨')', false⟩]))

/-- Choices that drop nothing but groups around kept groups. -/
inductive Thins : Scan → List Choice → Scan → Prop where
  | nil (scan : Scan) : Thins scan [] scan
  | char {scan last : Scan} {c : Char} {rest : List Choice} :
      scan.covers c = true ∨ (c ≠ '(' ∧ c ≠ ')') →
      Thins (scan.step c) rest last →
      Thins scan (⟨c, true⟩ :: rest) last
  | group {inner layer rest : List Choice} {last : Scan} :
      Thins .code inner .code →
      Layer inner layer →
      Thins .code rest last →
      Thins .code (layer ++ rest) last

/-- The text and what is left of it are both balanced and lead a literal scan to
the same one. -/
structure Balances (scan : Scan) (choices : List Choice)
    (last : Scan) : Prop where
  whole : Written scan (whole choices) last
  left : Written scan (left choices) last

namespace Balances

variable {scan middle last : Scan}

theorem nil (scan : Scan) : Balances scan [] scan :=
  ⟨.nil scan, .nil scan⟩

theorem append
    {front rest : List Choice}
    (first : Balances scan front middle)
    (second : Balances middle rest last) :
    Balances scan (front ++ rest) last := by
  constructor
  · rw [whole_append]
    exact first.whole.append second.whole
  · rw [left_append]
    exact first.left.append second.left

theorem kept
    {c : Char}
    (allowed : scan.covers c = true ∨ (c ≠ '(' ∧ c ≠ ')')) :
    Balances scan [⟨c, true⟩] (scan.step c) :=
  ⟨.char allowed, .char allowed⟩

theorem drop
    {blanks : Text}
    (blank : ∀ c ∈ blanks, Text.isBlank c = true) :
    Balances .code (drop blanks) .code := by
  constructor
  · rw [whole_drop]
    exact .of_isBlank blank
  · rw [left_drop]
    exact .nil .code

theorem group
    {inner : List Choice}
    (balances : Balances .code inner .code)
    (isKept : Bool) :
    Balances .code (⟨'(', isKept⟩ :: (inner ++ [⟨')', isKept⟩])) .code := by
  constructor
  · rw [whole_cons, whole_append]
    exact balances.whole.group
  · cases isKept with
    | true =>
        rw [left_kept, left_append]
        exact balances.left.group
    | false =>
        rw [left_dropped, left_append, left_dropped, left_nil, List.append_nil]
        exact balances.left

end Balances

theorem Layer.balances
    {inner layer : List Choice}
    (made : Layer inner layer)
    (balances : Balances .code inner .code) :
    Balances .code layer .code := by
  induction made with
  | kept => exact balances.group true
  | dropped before after _ ih =>
      exact (((Balances.drop before).append ih).append (.drop after)).group
        false

theorem Thins.balances
    {scan last : Scan} {choices : List Choice}
    (thins : Thins scan choices last) :
    Balances scan choices last := by
  induction thins with
  | nil scan => exact .nil scan
  | char allowed rest ih => exact (Balances.kept allowed).append ih
  | group inner made rest innerIh ih => exact (made.balances innerIh).append ih

theorem agree_blanks
    {blanks : Text}
    (blank : ∀ c ∈ blanks, Text.isBlank c = true)
    {after later : Text}
    (agree : Literal.Agree .code after later) :
    Literal.Agree .code after (blanks ++ later) :=
  agree.skip_append fun c member => Text.isQuote_of_isBlank (blank c member)

theorem Layer.agree
    {inner layer : List Choice}
    (made : Layer inner layer)
    (keeps : ∀ {after later}, Literal.Agree .code after later →
      Literal.Agree .code (left inner ++ after) (whole inner ++ later))
    {after later : Text}
    (agree : Literal.Agree .code after later) :
    Literal.Agree .code (left layer ++ after) (whole layer ++ later) := by
  induction made generalizing after later with
  | kept =>
      simp only [left_kept, left_append, left_nil, whole_cons,
        whole_append, whole_nil, List.cons_append, List.append_assoc,
        List.nil_append]
      exact .cons (keeps (.cons agree))
  | dropped before behind _ ih =>
      simp only [left_dropped, left_append, left_drop, left_nil, whole_cons,
        whole_append, whole_drop, whole_nil, List.cons_append,
        List.append_assoc, List.nil_append]
      exact (agree_blanks before
        (ih (agree_blanks behind (agree.skip rfl)))).skip rfl

theorem Thins.agree
    {scan last : Scan} {choices : List Choice}
    (thins : Thins scan choices last)
    {after later : Text}
    (agree : Literal.Agree last after later) :
    Literal.Agree scan (left choices ++ after) (whole choices ++ later) := by
  induction thins generalizing after later with
  | nil scan => exact agree
  | char allowed rest ih => exact .cons (ih agree)
  | group inner made rest innerIh ih =>
      rw [left_append, whole_append, List.append_assoc, List.append_assoc]
      exact made.agree innerIh (ih agree)

theorem Thins.texts_eq
    {last : Scan} {choices : List Choice}
    (thins : Thins .code choices last) :
    Literal.texts (left choices) = Literal.texts (whole choices) := by
  have agree := thins.agree (Literal.Agree.refl last [])
  rw [List.append_nil, List.append_nil] at agree
  exact agree.texts_eq

/-- The text and what is left of it lead a literal scan to the same one. -/
structure Runs (scan : Scan) (choices : List Choice) (last : Scan) : Prop where
  whole : scan.run (whole choices) = last
  left : scan.run (left choices) = last

theorem Balances.runs
    {scan last : Scan} {choices : List Choice}
    (balances : Balances scan choices last) :
    Runs scan choices last :=
  ⟨balances.whole.run, balances.left.run⟩

theorem runs_opening (isKept : Bool) : Runs .code [⟨'(', isKept⟩] .code := by
  cases isKept with
  | true => exact ⟨rfl, rfl⟩
  | false => exact ⟨rfl, rfl⟩

/-- Choices up to a pair of parentheses, and the choices in between. -/
structure Delimits (scan : Scan) (before inner : List Choice) : Prop where
  before : Runs scan before .code
  inner : Balances .code inner .code

/-- A character that is a parenthesis outside literals, a dropped blank, or kept
in a kept group. -/
inductive Stands (scan : Scan) : List Choice → Choice → List Choice → Prop where
  | opening {front inner after : List Choice} {isKept : Bool} :
      Delimits scan front inner →
      Stands scan front ⟨'(', isKept⟩ (inner ++ ⟨')', isKept⟩ :: after)
  | closing {before inner after : List Choice} {isKept : Bool} :
      Delimits scan before inner →
      Stands scan (before ++ ⟨'(', isKept⟩ :: inner) ⟨')', isKept⟩ after
  | blank {front behind : List Choice} {c : Char} :
      Text.isBlank c = true →
      Runs scan front .code →
      Stands scan front ⟨c, false⟩ behind
  | held {before front behind after : List Choice} {c : Char} :
      Delimits scan before (front ++ ⟨c, true⟩ :: behind) →
      Stands scan (before ++ ⟨'(', true⟩ :: front) ⟨c, true⟩
        (behind ++ ⟨')', true⟩ :: after)

section Prepend

variable {scan middle last : Scan}
  {lead front behind before inner : List Choice} {choice : Choice}

theorem Runs.append
    (first : Runs scan lead middle)
    (second : Runs middle front last) :
    Runs scan (lead ++ front) last := by
  constructor
  · rw [whole_append, Scan.run_append, first.whole, second.whole]
  · rw [left_append, Scan.run_append, first.left, second.left]

theorem Delimits.prepend
    (first : Runs scan lead middle)
    (delimits : Delimits middle before inner) :
    Delimits scan (lead ++ before) inner :=
  ⟨first.append delimits.before, delimits.inner⟩

theorem Stands.prepend
    (first : Runs scan lead middle)
    (stands : Stands middle front choice behind) :
    Stands scan (lead ++ front) choice behind := by
  cases stands with
  | opening delimits => exact .opening (delimits.prepend first)
  | closing delimits =>
      rw [← List.append_assoc]
      exact .closing (delimits.prepend first)
  | blank blank inCode => exact .blank blank (first.append inCode)
  | held delimits =>
      rw [← List.append_assoc]
      exact .held (delimits.prepend first)

theorem Stands.append
    (stands : Stands scan front choice behind)
    (rest : List Choice) :
    Stands scan front choice (behind ++ rest) := by
  cases stands with
  | opening delimits =>
      rw [List.append_assoc]
      exact .opening delimits
  | closing delimits => exact .closing delimits
  | blank blank inCode => exact .blank blank inCode
  | held delimits =>
      rw [List.append_assoc]
      exact .held delimits

end Prepend

section Position

variable {front behind : List Choice} {choice : Choice}

theorem stands_of_drop
    {blanks : Text}
    (blank : ∀ c ∈ blanks, Text.isBlank c = true)
    (shape : drop blanks = front ++ choice :: behind) :
    Stands .code front choice behind := by
  obtain ⟨before, rest, rfl, rfl, later⟩ := List.map_eq_append_iff.mp shape
  obtain ⟨c, after, rfl, rfl, rfl⟩ := List.map_eq_cons_iff.mp later
  refine .blank (blank c (by simp)) (Balances.drop ?_).runs
  intro d member
  exact blank d (List.mem_append_left _ member)

/-- A character of a group is one of its parentheses or stands in between. -/
theorem stands_of_group
    {content : List Choice} {isKept : Bool}
    (balances : Balances .code content .code)
    (between : ∀ {front choice behind}, content = front ++ choice :: behind →
      Stands .code (⟨'(', isKept⟩ :: front) choice (behind ++ [⟨')', isKept⟩]))
    (shape : ⟨'(', isKept⟩ :: (content ++ [⟨')', isKept⟩]) =
      front ++ choice :: behind) :
    Stands .code front choice behind := by
  have outside : Delimits .code [] content := ⟨⟨rfl, rfl⟩, balances⟩
  cases front with
  | nil =>
      obtain ⟨rfl, rfl⟩ := List.cons.inj shape
      exact .opening outside
  | cons first front =>
      obtain ⟨rfl, tail⟩ := List.cons.inj shape
      rcases List.append_eq_append_cons tail with
        ⟨rest, inContent, rfl⟩ | ⟨more, rfl, final⟩
      · exact between inContent
      · obtain ⟨rfl, rfl, rfl⟩ : more = [] ∧
            choice = ⟨')', isKept⟩ ∧ behind = [] := by
          cases more with
          | nil =>
              obtain ⟨rfl, rfl⟩ := List.cons.inj final
              exact ⟨rfl, rfl, rfl⟩
          | cons _ more => exact absurd (List.cons.inj final).2 (by simp)
        have closed :
            Stands .code ([] ++ ⟨'(', isKept⟩ :: content) ⟨')', isKept⟩ [] :=
          .closing outside
        rwa [List.append_nil]

theorem Layer.stands
    {inner layer : List Choice}
    (made : Layer inner layer)
    (balances : Balances .code inner .code)
    (placed : ∀ {front choice behind}, inner = front ++ choice :: behind →
      choice.isKept = true ∨ Stands .code front choice behind)
    (shape : layer = front ++ choice :: behind) :
    Stands .code front choice behind := by
  induction made generalizing front choice behind with
  | kept =>
      refine stands_of_group balances (fun split => ?_) shape
      rename_i before choice after
      rcases placed split with kept | stands
      · obtain ⟨c, isKept⟩ := choice
        subst kept split
        have held :
            Stands .code ([] ++ ⟨'(', true⟩ :: before) ⟨c, true⟩
              (after ++ [⟨')', true⟩]) :=
          .held ⟨⟨rfl, rfl⟩, balances⟩
        exact held
      · exact (stands.prepend (runs_opening true)).append _
  | @dropped before after layer blankBefore blankAfter made ih =>
      have first := Balances.drop blankBefore
      have second := made.balances balances
      have third := Balances.drop blankAfter
      refine stands_of_group ((first.append second).append third)
        (fun split => ?_) shape
      refine (Stands.prepend (runs_opening false) ?_).append _
      rcases List.append_eq_append_cons split with
        ⟨rest, earlier, rfl⟩ | ⟨more, rfl, inAfter⟩
      · rcases List.append_eq_append_cons earlier with
          ⟨rest, inBefore, rfl⟩ | ⟨more, rfl, inLayer⟩
        · exact ((stands_of_drop blankBefore inBefore).append _).append _
        · exact ((ih inLayer).prepend first.runs).append _
      · exact (stands_of_drop blankAfter inAfter).prepend
          (first.append second).runs

/-- A character is kept with a balanced text in front of it, or stands in a
group. -/
theorem Thins.stands
    {scan last : Scan} {choices : List Choice}
    (thins : Thins scan choices last)
    (shape : choices = front ++ choice :: behind) :
    (choice.isKept = true ∧ ∃ middle, Balances scan front middle) ∨
      Stands scan front choice behind := by
  induction thins generalizing front choice behind with
  | nil scan => exact absurd shape.symm (by simp)
  | @char scan last c rest allowed thins ih =>
      cases front with
      | nil =>
          obtain ⟨rfl, _⟩ := List.cons.inj shape
          exact .inl ⟨rfl, scan, .nil scan⟩
      | cons first front =>
          obtain ⟨rfl, tail⟩ := List.cons.inj shape
          have here := Balances.kept allowed
          rcases ih tail with ⟨kept, middle, balances⟩ | stands
          · exact .inl ⟨kept, middle, here.append balances⟩
          · exact .inr (stands.prepend here.runs)
  | group inner made rest innerIh ih =>
      have here := made.balances inner.balances
      rcases List.append_eq_append_cons shape with
        ⟨rest, inLayer, rfl⟩ | ⟨more, rfl, later⟩
      · refine .inr ((made.stands inner.balances
          (fun split => ?_) inLayer).append _)
        exact (innerIh split).imp_left And.left
      · rcases ih later with ⟨kept, middle, balances⟩ | stands
        · exact .inl ⟨kept, middle, here.append balances⟩
        · exact .inr (stands.prepend here.runs)

end Position

/-- Choices that drop nothing but blanks and pairs of parentheses outside
literals, and that let every other character be enclosed by a group if it was.
Literals and all characters that are neither blanks nor parentheses are kept. -/
structure DropsRedundancy (choices : List Choice) : Prop where
  dropped : ∀ index c,
    choices[index]? = some ⟨c, false⟩ →
    Span.covered (Literal.spans (whole choices)) index = false ∧
      (Text.isBlank c = true ∨
        ∃ partner d,
          choices[partner]? = some ⟨d, false⟩ ∧
            (Nesting.Pair (whole choices) index partner ∨
              Nesting.Pair (whole choices) partner index))
  literals : Literal.texts (left choices) = Literal.texts (whole choices)
  solid : ∀ choice ∈ choices,
    Text.isBlank choice.char = false →
    choice.char ≠ '(' →
    choice.char ≠ ')' →
    choice.isKept = true
  enclosed : ∀ index c,
    choices[index]? = some ⟨c, true⟩ →
    Span.covered (Literal.spans (whole choices)) index = true ∨
      (c ≠ '(' ∧ c ≠ ')') →
    (Nesting.Enclosed (left choices) (left (choices.take index)).length ↔
      Nesting.Enclosed (whole choices) index)

@[simp] theorem length_whole (choices : List Choice) :
    (whole choices).length = choices.length :=
  List.length_map _

section Facts

variable {front behind before inner : List Choice}

theorem uncovered_of_runs
    (runs : Runs .code front .code)
    {c : Char}
    (plain : Literal.isQuote c = false)
    (isKept : Bool) (behind : List Choice) :
    Span.covered (Literal.spans (whole (front ++ ⟨c, isKept⟩ :: behind)))
      front.length = false := by
  rw [whole_append, whole_cons, ← length_whole front,
    Literal.covered_spans, runs.whole]
  exact plain

theorem Delimits.runs
    (delimits : Delimits .code before inner)
    (isKept : Bool) :
    Runs .code (before ++ ⟨'(', isKept⟩ :: inner) .code :=
  delimits.before.append ((runs_opening isKept).append delimits.inner.runs)

theorem Delimits.pair_whole
    (delimits : Delimits .code before inner)
    (isKept : Bool) (after : List Choice) :
    Nesting.Pair
      (whole (before ++ ⟨'(', isKept⟩ :: (inner ++ ⟨')', isKept⟩ :: after)))
      before.length (before.length + 1 + inner.length) := by
  have pair := delimits.inner.whole.pair delimits.before.whole (whole after)
  rw [length_whole, length_whole] at pair
  rwa [whole_append, whole_cons, whole_append, whole_cons]

theorem Delimits.pair_left
    (delimits : Delimits .code before inner)
    (after : List Choice) :
    Nesting.Pair
      (left (before ++ ⟨'(', true⟩ :: (inner ++ ⟨')', true⟩ :: after)))
      (left before).length
      ((left before).length + 1 + (left inner).length) := by
  have pair := delimits.inner.left.pair delimits.before.left (left after)
  rwa [left_append, left_kept, left_append, left_kept]

theorem getElem?_partner (first last : Choice) (after : List Choice) :
    (before ++ first :: (inner ++ last :: after))[before.length + 1 +
        inner.length]? =
      some last := by
  have split : before ++ first :: (inner ++ last :: after) =
      (before ++ first :: inner) ++ last :: after := by
    rw [List.append_assoc, List.cons_append]
  have length : before.length + 1 + inner.length =
      (before ++ first :: inner).length := by
    rw [List.length_append, List.length_cons]
    omega
  rw [split, length, List.getElem?_append_right (Nat.le_refl _), Nat.sub_self]
  rfl

variable {last : Scan} {choices : List Choice}

theorem Thins.uncovered_of_dropped
    (thins : Thins .code choices last)
    {c : Char}
    (shape : choices = front ++ ⟨c, false⟩ :: behind) :
    Span.covered (Literal.spans (whole choices)) front.length = false ∧
      (Text.isBlank c = true ∨
        ∃ partner d,
          choices[partner]? = some ⟨d, false⟩ ∧
            (Nesting.Pair (whole choices) front.length partner ∨
              Nesting.Pair (whole choices) partner front.length)) := by
  rcases thins.stands shape with ⟨kept, _⟩ | stands
  · cases kept
  · subst shape
    cases stands with
    | opening delimits =>
        refine ⟨uncovered_of_runs delimits.before rfl _ _, .inr ?_⟩
        exact ⟨_, ')', getElem?_partner _ _ _,
          .inl (delimits.pair_whole false _)⟩
    | @closing before inner _ _ delimits =>
        refine ⟨uncovered_of_runs (delimits.runs false) rfl _ _, .inr ?_⟩
        refine ⟨before.length, '(', ?_, .inr ?_⟩
        · simp
        · have pair := delimits.pair_whole false behind
          rw [List.append_assoc, List.cons_append, List.length_append,
            List.length_cons, Nat.add_comm inner.length 1, ← Nat.add_assoc]
          exact pair
    | blank blank runs =>
        exact ⟨uncovered_of_runs runs (Text.isQuote_of_isBlank blank) _ _,
          .inl blank⟩

theorem Thins.kept_of_solid
    (thins : Thins .code choices last)
    {choice : Choice}
    (shape : choices = front ++ choice :: behind)
    (solid : Text.isBlank choice.char = false)
    (notOpening : choice.char ≠ '(')
    (notClosing : choice.char ≠ ')') :
    choice.isKept = true := by
  rcases thins.stands shape with ⟨kept, _⟩ | stands
  · exact kept
  · cases stands with
    | opening _ => exact absurd rfl notOpening
    | closing _ => exact absurd rfl notClosing
    | blank blank _ =>
        rw [blank] at solid
        cases solid
    | held _ => rfl

theorem Thins.enclosed_iff
    (thins : Thins .code choices last)
    {c : Char}
    (shape : choices = front ++ ⟨c, true⟩ :: behind)
    (apart : Span.covered (Literal.spans (whole choices)) front.length = true ∨
      (c ≠ '(' ∧ c ≠ ')')) :
    Nesting.Enclosed (left choices) (left front).length ↔
      Nesting.Enclosed (whole choices) front.length := by
  rcases thins.stands shape with ⟨_, middle, balances⟩ | stands
  · subst shape
    rw [left_append, whole_append, ← length_whole front]
    exact iff_of_false (balances.left.not_enclosed _)
      (balances.whole.not_enclosed _)
  · subst shape
    cases stands with
    | opening delimits =>
        rw [uncovered_of_runs delimits.before rfl] at apart
        simp at apart
    | closing delimits =>
        rw [uncovered_of_runs (delimits.runs true) rfl] at apart
        simp at apart
    | @held before front behind after _ delimits =>
        have split :
            before ++ ⟨'(', true⟩ :: front ++ ⟨c, true⟩ ::
                (behind ++ ⟨')', true⟩ :: after) =
              before ++ ⟨'(', true⟩ ::
                (front ++ ⟨c, true⟩ :: behind ++ ⟨')', true⟩ :: after) := by
          simp only [List.append_assoc, List.cons_append]
        rw [split]
        refine iff_of_true ⟨_, _, delimits.pair_left after, ?_, ?_⟩
          ⟨_, _, delimits.pair_whole true after, ?_, ?_⟩
        all_goals
          simp only [left_append, left_kept, List.length_append,
            List.length_cons]
          omega

theorem Thins.dropsRedundancy
    (thins : Thins .code choices last) :
    DropsRedundancy choices := by
  constructor
  · intro index c found
    obtain ⟨front, behind, shape, rfl⟩ := List.exists_append_of_getElem? found
    exact thins.uncovered_of_dropped shape
  · exact thins.texts_eq
  · intro choice member solid notOpening notClosing
    obtain ⟨front, behind, shape⟩ := List.append_of_mem member
    exact thins.kept_of_solid shape solid notOpening notClosing
  · intro index c found apart
    obtain ⟨front, behind, shape, rfl⟩ := List.exists_append_of_getElem? found
    have taken : choices.take front.length = front := by
      rw [shape, List.take_left]
    rw [taken]
    exact thins.enclosed_iff shape apart

end Facts

theorem exists_blanks
    {parts : List Part}
    (none : (parts.map Part.strip).filter (fun part => !part.isBlank) = []) :
    ∃ blanks : Text,
      (∀ c ∈ blanks, Text.isBlank c = true) ∧ parts = blanks.map Part.char := by
  induction parts with
  | nil => exact ⟨[], by simp, rfl⟩
  | cons part rest ih =>
      rw [List.map_cons] at none
      cases part with
      | char c =>
          rw [Part.strip] at none
          cases blank : Text.isBlank c with
          | false => simp [Part.isBlank, blank] at none
          | true =>
              rw [List.filter_cons_of_neg (by simp [Part.isBlank, blank])]
                at none
              obtain ⟨blanks, blanksBlank, rfl⟩ := ih none
              exact ⟨c :: blanks,
                List.forall_mem_cons.mpr ⟨blank, blanksBlank⟩, rfl⟩
      | group inner =>
          obtain ⟨content, stripped⟩ := Part.exists_strip_group inner
          simp [stripped, Part.isBlank] at none

/-- Parts that become a single group up to blanks are a group with blanks around
it. -/
theorem exists_of_soleGroup?
    {parts : List Part} {part : Part}
    (sole : Part.soleGroup? (parts.map Part.strip) = some part) :
    ∃ (before after : Text) (inner : List Part),
      (∀ c ∈ before, Text.isBlank c = true) ∧
        (∀ c ∈ after, Text.isBlank c = true) ∧
        parts = before.map Part.char ++ .group inner :: after.map Part.char ∧
        Part.strip (.group inner) = part := by
  obtain ⟨only, content, rfl⟩ := Part.soleGroup?_eq_some sole
  clear sole
  induction parts with
  | nil => cases only
  | cons part rest ih =>
      rw [List.map_cons] at only
      cases part with
      | char c =>
          rw [Part.strip] at only
          cases blank : Text.isBlank c with
          | false =>
              rw [List.filter_cons_of_pos (by simp [Part.isBlank, blank])]
                at only
              cases (List.cons.inj only).1
          | true =>
              rw [List.filter_cons_of_neg (by simp [Part.isBlank, blank])]
                at only
              obtain ⟨before, after, inner, blankBefore, blankAfter,
                  rfl, stripped⟩ := ih only
              exact ⟨c :: before, after, inner,
                List.forall_mem_cons.mpr ⟨blank, blankBefore⟩, blankAfter,
                rfl, stripped⟩
      | group inner =>
          obtain ⟨stripped, shape⟩ := Part.exists_strip_group inner
          rw [shape, List.filter_cons_of_pos rfl, ← shape] at only
          obtain ⟨here, later⟩ := List.cons.inj only
          obtain ⟨after, blankAfter, rfl⟩ := exists_blanks later
          exact ⟨[], after, inner, by simp, blankAfter, rfl, here⟩

/-- The choices that simplifying makes for a group. -/
def Chosen (inner : List Part) : Prop :=
  ∃ content layer,
    Thins .code content .code ∧ Layer content layer ∧
      whole layer = write [.group inner] ∧
      left layer = write [Part.strip (.group inner)]

theorem write_map_char (text : Text) : write (text.map Part.char) = text := by
  induction text with
  | nil => rfl
  | cons c rest ih => rw [List.map_cons, Part.write_char, ih]

theorem chosen_of_choices
    {inner : List Part} {choices : List Choice}
    (thins : Thins .code choices .code)
    (wholeChoices : whole choices = write inner)
    (leftChoices : left choices = write (inner.map Part.strip))
    (groups : ∀ content, .group content ∈ inner → Chosen content) :
    Chosen inner := by
  cases sole : Part.soleGroup? (inner.map Part.strip) with
  | none =>
      refine ⟨choices, _, thins, .kept, ?_, ?_⟩
      · simp [wholeChoices, Part.write_group]
      · simp [leftChoices, Part.write_group, Part.strip, sole]
  | some part =>
      obtain ⟨before, after, group, blankBefore, blankAfter, rfl, stripped⟩ :=
        exists_of_soleGroup? sole
      obtain ⟨content, layer, thinsContent, made, wholeLayer, leftLayer⟩ :=
        groups group (by simp)
      refine ⟨content, _, thinsContent,
        .dropped blankBefore blankAfter made, ?_, ?_⟩
      · simp [wholeLayer, Part.write_group, Part.write_append, write_map_char]
      · have kept :
            Part.strip
              (.group
                (before.map Part.char ++ .group group :: after.map Part.char)) =
              part := by
          rw [Part.strip, sole]
          rfl
        rw [kept, ← stripped, ← leftLayer]
        simp

theorem exists_choices
    {scan last : Scan} {parts : List Part}
    (reads : Reads scan parts last) :
    (∃ choices,
      Thins scan choices last ∧ whole choices = write parts ∧
        left choices = write (parts.map Part.strip)) ∧
      ∀ inner, .group inner ∈ parts → Chosen inner := by
  induction reads with
  | nil scan => exact ⟨⟨[], .nil scan, rfl, rfl⟩, by simp⟩
  | @char scan last c rest allowed reads ih =>
      obtain ⟨⟨choices, thins, wholeChoices, leftChoices⟩, groups⟩ := ih
      refine ⟨⟨⟨c, true⟩ :: choices, .char allowed thins, ?_, ?_⟩, ?_⟩
      · rw [whole_cons, wholeChoices, Part.write_char]
      · rw [left_kept, leftChoices, List.map_cons, Part.strip, Part.write_char]
      · intro inner member
        rcases List.mem_cons.mp member with same | member
        · cases same
        · exact groups inner member
  | @group inner rest last readsInner reads innerIh ih =>
      obtain ⟨⟨choices, thins, wholeChoices, leftChoices⟩, groups⟩ := ih
      obtain ⟨⟨inside, thinsInside, wholeInside, leftInside⟩, innerGroups⟩ :=
        innerIh
      have here :=
        chosen_of_choices thinsInside wholeInside leftInside innerGroups
      refine ⟨?_, ?_⟩
      · obtain ⟨content, layer, thinsContent, made, wholeLayer, leftLayer⟩ :=
          here
        refine ⟨layer ++ choices, .group thinsContent made thins, ?_, ?_⟩
        · rw [whole_append, wholeLayer, wholeChoices, ← Part.write_append,
            List.singleton_append]
        · rw [left_append, leftLayer, leftChoices, ← Part.write_append,
            List.singleton_append, List.map_cons]
      · intro content member
        rcases List.mem_cons.mp member with same | member
        · cases same
          exact here
        · exact groups content member

end Choice

/-- Simplifying a balanced text trims it and then thins it out. -/
theorem exists_thins
    {text : Text}
    (balanced : Nesting.isBalanced text = true) :
    ∃ choices last,
      Choice.Thins .code choices last ∧ Choice.whole choices = Text.trim text ∧
        Choice.left choices = simplify text := by
  obtain ⟨parts, last, reads, written, simplified⟩ := exists_simplify balanced
  obtain ⟨choices, thins, wholeChoices, leftChoices⟩ :=
    (Choice.exists_choices reads).1
  exact ⟨choices, last, thins, wholeChoices.trans written,
    leftChoices.trans simplified.symm⟩

/-- Removing redundant parentheses preserves well-formedness. -/
theorem wellFormed_simplify
    {text : Text}
    (formed : WellFormed text) :
    WellFormed (simplify text) := by
  obtain ⟨choices, last, thins, wholeChoices, leftChoices⟩ :=
    exists_thins formed.balanced
  have closed := formed.trim.closed
  rw [← wholeChoices, Literal.allClosed_iff_texts, ← thins.texts_eq] at closed
  rw [← leftChoices]
  exact ⟨thins.balances.left.isBalanced,
    (Literal.allClosed_iff_texts _).mpr closed⟩

/-- Simplifying a balanced text trims it and then drops redundancy only: pairs
of parentheses and blanks outside literals.  A character that is no parenthesis
is enclosed by a group afterwards exactly when it was in the text. -/
theorem simplify_drops_redundancy
    {text : Text}
    (balanced : Nesting.isBalanced text = true) :
    ∃ choices,
      Choice.whole choices = Text.trim text ∧
        Choice.left choices = simplify text ∧
        Choice.DropsRedundancy choices ∧
        ∀ index,
          Nesting.Enclosed text ((text.takeWhile Text.isBlank).length + index) ↔
            Nesting.Enclosed (Choice.whole choices) index := by
  obtain ⟨choices, last, thins, wholeChoices, leftChoices⟩ :=
    exists_thins balanced
  refine ⟨choices, wholeChoices, leftChoices, thins.dropsRedundancy, ?_⟩
  intro index
  rw [wholeChoices]
  exact Nesting.enclosed_trim_iff balanced index

/-- A call in redundant layers next to a literal with a parenthesis. -/
theorem simplify_drops_redundancy_layers :
    Nesting.isBalanced " ( ( f((a)) ) ) \"( (\" ".toList = true ∧
      ∃ choices,
        Choice.whole choices = "( ( f((a)) ) ) \"( (\"".toList ∧
          Choice.left choices = "( f(a) ) \"( (\"".toList ∧
          Choice.DropsRedundancy choices ∧
          ∀ index,
            Nesting.Enclosed " ( ( f((a)) ) ) \"( (\" ".toList (1 + index) ↔
              Nesting.Enclosed (Choice.whole choices) index := by
  have balanced : Nesting.isBalanced " ( ( f((a)) ) ) \"( (\" ".toList =
      true := by decide
  have simplified : simplify " ( ( f((a)) ) ) \"( (\" ".toList =
      "( f(a) ) \"( (\"".toList := by cbv
  have drops := simplify_drops_redundancy balanced
  rw [simplified] at drops
  exact ⟨balanced, drops⟩

end Group

end MacroTrace
