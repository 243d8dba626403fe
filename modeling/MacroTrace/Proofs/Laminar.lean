import MacroTrace.Proofs.ArgumentList
import Mathlib.Data.List.Pairwise

/-!
# Nested invocations

The extents of the invocations of a text form a laminar family: two of them are
disjoint or one contains the other, and what starts inside the extent of an
invocation lies deeper than it.  Names, closing parentheses and depths are found
by three scans of the text.  They agree because a name outside literals stands
in code, so that its argument list is read from the state in which the other
scans pass its opening parenthesis.
-/

namespace MacroTrace

open Literal (Scan)

namespace ArgumentList

theorem Stays.deeper
    {scan : Scan} {depth : Nat} {c : Char}
    (stays : Stays scan depth c)
    (more : Nat) :
    Stays scan (more + depth) c := by
  rcases stays with covered | deep | plain
  · exact .inl covered
  · exact .inr (.inl (Nat.lt_of_lt_of_le deep (Nat.le_add_left depth more)))
  · exact .inr (.inr plain)

theorem le_of_closingFrom
    {scan : Scan} {depth offset closing : Nat} {text : Text}
    (closes : Nesting.closingFrom scan (depth + 1) offset text = some closing) :
    offset ≤ closing := by
  rw [closingFrom_eq_map_readFrom scan depth offset [] [] text] at closes
  obtain ⟨list, read, rfl⟩ := Option.map_eq_some_iff.mp closes
  have stops := stop_of_readFrom read
  omega

/-- Of two parentheses that are open, the inner one is closed first. -/
theorem closingFrom_lt_closingFrom
    {scan : Scan} {depth more offset inner outer : Nat} {text : Text}
    (outside : 0 < more)
    (closesInner : Nesting.closingFrom scan (depth + 1) offset text =
      some inner)
    (closesOuter : Nesting.closingFrom scan ((more + depth : Nat) + 1) offset
      text = some outer) :
    inner < outer := by
  induction text generalizing scan depth offset with
  | nil => cases closesInner
  | cons c rest ih =>
      by_cases stays : Stays scan depth c
      · rw [closingFrom_of_stays stays] at closesInner
        rw [closingFrom_of_stays (stays.deeper more),
          Invocation.next_of_stays stays] at closesOuter
        exact ih closesInner closesOuter
      · obtain ⟨rfl, rfl, separator⟩ := eq_of_not_stays stays
        have passed : Stays .code (more + 0) c := .inr (.inl outside)
        rw [closingFrom_of_stays passed] at closesOuter
        rcases separator with rfl | rfl
        · exact ih closesInner closesOuter
        · cases closesInner
          exact le_of_closingFrom closesOuter

theorem closingFrom_of_inert
    {front : Text}
    (inert : ∀ c ∈ front, Place.isInert c = true)
    (depth : Int) (offset : Nat) (rest : Text) :
    Nesting.closingFrom .code depth offset (front ++ rest) =
      Nesting.closingFrom .code depth (offset + front.length) rest := by
  induction front generalizing offset with
  | nil => rfl
  | cons c front ih =>
      have here := inert c List.mem_cons_self
      have later :=
        ih (fun d member => inert d (List.mem_cons_of_mem _ member))
          (offset + 1)
      have step := Place.step_code_of_inert here
      obtain ⟨plain, notOpening, notClosing⟩ := (Place.isInert_iff c).mp here
      rw [List.length_cons, Nat.add_comm front.length 1, ← Nat.add_assoc,
        ← later, List.cons_append]
      simp [Nesting.closingFrom, Scan.covers, plain, notOpening,
        notClosing, step]

end ArgumentList

namespace Invocation

/-- An invocation is found at the first character of its name. -/
theorem exists_heading?_of_mem_stream
    {scan : Scan} {depth offset : Nat} {inWord : Bool} {text : Text}
    {invocation : Invocation}
    (member : invocation ∈ stream scan depth offset inWord text) :
    ∃ front c rest,
      text = front ++ c :: rest ∧
        Text.isIdentifierStart c = true ∧
        (scan.run front).covers c = false ∧
        heading? (Nesting.behind scan depth front) (offset + front.length)
            (c :: rest) =
          some invocation := by
  induction text generalizing scan depth offset inWord with
  | nil => cases member
  | cons c rest ih =>
      rcases mem_stream_cons member with ⟨_, first, uncovered, found⟩ | later
      · exact ⟨[], c, rest, rfl, first, uncovered, found⟩
      · obtain ⟨front, d, after, rfl, first, uncovered, found⟩ := ih later
        refine ⟨c :: front, d, after, rfl, first, uncovered, ?_⟩
        rw [List.length_cons, Nat.add_comm front.length 1, ← Nat.add_assoc]
        exact found

/-- What the text holds at an invocation: outside literals a name, and behind
that of a call the argument list, which a parenthesis closes at the end of the
extent. -/
structure Placed (text : Text) (invocation : Invocation) : Prop where
  outside : Span.covered (Literal.spans text) invocation.start = false
  identifier : invocation.name.isIdentifier = true
  named : invocation.name <+: text.drop invocation.start
  bare : invocation.arguments = none →
    invocation.stop = invocation.start + invocation.name.length
  called : ∀ arguments, invocation.arguments = some arguments →
    ∃ opening closing,
      Text.isAllBlank
          (Text.slice text ⟨invocation.start + invocation.name.length,
            opening⟩) = true ∧
        text[opening]? = some '(' ∧
        ArgumentList.at? text opening = some ⟨arguments, invocation.stop⟩ ∧
        Nesting.closing? text opening = some closing ∧
        invocation.stop = closing + 1

theorem placed_of_mem_all
    {text : Text} {invocation : Invocation}
    (member : invocation ∈ all text) :
    Placed text invocation := by
  rw [all_eq_stream] at member
  obtain ⟨front, c, rest, rfl, first, uncovered, found⟩ :=
    exists_heading?_of_mem_stream member
  rw [Nat.zero_add] at found
  have covered :
      Span.covered (Literal.spans (front ++ c :: rest)) front.length =
        false := by
    rw [Literal.covered_spans]
    exact uncovered
  have isWord := Text.isWordChar_of_isIdentifierStart first
  have identifier : Text.isIdentifier ((c :: rest).takeWhile Text.isWordChar) =
      true := by
    simp only [Text.isIdentifier, Bool.and_eq_true, List.all_eq_true]
    refine ⟨by simp [isWord, first],
      fun d member => List.mem_takeWhile_imp member⟩
  have behind : (front ++ c :: rest).drop front.length = c :: rest :=
    List.drop_left
  have named : (c :: rest).takeWhile Text.isWordChar <+:
      (front ++ c :: rest).drop front.length := by
    rw [behind]
    exact List.takeWhile_prefix _
  rcases heading?_cases found with
    ⟨after, shape, rfl⟩ | ⟨blanks, inner, list, blank, shape, read, rfl⟩
  · refine ⟨covered, identifier, named, fun _ => rfl, ?_⟩
    intro arguments called
    cases called
  · refine ⟨covered, identifier, named, fun bare => (by cases bare), ?_⟩
    intro arguments called
    cases called
    generalize (c :: rest).takeWhile Text.isWordChar = name at shape read
    rw [shape] at behind ⊢
    have afterName := List.drop_add_length behind
    have afterBlanks := List.drop_add_length afterName
    have opens :
        (front ++ (name ++ (blanks ++ '(' :: inner)))[front.length +
          name.length +
          blanks.length]? = some '(' := by
      rw [← List.head?_drop, afterBlanks]
      rfl
    have content :
        (front ++ (name ++ (blanks ++ '(' :: inner))).drop (front.length +
          name.length + blanks.length + 1) = inner := by
      rw [← List.drop_drop, afterBlanks]
      rfl
    have listAt := ArgumentList.at?_eq_readFrom opens
    rw [content, read] at listAt
    have stops := ArgumentList.stop_of_readFrom read
    have closes := ArgumentList.closing?_eq_map_at? opens
    rw [listAt] at closes
    refine ⟨_, list.stop - 1, ?_, opens, listAt, closes, by simp only; omega⟩
    simp only
    rw [Text.slice_of_drop afterName]
    exact Text.isAllBlank_iff.mpr blank

theorem getElem?_next_of_isCalled
    {text : Text} {word : Word}
    (stands : word.Stands text)
    (called : word.isCalled = true) :
    text[word.next]? = some '(' := by
  obtain ⟨front, shape, starts⟩ := stands.split
  have behind : text.drop word.start = word.spelling ++ word.after := by
    rw [shape, starts, List.drop_left]
  have afterName := List.drop_add_length behind
  rw [← Text.trimLeft_append word.after] at afterName
  have afterBlanks := List.drop_add_length afterName
  rw [← List.head?_drop, Word.next, Word.stop, afterBlanks]
  exact eq_of_beq called

/-- An identifier outside literals is the name of an invocation, unless it is
called and its argument list is never closed. -/
theorem exists_mem_all
    {text : Text} {word : Word}
    (member : word ∈ Word.identifiers text)
    (outside : Span.covered (Literal.spans text) word.start = false)
    (closed : word.isCalled = true → Nesting.closing? text word.next ≠ none) :
    ∃ invocation ∈ all text, invocation.start = word.start ∧
      invocation.name = word.spelling := by
  have made (depth : Nat) : ∃ invocation, ofWord? text depth word =
      some invocation ∧
      invocation.start = word.start ∧ invocation.name = word.spelling := by
    by_cases called : word.isCalled = true
    · have opens :=
        getElem?_next_of_isCalled (Word.stands_of_mem_identifiers member) called
      have present := closed called
      rw [ArgumentList.closing?_eq_map_at? opens, Ne,
        Option.map_eq_none_iff] at present
      obtain ⟨list, found⟩ := Option.ne_none_iff_exists'.mp present
      exact ⟨_, by rw [ofWord?, if_pos called, found, Option.map_some], rfl,
        rfl⟩
    · exact ⟨_, by rw [ofWord?, if_neg called], rfl, rfl⟩
  obtain ⟨invocation, found, named⟩ := made _
  refine ⟨invocation, ?_, named⟩
  rw [all, List.mem_filterMap]
  exact ⟨word, member, by rw [outside]; exact found⟩

theorem stop_le_of_heading?
    {depth level offset closing : Nat} {text : Text} {invocation : Invocation}
    (closes : Nesting.closingFrom .code (depth + 1) offset text = some closing)
    (found : heading? level offset text = some invocation) :
    invocation.stop ≤ closing := by
  have word : ∀ c ∈ text.takeWhile Text.isWordChar, Place.isInert c = true :=
    fun _ member => Text.isInert_of_isWordChar (List.mem_takeWhile_imp member)
  rcases heading?_cases found with
    ⟨after, shape, rfl⟩ | ⟨blanks, inner, list, blank, shape, read, rfl⟩
  · rw [shape, ArgumentList.closingFrom_of_inert word] at closes
    exact ArgumentList.le_of_closingFrom closes
  · have inert : ∀ c ∈ blanks, Place.isInert c = true :=
      fun c member => Text.isInert_of_isBlank (blank c member)
    have opens : ArgumentList.Stays .code depth '(' := .inr (.inr (by decide))
    rw [shape, ArgumentList.closingFrom_of_inert word,
      ArgumentList.closingFrom_of_inert inert,
      ArgumentList.closingFrom_of_stays opens] at closes
    have closesInner := ArgumentList.closingFrom_of_readFrom read
    have before :=
      ArgumentList.closingFrom_lt_closingFrom (Nat.succ_pos depth)
        closesInner closes
    exact Nat.le_of_pred_lt before

/-- An invocation that starts in front of a closing parenthesis ends in front of
it. -/
theorem stop_le_of_mem_stream
    {scan : Scan} {depth level offset closing : Nat} {inWord : Bool}
    {text : Text} {invocation : Invocation}
    (closes : Nesting.closingFrom scan (depth + 1) offset text = some closing)
    (member : invocation ∈ stream scan level offset inWord text)
    (inside : invocation.start ≤ closing) :
    invocation.stop ≤ closing := by
  induction text generalizing scan depth level offset inWord with
  | nil => cases member
  | cons c rest ih =>
      rcases mem_stream_cons member with ⟨_, first, uncovered, found⟩ | later
      · obtain rfl := scan_eq_code_of_start first uncovered
        exact stop_le_of_heading? closes found
      · by_cases stays : ArgumentList.Stays scan depth c
        · rw [ArgumentList.closingFrom_of_stays stays] at closes
          exact ih closes later
        · obtain ⟨rfl, rfl, rfl | rfl⟩ := ArgumentList.eq_of_not_stays stays
          · exact ih closes later
          · cases closes
            exact absurd inside (Nat.not_le_of_lt (start_of_mem_stream later))

/-- How an invocation relates to a later one: it precedes it, and the later one
starts behind it or ends inside it. -/
structure Leads (first second : Invocation) : Prop where
  precedes : first.Precedes second
  nested : first.stop ≤ second.start ∨ second.stop ≤ first.stop

theorem pairwise_leads (text : Text) : (all text).Pairwise Leads := by
  have nested : (all text).Pairwise fun first second =>
      first.stop ≤ second.start ∨ second.stop ≤ first.stop := by
    rw [all_eq_stream]
    apply pairwise_stream
    intro depth offset c rest first second isWord found later
    rcases behind_or_inside_of_heading? isWord found later with
      behind | ⟨start, inner, list, inside, read, stops⟩
    · exact .inl behind
    · by_cases apart : first.stop ≤ second.start
      · exact .inl apart
      · have closes := ArgumentList.closingFrom_of_readFrom read
        have reached := ArgumentList.stop_of_readFrom read
        have within := stop_le_of_mem_stream closes inside (by omega)
        exact .inr (by omega)
  exact ((pairwise_all text).and nested).imp fun both => ⟨both.1, both.2⟩

/-- Of two invocations of a text, one leads the other. -/
theorem leads_or_leads
    {text : Text} {one other : Invocation}
    (member : one ∈ all text)
    (memberOther : other ∈ all text)
    (different : one ≠ other) :
    one.Leads other ∨ other.Leads one := by
  have symmetric : Std.Symm fun one other : Invocation => one.Leads other ∨
      other.Leads one :=
    ⟨fun _ _ => Or.symm⟩
  have either : (all text).Pairwise fun one other => one.Leads other ∨
      other.Leads one :=
    (pairwise_leads text).imp Or.inl
  exact either.forall member memberOther different

/-- The extents have no character in common. -/
def IsApart (one other : Invocation) : Prop :=
  one.stop ≤ other.start ∨ other.stop ≤ one.start

/-- The first extent contains the second. -/
def Encloses (outer inner : Invocation) : Prop :=
  outer.start ≤ inner.start ∧ inner.stop ≤ outer.stop

/-- The invocations of a text form a laminar family ordered by depth. -/
theorem all_isLaminar (text : Text) :
    (all text).Pairwise (fun first second => first.start < second.start) ∧
      (∀ invocation ∈ all text, Placed text invocation) ∧
      (∀ word ∈ Word.identifiers text,
        Span.covered (Literal.spans text) word.start = false →
        (word.isCalled = true → Nesting.closing? text word.next ≠ none) →
        ∃ invocation ∈ all text,
          invocation.start = word.start ∧ invocation.name = word.spelling) ∧
      (∀ one ∈ all text, ∀ other ∈ all text,
        one.IsApart other ∨ one.Encloses other ∨ other.Encloses one) ∧
      (∀ outer ∈ all text, ∀ inner ∈ all text, inner ≠ outer →
        outer.start ≤ inner.start → inner.start < outer.stop →
        outer.depth < inner.depth) ∧
      ∀ one ∈ all text, ∀ other ∈ all text, one ≠ other →
        one.depth = other.depth → one.IsApart other := by
  refine ⟨(pairwise_all text).imp And.left,
    fun _ => placed_of_mem_all, fun _ => exists_mem_all, ?_, ?_, ?_⟩
  · intro one member other memberOther
    by_cases same : one = other
    · subst same
      exact .inr (.inl ⟨Nat.le_refl _, Nat.le_refl _⟩)
    · rcases leads_or_leads member memberOther same with leads | leads
      · rcases leads.nested with behind | inside
        · exact .inl (.inl behind)
        · exact .inr (.inl ⟨Nat.le_of_lt leads.precedes.1, inside⟩)
      · rcases leads.nested with behind | inside
        · exact .inl (.inr behind)
        · exact .inr (.inr ⟨Nat.le_of_lt leads.precedes.1, inside⟩)
  · intro outer member inner memberInner different starts inside
    rcases leads_or_leads member memberInner different.symm with leads | leads
    · by_contra shallow
      have behind := leads.precedes.2 (Nat.le_of_not_lt shallow)
      exact absurd inside (Nat.not_lt_of_le behind)
    · exact absurd leads.precedes.1 (Nat.not_lt_of_le starts)
  · intro one member other memberOther different level
    rcases leads_or_leads member memberOther different with leads | leads
    · exact .inl (leads.precedes.2 (Nat.le_of_eq level.symm))
    · exact .inr (leads.precedes.2 (Nat.le_of_eq level))

/-- A parenthesis that closes nothing, a literal with an open one, and a call
that is never closed. -/
theorem all_isLaminar_unmatched :
    ∃ outer inner other,
      (∀ invocation ∈ [outer, inner, other],
        invocation ∈ all ") f(g(a), \"h(\") g(b) h(".toList) ∧
        inner ≠ outer ∧ outer.start ≤ inner.start ∧ inner.start < outer.stop ∧
        outer.depth < inner.depth ∧
        outer ≠ other ∧ outer.depth = other.depth ∧ outer.IsApart other := by
  have found : ∀ invocation ∈ ([
      ⟨['f'], some [⟨"g(a)".toList, ⟨4, 8⟩⟩, ⟨"\"h(\"".toList, ⟨10, 14⟩⟩], 2,
        15, 0⟩,
      ⟨['g'], some [⟨['a'], ⟨6, 7⟩⟩], 4, 8, 1⟩,
      ⟨['g'], some [⟨['b'], ⟨18, 19⟩⟩], 16, 20, 0⟩] : List Invocation),
      invocation ∈ all ") f(g(a), \"h(\") g(b) h(".toList := by
    decide +kernel
  obtain ⟨_, _, _, _, deeper, apart⟩ :=
    all_isLaminar ") f(g(a), \"h(\") g(b) h(".toList
  refine ⟨_, _, _, found, by decide, by decide, by decide, ?_,
    by decide, rfl, ?_⟩
  · exact deeper _ (found _ (by simp)) _ (found _ (by simp)) (by decide)
      (by decide) (by decide)
  · exact apart _ (found _ (by simp)) _ (found _ (by simp)) (by decide) rfl

end Invocation

end MacroTrace
