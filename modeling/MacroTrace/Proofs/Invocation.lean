import MacroTrace.Invocation.Basic
import MacroTrace.Proofs.WellFormed

/-!
# Invocations, read from left to right

The invocations of a text are collected from its words, with literals and depths
looked up by offset.  `Invocation.stream` finds the same ones in a single
reading that carries the literal scan and the depth along, so that facts about
them are proved by induction on the text.
-/

namespace MacroTrace

open Literal (Scan)

namespace Nesting

/-- The depth behind a character. -/
def next (scan : Scan) (depth : Nat) (c : Char) : Nat :=
  if scan.covers c then depth else depthAfter depth c

/-- The depth behind a text. -/
def behind (scan : Scan) (depth : Nat) : Text → Nat
  | [] => depth
  | c :: rest => behind (scan.step c) (next scan depth c) rest

theorem behind_append (scan : Scan) (depth : Nat) (left right : Text) :
    behind scan depth (left ++ right) =
      behind (scan.run left) (behind scan depth left) right := by
  induction left generalizing scan depth with
  | nil => rfl
  | cons c left ih => exact ih _ _

theorem depthsFrom_seen
    (scan : Scan) (depth : Nat) (seen : List Nat) (text : Text) :
    depthsFrom scan depth seen text =
      seen.reverse ++ depthsFrom scan depth [] text := by
  induction text generalizing scan depth seen with
  | nil => simp [depthsFrom]
  | cons c text ih =>
      simp only [depthsFrom]
      rw [ih, ih _ _ [depth]]
      simp

theorem depthsFrom_getElem? (scan : Scan) (depth : Nat) (front rest : Text) :
    (depthsFrom scan depth [] (front ++ rest))[front.length]? =
      some (behind scan depth front) := by
  induction front generalizing scan depth with
  | nil =>
      cases rest with
      | nil => rfl
      | cons c rest =>
          simp only [List.nil_append, depthsFrom]
          rw [depthsFrom_seen]
          rfl
  | cons c front ih =>
      simp only [List.cons_append, depthsFrom]
      rw [depthsFrom_seen, List.reverse_singleton, List.singleton_append,
        List.length_cons, List.getElem?_cons_succ]
      exact ih _ _

/-- The depth in front of the rest of a text. -/
theorem depths_getElem? (front rest : Text) :
    (depths (front ++ rest))[front.length]? = some (behind .code 0 front) :=
  depthsFrom_getElem? .code 0 front rest

end Nesting

/-- Every comma stands inside a literal or inside parentheses. -/
def Text.CommasEnclosed (text : Text) : Prop :=
  ∀ index, text[index]? = some ',' →
    Span.covered (Literal.spans text) index = true ∨
      0 < (Nesting.depths text)[index]?.getD 0

namespace Text.CommasEnclosed

instance (text : Text) : Decidable text.CommasEnclosed :=
  decidable_of_iff
    (∀ index < text.length, text[index]? = some ',' →
      Span.covered (Literal.spans text) index = true ∨
        0 < (Nesting.depths text)[index]?.getD 0)
    ⟨fun enclosed index comma =>
        enclosed index (List.getElem?_eq_some_iff.mp comma).1 comma,
      fun enclosed index _ => enclosed index⟩

theorem of_not_mem
    {text : Text}
    (absent : ',' ∉ text) :
    text.CommasEnclosed :=
  fun _ comma => absurd (List.mem_of_getElem? comma) absent

/-- A comma is enclosed by what is open behind the text in front of it. -/
theorem iff_forall_append
    {text : Text} :
    text.CommasEnclosed ↔
      ∀ front rest, text = front ++ ',' :: rest →
        (Scan.code.run front).covers ',' = true ∨
          0 < Nesting.behind .code 0 front := by
  constructor
  · intro enclosed front rest shape
    have comma : text[front.length]? = some ',' := by simp [shape]
    have here := enclosed front.length comma
    rwa [shape, Literal.covered_spans, Nesting.depths_getElem?,
      Option.getD_some] at here
  · intro enclosed index comma
    obtain ⟨front, rest, rfl, rfl⟩ := List.exists_append_of_getElem? comma
    rw [Literal.covered_spans, Nesting.depths_getElem?, Option.getD_some]
    exact enclosed front rest rfl

end Text.CommasEnclosed

namespace Word

/-- The words that begin in a text, each found at its first character. -/
def stream (before : Text) (offset : Nat) (inWord : Bool) : Text → List Word
  | [] => []
  | c :: rest =>
      let later := stream (c :: before) (offset + 1) (Text.isWordChar c) rest
      if !inWord && Text.isWordChar c then
        ⟨(c :: rest).takeWhile Text.isWordChar, offset, before,
          (c :: rest).dropWhile Text.isWordChar⟩ :: later
      else later

/-- A word under construction is completed by the word characters ahead. -/
private theorem allFrom_eq
    (found : List Word) (before run : Text) (offset : Nat) (text : Text) :
    allFrom found before run offset text =
      found.reverse ++
        (if run.isEmpty then [] else
          [⟨run.reverse ++ text.takeWhile Text.isWordChar,
            offset - run.length, before, text.dropWhile Text.isWordChar⟩]) ++
        stream (run ++ before) offset (!run.isEmpty) text := by
  induction text generalizing found before run offset with
  | nil =>
      cases run with
      | nil => simp [allFrom, close, stream]
      | cons d run => simp [allFrom, close, stream]
  | cons c rest ih =>
      simp only [allFrom]
      split
      next isWord =>
        rw [ih]
        cases run with
        | nil => simp [stream, isWord]
        | cons d run => simp [stream, isWord]
      next notWord =>
        rw [ih]
        cases run with
        | nil => simp [stream, notWord, close]
        | cons d run => simp [stream, notWord, close]

theorem all_eq_stream (text : Text) : all text = stream [] 0 false text := by
  rw [all, allFrom_eq]
  rfl

end Word

/-- Whether a text is a name that can be found in another text. -/
def Text.isIdentifier (text : Text) : Bool :=
  text.head?.any isIdentifierStart && text.all isWordChar

theorem Text.isWordChar_of_isIdentifierStart
    {c : Char}
    (first : isIdentifierStart c = true) :
    isWordChar c = true := by
  have ascii : c.toNat < 128 := by
    simp only [isIdentifierStart, isAsciiLetter, isUpper, Bool.or_eq_true,
      Bool.and_eq_true, decide_eq_true_eq, beq_iff_eq] at first
    rcases first with (⟨_, below⟩ | ⟨_, below⟩) | rfl
    · exact Nat.lt_of_le_of_lt (UInt32.le_iff_toNat_le.mp below) (by decide)
    · exact Nat.lt_of_le_of_lt (UInt32.le_iff_toNat_le.mp below) (by decide)
    · decide
  simp only [isIdentifierStart, Bool.or_eq_true] at first
  simp only [isWordChar, ascii, if_true, Bool.or_eq_true]
  tauto

namespace Invocation

/-- The invocation by the word at the start of a text that stands at `offset`,
if it makes one. -/
def heading? (depth offset : Nat) (text : Text) : Option Invocation :=
  let name := text.takeWhile Text.isWordChar
  let after := text.dropWhile Text.isWordChar
  let next := offset + name.length + (after.takeWhile Text.isBlank).length
  match Text.trimLeft after with
  | '(' :: rest =>
      (ArgumentList.readFrom .code 0 (next + 1) [] [] rest).map fun list =>
        ⟨name, some list.arguments, offset, list.stop, depth⟩
  | _ => some ⟨name, none, offset, offset + name.length, depth⟩

/-- The invocations that begin in a text, each found at the first character of
its name. -/
def stream (scan : Scan) (depth offset : Nat) (inWord : Bool) : Text →
    List Invocation
  | [] => []
  | c :: rest =>
      let later :=
        stream (scan.step c) (Nesting.next scan depth c) (offset + 1)
          (Text.isWordChar c) rest
      if !inWord && Text.isIdentifierStart c && !scan.covers c then
        (heading? depth offset (c :: rest)).toList ++ later
      else later

private theorem ofWord?_eq_heading? (front text : Text) (depth : Nat) :
    ofWord? (front ++ text) depth
        ⟨text.takeWhile Text.isWordChar, front.length, front.reverse,
          text.dropWhile Text.isWordChar⟩ =
      heading? depth front.length text := by
  have behind :
      (front ++ text).drop
          (front.length + (text.takeWhile Text.isWordChar).length +
          ((text.dropWhile Text.isWordChar).takeWhile Text.isBlank).length) =
        Text.trimLeft (text.dropWhile Text.isWordChar) := by
    rw [← List.drop_drop, ← List.drop_drop, List.drop_left,
      List.drop_takeWhile_length, List.drop_takeWhile_length]
    rfl
  unfold ofWord? heading?
  simp only [Word.isCalled, Word.next, Word.stop, ArgumentList.at?, behind]
  cases found : Text.trimLeft (text.dropWhile Text.isWordChar) with
  | nil => simp
  | cons d rest =>
      by_cases opening : d = '('
      · subst opening
        simp
      · simp [opening]

private theorem filterMap_stream (front text : Text) (inWord : Bool) :
    ((Word.stream front.reverse front.length inWord text).filter
      Word.isIdentifier).filterMap
        (fun word =>
          if Span.covered (Literal.spans (front ++ text)) word.start then none
          else ofWord? (front ++ text)
            ((Nesting.depths (front ++ text)).toArray[word.start]?.getD 0)
            word) =
      stream (Scan.code.run front) (Nesting.behind .code 0 front)
        front.length inWord text := by
  induction text generalizing front inWord with
  | nil => rfl
  | cons c rest ih =>
      -- The rest of the text is read with one more character in front.
      have later := ih (front ++ [c]) (Text.isWordChar c)
      simp only [List.reverse_append, List.reverse_singleton,
        List.singleton_append, List.length_append, List.length_singleton,
        List.append_assoc, Scan.run_append, Nesting.behind_append,
        Nesting.behind] at later
      have covered := Literal.covered_spans front c rest
      have depth := Nesting.depths_getElem? front (c :: rest)
      have here :=
        ofWord?_eq_heading? front (c :: rest) (Nesting.behind .code 0 front)
      simp only [Word.stream, stream]
      cases isWord : Text.isWordChar c with
      | false =>
          have notFirst : Text.isIdentifierStart c = false := by
            by_contra first
            rw [Bool.not_eq_false] at first
            rw [Text.isWordChar_of_isIdentifierStart first] at isWord
            cases isWord
          rw [isWord] at later
          simpa [notFirst] using later
      | true =>
          rw [isWord] at later
          cases inWord with
          | true => simpa using later
          | false =>
              have spelled : Word.isIdentifier
                  ⟨(c :: rest).takeWhile Text.isWordChar, front.length,
                    front.reverse, (c :: rest).dropWhile Text.isWordChar⟩ =
                      Text.isIdentifierStart c := by
                simp [Word.isIdentifier, isWord]
              simp only [Bool.not_false, Bool.true_and, if_true,
                List.filter_cons, spelled]
              cases first : Text.isIdentifierStart c with
              | false => simpa using later
              | true =>
                  simp only [if_true, List.filterMap_cons, covered]
                  cases isCovered : (Scan.code.run front).covers c with
                  | true => simpa using later
                  | false =>
                      simp only [Bool.false_eq_true, if_false, Bool.not_false,
                        Bool.and_true, if_true]
                      rw [List.getElem?_toArray, depth, Option.getD_some, here]
                      cases heading? (Nesting.behind .code 0 front) front.length
                        (c :: rest) with
                      | none => simpa using later
                      | some invocation => simpa using later

/-- Both ways of finding the invocations of a text agree. -/
theorem all_eq_stream (text : Text) :
    all text = stream .code 0 0 false text := by
  have streamed := filterMap_stream [] text false
  rw [all, Word.identifiers, Word.all_eq_stream]
  exact streamed

end Invocation

end MacroTrace
