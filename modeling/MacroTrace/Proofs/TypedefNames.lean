import MacroTrace.Definition.TypeName
import MacroTrace.Proofs.Invocation
import Mathlib.Logic.Function.Iterate

/-!
# Names outside brackets

A typedef declares the names of its text that stand outside all braces and
square brackets.  They are what is left when innermost bracketed parts are
erased round by round, until a round changes nothing.  A round that changes the
text shortens it, so the last round comes.  If the brackets of the text are
nested, a round erases whole groups only: the brackets that are open behind the
text and the names that begin where none is open stay the same, and no bracket
is left in the end.
-/

namespace MacroTrace

namespace TypeName

inductive Bracket where
  | brace
  | square
  deriving DecidableEq, Repr

namespace Bracket

def opening : Bracket → Char
  | brace => '\x7b'
  | square => '['

def closing : Bracket → Char
  | brace => '\x7d'
  | square => ']'

def all : List Bracket := [brace, square]

/-- The brackets that are open behind a character, the last one first.  A
bracket can close only the last one that was opened. -/
def step? (opened : List Bracket) (c : Char) : Option (List Bracket) :=
  match all.find? (·.opening = c) with
  | some bracket => some (bracket :: opened)
  | none =>
      match all.find? (·.closing = c) with
      | none => some opened
      | some bracket =>
          if opened.head? = some bracket then some opened.tail else none

/-- The brackets that are open behind a text, the last one first, unless one
closes another than its partner. -/
def openBehind? (opened : List Bracket) (text : Text) : Option (List Bracket) :=
  text.foldlM step? opened

/-- A character that neither opens nor closes a group. -/
def IsPlain (c : Char) : Prop :=
  ∀ bracket : Bracket, c ≠ bracket.opening ∧ c ≠ bracket.closing

theorem step?_opening (opened : List Bracket) (bracket : Bracket) :
    step? opened bracket.opening = some (bracket :: opened) := by
  cases bracket <;> rfl

theorem step?_closing (opened : List Bracket) (bracket : Bracket) :
    step? opened bracket.closing =
      if opened.head? = some bracket then some opened.tail else none := by
  cases bracket <;> rfl

theorem step?_of_isPlain
    (opened : List Bracket)
    {c : Char}
    (plain : IsPlain c) :
    step? opened c = some opened := by
  have braces := plain brace
  have squares := plain square
  simp only [opening, closing, ne_eq, eq_comm (a := c)] at braces squares
  simp [step?, all, opening, closing, braces, squares]

theorem isPlain_or (c : Char) :
    IsPlain c ∨ ∃ bracket : Bracket, c = bracket.opening ∨
      c = bracket.closing := by
  by_cases found : ∃ bracket : Bracket, c = bracket.opening ∨
    c = bracket.closing
  · exact .inr found
  · refine .inl fun bracket => ?_
    rw [← not_or]
    exact fun here => found ⟨bracket, here⟩

/-- A character opens a group, closes the last group opened, or does nothing. -/
theorem step?_cases
    {opened next : List Bracket} {c : Char}
    (stepped : step? opened c = some next) :
    (∃ bracket : Bracket, c = bracket.opening ∧ next = bracket :: opened) ∨
      (∃ bracket : Bracket, c = bracket.closing ∧ opened = bracket :: next) ∨
      (IsPlain c ∧ next = opened) := by
  rcases isPlain_or c with plain | ⟨bracket, rfl | rfl⟩
  · rw [step?_of_isPlain opened plain] at stepped
    exact .inr (.inr ⟨plain, (Option.some.inj stepped).symm⟩)
  · rw [step?_opening] at stepped
    exact .inl ⟨bracket, rfl, (Option.some.inj stepped).symm⟩
  · rw [step?_closing] at stepped
    split at stepped
    next last =>
      refine .inr (.inl ⟨bracket, rfl, ?_⟩)
      rw [← Option.some.inj stepped]
      exact (List.cons_head?_tail last).symm
    next => cases stepped

@[simp] theorem openBehind?_nil (opened : List Bracket) :
    openBehind? opened [] = some opened :=
  rfl

theorem openBehind?_cons (opened : List Bracket) (c : Char) (rest : Text) :
    openBehind? opened (c :: rest) =
      (step? opened c).bind (openBehind? · rest) :=
  rfl

theorem exists_step?_of_openBehind?
    {opened last : List Bracket} {c : Char} {rest : Text}
    (runs : openBehind? opened (c :: rest) = some last) :
    ∃ next, step? opened c = some next ∧ openBehind? next rest = some last :=
  Option.bind_eq_some_iff.mp runs

theorem openBehind?_append (opened : List Bracket) (left right : Text) :
    openBehind? opened (left ++ right) =
      (openBehind? opened left).bind (openBehind? · right) :=
  List.foldlM_append

theorem openBehind?_of_isPlain
    (opened : List Bracket)
    {text : Text}
    (plain : ∀ c ∈ text, IsPlain c) :
    openBehind? opened text = some opened := by
  induction text with
  | nil => rfl
  | cons c rest ih =>
      rw [openBehind?_cons,
        step?_of_isPlain opened (plain c List.mem_cons_self)]
      exact ih fun d member => plain d (List.mem_cons_of_mem _ member)

theorem isPlain_space : IsPlain ' ' := by
  intro bracket
  cases bracket <;> decide

theorem isWordChar_opening (bracket : Bracket) :
    Text.isWordChar bracket.opening = false := by
  cases bracket <;> decide

theorem isWordChar_closing (bracket : Bracket) :
    Text.isWordChar bracket.closing = false := by
  cases bracket <;> decide

end Bracket

open MacroTrace.TypeName.Bracket (openBehind? step?)

/-- Every bracket is closed by its partner. -/
def IsNested (text : Text) : Prop :=
  openBehind? [] text = some []

instance (text : Text) : Decidable (IsNested text) :=
  inferInstanceAs (Decidable (openBehind? [] text = some []))

/-- Whether no bracket is open at an offset of a text. -/
def isOutside (text : Text) (offset : Nat) : Bool :=
  openBehind? [] (text.take offset) == some []

/-- The macro names of a text outside all brackets that are no keywords, in
order and as often as they occur. -/
def outerNames (text : Text) : List Text :=
  ((Word.macroNames text).filter fun word =>
    isOutside text word.start && !keywords.contains word.spelling).map
      (·.spelling)

/-- One round of erasing: a group without further brackets of its kind becomes a
space. -/
inductive Erases : Text → Text → Prop where
  | nil : Erases [] []
  | group {bracket : Bracket} {inner after erased : Text} :
      bracket.opening ∉ inner →
      bracket.closing ∉ inner →
      Erases after erased →
      Erases (bracket.opening :: (inner ++ bracket.closing :: after))
        (' ' :: erased)
  | keep {c : Char} {rest erased : Text} :
      afterInnermost? (c :: rest) = none →
      Erases rest erased →
      Erases (c :: rest) (c :: erased)

theorem exists_inner_of_afterBracket?
    {opening closing : Char} {text after : Text}
    (found : afterBracket? opening closing text = some after) :
    ∃ inner, text = inner ++ closing :: after ∧ opening ∉ inner ∧
      closing ∉ inner := by
  induction text with
  | nil => cases found
  | cons c rest ih =>
      rw [afterBracket?] at found
      split at found
      next closes =>
        cases found
        exact ⟨[], by rw [closes]; rfl, by simp, by simp⟩
      next notClosing =>
        split at found
        next => cases found
        next notOpening =>
          obtain ⟨inner, rfl, noOpening, noClosing⟩ := ih found
          exact ⟨c :: inner, rfl, by simp [Ne.symm notOpening, noOpening],
            by simp [Ne.symm notClosing, noClosing]⟩

theorem afterInnermost?_opening (bracket : Bracket) (rest : Text) :
    afterInnermost? (bracket.opening :: rest) =
      afterBracket? bracket.opening bracket.closing rest := by
  cases bracket <;> rfl

theorem exists_group_of_afterInnermost?
    {text after : Text}
    (found : afterInnermost? text = some after) :
    ∃ (bracket : Bracket) (inner : Text),
      text = bracket.opening :: (inner ++ bracket.closing :: after) ∧
      bracket.opening ∉ inner ∧ bracket.closing ∉ inner := by
  have opens : ∃ (bracket : Bracket) (rest : Text),
      text = bracket.opening :: rest := by
    unfold afterInnermost? at found
    split at found
    next c rest =>
      split at found
      next brace => exact ⟨.brace, rest, by rw [brace]; rfl⟩
      next =>
        split at found
        next square => exact ⟨.square, rest, by rw [square]; rfl⟩
        next => cases found
    next => cases found
  obtain ⟨bracket, rest, rfl⟩ := opens
  rw [afterInnermost?_opening] at found
  obtain ⟨inner, rfl, apart⟩ := exists_inner_of_afterBracket? found
  exact ⟨bracket, inner, rfl, apart⟩

theorem exists_erases_eraseFrom (written text : Text) :
    ∃ erased, Erases text erased ∧ eraseFrom written text =
      written.reverse ++ erased := by
  fun_induction eraseFrom written text with
  | case1 written => exact ⟨[], .nil, by simp⟩
  | case2 written c rest after found ih =>
      obtain ⟨erased, erases, result⟩ := ih
      obtain ⟨bracket, inner, shape, noOpening, noClosing⟩ :=
        exists_group_of_afterInnermost? found
      rw [shape]
      exact ⟨' ' :: erased, .group noOpening noClosing erases, by simp [result]⟩
  | case3 written c rest unfound ih =>
      obtain ⟨erased, erases, result⟩ := ih
      exact ⟨c :: erased, .keep unfound erases, by simp [result]⟩

theorem erases_eraseFrom (text : Text) : Erases text (eraseFrom [] text) := by
  obtain ⟨erased, erases, result⟩ := exists_erases_eraseFrom [] text
  rwa [result]

namespace Erases

variable {text erased : Text}

/-- A round leaves the text alone or shortens it. -/
theorem eq_or_length_lt
    (erases : Erases text erased) :
    erased = text ∨ erased.length < text.length := by
  induction erases with
  | nil => exact .inl rfl
  | group _ _ _ ih =>
      right
      simp only [List.length_cons, List.length_append]
      rcases ih with rfl | shorter <;> omega
  | keep _ _ ih =>
      rcases ih with rfl | shorter
      · exact .inl rfl
      · exact .inr (by simpa using shorter)

end Erases

theorem length_eraseFrom_lt_iff (text : Text) :
    (eraseFrom [] text).length < text.length ↔ eraseFrom [] text ≠ text := by
  constructor
  · intro shorter same
    rw [same] at shorter
    exact Nat.lt_irrefl _ shorter
  · exact (erases_eraseFrom text).eq_or_length_lt.resolve_left

/-- Rounds are made until one changes nothing, and that is after finitely
many. -/
theorem exists_rounds (text : Text) :
    ∃ rounds ≤ text.length,
      eraseBrackets text = (eraseFrom [])^[rounds] text ∧
      (eraseFrom [])^[rounds + 1] text = (eraseFrom [])^[rounds] text ∧
      ∀ earlier < rounds, (eraseFrom [])^[earlier + 1] text ≠
        (eraseFrom [])^[earlier] text := by
  fun_induction eraseBrackets text with
  | case1 text erased shorter ih =>
      obtain ⟨rounds, bounded, result, fixed, changes⟩ := ih
      refine ⟨rounds + 1, by omega, result, fixed, ?_⟩
      intro earlier before
      cases earlier with
      | zero => exact (length_eraseFrom_lt_iff text).mp shorter
      | succ earlier => exact changes earlier (Nat.lt_of_succ_lt_succ before)
  | case2 text erased notShorter =>
      refine ⟨0, Nat.zero_le _, rfl, ?_, by simp⟩
      exact not_ne_iff.mp (mt (length_eraseFrom_lt_iff text).mpr notShorter)

/-- The words of a text that begin where no bracket is open, `opened` being the
brackets that are open in front of the text, if those in front are nested. -/
def outerWords (opened : Option (List Bracket)) (inWord : Bool) :
    Text → List Text
      | [] => []
      | c :: rest =>
          let later :=
            outerWords (opened.bind (step? · c)) (Text.isWordChar c) rest
      if !inWord && Text.isWordChar c && opened == some [] then
        (c :: rest).takeWhile Text.isWordChar :: later
      else later

theorem outerWords_cons_of_not_word
    {opened : Option (List Bracket)} {inWord : Bool} {c : Char} {rest : Text}
    (notWord : Text.isWordChar c = false) :
    outerWords opened inWord (c :: rest) =
      outerWords (opened.bind (step? · c)) false rest := by
  simp [outerWords, notWord]

theorem outerWords_cons_of_ne_nil
    {opened : List Bracket} {inWord : Bool} {c : Char} {rest : Text}
    (within : opened ≠ []) :
    outerWords (some opened) inWord (c :: rest) =
      outerWords (step? opened c) (Text.isWordChar c) rest := by
  simp [outerWords, within]

theorem isOutside_append (front rest : Text) :
    isOutside (front ++ rest) front.length =
      (openBehind? [] front == some []) := by
  rw [isOutside, List.take_left]

theorem map_filter_stream (front text : Text) (inWord : Bool) :
    ((Word.stream front.reverse front.length inWord text).filter fun word =>
        isOutside (front ++ text) word.start).map (·.spelling) =
      outerWords (openBehind? [] front) inWord text := by
  induction text generalizing front inWord with
  | nil => rfl
  | cons c rest ih =>
      have later := ih (front ++ [c]) (Text.isWordChar c)
      have stepped : openBehind? [] (front ++ [c]) =
          (openBehind? [] front).bind (step? · c) := by
        rw [Bracket.openBehind?_append]
        congr 1
        funext opened
        rw [Bracket.openBehind?_cons]
        exact Option.bind_fun_some _
      rw [List.reverse_append, List.length_append, List.append_assoc,
        stepped] at later
      simp only [Word.stream, outerWords]
      rw [← later]
      by_cases starts : (!inWord && Text.isWordChar c) = true
      · rw [if_pos starts, List.filter_cons]
        simp only [isOutside_append, starts, Bool.true_and]
        split
        next => rfl
        next => rfl
      · rw [if_neg starts, if_neg (by simp [Bool.eq_false_iff.mpr starts])]
        rfl

theorem map_filter_macroNames (text : Text) :
    ((Word.macroNames text).filter fun word => isOutside text word.start).map
        (·.spelling) =
      (outerWords (some []) false text).filter Text.isMacroName := by
  have streamed := map_filter_stream [] text false
  rw [List.reverse_nil, List.length_nil, ← Word.all_eq_stream] at streamed
  rw [← Bracket.openBehind?_nil, ← streamed, List.filter_map, Word.macroNames,
    List.filter_filter, List.filter_filter]
  congr 2
  funext word
  exact Bool.and_comm _ _

/-- Behind a group everything is as in front of it. -/
theorem behind_group
    {bracket : Bracket} {opened others last : List Bracket}
    {inner after : Text}
    (noOpening : bracket.opening ∉ inner)
    (noClosing : bracket.closing ∉ inner)
    (foreign : bracket ∉ others)
    (runs : openBehind? (others ++ bracket :: opened)
        (inner ++ bracket.closing :: after) =
      some last) :
    openBehind? opened after = some last ∧
      ∀ inWord, outerWords (some (others ++ bracket :: opened)) inWord
          (inner ++ bracket.closing :: after) =
        outerWords (some opened) false after := by
  induction inner generalizing others with
  | nil =>
      obtain ⟨next, stepped, behind⟩ := Bracket.exists_step?_of_openBehind? runs
      have closed : next = opened := by
        rw [Bracket.step?_closing] at stepped
        cases others with
        | nil =>
            rw [List.nil_append, List.head?_cons, if_pos rfl] at stepped
            exact (Option.some.inj stepped).symm
        | cons other others =>
            have different : other ≠ bracket :=
              fun same => foreign (by simp [same])
            simp [different] at stepped
      rw [closed] at stepped behind
      refine ⟨behind, fun inWord => ?_⟩
      rw [List.nil_append,
        outerWords_cons_of_not_word bracket.isWordChar_closing,
        Option.bind_some, stepped]
  | cons c inner ih =>
      obtain ⟨next, stepped, runs⟩ := Bracket.exists_step?_of_openBehind? runs
      -- Only a bracket of the group's own kind could close the group.
      obtain ⟨others', rfl, foreign'⟩ : ∃ others',
          next = others' ++ bracket :: opened ∧
          bracket ∉ others' := by
        rcases Bracket.step?_cases stepped with
          ⟨other, rfl, rfl⟩ | ⟨other, rfl, shape⟩ | ⟨_, rfl⟩
        · have different : bracket ≠ other :=
            fun same => noOpening (by simp [same])
          exact ⟨other :: others, rfl, by simp [different, foreign]⟩
        · have different : bracket ≠ other :=
            fun same => noClosing (by simp [same])
          cases others with
          | nil => exact absurd (List.cons.inj shape).1 different
          | cons top others =>
              exact ⟨others, (List.cons.inj shape).2.symm, fun member =>
                foreign (List.mem_cons_of_mem _ member)⟩
        · exact ⟨others, rfl, foreign⟩
      obtain ⟨behind, words⟩ :=
        ih (fun member => noOpening (List.mem_cons_of_mem _ member))
          (fun member => noClosing (List.mem_cons_of_mem _ member))
          foreign' runs
      refine ⟨behind, fun inWord => ?_⟩
      rw [List.cons_append, outerWords_cons_of_ne_nil (by simp), stepped, words]

theorem behind_whole_group
    {bracket : Bracket} {opened last : List Bracket} {inner after : Text}
    (noOpening : bracket.opening ∉ inner)
    (noClosing : bracket.closing ∉ inner)
    (runs :
      openBehind? opened
        (bracket.opening :: (inner ++ bracket.closing :: after)) =
      some last) :
    openBehind? opened after = some last ∧
      ∀ inWord, outerWords (some opened) inWord
          (bracket.opening :: (inner ++ bracket.closing :: after)) =
        outerWords (some opened) false after := by
  rw [Bracket.openBehind?_cons, Bracket.step?_opening, Option.bind_some] at runs
  obtain ⟨behind, words⟩ :=
    behind_group noOpening noClosing (List.not_mem_nil) runs
  refine ⟨behind, fun inWord => ?_⟩
  rw [outerWords_cons_of_not_word bracket.isWordChar_opening, Option.bind_some,
    Bracket.step?_opening]
  exact words false

namespace Erases

variable {text erased : Text} {opened last : List Bracket}

theorem openBehind?_eq
    (erases : Erases text erased)
    (runs : openBehind? opened text = some last) :
    openBehind? opened erased = some last := by
  induction erases generalizing opened with
  | nil => exact runs
  | group noOpening noClosing _ ih =>
      rw [Bracket.openBehind?_cons,
        Bracket.step?_of_isPlain opened Bracket.isPlain_space]
      exact ih (behind_whole_group noOpening noClosing runs).1
  | keep _ _ ih =>
      obtain ⟨next, stepped, runs⟩ := Bracket.exists_step?_of_openBehind? runs
      rw [Bracket.openBehind?_cons, stepped]
      exact ih runs

/-- Neither a bracket nor the space in its place belongs to a word. -/
theorem takeWhile_eq
    (erases : Erases text erased) :
    erased.takeWhile Text.isWordChar = text.takeWhile Text.isWordChar := by
  induction erases with
  | nil => rfl
  | @group bracket _ _ _ _ _ _ _ =>
      rw [List.takeWhile_cons_of_neg (by decide),
        List.takeWhile_cons_of_neg (by simp [bracket.isWordChar_opening])]
  | keep _ _ ih => rw [List.takeWhile_cons, List.takeWhile_cons, ih]

theorem outerWords_eq
    (erases : Erases text erased)
    (runs : openBehind? opened text = some last)
    (inWord : Bool) :
    outerWords (some opened) inWord erased =
      outerWords (some opened) inWord text := by
  induction erases generalizing opened inWord with
  | nil => rfl
  | group noOpening noClosing _ ih =>
      obtain ⟨behind, words⟩ := behind_whole_group noOpening noClosing runs
      rw [words, outerWords_cons_of_not_word (by decide), Option.bind_some,
        Bracket.step?_of_isPlain opened Bracket.isPlain_space]
      exact ih behind false
  | keep _ erases ih =>
      obtain ⟨next, stepped, runs⟩ := Bracket.exists_step?_of_openBehind? runs
      simp only [outerWords, Option.bind_some, stepped, List.takeWhile_cons,
        erases.takeWhile_eq, ih runs]

/-- In a text that a round leaves alone, a group that is not closed before the
next one of its kind is never closed. -/
theorem ne_nil_of_fixed
    (erases : Erases text erased)
    (fixed : erased = text)
    {bracket : Bracket}
    (unclosed : afterBracket? bracket.opening bracket.closing text = none)
    (runs : openBehind? (bracket :: opened) text = some last) :
    last ≠ [] := by
  induction erases generalizing bracket opened with
  | nil =>
      rw [← Option.some.inj runs]
      simp
  | @group other _ _ _ _ _ _ _ =>
      exact absurd (List.cons.inj fixed).1 (Bracket.isPlain_space other).1
  | @keep c rest _ unfound _ ih =>
      have fixedRest := (List.cons.inj fixed).2
      obtain ⟨next, stepped, runs⟩ := Bracket.exists_step?_of_openBehind? runs
      rcases Bracket.step?_cases stepped with
        ⟨other, rfl, rfl⟩ | ⟨other, rfl, shape⟩ |
          ⟨plain, rfl⟩
      · rw [afterInnermost?_opening] at unfound
        exact ih fixedRest unfound runs
      · obtain rfl := (List.cons.inj shape).1
        simp [afterBracket?] at unclosed
      · rw [afterBracket?, if_neg (plain bracket).2,
          if_neg (plain bracket).1] at unclosed
        exact ih fixedRest unclosed runs

theorem isPlain_of_fixed
    (erases : Erases text erased)
    (fixed : erased = text)
    (nested : IsNested text) :
    ∀ c ∈ text, Bracket.IsPlain c := by
  induction erases with
  | nil => simp
  | @group bracket _ _ _ _ _ _ _ =>
      exact absurd (List.cons.inj fixed).1 (Bracket.isPlain_space bracket).1
  | @keep c rest _ unfound erases ih =>
      have fixedRest := (List.cons.inj fixed).2
      obtain ⟨next, stepped, runs⟩ := Bracket.exists_step?_of_openBehind? nested
      rcases Bracket.step?_cases stepped with
        ⟨bracket, rfl, rfl⟩ | ⟨_, _, shape⟩ | ⟨plain, rfl⟩
      · rw [afterInnermost?_opening] at unfound
        exact absurd rfl (erases.ne_nil_of_fixed fixedRest unfound runs)
      · cases shape
      · exact List.forall_mem_cons.mpr ⟨plain, ih fixedRest runs⟩

end Erases

/-- All rounds together erase the groups of a nested text and keep the words
outside them. -/
theorem eraseBrackets_of_isNested
    {text : Text}
    (nested : IsNested text) :
    (∀ c ∈ eraseBrackets text, Bracket.IsPlain c) ∧
      outerWords (some []) false (eraseBrackets text) =
        outerWords (some []) false text := by
  fun_induction eraseBrackets text with
  | case1 text erased shorter ih =>
      have erases : Erases text erased := erases_eraseFrom text
      obtain ⟨plain, words⟩ := ih (erases.openBehind?_eq nested)
      exact ⟨plain, words.trans (erases.outerWords_eq nested false)⟩
  | case2 text erased notShorter =>
      have fixed : erased = text :=
        not_ne_iff.mp (mt (length_eraseFrom_lt_iff text).mpr notShorter)
      exact ⟨(erases_eraseFrom text).isPlain_of_fixed fixed nested, rfl⟩

theorem filter_isOutside_of_isPlain
    {text : Text}
    (plain : ∀ c ∈ text, Bracket.IsPlain c) :
    (Word.macroNames text).filter (fun word => isOutside text word.start) =
      Word.macroNames text := by
  rw [List.filter_eq_self]
  intro word _
  have outside : openBehind? [] (text.take word.start) = some [] :=
    Bracket.openBehind?_of_isPlain [] fun c member =>
      plain c (List.mem_of_mem_take member)
  simpa [isOutside] using outside

theorem typedefNames_eq_eraseDups
    {text : Text}
    (nested : IsNested text) :
    typedefNames text = (outerNames text).eraseDups := by
  obtain ⟨plain, words⟩ := eraseBrackets_of_isNested nested
  have names : (Word.macroNames (eraseBrackets text)).map (·.spelling) =
      ((Word.macroNames text).filter fun word => isOutside text word.start).map
        (·.spelling) := by
    rw [map_filter_macroNames, ← words, ← map_filter_macroNames,
      filter_isOutside_of_isPlain plain]
  rw [typedefNames, names, List.filter_map, List.filter_filter, outerNames]
  congr 3
  funext word
  exact Bool.and_comm _ _

/-- The rounds of erasing come to an end, after one that changes nothing.  A
typedef with nested brackets, `text` being what stands behind its keyword,
declares the names outside all brackets, each once and in the order of their
first occurrences. -/
theorem typedefNames_are_outermost (text : Text) :
    (∃ rounds ≤ text.length,
      eraseBrackets text = (eraseFrom [])^[rounds] text ∧
      (eraseFrom [])^[rounds + 1] text = (eraseFrom [])^[rounds] text ∧
      ∀ earlier < rounds, (eraseFrom [])^[earlier + 1] text ≠
        (eraseFrom [])^[earlier] text) ∧
    (IsNested text →
      (∀ name, name ∈ typedefNames text ↔ name ∈ outerNames text) ∧
      (typedefNames text).Nodup ∧
      (typedefNames text).Pairwise fun one other =>
        (outerNames text).idxOf one < (outerNames text).idxOf other) := by
  refine ⟨exists_rounds text, fun nested => ?_⟩
  have ordered := List.pairwise_idxOf_eraseDups (outerNames text)
  have distinct : (outerNames text).eraseDups.Nodup := by
    refine List.nodup_iff_pairwise_ne.mpr (ordered.imp ?_)
    rintro one other less rfl
    exact Nat.lt_irrefl _ less
  rw [typedefNames_eq_eraseDups nested]
  exact ⟨fun name => List.mem_eraseDups, distinct, ordered⟩

/-- Groups of both kinds inside one another, a group between two names, a
keyword and a repeated name. -/
def groupedTypedef : Text :=
  " struct \x7b int X[N \x7b Y \x7d]; \x7d ".toList ++
    "A, *B[SIZE], A, STRUCT, Q\x7b\x7dR;".toList

theorem typedefNames_of_groupedTypedef :
    IsNested groupedTypedef ∧
      outerNames groupedTypedef =
        ["A".toList, "B".toList, "A".toList, "Q".toList, "R".toList] ∧
      (∀ name, name ∈ typedefNames groupedTypedef ↔
        name ∈ outerNames groupedTypedef) ∧
      (typedefNames groupedTypedef).Nodup ∧
      (typedefNames groupedTypedef).Pairwise fun one other =>
        (outerNames groupedTypedef).idxOf one <
          (outerNames groupedTypedef).idxOf other :=
  ⟨by decide, by decide +kernel,
    (typedefNames_are_outermost groupedTypedef).2 (by decide)⟩

end TypeName

end MacroTrace
