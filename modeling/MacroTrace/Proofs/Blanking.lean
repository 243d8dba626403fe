import MacroTrace.Proofs.Literal
import MacroTrace.Source.Comment
import MacroTrace.Source.Directive
import Mathlib.Data.List.Forall2

/-!
# Blanking

Comments and directives are replaced by spaces, character by character.  A
machine that starts in code only ever has one of seven stacks of modes, so it is
read here as an automaton with seven states; the slash that may open a comment
is the only character that it writes late.  Both ways of blanking keep the
length of a text and the line feeds in it, and a text in which no comment opens
stays as it is.
-/

namespace MacroTrace

open Literal (Scan)

namespace Text

/-- A character is kept, or becomes a space; those in `kept` never do. -/
def Hides (kept : Char → Bool) (c d : Char) : Prop :=
  d = c ∨ d = ' ' ∧ kept c = false

/-- The second text is the first with some characters, none of them in `kept`,
made spaces. -/
def Hidden (kept : Char → Bool) : Text → Text → Prop :=
  List.Forall₂ (Hides kept)

def isFeed (c : Char) : Bool :=
  c = '\n'

namespace Hidden

variable {kept : Char → Bool} {text middle blanked : Text}

theorem refl (kept : Char → Bool) (text : Text) : Hidden kept text text :=
  List.forall₂_same.mpr fun _ _ => .inl rfl

theorem trans
    (first : Hidden kept text middle)
    (second : Hidden kept middle blanked) :
    Hidden kept text blanked := by
  induction first generalizing blanked with
  | nil => exact second
  | @cons c d text middle here _ ih =>
      cases second with
      | @cons _ e _ blanked again later =>
          apply List.Forall₂.cons _ (ih later)
          rcases again with rfl | ⟨rfl, dropped⟩
          · exact here
          · rcases here with rfl | ⟨rfl, free⟩
            · exact .inr ⟨rfl, dropped⟩
            · exact .inr ⟨rfl, free⟩

theorem mono
    {fewer : Char → Bool}
    (weaker : ∀ c, kept c = false → fewer c = false)
    (hidden : Hidden kept text blanked) :
    Hidden fewer text blanked := by
  apply List.Forall₂.imp _ hidden
  rintro c d (rfl | ⟨rfl, free⟩)
  · exact .inl rfl
  · exact .inr ⟨rfl, weaker c free⟩

theorem feeds
    (hidden : Hidden isLineBreak text blanked) :
    Hidden isFeed text blanked := by
  apply hidden.mono
  intro c free
  simp only [isLineBreak, Bool.or_eq_false_iff, beq_eq_false_iff_ne] at free
  simpa [isFeed] using free.1

theorem append
    {otherText otherBlanked : Text}
    (left : Hidden kept text blanked)
    (right : Hidden kept otherText otherBlanked) :
    Hidden kept (text ++ otherText) (blanked ++ otherBlanked) :=
  List.rel_append left right

theorem replicate_space
    (free : ∀ c ∈ text, kept c = false) :
    Hidden kept text (List.replicate text.length ' ') := by
  induction text with
  | nil => exact .nil
  | cons c text ih =>
      apply List.Forall₂.cons
      · exact .inr ⟨rfl, free c List.mem_cons_self⟩
      · exact ih fun d member => free d (List.mem_cons_of_mem c member)

/-- A text falls apart where its blanked form does. -/
theorem exists_append
    {left right : Text}
    (hidden : Hidden kept text (left ++ right)) :
    ∃ front back, text = front ++ back ∧ Hidden kept front left ∧
      Hidden kept back right :=
  ⟨text.take left.length, text.drop left.length,
    (List.take_append_drop _ _).symm, List.forall₂_take_append _ _ _ hidden,
    List.forall₂_drop_append _ _ _ hidden⟩

/-- What is left visible was there before. -/
theorem eq_of_not_mem_space
    (hidden : Hidden kept text blanked)
    (visible : ' ' ∉ blanked) :
    text = blanked := by
  induction hidden with
  | nil => rfl
  | @cons c d text blanked here _ ih =>
      rw [List.mem_cons, not_or] at visible
      rcases here with rfl | ⟨rfl, _⟩
      · rw [ih visible.2]
      · exact absurd rfl visible.1

end Hidden

end Text

namespace Comment

/-- What a machine that started in code is reading. -/
inductive State where
  | code
  | slash
  | literal (quote : Char)
  | escape (quote : Char)
  | line
  | block
  | star
  deriving DecidableEq, Repr

namespace State

def modes : State → List Mode
  | code => [.code]
  | slash => [.slash, .code]
  | literal quote => [.literal quote, .code]
  | escape quote => [.escape, .literal quote, .code]
  | line => [.lineComment, .code]
  | block => [.blockComment, .code]
  | star => [.star, .blockComment, .code]

/-- What was read and is not yet written. -/
def pending : State → Text
  | slash => ['/']
  | _ => []

/-- The state behind a character that opens no comment. -/
def plain (c : Char) : State :=
  if Literal.isQuote c then literal c else code

def next : State → Char → State
  | code, c => if c = '/' then slash else plain c
  | slash, c => if c = '/' then line else if c = '*' then block else plain c
  | literal quote, c =>
      if c = '\\' then escape quote
      else if c = quote || Text.isLineBreak c then code
      else literal quote
  | escape quote, _ => literal quote
  | line, c => if Text.isLineBreak c then code else line
  | block, c => if c = '*' then star else block
  | star, c => if c = '/' then code else if c = '*' then star else block

def writes : State → Char → Text
  | code, c => if c = '/' then [] else [c]
  | slash, c => if c = '/' then [' ', ' '] else if c = '*' then [' ', ' ']
    else ['/', c]
  | literal _, c => [c]
  | escape _, c => [c]
  | line, c => [hidden c]
  | block, c => [hidden c]
  | star, c => [hidden c]

def run (state : State) (text : Text) : State :=
  text.foldl next state

def output (state : State) : Text → Text
  | [] => []
  | c :: rest => state.writes c ++ (state.next c).output rest

section Plain

variable {c : Char} (notSlash : c ≠ '/') (notStar : c ≠ '*')

include notSlash

theorem next_code : code.next c = plain c :=
  if_neg notSlash

theorem writes_code : code.writes c = [c] :=
  if_neg notSlash

include notStar

theorem next_slash : slash.next c = plain c := by
  rw [next, if_neg notSlash, if_neg notStar]

theorem writes_slash : slash.writes c = ['/', c] := by
  rw [writes, if_neg notSlash, if_neg notStar]

end Plain

theorem step_modes (state : State) (c : Char) :
    step state.modes c = .ok ((state.next c).modes, state.writes c) := by
  have plainly (slashless : c ≠ '/') : step [.code] c =
      .ok ((plain c).modes, [c]) := by
    simp only [step, if_neg slashless, plain]
    split <;> rfl
  cases state with
  | code =>
      by_cases slashed : c = '/'
      · subst slashed
        rfl
      · rw [next_code slashed, writes_code slashed]
        exact plainly slashed
  | slash =>
      by_cases slashed : c = '/'
      · subst slashed
        rfl
      · by_cases starred : c = '*'
        · subst starred
          rfl
        · rw [next_slash slashed starred, writes_slash slashed starred]
          change step (.slash :: [.code]) c = _
          rw [step, if_neg slashed, if_neg starred, plainly slashed]
  | literal quote =>
      simp only [modes, next, writes, step]
      split
      next => rfl
      next => split <;> rfl
  | escape quote => rfl
  | line =>
      simp only [modes, next, writes, step, hidden]
      split <;> rfl
  | block =>
      simp only [modes, next, writes, step]
      split <;> rfl
  | star =>
      simp only [modes, next, writes, step]
      split
      next => rfl
      next => split <;> rfl

theorem readAll_modes (state : State) (written text : Text) :
    Cleaner.readAll state.modes written text =
      .ok ⟨(state.run text).modes, (state.output text).reverse ++ written⟩ := by
  induction text generalizing state written with
  | nil => rfl
  | cons c rest ih =>
      rw [Cleaner.readAll, step_modes]
      simp only
      rw [ih, output, List.reverse_append, List.append_assoc]
      rfl

theorem settle_modes (state : State) (written : Text) :
    (Cleaner.mk state.modes written).settle =
      .ok ⟨(if state = slash then code else state).modes,
        state.pending ++ written⟩ := by
  cases state <;> rfl

/-- All that a machine writes about a text. -/
def written (state : State) (text : Text) : Text :=
  state.output text ++ (state.run text).pending

theorem written_cons (state : State) (c : Char) (rest : Text) :
    state.written (c :: rest) =
      state.writes c ++ (state.next c).written rest := by
  simp only [written, output, List.append_assoc]
  rfl

/-- A machine never fails, whatever portion it is fed. -/
theorem feed_modes (state : State) (earlier portion : Text) :
    (Cleaner.mk state.modes earlier).feed portion =
      .ok ⟨(if state.run portion = slash then code else
        state.run portion).modes,
        (state.written portion).reverse ++ earlier⟩ := by
  rw [Cleaner.feed, readAll_modes]
  simp only
  rw [settle_modes, written, List.reverse_append, List.append_assoc]
  cases state.run portion <;> rfl

def ofScan : Scan → State
  | .code => code
  | .inside quote => literal quote
  | .escaped quote => escape quote

/-- What a literal scan of the text written so far has reached. -/
def scan : State → Scan
  | literal quote => .inside quote
  | escape quote => .escaped quote
  | _ => .code

theorem plain_eq (c : Char) : plain c = ofScan (Scan.code.step c) := by
  simp only [plain, Scan.step]
  split <;> rfl

theorem next_literal (quote c : Char) :
    (literal quote).next c = ofScan ((Scan.inside quote).step c) := by
  simp only [next, Scan.step]
  split
  next => rfl
  next => split <;> rfl

theorem scan_ofScan (scan : Scan) : (ofScan scan).scan = scan := by
  cases scan <;> rfl

theorem pending_ofScan (scan : Scan) : (ofScan scan).pending = [] := by
  cases scan <;> rfl

/-- What a machine does with a character: hold it back, write it, or hide it.
Two characters at once are hidden where a comment opens. -/
inductive Acts : State → Char → Prop where
  | holds : Acts code '/'
  | opens {c : Char} :
      (slash.next c).scan = .code →
      (slash.next c).pending = [] →
      slash.writes c = [' ', ' '] →
      Text.isLineBreak c = false →
      Acts slash c
  | copies {state : State} {c : Char} :
      state.next c = ofScan (state.scan.step c) →
      state.writes c = state.pending ++ [c] →
      (state.scan = .code → c ≠ '/') →
      (state = slash → c ≠ '*') →
      Acts state c
  | hides {state : State} {c : Char} :
      state.scan = .code →
      state.pending = [] →
      (state.next c).scan = .code →
      (state.next c).pending = [] →
      state.writes c = [hidden c] →
      Acts state c

theorem acts (state : State) (c : Char) : Acts state c := by
  cases state with
  | code =>
      by_cases slashed : c = '/'
      · subst slashed
        exact .holds
      · apply Acts.copies
        · rw [next_code slashed, plain_eq]
          rfl
        · exact writes_code slashed
        · exact fun _ => slashed
        · simp
  | slash =>
      by_cases slashed : c = '/'
      · subst slashed
        exact .opens rfl rfl rfl rfl
      · by_cases starred : c = '*'
        · subst starred
          exact .opens rfl rfl rfl rfl
        · apply Acts.copies
          · rw [next_slash slashed starred, plain_eq]
            rfl
          · exact writes_slash slashed starred
          · exact fun _ => slashed
          · exact fun _ => starred
  | literal quote =>
      apply Acts.copies (next_literal quote c) rfl
      · simp [scan]
      · simp
  | escape quote =>
      apply Acts.copies rfl rfl
      · simp [scan]
      · simp
  | line =>
      have reached : line.next c = code ∨ line.next c = line := by
        simp only [next]
        split <;> simp
      rcases reached with next | next <;>
        exact .hides rfl rfl (by rw [next]; rfl) (by rw [next]; rfl) rfl
  | block =>
      have reached : block.next c = star ∨ block.next c = block := by
        simp only [next]
        split <;> simp
      rcases reached with next | next <;>
        exact .hides rfl rfl (by rw [next]; rfl) (by rw [next]; rfl) rfl
  | star =>
      have reached : star.next c = code ∨ star.next c = star ∨
          star.next c = block := by
        simp only [next]
        split
        next => simp
        next => split <;> simp
      rcases reached with next | next | next <;>
        exact .hides rfl rfl (by rw [next]; rfl) (by rw [next]; rfl) rfl

/-- What one character adds to the text read is written or stays pending. -/
theorem exists_writes (state : State) (c : Char) :
    ∃ done, state.pending ++ [c] = done ++ (state.next c).pending ∧
      Text.Hidden Text.isLineBreak done (state.writes c) := by
  cases state.acts c with
  | holds => exact ⟨[], rfl, .nil⟩
  | opens _ settled written breakless =>
      rw [settled, written]
      exact ⟨['/', c], rfl,
        .cons (.inr ⟨rfl, rfl⟩) (.cons (.inr ⟨rfl, breakless⟩) .nil)⟩
  | copies reached written =>
      rw [reached, pending_ofScan, written]
      exact ⟨_, (List.append_nil _).symm, .refl _ _⟩
  | hides _ settled _ settledBehind written =>
      rw [settled, settledBehind, written]
      refine ⟨[c], rfl, .cons ?_ .nil⟩
      unfold hidden
      split
      next => exact .inl rfl
      next hides => exact .inr ⟨rfl, by simpa using hides⟩

theorem hidden_written (state : State) (text : Text) :
    Text.Hidden Text.isLineBreak (state.pending ++ text)
      (state.written text) := by
  induction text generalizing state with
  | nil =>
      rw [List.append_nil]
      exact .refl _ _
  | cons c rest ih =>
      obtain ⟨done, shape, hides⟩ := state.exists_writes c
      rw [written_cons, List.append_cons, shape, List.append_assoc]
      exact hides.append (ih _)

end State

/-- No comment opens in a text that is read in the given state. -/
def Free (scan : Scan) (text : Text) : Prop :=
  ∀ front c back, text = front ++ '/' :: c :: back → scan.run front = .code →
    c ≠ '/' ∧ c ≠ '*'

namespace Free

variable {scan : Scan} {text : Text}

theorem tail
    {c : Char}
    (free : Free scan (c :: text)) :
    Free (scan.step c) text := by
  intro front d back shape reached
  exact free (c :: front) d back (by rw [shape, List.cons_append]) reached

theorem of_append
    {front : Text}
    (inert : '/' ∉ front)
    (free : Free (scan.run front) text) :
    Free scan (front ++ text) := by
  induction front generalizing scan with
  | nil => exact free
  | cons c front ih =>
      rw [List.mem_cons, not_or] at inert
      have later : Free (scan.step c) (front ++ text) := ih inert.2 free
      intro before d back shape reached
      cases before with
      | nil =>
          have first : c = '/' := (List.cons.inj shape).1
          exact absurd first.symm inert.1
      | cons e before =>
          obtain ⟨rfl, rest⟩ := List.cons.inj shape
          exact later before d back rest reached

end Free

namespace State

/-- A machine in code or in a literal copies the text as long as no comment
opens; a slash that it holds back comes out with the next character. -/
theorem written_of_free
    {scan : Scan} {text : Text}
    (free : Free scan text) :
    (ofScan scan).written text = text ∧
      (scan = .code → (text.head? ≠ some '/' ∧ text.head? ≠ some '*') →
        slash.written text = '/' :: text) := by
  induction text generalizing scan with
  | nil =>
      constructor
      · cases scan <;> rfl
      · intro _ _
        rfl
  | cons c rest ih =>
      have later := ih free.tail
      constructor
      · rw [written_cons]
        cases scan with
        | code =>
            by_cases slashed : c = '/'
            · subst slashed
              have next : rest.head? ≠ some '/' ∧ rest.head? ≠ some '*' := by
                cases rest with
                | nil => simp
                | cons d rest => simpa using free [] d rest rfl rfl
              exact later.2 rfl next
            · change code.writes c ++ (code.next c).written rest = _
              rw [writes_code slashed, next_code slashed, plain_eq, later.1]
              rfl
        | inside quote =>
            change [c] ++ ((literal quote).next c).written rest = _
            rw [next_literal, later.1]
            rfl
        | escaped quote => exact congrArg (c :: ·) later.1
      · rintro rfl ⟨notSlash, notStar⟩
        simp only [List.head?_cons, ne_eq, Option.some.injEq]
          at notSlash notStar
        rw [written_cons, writes_slash notSlash notStar,
          next_slash notSlash notStar, plain_eq, later.1]
        rfl

end State

theorem blank_eq (text : Text) : blank text = State.code.written text := by
  unfold blank
  split
  next =>
    have fed : Cleaner.start.feed text = _ := State.feed_modes .code [] text
    rw [fed]
    simp [Cleaner.output]
  next slashless =>
    have free : Free .code text := by
      intro front c back shape _
      rw [shape] at slashless
      simp at slashless
    exact (State.written_of_free free).1.symm

theorem hidden_blank (text : Text) :
    Text.Hidden Text.isLineBreak text (blank text) := by
  rw [blank_eq]
  exact State.hidden_written .code text

theorem hidden_feeds (text : Text) :
    Text.Hidden Text.isFeed text (blank text) :=
  (hidden_blank text).feeds

theorem blank_of_free
    {text : Text}
    (free : Free .code text) :
    blank text = text := by
  rw [blank_eq]
  exact (State.written_of_free free).1

end Comment

namespace Line

theorem render_append (left right : List Line) :
    render (left ++ right) = render left ++ render right :=
  List.flatMap_append

theorem render_ofReversed (current : Text) :
    render [ofReversed current] = current.reverse ++ ['\n'] := by
  unfold ofReversed
  split
  next => simp [render, LineEnd.text]
  next => simp [render, LineEnd.text]

theorem render_allFrom (found : List Line) (current text : Text) :
    render (allFrom found current text) =
      render found.reverse ++ current.reverse ++ text := by
  induction text generalizing found current with
  | nil =>
      simp only [allFrom, List.reverse_cons, render_append]
      simp [render, LineEnd.text]
  | cons c rest ih =>
      simp only [allFrom]
      split
      next feed =>
        subst feed
        rw [ih, List.reverse_cons, render_append, render_ofReversed]
        simp
      next =>
        rw [ih]
        simp

/-- Gluing the lines of a text together gives the text back. -/
theorem render_all (text : Text) : render (all text) = text := by
  rw [all, render_allFrom]
  rfl

theorem feed_not_mem_allFrom
    {found : List Line} {current : Text}
    (earlier : ∀ line ∈ found, '\n' ∉ line.text)
    (free : '\n' ∉ current)
    (text : Text) :
    ∀ line ∈ allFrom found current text, '\n' ∉ line.text := by
  induction text generalizing found current with
  | nil =>
      intro line member
      rw [allFrom, List.mem_reverse] at member
      rcases List.mem_cons.mp member with rfl | member
      · simpa using free
      · exact earlier line member
  | cons c rest ih =>
      simp only [allFrom]
      split
      next feed =>
        apply ih
        · intro line member
          rcases List.mem_cons.mp member with rfl | member
          · unfold ofReversed
            split
            next => simp_all
            next => simpa using free
          · exact earlier line member
        · exact List.not_mem_nil
      next other =>
        apply ih earlier
        rw [List.mem_cons, not_or]
        exact ⟨fun same => other same.symm, free⟩

theorem feed_not_mem_all
    {text : Text} {line : Line}
    (member : line ∈ all text) :
    '\n' ∉ line.text :=
  feed_not_mem_allFrom (by simp) List.not_mem_nil text line member

end Line

namespace Directive

theorem hidden_blankLines
    {done : List Line} {front : Text}
    (earlier : Text.Hidden Text.isFeed front (Line.render done.reverse))
    {lines : List Line}
    (feeds : ∀ line ∈ lines, '\n' ∉ line.text)
    (continued : Bool) :
    Text.Hidden Text.isFeed (front ++ Line.render lines)
      (Line.render (blankLines continued done lines)) := by
  induction lines generalizing done front continued with
  | nil =>
      rw [blankLines, show Line.render [] = [] from rfl, List.append_nil]
      exact earlier
  | cons line rest ih =>
      have split : front ++ Line.render (line :: rest) =
          (front ++ Line.render [line]) ++ Line.render rest := by
        simp [Line.render]
      have free : ∀ c ∈ line.text, Text.isFeed c = false := by
        intro c member
        rw [Text.isFeed, decide_eq_false_iff_not]
        rintro rfl
        exact feeds line List.mem_cons_self member
      have rest_feeds :=
        fun other member => feeds other (List.mem_cons_of_mem line member)
      rw [split, blankLines]
      split
      next =>
        apply ih _ rest_feeds
        rw [List.reverse_cons, Line.render_append]
        apply earlier.append
        simp only [Line.render, List.flatMap_singleton]
        exact (Text.Hidden.replicate_space free).append (.refl _ _)
      next =>
        apply ih _ rest_feeds
        rw [List.reverse_cons, Line.render_append]
        exact earlier.append (.refl _ _)

theorem hidden_blank (text : Text) :
    Text.Hidden Text.isFeed text (blank text) := by
  have feeds : ∀ line ∈ Line.all text, '\n' ∉ line.text :=
    fun _ member => Line.feed_not_mem_all member
  have hidden := @hidden_blankLines [] [] .nil _ feeds false
  rwa [Line.render_all] at hidden

end Directive

end MacroTrace
