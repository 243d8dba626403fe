import MacroTrace.Proofs.Cleaning
import MacroTrace.Proofs.OperatorRemoval
import MacroTrace.Substitution.Basic

/-!
# Removal of comments

Comments of a fragment are removed without regard to literals: wherever two
slashes stand, or a slash and a star with an end of a comment somewhere behind
them.  On one line, and with block comments closed, this takes out what blanking
hides as long as nothing inside a literal looks like a comment.  The first such
place is where the two part, and if it is a line comment all that is behind it
is lost.
-/

namespace MacroTrace

namespace Comment

open Literal (Scan)

/-- The text behind the comment that a text seems to begin with. -/
def afterComment? : Text → Option Text
  | '/' :: '/' :: rest => some (rest.dropWhile (· ≠ '\n'))
  | '/' :: '*' :: rest => afterBlock? rest
  | _ => none

theorem afterComment?_length
    {text after : Text}
    (found : afterComment? text = some after) :
    after.length < text.length := by
  unfold afterComment? at found
  split at found
  next rest =>
    cases found
    have := List.length_dropWhile_le (fun c => decide (c ≠ '\n')) rest
    simp only [List.length_cons]
    omega
  next rest =>
    have := afterBlock?_length found
    simp only [List.length_cons]
    omega
  next => cases found

/-- The text with spaces in place of every character that is removed. -/
def spread (text : Text) : Text :=
  match text with
  | [] => []
  | c :: rest =>
      match _found : afterComment? (c :: rest) with
      | some after =>
          List.replicate ((c :: rest).length - after.length) ' ' ++ spread after
      | none => c :: spread rest
termination_by text.length
decreasing_by
  · exact afterComment?_length _found
  · simp

theorem spread_of_some
    {text after : Text}
    (found : afterComment? text = some after) :
    spread text = List.replicate (text.length - after.length) ' ' ++
      spread after := by
  cases text with
  | nil => cases found
  | cons c rest =>
      rw [spread]
      split
      next found' =>
        rw [found] at found'
        cases found'
        rfl
      next none =>
        rw [found] at none
        cases none

theorem spread_of_none
    {c : Char} {rest : Text}
    (none : afterComment? (c :: rest) = none) :
    spread (c :: rest) = c :: spread rest := by
  rw [spread]
  split
  next found =>
    rw [none] at found
    cases found
  next => rfl

theorem spaceFrom_of_some
    {text after : Text}
    (found : afterComment? text = some after)
    (written : Text) :
    spaceFrom written text = spaceFrom (' ' :: written) after := by
  unfold afterComment? at found
  split at found
  next rest =>
    cases found
    rw [spaceFrom]
  next rest =>
    rw [spaceFrom]
    split
    next found' =>
      rw [found] at found'
      cases found'
      rfl
    next none =>
      rw [found] at none
      cases none
  next => cases found

theorem spaceFrom_of_none
    {c : Char} {rest : Text}
    (none : afterComment? (c :: rest) = none)
    (written : Text) :
    spaceFrom written (c :: rest) = spaceFrom (c :: written) rest := by
  rw [spaceFrom.eq_def]
  split
  next empty => cases empty
  next behind shape =>
    cases shape
    split
    next found =>
      rw [afterComment?, found] at none
      cases none
    next => rfl
  next shape =>
    cases shape
    cases none
  next _ _ shape =>
    cases shape
    rfl

theorem spaceFrom_written (written text : Text) :
    spaceFrom written text = written.reverse ++ spaceFrom [] text := by
  fun_induction spread text generalizing written with
  | case1 => simp [spaceFrom]
  | case2 c rest after found ih =>
      rw [spaceFrom_of_some found, spaceFrom_of_some found, ih, ih [' ']]
      simp
  | case3 c rest none ih =>
      rw [spaceFrom_of_none none, spaceFrom_of_none none, ih, ih [c]]
      simp

theorem squeezeFrom_replicate
    (inRun : Bool) (written text : Text) (count : Nat) :
    Text.squeezeFrom Text.isBlank inRun written
        (List.replicate (count + 1) ' ' ++ text) =
      Text.squeezeFrom Text.isBlank inRun written (' ' :: text) := by
  induction count generalizing inRun written with
  | zero => rfl
  | succ count ih =>
      have again :
          Text.squeezeFrom Text.isBlank inRun written (' ' :: ' ' :: text) =
            Text.squeezeFrom Text.isBlank inRun written (' ' :: text) := by
        cases inRun <;> rfl
      rw [List.replicate_succ, List.cons_append, ← again]
      exact ih true (if inRun then written else ' ' :: written)

/-- Merged blanks do not show how long a comment was. -/
theorem squeezeFrom_spaceFrom (inRun : Bool) (written text : Text) :
    Text.squeezeFrom Text.isBlank inRun written (spaceFrom [] text) =
      Text.squeezeFrom Text.isBlank inRun written (spread text) := by
  fun_induction spread text generalizing inRun written with
  | case1 =>
      rw [spaceFrom]
      rfl
  | case2 c rest after found ih =>
      obtain ⟨count, length⟩ := Nat.exists_eq_add_one.mpr
        (Nat.sub_pos_of_lt (afterComment?_length found))
      rw [spaceFrom_of_some found, spaceFrom_written, length,
        squeezeFrom_replicate]
      exact ih true (if inRun then written else ' ' :: written)
  | case3 c rest none ih =>
      rw [spaceFrom_of_none none, spaceFrom_written]
      simp only [List.reverse_singleton, List.singleton_append,
        Text.squeezeFrom]
      split
      next => exact ih _ _
      next => exact ih _ _

theorem remove_eq (text : Text) :
    remove text = Text.normalizeBlanks (spread text) := by
  rw [remove, Text.normalizeBlanks, Text.squeeze, squeezeFrom_spaceFrom,
    Text.normalizeBlanks, Text.squeeze]

theorem dropWhile_of_oneLine
    {text : Text}
    (oneLine : text.IsOneLine) :
    text.dropWhile (fun c => decide (c ≠ '\n')) = [] := by
  apply List.dropWhile_eq_nil_iff.mpr
  intro c member
  rw [decide_eq_true_eq]
  rintro rfl
  cases oneLine _ member

namespace State

/-- Inside a block comment. -/
def inBlock : State → Bool
  | block | star => true
  | _ => false

/-- The text behind the block comment that is being read. -/
def afterBlock? : State → Text → Option Text
  | star, text => Comment.afterBlock? ('*' :: text)
  | _, text => Comment.afterBlock? text

/-- A character ends the block comment, or its end is still to come. -/
theorem afterBlock?_cons
    {state : State}
    (inside : state.inBlock = true)
    (c : Char) (rest : Text) :
    state.next c = code ∧ state.afterBlock? (c :: rest) = some rest ∨
      (state.next c).inBlock = true ∧
        state.afterBlock? (c :: rest) = (state.next c).afterBlock? rest := by
  cases state with
  | block =>
      right
      by_cases starred : c = '*'
      · subst starred
        exact ⟨rfl, rfl⟩
      · simp [next, afterBlock?, Comment.afterBlock?, starred, inBlock]
  | star =>
      by_cases slashed : c = '/'
      · subst slashed
        exact .inl ⟨rfl, rfl⟩
      · right
        by_cases starred : c = '*'
        · subst starred
          simp [next, afterBlock?, Comment.afterBlock?, inBlock]
        · simp [next, afterBlock?, Comment.afterBlock?, slashed,
            starred, inBlock]
  | code => cases inside
  | slash => cases inside
  | literal quote => cases inside
  | escape quote => cases inside
  | line => cases inside

/-- A block comment that is not closed lasts to the end of the text. -/
theorem inBlock_run
    {state : State} {text : Text}
    (inside : state.inBlock = true)
    (unclosed : state.afterBlock? text = none) :
    (state.run text).inBlock = true := by
  induction text generalizing state with
  | nil => exact inside
  | cons c rest ih =>
      rcases afterBlock?_cons inside c rest with ⟨_, ends⟩ | ⟨stays, later⟩
      · rw [ends] at unclosed
        cases unclosed
      · rw [later] at unclosed
        exact ih stays unclosed

/-- A block comment is hidden up to its end, behind which the machine is in
code. -/
theorem written_inBlock
    {state : State} {text after : Text}
    (inside : state.inBlock = true)
    (oneLine : text.IsOneLine)
    (closed : state.afterBlock? text = some after) :
    ∃ comment, text = comment ++ after ∧ state.run text = code.run after ∧
      state.written text =
        List.replicate comment.length ' ' ++ code.written after := by
  induction text generalizing state with
  | nil => cases state <;> cases inside <;> cases closed
  | cons c rest ih =>
      have hides : state.writes c = [' '] := by
        cases state <;> cases inside <;>
          simp [writes, hidden, oneLine c List.mem_cons_self]
      rcases afterBlock?_cons inside c rest with ⟨next, ends⟩ | ⟨stays, later⟩
      · rw [ends] at closed
        cases closed
        refine ⟨[c], rfl, ?_, ?_⟩
        · exact congrArg (run · after) next
        · rw [written_cons, next, hides]
          rfl
      · rw [later] at closed
        obtain ⟨comment, shape, reached, written⟩ :=
          ih stays oneLine.tail closed
        refine ⟨c :: comment, congrArg (c :: ·) shape, reached, ?_⟩
        rw [written_cons, hides, written]
        rfl

theorem written_line
    {text : Text}
    (oneLine : text.IsOneLine) :
    line.run text = line ∧
      line.written text = List.replicate text.length ' ' := by
  induction text with
  | nil => exact ⟨rfl, rfl⟩
  | cons c rest ih =>
      have solid := oneLine c List.mem_cons_self
      have stays : line.next c = line := by simp [next, solid]
      have hides : line.writes c = [' '] := by simp [writes, hidden, solid]
      obtain ⟨reached, written⟩ := ih oneLine.tail
      constructor
      · exact (congrArg (run · rest) stays).trans reached
      · rw [written_cons, stays, hides, written]
        rfl

/-- A comment in code is hidden, and what is behind it is read as code. -/
theorem written_comment
    {text after : Text}
    (oneLine : text.IsOneLine)
    (found : afterComment? text = some after) :
    ∃ comment, text = comment ++ after ∧ (code.run text).inBlock =
      (code.run after).inBlock ∧
      code.written text =
        List.replicate comment.length ' ' ++ code.written after := by
  unfold afterComment? at found
  split at found
  next rest =>
    rw [dropWhile_of_oneLine oneLine.tail.tail] at found
    cases found
    obtain ⟨reached, written⟩ := written_line oneLine.tail.tail
    refine ⟨'/' :: '/' :: rest, (List.append_nil _).symm, ?_, ?_⟩
    · change (line.run rest).inBlock = false
      rw [reached]
      rfl
    · exact congrArg ([' ', ' '] ++ ·) (written.trans (List.append_nil _).symm)
  next rest =>
    have block : State.block.inBlock = true := rfl
    obtain ⟨comment, rfl, reached, written⟩ :=
      written_inBlock block oneLine.tail.tail found
    refine ⟨'/' :: '*' :: comment, rfl, ?_, ?_⟩
    · exact congrArg State.inBlock reached
    · exact congrArg ([' ', ' '] ++ ·) written
  next => cases found

/-- A character that no comment begins with is copied, and if it is in code, so
is what is behind it. -/
theorem written_char
    {scan : Scan} {c : Char} {rest : Text}
    (none : afterComment? (c :: rest) = none)
    (closed : ((ofScan scan).run (c :: rest)).inBlock = false) :
    ((ofScan (scan.step c)).run rest).inBlock = false ∧
      (ofScan scan).written (c :: rest) =
        c :: (ofScan (scan.step c)).written rest := by
  cases scan with
  | inside quote =>
      have next := next_literal quote c
      constructor
      · rw [← next]
        exact closed
      · rw [← next]
        exact written_cons _ c rest
  | escaped quote => exact ⟨closed, written_cons _ c rest⟩
  | code =>
      by_cases slashed : c = '/'
      · subst slashed
        cases rest with
        | nil => exact ⟨rfl, rfl⟩
        | cons d rest =>
            have notSlash : d ≠ '/' := by
              rintro rfl
              cases none
            have notStar : d ≠ '*' := by
              rintro rfl
              -- The star would open a block comment that nothing closes.
              have block : State.block.inBlock = true := rfl
              have unclosed : (State.block.run rest).inBlock = true :=
                inBlock_run block none
              change (State.block.run rest).inBlock = false at closed
              rw [unclosed] at closed
              cases closed
            have behind : slash.next d = code.next d := by
              rw [next_slash notSlash notStar, next_code notSlash]
            constructor
            · change ((code.next d).run rest).inBlock = false
              rw [← behind]
              exact closed
            · change slash.written (d :: rest) = '/' :: code.written (d :: rest)
              rw [written_cons, written_cons, behind,
                writes_slash notSlash notStar, writes_code notSlash]
              rfl
      · have next : code.next c = ofScan (Scan.code.step c) := by
          rw [next_code slashed, plain_eq]
        constructor
        · rw [← next]
          exact closed
        · rw [← next]
          exact (written_cons code c rest).trans
            (congrArg (· ++ _) (writes_code slashed))

end State

theorem hidden_spread
    {text : Text}
    (oneLine : text.IsOneLine) :
    Text.Hidden Text.isLineBreak text (spread text) := by
  fun_induction spread text with
  | case1 => exact .nil
  | case2 c rest after found ih =>
      obtain ⟨comment, shape, -, -⟩ := State.written_comment oneLine found
      rw [shape] at oneLine ⊢
      rw [List.length_append, Nat.add_sub_cancel]
      obtain ⟨inComment, later⟩ := oneLine.of_append
      exact .append (.replicate_space inComment) (ih later)
  | case3 c rest none ih =>
      exact .cons (.inl rfl) (ih oneLine.tail)

/-- What is common to both ways of looking for comments, up to the first place
inside a literal that looks like a comment. -/
inductive Agrees : Scan → Text → Prop where
  | nil {scan : Scan} : Agrees scan []
  | comment {text after comment : Text} :
      afterComment? text = some after →
      text = comment ++ after →
      State.code.written text =
        List.replicate comment.length ' ' ++ State.code.written after →
      Agrees .code after →
      Agrees .code text
  | char {scan : Scan} {c : Char} {rest : Text} :
      afterComment? (c :: rest) = none →
      (State.ofScan scan).written (c :: rest) =
        c :: (State.ofScan (scan.step c)).written rest →
      Agrees (scan.step c) rest →
      Agrees scan (c :: rest)
  | misread {scan : Scan} {text after : Text} :
      scan ≠ .code →
      afterComment? text = some after →
      text.IsOneLine →
      Agrees scan text

theorem agrees
    {scan : Scan} {text : Text}
    (oneLine : text.IsOneLine)
    (closed : ((State.ofScan scan).run text).inBlock = false) :
    Agrees scan text := by
  fun_induction spread text generalizing scan with
  | case1 => exact .nil
  | case2 c rest after found ih =>
      by_cases code : scan = .code
      · subst code
        obtain ⟨comment, shape, reached, written⟩ :=
          State.written_comment oneLine found
        rw [shape] at oneLine
        refine .comment found shape written (ih oneLine.of_append.2 ?_)
        exact reached.symm.trans closed
      · exact .misread code found oneLine
  | case3 c rest none ih =>
      obtain ⟨closedRest, written⟩ := State.written_char none closed
      exact .char none written (ih oneLine.tail closedRest)

/-- Something that looks like a comment begins at an offset that belongs to a
literal. -/
def Misread (scan : Scan) (text : Text) (offset : Nat) : Prop :=
  (scan.marks ((State.ofScan scan).written text))[offset]? = some true ∧
    (afterComment? (text.drop offset)).isSome = true

theorem marks_spaces (count : Nat) (text : Text) :
    Scan.code.marks (List.replicate count ' ' ++ text) =
      List.replicate count false ++ Scan.code.marks text := by
  induction count with
  | zero => rfl
  | succ count ih => exact congrArg (false :: ·) ih

theorem misread_comment_iff
    {text after comment : Text}
    (shape : text = comment ++ after)
    (written : State.code.written text =
      List.replicate comment.length ' ' ++ State.code.written after)
    (offset : Nat) :
    Misread .code text offset ↔
      ∃ later, offset = comment.length + later ∧ Misread .code after later := by
  have marks : Scan.code.marks (State.code.written text) =
      List.replicate comment.length false ++
        Scan.code.marks (State.code.written after) := by
    rw [written, marks_spaces]
  change (Scan.code.marks (State.code.written text))[offset]? =
    some true ∧ _ ↔ _
  rw [marks, shape]
  by_cases behind : comment.length ≤ offset
  · obtain ⟨later, rfl⟩ := Nat.exists_eq_add_of_le behind
    rw [List.getElem?_append_right (by simp)]
    simp [Misread, State.ofScan]
  · rw [List.getElem?_append_left (by simpa using behind),
      List.getElem?_replicate_of_lt (by omega)]
    constructor
    · rintro ⟨marked, -⟩
      cases marked
    · rintro ⟨later, rfl, -⟩
      omega

theorem misread_char_iff
    {scan : Scan} {c : Char} {rest : Text}
    (none : afterComment? (c :: rest) = none)
    (written : (State.ofScan scan).written (c :: rest) =
      c :: (State.ofScan (scan.step c)).written rest)
    (offset : Nat) :
    Misread scan (c :: rest) offset ↔
      ∃ later, offset = later + 1 ∧ Misread (scan.step c) rest later := by
  rw [Misread, written]
  cases offset with
  | zero => simp [none]
  | succ offset => simp [Misread, Scan.marks]

theorem misread_of_ne_code
    {scan : Scan} {text after : Text}
    (literal : scan ≠ .code)
    (found : afterComment? text = some after) :
    Misread scan text 0 ∧
      ((State.ofScan scan).written text).head? = some '/' := by
  obtain ⟨rest, rfl⟩ : ∃ rest, text = '/' :: rest := by
    unfold afterComment? at found
    split at found
    next => exact ⟨_, rfl⟩
    next => exact ⟨_, rfl⟩
    next => cases found
  have copied : ∃ written, (State.ofScan scan).written ('/' :: rest) =
      '/' :: written := by
    cases scan with
    | code => exact absurd rfl literal
    | inside quote => exact ⟨_, State.written_cons _ _ _⟩
    | escaped quote => exact ⟨_, State.written_cons _ _ _⟩
  obtain ⟨written, copied⟩ := copied
  have covered : scan.covers '/' = true := Scan.covers_of_ne_code literal rfl
  refine ⟨⟨?_, ?_⟩, ?_⟩
  · rw [copied, Scan.marks, covered]
    rfl
  · rw [List.drop_zero, found]
    rfl
  · rw [copied]
    rfl

theorem spread_comment
    {text after comment : Text}
    (found : afterComment? text = some after)
    (shape : text = comment ++ after) :
    spread text = List.replicate comment.length ' ' ++ spread after := by
  rw [spread_of_some found, shape, List.length_append, Nat.add_sub_cancel]

theorem head?_spread
    {text after : Text}
    (found : afterComment? text = some after) :
    (spread text).head? = some ' ' := by
  obtain ⟨count, length⟩ := Nat.exists_eq_add_one.mpr
    (Nat.sub_pos_of_lt (afterComment?_length found))
  rw [spread_of_some found, length, List.replicate_succ]
  rfl

namespace Agrees

variable {scan : Scan} {text : Text}

/-- What is removed is what the machine hides, unless something is misread. -/
theorem spread_eq_iff
    (agrees : Agrees scan text) :
    spread text = (State.ofScan scan).written text ↔
      ∀ offset, ¬ Misread scan text offset := by
  induction agrees with
  | @nil scan =>
      have written : (State.ofScan scan).written [] = [] := by
        cases scan <;> rfl
      rw [written, spread]
      simp [Misread, afterComment?]
  | @comment text after comment found shape written _ ih =>
      change spread text = State.code.written text ↔ _
      rw [spread_comment found shape, written, List.append_cancel_left_eq]
      refine Iff.trans ih ?_
      simp only [misread_comment_iff shape written, not_exists, not_and]
      exact ⟨fun free _ behind _ => free behind,
        fun free behind => free _ behind rfl⟩
  | @char scan c rest none written _ ih =>
      rw [spread_of_none none, written, List.cons_inj_right, ih]
      simp only [misread_char_iff none written, not_exists, not_and]
      exact ⟨fun free _ behind _ => free behind,
        fun free behind => free _ behind rfl⟩
  | @misread scan text after literal found _ =>
      obtain ⟨misread, copied⟩ := misread_of_ne_code literal found
      constructor
      · intro same
        rw [← same, head?_spread found] at copied
        cases copied
      · intro genuine
        exact absurd misread (genuine 0)

/-- Where a line comment is misread, fewer characters are left. -/
theorem countP_spread_lt
    (agrees : Agrees scan text)
    (lines : ∀ offset, Misread scan text offset → text[offset + 1]? = some '/')
    (differs : spread text ≠ (State.ofScan scan).written text) :
    (spread text).countP (!Text.isBlank ·) <
      ((State.ofScan scan).written text).countP (!Text.isBlank ·) := by
  induction agrees with
  | @nil scan =>
      have written : (State.ofScan scan).written [] = [] := by
        cases scan <;> rfl
      rw [written, spread] at differs
      exact absurd rfl differs
  | @comment text after comment found shape written _ ih =>
      change spread text ≠ State.code.written text at differs
      change _ < (State.code.written text).countP _
      rw [spread_comment found shape, written] at differs ⊢
      rw [List.countP_append, List.countP_append, Nat.add_lt_add_iff_left]
      apply ih
      · intro offset misread
        have here :=
          lines _
            ((misread_comment_iff shape written _).mpr ⟨offset, rfl, misread⟩)
        rw [shape, Nat.add_assoc, List.getElem?_append_right (by omega)] at here
        simpa using here
      · intro same
        exact differs (congrArg _ same)
  | @char scan c rest none written _ ih =>
      rw [spread_of_none none, written] at differs ⊢
      rw [List.countP_cons, List.countP_cons, Nat.add_lt_add_iff_right]
      apply ih
      · intro offset misread
        exact lines _
          ((misread_char_iff none written _).mpr ⟨offset, rfl, misread⟩)
      · intro same
        exact differs (congrArg _ same)
  | @misread scan text after literal found oneLine =>
      obtain ⟨misread, copied⟩ := misread_of_ne_code literal found
      have second := lines 0 misread
      have nothing : (spread text).countP (!Text.isBlank ·) = 0 := by
        unfold afterComment? at found
        split at found
        next rest =>
          have whole : afterComment? ('/' :: '/' :: rest) = some [] := by
            rw [afterComment?, dropWhile_of_oneLine oneLine.tail.tail]
          rw [spread_of_some whole, spread, List.append_nil,
            List.countP_replicate]
          rfl
        next => cases second
        next => cases found
      obtain ⟨written, shape⟩ := List.head?_eq_some_iff.mp copied
      rw [nothing, shape]
      exact List.countP_pos_iff.mpr ⟨'/', List.mem_cons_self, rfl⟩

end Agrees

/-- A comment seems to begin at an offset inside a literal. -/
def MisreadAt (text : Text) (offset : Nat) : Prop :=
  (∃ span ∈ Literal.spans (blank text), span.start ≤ offset ∧
    offset < span.stop) ∧
    (afterComment? (text.drop offset)).isSome = true

instance (text : Text) (offset : Nat) : Decidable (MisreadAt text offset) :=
  inferInstanceAs (Decidable (_ ∧ _))

theorem MisreadAt.lt_length
    {text : Text} {offset : Nat}
    (misread : MisreadAt text offset) :
    offset < text.length := by
  by_contra behind
  have opened := misread.2
  rw [List.drop_eq_nil_of_le (by omega)] at opened
  cases opened

theorem misreadAt_iff (text : Text) (offset : Nat) :
    MisreadAt text offset ↔ Misread .code text offset := by
  rw [MisreadAt, Literal.exists_span_iff, blank_eq]
  rfl

end Comment

namespace Substitution

/-- Undo the escapes of backslashes and quotes.  There is no other escape, and
no quote without one. -/
def unescape : Text → Option Text
  | [] => some []
  | c :: rest =>
      if c = '\\' then
        match rest with
        | [] => none
        | d :: rest =>
            if d = '\\' || d = '"' then (unescape rest).map (d :: ·) else none
      else if c = '"' then none
      else (unescape rest).map (c :: ·)

/-- The text that a string literal stands for. -/
def unquote? : Text → Option Text
  | [] => none
  | quote :: rest =>
      if quote = '"' && rest.getLast? == some '"' then
        unescape rest.dropLast else none

theorem unescape_escaped (text : Text) :
    unescape (escaped text) = some text := by
  induction text with
  | nil => rfl
  | cons c text ih =>
      rw [escaped_cons]
      split
      next special =>
        unfold unescape
        simp only [if_true, special, ih]
        rfl
      next plain =>
        simp only [Bool.or_eq_true, decide_eq_true_eq, not_or] at plain
        unfold unescape
        rw [if_neg plain.1, if_neg plain.2, ih]
        rfl

theorem unquote?_quoted (text : Text) : unquote? (quoted text) = some text := by
  rw [quoted, unquote?, List.getLast?_concat, List.dropLast_concat,
    unescape_escaped]
  rfl

theorem quoted_injective : Function.Injective quoted := by
  intro first second same
  have read := unquote?_quoted first
  rw [same, unquote?_quoted] at read
  exact (Option.some.inj read).symm

end Substitution

namespace Comment

/-- Comments of a fragment on one line, its block comments closed, are removed
by hiding characters and merging blanks.  These are the characters that blanking
hides if and only if nothing inside a literal looks like a comment.  If only
line comments are misread, then any of them shows in what is left of the
fragment and in its string literal. -/
theorem remove_follows_blank
    {text : Text}
    (oneLine : text.IsOneLine)
    (closed : ∃ cleaner, Cleaner.start.feed text = .ok cleaner ∧
      .blockComment ∉ cleaner.modes) :
    Text.Hidden Text.isLineBreak text (spread text) ∧
      remove text = Text.normalizeBlanks (spread text) ∧
      (spread text = blank text ↔ ∀ offset, ¬ MisreadAt text offset) ∧
      ((∀ offset, MisreadAt text offset → text[offset + 1]? = some '/') →
        (remove text = Text.normalizeBlanks (blank text) ↔
          ∀ offset, ¬ MisreadAt text offset) ∧
        (Substitution.stringify text =
            Substitution.quoted (Text.normalizeBlanks (blank text)) ↔
          ∀ offset, ¬ MisreadAt text offset)) := by
  have outside : (State.code.run text).inBlock = false := by
    obtain ⟨cleaner, fed, open?⟩ := closed
    rw [show Cleaner.start.feed text = _ from State.feed_modes .code [] text]
      at fed
    cases fed
    cases reached : State.code.run text <;>
      simp_all [State.modes, State.inBlock]
  have agrees : Agrees .code text := agrees oneLine outside
  have hides : spread text = blank text ↔
      ∀ offset, ¬ MisreadAt text offset := by
    simp only [misreadAt_iff, blank_eq]
    exact agrees.spread_eq_iff
  refine ⟨hidden_spread oneLine, remove_eq text, hides, ?_⟩
  intro lines
  have shows : remove text = Text.normalizeBlanks (blank text) ↔
      ∀ offset, ¬ MisreadAt text offset := by
    rw [← hides, remove_eq]
    constructor
    · intro same
      by_contra differs
      rw [blank_eq] at same differs
      have fewer := agrees.countP_spread_lt
        (fun offset misread =>
          lines offset ((misreadAt_iff text offset).mpr misread)) differs
      have left := congrArg (List.filter (!Text.isBlank ·)) same
      rw [Text.filter_normalizeBlanks, Text.filter_normalizeBlanks] at left
      rw [List.countP_eq_length_filter, left,
        ← List.countP_eq_length_filter] at fewer
      exact Nat.lt_irrefl _ fewer
    · exact congrArg _
  refine ⟨shows, ?_⟩
  rw [← shows, Substitution.stringify]
  exact Substitution.quoted_injective.eq_iff

/-- Literals with slashes, stars and quotes, and comments with quotes. -/
def quotedSlashText : Text :=
  "/* \"//\" */ f(\"/ *\", '\"') / 2 + \"/*\" // 'a'".toList

/-- A string literal that holds two slashes. -/
def addressText : Text :=
  "get(\"http://x\" /* \" */)".toList

theorem remove_follows_blank_quotedSlashText :
    quotedSlashText.IsOneLine ∧
      remove quotedSlashText = Text.normalizeBlanks (blank quotedSlashText) ∧
      addressText.IsOneLine ∧
      MisreadAt addressText 10 ∧
      Substitution.stringify addressText ≠
        Substitution.quoted (Text.normalizeBlanks (blank addressText)) := by
  have genuine : ∀ offset, ¬ MisreadAt quotedSlashText offset := by
    have checked : ∀ offset < quotedSlashText.length,
        ¬ MisreadAt quotedSlashText offset := by
      decide +kernel
    intro offset misread
    exact checked offset misread.lt_length misread
  have misread : MisreadAt addressText 10 := by
    decide +kernel
  have lines : ∀ offset, MisreadAt addressText offset →
      addressText[offset + 1]? = some '/' := by
    have checked : ∀ offset < addressText.length,
        MisreadAt addressText offset → addressText[offset + 1]? = some '/' := by
      decide +kernel
    intro offset misread
    exact checked offset misread.lt_length misread
  have oneLine : quotedSlashText.IsOneLine := by decide
  have oneLineAddress : addressText.IsOneLine := by decide
  obtain ⟨-, -, -, shows⟩ :=
    remove_follows_blank oneLine ⟨_, State.feed_modes .code [] _,
      by decide +kernel⟩
  obtain ⟨-, -, -, differs⟩ :=
    remove_follows_blank oneLineAddress ⟨_, State.feed_modes .code [] _,
      by decide +kernel⟩
  refine ⟨oneLine, ?_, oneLineAddress, misread, ?_⟩
  · exact (shows fun offset misread => absurd misread (genuine offset)).1.mpr
      genuine
  · intro same
    exact (differs lines).2.mp same 10 misread

/-- What is behind the two slashes is no comment, but it is lost. -/
theorem remove_addressText :
    remove addressText = "get(\"http:".toList ∧
      Text.normalizeBlanks (blank addressText) =
        "get(\"http://x\" )".toList := by
  decide +kernel

-- A block comment that is misread may leave the same characters by chance.
example :
    MisreadAt "\" /*\"//*//*\"".toList 2 ∧
      remove "\" /*\"//*//*\"".toList =
        Text.normalizeBlanks (blank "\" /*\"//*//*\"".toList) := by
  decide +kernel

end Comment

end MacroTrace
