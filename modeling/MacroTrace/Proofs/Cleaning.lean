import MacroTrace.Proofs.Blanking

/-!
# Cleaning

The machine that blanks comments may be fed a text in portions.  It never fails,
and behind every portion it has written one character for each that it has read,
in the same place.  The characters that it copies as parts of literals are those
that the literal scan finds in what it has written; so there is nothing left to
blank.
-/

namespace MacroTrace

open Literal (Scan)

/-- The second text has a space or the same character as the first at every
offset, and the line breaks of the first. -/
structure Text.Aligned (text blanked : Text) : Prop where
  length_eq : blanked.length = text.length
  shown : ∀ offset : Nat, blanked[offset]? = some ' ' ∨
    blanked[offset]? = text[offset]?
  returns : ∀ offset : Nat, blanked[offset]? = some '\r' ↔
    text[offset]? = some '\r'
  feeds : ∀ offset : Nat, blanked[offset]? = some '\n' ↔
    text[offset]? = some '\n'

theorem Text.Hidden.getElem?_cases
    {kept : Char → Bool} {text blanked : Text}
    (hidden : Text.Hidden kept text blanked)
    (offset : Nat) :
    blanked[offset]? = text[offset]? ∨
      ∃ c, text[offset]? = some c ∧ blanked[offset]? = some ' ' ∧
        kept c = false := by
  induction hidden generalizing offset with
  | nil => exact .inl rfl
  | @cons c d text blanked here _ ih =>
      cases offset with
      | succ offset => simpa using ih offset
      | zero =>
          rcases here with rfl | ⟨rfl, free⟩
          · exact .inl rfl
          · exact .inr ⟨c, rfl, rfl, free⟩

theorem Text.Hidden.getElem?_eq_some_iff
    {kept : Char → Bool} {text blanked : Text}
    (hidden : Text.Hidden kept text blanked)
    {d : Char}
    (isKept : kept d = true)
    (visible : d ≠ ' ')
    (offset : Nat) :
    blanked[offset]? = some d ↔ text[offset]? = some d := by
  rcases hidden.getElem?_cases offset with same | ⟨c, before, after, free⟩
  · rw [same]
  · have notKept : c ≠ d := by
      rintro rfl
      rw [isKept] at free
      cases free
    rw [before, after]
    simp [visible.symm, notKept]

theorem Text.Hidden.aligned
    {text blanked : Text}
    (hidden : Text.Hidden Text.isLineBreak text blanked) :
    Text.Aligned text blanked := by
  constructor
  case length_eq => exact (List.Forall₂.length_eq hidden).symm
  case shown =>
    intro offset
    rcases hidden.getElem?_cases offset with same | ⟨_, _, space, _⟩
    · exact .inr same
    · exact .inl space
  case returns => exact hidden.getElem?_eq_some_iff rfl (by decide)
  case feeds => exact hidden.getElem?_eq_some_iff rfl (by decide)

namespace Comment

/-- A machine between two portions: no slash is held back, and what it has
written stands for all that it has read. -/
structure Cleaner.Follows (read : Text) (cleaner : Cleaner) : Prop where
  modes : ∃ state : State, cleaner.modes = state.modes ∧ state.pending = []
  written : Text.Hidden Text.isLineBreak read cleaner.output

namespace Cleaner.Follows

variable {read : Text} {cleaner : Cleaner}

theorem start : Cleaner.start.Follows [] :=
  ⟨⟨.code, rfl, rfl⟩, .nil⟩

theorem feed
    (follows : cleaner.Follows read)
    (portion : Text) :
    ∃ next, cleaner.feed portion = .ok next ∧
      next.Follows (read ++ portion) := by
  obtain ⟨modes, written⟩ := cleaner
  obtain ⟨⟨state, rfl, settled⟩, earlier⟩ := follows
  refine ⟨_, state.feed_modes written portion, ⟨⟨_, rfl, ?_⟩, ?_⟩⟩
  · cases state.run portion <;> rfl
  · have later := state.hidden_written portion
    rw [settled, List.nil_append] at later
    simpa [Cleaner.output] using earlier.append later

theorem feedAll
    (follows : cleaner.Follows read)
    (portions : List Text) :
    ∃ last, portions.foldlM Cleaner.feed cleaner = .ok last ∧
      last.Follows (read ++ portions.flatten) := by
  induction portions generalizing read cleaner with
  | nil => exact ⟨cleaner, rfl, by simpa using follows⟩
  | cons portion portions ih =>
      obtain ⟨next, fed, behind⟩ := follows.feed portion
      obtain ⟨last, rest, reached⟩ := ih behind
      refine ⟨last, ?_, by simpa using reached⟩
      rw [List.foldlM_cons, fed]
      exact rest

end Cleaner.Follows

/-- Whatever portions a machine is fed, it does not fail and keeps every
position; and blanking, also of a text that no machine is needed for, is what a
machine writes about it. -/
theorem blank_keeps_positions :
    (∀ portions : List Text, ∃ cleaner,
      portions.foldlM Cleaner.feed Cleaner.start = .ok cleaner ∧
        Text.Aligned portions.flatten cleaner.output) ∧
    ∀ text : Text,
      Text.Aligned text (blank text) ∧
        ∃ cleaner, Cleaner.start.feed text = .ok cleaner ∧
        cleaner.output = blank text := by
  constructor
  · intro portions
    obtain ⟨cleaner, fed, follows⟩ := Cleaner.Follows.start.feedAll portions
    exact ⟨cleaner, fed, follows.written.aligned⟩
  · intro text
    refine ⟨(hidden_blank text).aligned, _, State.feed_modes .code [] text, ?_⟩
    rw [blank_eq]
    simp [Cleaner.output]

/-- Inside a literal. -/
def Mode.isLiteral : Mode → Bool
  | .literal _ => true
  | _ => false

/-- Whether a machine that goes from some modes to others at a character copies
it as part of a literal: it writes the character itself, and the literal is open
behind it or ends with it. -/
def copiesLiteral (before after : List Mode) (written : Text)
    (c : Char) : Bool :=
  written.getLast? =
    some c && (after.any Mode.isLiteral || before.head? = some (.literal c))

/-- For each character that a machine reads, whether it copies it as part of a
literal. -/
def Cleaner.literalMarks (modes : List Mode) : Text → List Bool
  | [] => []
  | c :: rest =>
      match step modes c with
      | .ok (after, written) =>
          copiesLiteral modes after written c :: literalMarks after rest
      | .error _ => []

end Comment

namespace Literal

/-- For each character of a text, whether it belongs to a literal. -/
def Scan.marks (scan : Scan) : Text → List Bool
  | [] => []
  | c :: rest => scan.covers c :: (scan.step c).marks rest

theorem Scan.marks_append (scan : Scan) (front text : Text) :
    scan.marks (front ++ text) =
      scan.marks front ++ (scan.run front).marks text := by
  induction front generalizing scan with
  | nil => rfl
  | cons c front ih => exact congrArg (scan.covers c :: ·) (ih (scan.step c))

theorem Scan.length_marks (scan : Scan) (text : Text) :
    (scan.marks text).length = text.length := by
  induction text generalizing scan with
  | nil => rfl
  | cons c rest ih => exact congrArg (· + 1) (ih (scan.step c))

/-- A character belongs to a literal that is open behind it or that it
closes. -/
theorem Scan.covers_eq (scan : Scan) (c : Char) :
    scan.covers c =
      (decide (scan.step c ≠ .code) || decide (scan = .inside c)) := by
  cases scan with
  | code => cases quoted : isQuote c <;> simp [covers, step, quoted]
  | escaped quote => simp [covers, step]
  | inside quote =>
      simp only [covers, step]
      split
      next backslash => simp [backslash, Text.isLineBreak]
      next =>
        split
        next ends =>
          rw [Bool.or_eq_true, decide_eq_true_eq] at ends
          rcases ends with rfl | breaks
          · simp
          · simp [breaks, eq_comm]
        next goesOn =>
          rw [Bool.or_eq_true, decide_eq_true_eq, not_or,
            Bool.not_eq_true] at goesOn
          simp [goesOn]

theorem exists_span_iff (text : Text) (offset : Nat) :
    (∃ span ∈ spans text, span.start ≤ offset ∧ offset < span.stop) ↔
      (Scan.code.marks text)[offset]? = some true := by
  rw [← Span.covered_iff (separated_spans text)]
  cases here : text[offset]? with
  | some c =>
      obtain ⟨front, rest, rfl, rfl⟩ := List.exists_append_of_getElem? here
      rw [covered_spans, Scan.marks_append,
        List.getElem?_append_right (by simp [Scan.length_marks]),
        Scan.length_marks, Nat.sub_self]
      simp [Scan.marks]
  | none =>
      have behind : text.length ≤ offset := List.getElem?_eq_none_iff.mp here
      have unmarked : (Scan.code.marks text)[offset]? = none := by
        rwa [List.getElem?_eq_none_iff, Scan.length_marks]
      rw [unmarked, Span.covered_iff (separated_spans text)]
      constructor
      · rintro ⟨span, member, _, before⟩
        have := stop_le_of_mem_spans member
        omega
      · intro marked
        cases marked

end Literal

namespace Comment

theorem isQuote_hidden (c : Char) : Literal.isQuote (hidden c) = false := by
  unfold hidden
  split
  next breaks =>
    simp only [Text.isLineBreak, Bool.or_eq_true, beq_iff_eq] at breaks
    rcases breaks with rfl | rfl
    · rfl
    · rfl
  next => rfl

theorem hidden_ne_slash (c : Char) : hidden c ≠ '/' := by
  unfold hidden
  split
  next breaks =>
    rintro rfl
    cases breaks
  next => decide

namespace State

/-- A slash that is held back belongs to no literal. -/
def pendingMarks (state : State) : List Bool :=
  state.pending.map fun _ => false

theorem run_pending (state : State) :
    state.scan.run state.pending = state.scan := by
  cases state <;> rfl

theorem marks_pending (state : State) :
    state.scan.marks state.pending = state.pendingMarks := by
  cases state <;> rfl

/-- The literal scan goes along with the machine. -/
theorem run_writes (state : State) (c : Char) :
    state.scan.run (state.writes c) = (state.next c).scan := by
  cases state.acts c with
  | holds => rfl
  | opens reached _ written =>
      rw [reached, written]
      rfl
  | copies reached written =>
      rw [reached, scan_ofScan, written, Scan.run_append, run_pending]
      rfl
  | hides outside _ reached _ written =>
      rw [outside, reached, written]
      exact Scan.step_code_of_not_quote (isQuote_hidden c)

theorem copiesLiteral_eq (state : State) (c : Char) :
    copiesLiteral state.modes (state.next c).modes (state.writes c) c =
      (decide ((state.writes c).getLast? = some c) &&
        (decide ((state.next c).scan ≠ .code) ||
          decide (state.scan = .inside c))) := by
  have opened (state : State) : state.modes.any Mode.isLiteral =
      decide (state.scan ≠ .code) := by
    cases state <;> simp [modes, scan, Mode.isLiteral]
  have closing : state.modes.head? = some (.literal c) ↔
      state.scan = .inside c := by
    cases state <;> simp [modes, scan]
  simp only [copiesLiteral, opened, closing]

/-- The characters written at one step belong to literals just as the machine
means them to. -/
theorem marks_writes (state : State) (c : Char) :
    state.scan.marks (state.writes c) ++ (state.next c).pendingMarks =
      state.pendingMarks ++
        [copiesLiteral state.modes (state.next c).modes
          (state.writes c) c] := by
  rw [copiesLiteral_eq]
  cases state.acts c with
  | holds => rfl
  | opens reached settled written =>
      have unseen : Scan.code.marks [' ', ' '] = [false, false] := rfl
      rw [reached, pendingMarks, settled, written]
      simp [scan, unseen, pendingMarks, pending]
  | copies reached written =>
      rw [reached, scan_ofScan, pendingMarks, pending_ofScan, written,
        Scan.marks_append, marks_pending, run_pending, List.getLast?_concat]
      simp [Scan.marks, Scan.covers_eq]
  | hides outside settled reached settledBehind written =>
      rw [outside, reached, pendingMarks, settledBehind, pendingMarks,
        settled, written]
      simp [Scan.marks, Scan.covers, isQuote_hidden]

theorem marks_written (state : State) (text : Text) :
    state.scan.marks (state.written text) =
      state.pendingMarks ++ Cleaner.literalMarks state.modes text := by
  induction text generalizing state with
  | nil => exact state.marks_pending.trans (List.append_nil _).symm
  | cons c rest ih =>
      rw [written_cons, Scan.marks_append, run_writes, ih, ← List.append_assoc,
        marks_writes, List.append_assoc, Cleaner.literalMarks, step_modes]
      rfl

end State

theorem Free.cons
    {scan : Scan} {c : Char} {rest : Text}
    (closed : scan = .code → c = '/' → rest.head? ≠ some '/' ∧
      rest.head? ≠ some '*')
    (free : Free (scan.step c) rest) :
    Free scan (c :: rest) := by
  intro front d back shape reached
  cases front with
  | nil =>
      obtain ⟨rfl, rfl⟩ := List.cons.inj shape
      simpa using closed reached rfl
  | cons e front =>
      obtain ⟨rfl, later⟩ := List.cons.inj shape
      exact free front d back later reached

/-- No comment opens in what a machine writes. -/
theorem State.free_written (state : State) (text : Text) :
    Free state.scan (state.written text) := by
  induction text generalizing state with
  | nil =>
      intro front c back shape _
      have short : (state.written []).length ≤ 1 := by
        cases state <;> simp [written, output, run, pending]
      rw [shape, List.length_append, List.length_cons,
        List.length_cons] at short
      omega
  | cons c rest ih =>
      have later :
          Free (state.scan.run (state.writes c))
            ((state.next c).written rest) := by
        rw [run_writes]
        exact ih _
      rw [written_cons]
      cases state.acts c with
      | holds => exact later
      | opens _ _ written =>
          rw [written] at later ⊢
          exact .of_append (by decide) later
      | copies _ written notSlash notStar =>
          rw [written] at later ⊢
          rw [Scan.run_append, run_pending] at later
          have behind : Free state.scan ([c] ++ (state.next c).written rest) :=
            .cons (fun inCode slashed => absurd slashed (notSlash inCode)) later
          by_cases held : state = slash
          · -- The slash comes out in front of a character that opens no comment
            -- with it.
            subst held
            refine .cons (fun _ _ => ?_) behind
            simpa using ⟨notSlash rfl, notStar rfl⟩
          · have settled : state.pending = [] := by
              cases state <;> simp_all [pending]
            rwa [settled]
      | hides _ _ _ _ written =>
          rw [written] at later ⊢
          exact .of_append (by simpa using (hidden_ne_slash c).symm) later

theorem blank_blank (text : Text) : blank (blank text) = blank text := by
  apply blank_of_free
  rw [blank_eq]
  exact State.free_written .code text

/-- The spans of the literals of a blanked text cover just the characters that
the machine copies as parts of literals, and blanking it once more changes
nothing. -/
theorem spans_blank_iff (text : Text) :
    (∀ offset : Nat,
      (∃ span ∈ Literal.spans (blank text), span.start ≤ offset ∧
          offset < span.stop) ↔
        (Cleaner.literalMarks Cleaner.start.modes text)[offset]? = some true) ∧
      blank (blank text) = blank text := by
  refine ⟨?_, blank_blank text⟩
  intro offset
  have marks : Scan.code.marks (blank text) =
      Cleaner.literalMarks Cleaner.start.modes text := by
    rw [blank_eq]
    exact State.marks_written .code text
  rw [Literal.exists_span_iff, marks]

example :
    Cleaner.literalMarks Cleaner.start.modes "/'\\\n'/*'*/\"".toList =
      [false, true, true, true, true, false, false, false, false,
        false, true] := by
  decide

end Comment

end MacroTrace
