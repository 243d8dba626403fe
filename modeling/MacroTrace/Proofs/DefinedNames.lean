import MacroTrace.Proofs.DirectiveNames

/-!
# Where unbalanced definitions are reported

A definition that is not balanced is reported with the number of its first
physical line, and its name is looked for among the words of that line in the
file.  The name was read from a text without comments and from joined lines, so
it has to be shown that a word there is one in the file: comments never touch a
word.  It is not on the line only if the line is continued in front of the name.
-/

namespace MacroTrace

namespace Text

/-- Two neighbouring characters of a text, each with what it becomes: beside a
word character that is left, no word character is hidden. -/
def KeepsWords (first second : Char × Char) : Prop :=
  (isWordChar first.2 = true → isWordChar second.2 = isWordChar second.1) ∧
    (isWordChar second.2 = true → isWordChar first.2 = isWordChar first.1)

theorem keepsWords_of_hidden
    {first second : Char × Char}
    (hiddenFirst : isWordChar first.2 = false)
    (hiddenSecond : isWordChar second.2 = false) :
    KeepsWords first second := by
  simp [KeepsWords, hiddenFirst, hiddenSecond]

theorem keepsWords_of_kept
    {first second : Char × Char}
    (keptFirst : isWordChar first.2 = isWordChar first.1)
    (keptSecond : isWordChar second.2 = isWordChar second.1) :
    KeepsWords first second :=
  ⟨fun _ => keptSecond, fun _ => keptFirst⟩

end Text

namespace Comment

open Literal (Scan)

theorem isWordChar_hidden (c : Char) : Text.isWordChar (hidden c) = false := by
  unfold hidden
  split
  next breaks =>
    by_contra letter
    rw [Text.isLineBreak_of_isWordChar (by simpa using letter)] at breaks
    cases breaks
  next => rfl

namespace State

/-- Inside a comment the last character is hidden; elsewhere it is a word
character if and only if it was one. -/
def Follows : State → Char × Char → Prop
  | line, last | block, last | star, last => Text.isWordChar last.2 = false
  | _, last => Text.isWordChar last.2 = Text.isWordChar last.1

theorem follows_ofScan (scan : Scan) (c : Char) :
    (ofScan scan).Follows (c, c) := by
  cases scan <;> rfl

/-- A comment is left at a line break or at a slash. -/
theorem follows_hidden
    {state : State}
    (inside : state = line ∨ state = block ∨ state = star)
    (c : Char) :
    (state.next c).pending = [] ∧ (state.next c).Follows (c, hidden c) := by
  have unseen := isWordChar_hidden c
  rcases inside with rfl | rfl | rfl
  · simp only [next]
    split
    next breaks =>
      refine ⟨rfl, ?_⟩
      have kept : hidden c = c := if_pos breaks
      rw [kept]
      rfl
    next => exact ⟨rfl, unseen⟩
  · simp only [next]
    split
    next => exact ⟨rfl, unseen⟩
    next => exact ⟨rfl, unseen⟩
  · simp only [next]
    split
    next slashed =>
      subst slashed
      exact ⟨rfl, rfl⟩
    next =>
      split
      next => exact ⟨rfl, unseen⟩
      next => exact ⟨rfl, unseen⟩

theorem isChain_written
    {state : State} {last : Char × Char}
    (follows : state.Follows last)
    (text : Text) :
    (last :: (state.pending ++ text).zip (state.written text)).IsChain
      Text.KeepsWords := by
  induction text generalizing state last with
  | nil =>
      cases state with
      | slash =>
          exact .cons_cons (Text.keepsWords_of_kept follows rfl) (.singleton _)
      | _ => exact .singleton _
  | cons c rest ih =>
      have copied (scan : Scan) :
          ((c, c) :: rest.zip ((ofScan scan).written rest)).IsChain
            Text.KeepsWords := by
        have later := ih (follows_ofScan scan c)
        rwa [pending_ofScan, List.nil_append] at later
      have commented (inside : state = line ∨ state = block ∨ state = star) :
          ((c, hidden c) :: rest.zip ((state.next c).written rest)).IsChain
            Text.KeepsWords := by
        obtain ⟨settled, goesOn⟩ := follows_hidden inside c
        have later := ih goesOn
        rwa [settled, List.nil_append] at later
      rw [written_cons]
      cases state with
      | code =>
          by_cases slashed : c = '/'
          · subst slashed
            exact @ih slash last follows
          · rw [writes_code slashed, next_code slashed, plain_eq]
            exact .cons_cons (Text.keepsWords_of_kept follows rfl) (copied _)
      | slash =>
          by_cases slashed : c = '/'
          · subst slashed
            refine .cons_cons (Text.keepsWords_of_kept follows rfl)
              (.cons_cons ?_ ?_)
            · exact Text.keepsWords_of_hidden rfl rfl
            · exact @ih line ('/', ' ') rfl
          · by_cases starred : c = '*'
            · subst starred
              refine .cons_cons (Text.keepsWords_of_kept follows rfl)
                (.cons_cons ?_ ?_)
              · exact Text.keepsWords_of_hidden rfl rfl
              · exact @ih block ('*', ' ') rfl
            · rw [writes_slash slashed starred,
                next_slash slashed starred, plain_eq]
              refine .cons_cons (Text.keepsWords_of_kept follows rfl)
                (.cons_cons ?_ (copied _))
              exact Text.keepsWords_of_kept rfl rfl
      | literal quote =>
          rw [next_literal]
          exact .cons_cons (Text.keepsWords_of_kept follows rfl) (copied _)
      | escape quote =>
          exact .cons_cons (Text.keepsWords_of_kept follows rfl)
            (copied (.inside quote))
      | line =>
          refine .cons_cons ?_ (commented (.inl rfl))
          exact Text.keepsWords_of_hidden follows (isWordChar_hidden c)
      | block =>
          refine .cons_cons ?_ (commented (.inr (.inl rfl)))
          exact Text.keepsWords_of_hidden follows (isWordChar_hidden c)
      | star =>
          refine .cons_cons ?_ (commented (.inr (.inr rfl)))
          exact Text.keepsWords_of_hidden follows (isWordChar_hidden c)

end State

theorem isChain_blank (text : Text) :
    (text.zip (blank text)).IsChain Text.KeepsWords := by
  have start : State.code.Follows (' ', ' ') := rfl
  rw [blank_eq]
  exact (State.isChain_written start text).tail

/-- A word of the blanked text is a word of the text, at the same place. -/
theorem exists_word_of_blank
    {text front name after : Text}
    (shape : blank text = front ++ (name ++ after))
    (letters : ∀ c ∈ name, Text.isWordChar c = true)
    (nonempty : name ≠ [])
    (ends : Text.EndsApart front)
    (begins : Text.BeginsApart after) :
    ∃ before behind, text = before ++ (name ++ behind) ∧
      Text.Hidden Text.isLineBreak before front ∧
      Text.EndsApart before ∧ Text.BeginsApart behind := by
  have hidden := hidden_blank text
  have chain := isChain_blank text
  rw [shape] at hidden chain
  obtain ⟨before, rest, rfl, hiddenFront, hiddenRest⟩ := hidden.exists_append
  obtain ⟨same, behind, rfl, hiddenName, hiddenAfter⟩ :=
    hiddenRest.exists_append
  have visible : ' ' ∉ name :=
    fun member => absurd (letters _ member) (by decide)
  obtain rfl := (hiddenName.eq_of_not_mem_space visible).symm
  rw [List.zip_append hiddenFront.length_eq, List.zip_append rfl,
    List.isChain_append, List.isChain_append] at chain
  obtain ⟨-, ⟨-, -, later⟩, earlier⟩ := chain
  refine ⟨before, behind, rfl, hiddenFront, ?_, ?_⟩
  · obtain ⟨first, others, spelled⟩ := List.exists_cons_of_ne_nil nonempty
    intro c last
    obtain ⟨init, rfl⟩ := List.getLast?_eq_some_iff.mp last
    obtain ⟨init', d, rfl⟩ : ∃ init' d, front = init' ++ [d] := by
      rcases List.eq_nil_or_concat front with rfl | ⟨init', d, rfl⟩
      · simpa using hiddenFront.length_eq
      · exact ⟨init', d, List.concat_eq_append⟩
    have lengths : init.length = init'.length := by
      simpa using hiddenFront.length_eq
    have kept :=
      earlier (c, d) (by simp [List.zip_append lengths]) (first, first)
        (by simp [spelled])
    rw [← kept.2 (letters first (by simp [spelled]))]
    exact ends d (by simp)
  · obtain ⟨init, last, spelled⟩ : ∃ init last, name = init ++ [last] :=
      ⟨_, _, (List.dropLast_concat_getLast nonempty).symm⟩
    intro c head
    obtain ⟨rest, rfl⟩ := List.head?_eq_some_iff.mp head
    cases hiddenAfter with
    | @cons _ d _ rest' _ _ =>
        have kept :=
          later (last, last) (by simp [spelled, List.zip_append]) (c, d) rfl
        rw [← kept.1 (letters last (by simp [spelled]))]
        exact begins d rfl

end Comment

namespace Text

/-- A name is a word of a line, which is numbered from one. -/
def StandsOnLine (text : Text) (line : Nat) (name : Text) : Prop :=
  ∃ word ∈ Word.all ((splitOn '\n' text)[line - 1]?.getD []),
    word.spelling = name

/-- A name is a word of a line at a column, both of which are numbered from
one. -/
def StandsAt (text : Text) (line column : Nat) (name : Text) : Prop :=
  ∃ word ∈ Word.all ((splitOn '\n' text)[line - 1]?.getD []),
    word.spelling = name ∧ column = word.start + 1

theorem StandsAt.readAt_eq
    {text name : Text} {line column : Nat}
    (stands : text.StandsAt line column name) :
    text.readAt line column name.length = name := by
  obtain ⟨word, listed, rfl, rfl⟩ := stands
  obtain ⟨front, whole, start⟩ := (Word.stands_of_mem_all listed).split
  rw [readAt, whole, start, Nat.add_sub_cancel, List.drop_left, List.take_left]

theorem openLine_eq_nil
    {text : Text}
    (ends : ∀ c ∈ text.getLast?, c = '\n') :
    openLine [] text = [] := by
  rcases List.eq_nil_or_concat text with rfl | ⟨front, c, rfl⟩
  · rfl
  · rw [List.concat_eq_append] at ends ⊢
    obtain rfl := ends c (by simp)
    rw [openLine_append]
    rfl

/-- The line behind a text that leaves none open. -/
theorem getElem?_splitOn_of_openLine
    {front rest : Text}
    (opened : openLine [] front = []) :
    (splitOn '\n' (front ++ rest))[front.count '\n']? =
      some (rest.takeWhile (· ≠ '\n')) := by
  rw [getElem?_splitOn, opened]
  rfl

end Text

namespace Line

variable {text : Text} {front back : List Line} {line : Line}

theorem start_of_hidden
    (split : all (Comment.blank text) = front ++ line :: back)
    {before : Text}
    (hidden : Text.Hidden Text.isLineBreak before (render front)) :
    before.count '\n' = front.length ∧ Text.openLine [] before = [] := by
  have cut : Cut (front ++ line :: back) := split ▸ cut_all _
  constructor
  · rw [← hidden.feeds.count_feed, count_render cut.of_append]
  · have opened : Text.openLine [] (render front) = [] :=
      Text.openLine_eq_nil
        (eq_feed_of_getLast?_render fun earlier member =>
          (cut.of_append earlier member).2)
    have length :=
      hidden.feeds.length_openLine (rfl : ([] : Text).length =
        ([] : Text).length)
    rw [opened] at length
    exact List.eq_nil_of_length_eq_zero length.symm

/-- Where a line of the blanked text begins in the text itself. -/
theorem exists_start_of_blank
    (split : all (Comment.blank text) = front ++ line :: back) :
    ∃ before rest, text = before ++ rest ∧
      before.count '\n' = front.length ∧ Text.openLine [] before = [] := by
  have hidden := Comment.hidden_blank text
  rw [← render_all (Comment.blank text), split, render_append] at hidden
  obtain ⟨before, rest, rfl, hiddenFront, -⟩ := hidden.exists_append
  exact ⟨before, rest, rfl, start_of_hidden split hiddenFront⟩

theorem beginsApart_ending
    (split : all (Comment.blank text) = front ++ line :: back) :
    Text.BeginsApart (line.ending.text ++ render back) := by
  cases ending : line.ending with
  | feed =>
      rintro c ⟨⟩
      rfl
  | returnFeed =>
      rintro c ⟨⟩
      rfl
  | textEnd =>
      cases back with
      | nil => nofun
      | cons next back =>
          rw [List.append_cons] at split
          have cut : Cut ((front ++ [line]) ++ next :: back) :=
            split ▸ cut_all _
          exact absurd ending (cut.of_append line (by simp)).2

/-- A word on a line of the blanked text stands on that line of the text. -/
theorem standsOnLine_of_blank
    (split : all (Comment.blank text) = front ++ line :: back)
    {name inside more : Text}
    (shape : line.text = inside ++ (name ++ more))
    (identifier : Text.isIdentifier name = true)
    (ends : Text.EndsApart inside)
    (begins : Text.BeginsApart more) :
    Text.StandsOnLine text (front.length + 1) name := by
  have letters := Text.isWordChar_of_isIdentifier identifier
  have whole : Comment.blank text =
      (render front ++ inside) ++
        (name ++ (more ++ (line.ending.text ++ render back))) := by
    rw [← render_all (Comment.blank text), split, render_append,
      render_cons, shape]
    simp only [List.append_assoc]
  have endsFront : Text.EndsApart (render front) := by
    have cut : Cut (front ++ line :: back) := split ▸ cut_all _
    intro c last
    rw [eq_feed_of_getLast?_render
      (fun earlier member => (cut.of_append earlier member).2) c last]
    rfl
  have free : '\n' ∉ inside := by
    intro among
    have member : line ∈ all (Comment.blank text) := by simp [split]
    apply feed_not_mem_all member
    rw [shape]
    exact List.mem_append_left _ among
  obtain ⟨visible, behind, rfl, hidden, endsVisible, beginsBehind⟩ :=
    Comment.exists_word_of_blank whole letters
      (Text.ne_nil_of_isIdentifier identifier)
      (endsFront.append ends) (begins.append (beginsApart_ending split))
  obtain ⟨before, inner, rfl, hiddenFront, hiddenInside⟩ := hidden.exists_append
  obtain ⟨number, opened⟩ := start_of_hidden split hiddenFront
  have feedless : '\n' ∉ inner := by
    rw [← List.count_eq_zero, ← hiddenInside.feeds.count_feed]
    exact List.count_eq_zero.mpr free
  have kept : ∀ c ∈ inner ++ name, decide (c ≠ '\n') = true := by
    intro c member
    rw [decide_eq_true_eq]
    rintro rfl
    rcases List.mem_append.mp member with inInner | inName
    · exact feedless inInner
    · exact absurd (letters _ inName) (by decide)
  have found :
      (Text.splitOn '\n' (before ++ inner ++ (name ++ behind)))[front.length]? =
        some (inner ++ (name ++ behind.takeWhile (· ≠ '\n'))) := by
    rw [← number, List.append_assoc, Text.getElem?_splitOn_of_openLine opened,
      ← List.append_assoc, List.takeWhile_append_of_pos kept, List.append_assoc]
  have beginsLine : Text.BeginsApart (behind.takeWhile (· ≠ '\n')) := by
    apply Text.BeginsApart.of_append
    rw [List.takeWhile_append_dropWhile]
    exact beginsBehind
  obtain ⟨word, listed, -, spelled⟩ :=
    Word.exists_of_apart endsVisible.of_append identifier beginsLine
  refine ⟨word, ?_, spelled⟩
  rw [Nat.add_sub_cancel, found]
  exact List.mem_of_mem_filter listed

end Line

theorem Extraction.exists_macroOf?
    {path : String} {text : Text} {definition : Definition}
    (extracted : definition ∈ (ofText path false text).definitions) :
    ∃ line ∈ LogicalLine.all path (Comment.blank text),
      macroOf? path ⟨LineQueue.tidy line.text, line.first, line.remarks⟩ =
        some definition := by
  have tidy : ∀ line ∈ (LineQueue.ofLogicalLines
      (LogicalLine.all path (Comment.blank text))).lines, IsTidy line := by
    intro line member
    obtain ⟨logical, _, rfl⟩ := List.mem_map.mp member
    exact isTidy_tidy logical.text logical.first logical.remarks
  obtain ⟨found, read, -, all⟩ := readFrom_eq_append path false [] [] _ tidy
  have shape : (ofText path false text).definitions = found := read
  rw [shape, all rfl] at extracted
  obtain ⟨queued, listed, defines⟩ := List.mem_filterMap.mp extracted
  obtain ⟨line, joined, rfl⟩ := List.mem_map.mp listed
  exact ⟨line, joined, defines⟩

theorem LogicalLine.exists_joinWith_append (part : Text) (parts : List Text) :
    ∃ more, Text.joinWith [' '] (part :: parts) = part ++ more ∧
      Text.BeginsApart more := by
  cases parts with
  | nil => exact ⟨[], by simp [Text.joinWith], nofun⟩
  | cons next parts =>
      refine ⟨' ' :: Text.joinWith [' '] (next :: parts),
        by simp [Text.joinWith], ?_⟩
      rintro c ⟨⟩
      rfl

namespace Sheet

theorem getElem?_lineStarts
    (path : String)
    {before rest : Text}
    (opened : Text.openLine [] before = []) :
    (ofText path (before ++ rest)).lineStarts[before.count '\n']? =
      some before.length := by
  have hidden := hidden_clean path (before ++ rest)
  have starts : (ofText path (before ++ rest)).lineStarts =
      lineStartsFrom 0 [0] (ofText path (before ++ rest)).clean := rfl
  generalize (ofText path (before ++ rest)).clean = clean at hidden starts
  have hiddenFront :
      Text.Hidden Text.isFeed before (clean.take before.length) := by
    have taken := List.forall₂_take before.length hidden
    rwa [List.take_left] at taken
  have length :=
    hiddenFront.length_openLine (rfl : ([] : Text).length = ([] : Text).length)
  obtain ⟨last, earlier, shape, count, reached, -⟩ :=
    lineStartsFrom_append [] [] (Nat.zero_add 0) (by simp)
      (clean.take before.length) (clean.drop before.length)
  obtain ⟨later, found, -⟩ :=
    lineStartsFrom_starts (0 + (clean.take before.length).length)
      (last :: earlier) (clean.drop before.length)
  rw [List.length_nil, Nat.zero_add, hiddenFront.count_feed] at count
  rw [length, opened, ← hiddenFront.length_eq, List.length_nil, Nat.add_zero,
    Nat.zero_add] at reached
  rw [starts, ← List.take_append_drop before.length clean, shape, found,
    ← count, reached]
  simp

/-- The place of a column on the line behind a text that leaves none open. -/
theorem position_of_openLine
    (path : String)
    {before line behind : Text}
    (opened : Text.openLine [] before = [])
    (oneLine : '\n' ∉ line)
    {column : Nat}
    (within : column ≤ line.length) :
    (ofText path (before ++ (line ++ behind))).position
        (before.length + column) =
      (before.count '\n' + 1, column + 1) := by
  have shorter : '\n' ∉ line.take column :=
    fun member => oneLine (List.mem_of_mem_take member)
  have taken : (before ++ (line ++ behind)).take (before.length + column) =
      before ++ line.take column := by
    rw [List.take_length_add_append, List.take_append_of_le_length within]
  have reached :
      before.length + column ≤
        (ofText path (before ++ (line ++ behind))).clean.length := by
    rw [← (hidden_clean path _).length_eq]
    simp only [List.length_append]
    omega
  rw [position_eq_placeOf reached, Text.placeOf, taken, List.count_append,
    List.count_eq_zero.mpr shorter, Text.openLine_append, opened,
    Text.openLine_of_not_mem shorter]
  simp [within]

end Sheet

namespace Check

open LogicalLine (part)

/-- What is reported about an unbalanced definition: its first line and its
name, which is a word at the given place if it is a word of that line at all.
It is one if the first line, as it is joined with the next ones, names a macro
itself. -/
structure ReportsUnbalanced (path : String) (text : Text)
    (definition : Definition) (diagnostic : Diagnostic) : Prop where
  path_eq : diagnostic.path = path
  line_eq : definition.line = diagnostic.line
  quoted : diagnostic.subject = definition.name
  length_eq : diagnostic.length = definition.name.length
  points : text.StandsOnLine diagnostic.line definition.name →
    text.StandsAt diagnostic.line diagnostic.column definition.name
  reads : text.StandsOnLine diagnostic.line definition.name →
    text.readAt diagnostic.line diagnostic.column diagnostic.length =
      definition.name
  otherwise : ¬ text.StandsOnLine diagnostic.line definition.name →
    diagnostic.column = 1
  stands : ∃ first, (Line.all (Comment.blank text))[diagnostic.line - 1]? =
    some first ∧
    ((Definition.directive? (part first)).isSome = true →
      text.StandsOnLine diagnostic.line definition.name)

section Place

variable {before rest : Text} {definition : Definition}

/-- The name is looked for on the line behind a text that leaves none open. -/
theorem place_unbalancedReport
    (path : String)
    (opened : Text.openLine [] before = [])
    (numbered : definition.line = before.count '\n' + 1) :
    let line := rest.takeWhile (· ≠ '\n')
    let found := (Word.all line).find? (·.spelling = definition.name)
    let diagnostic := unbalancedReport (Sheet.ofText path (before ++ rest))
      (Text.splitOn '\n' (before ++ rest)) definition
    (diagnostic.line, diagnostic.column) =
      (before.count '\n' + 1, (found.map (·.start)).getD 0 + 1) := by
  intro line found diagnostic
  have index : (definition.line - 1).toNat = before.count '\n' := by omega
  have oneLine : '\n' ∉ line := by
    intro member
    have kept := List.mem_takeWhile_imp member
    simp at kept
  have within : (found.map (·.start)).getD 0 ≤ line.length := by
    cases shape : found with
    | none => exact Nat.zero_le _
    | some word =>
        obtain ⟨front, whole, start⟩ :=
          (Word.stands_of_mem_all (List.mem_of_find?_eq_some shape)).split
        have length := congrArg List.length whole
        rw [List.length_append] at length
        simp only [Option.map_some, Option.getD_some]
        omega
  have reported : diagnostic = (Sheet.ofText path (before ++ rest)).report
      (before.length + (found.map (·.start)).getD 0) definition.name.length
      .unbalancedParentheses diagnostic.message := by
    simp only [diagnostic, unbalancedReport, index,
      Sheet.getElem?_lineStarts path opened,
      Text.getElem?_splitOn_of_openLine opened, Option.getD_some]
    rfl
  have place :=
    @Sheet.position_of_openLine path before line
      (rest.dropWhile (· ≠ '\n')) opened oneLine _ within
  rw [List.takeWhile_append_dropWhile] at place
  rw [reported, Sheet.report, place]

theorem points_unbalancedReport
    (path : String)
    (opened : Text.openLine [] before = [])
    (numbered : definition.line = before.count '\n' + 1) :
    let text := before ++ rest
    let diagnostic :=
      unbalancedReport (Sheet.ofText path text)
        (Text.splitOn '\n' text) definition
    diagnostic.line = before.count '\n' + 1 ∧
      (text.StandsOnLine diagnostic.line definition.name →
        text.StandsAt diagnostic.line diagnostic.column definition.name) ∧
      (¬ text.StandsOnLine diagnostic.line definition.name →
        diagnostic.column = 1) := by
  intro text diagnostic
  have place :=
    @place_unbalancedReport before rest definition path opened numbered
  simp only [Prod.mk.injEq] at place
  obtain ⟨line, column⟩ := place
  have numberedLine : diagnostic.line = before.count '\n' + 1 := line
  have row : (Text.splitOn '\n' text)[diagnostic.line - 1]?.getD [] =
      rest.takeWhile (· ≠ '\n') := by
    rw [numberedLine, Nat.add_sub_cancel,
      Text.getElem?_splitOn_of_openLine opened, Option.getD_some]
  refine ⟨line, ?_, ?_⟩
  · rintro ⟨word, listed, spelled⟩
    rw [row] at listed
    have present : ((Word.all (rest.takeWhile (· ≠ '\n'))).find?
        (·.spelling = definition.name)).isSome = true :=
      List.find?_isSome.mpr ⟨word, listed, by simpa using spelled⟩
    obtain ⟨first, found⟩ := Option.isSome_iff_exists.mp present
    rw [found, Option.map_some, Option.getD_some] at column
    rw [Text.StandsAt, row]
    exact ⟨first, List.mem_of_find?_eq_some found,
      by simpa using List.find?_some found, column⟩
  · intro absent
    have missing : (Word.all (rest.takeWhile (· ≠ '\n'))).find?
        (·.spelling = definition.name) = none := by
      apply List.find?_eq_none.mpr
      intro word listed spelled
      rw [Text.StandsOnLine, row] at absent
      exact absent ⟨word, listed, by simpa using spelled⟩
    rw [missing] at column
    exact column

end Place

variable {lookup : Lookup} {settings : Settings} {path : String} {text : Text}
  {sheet : Sheet} {definition : Definition} {diagnostics : List Diagnostic}

theorem subject_unbalancedReport
    {lines : List Text}
    (whole : '\x27' ∉ definition.name) :
    (unbalancedReport sheet lines definition).subject = definition.name := by
  have opening : '\x27' ∉ "Macro ".toList := by decide
  have message : (unbalancedReport sheet lines definition).message.toList =
      "Macro ".toList ++ '\x27' :: (definition.name ++
        '\x27' :: " has unbalanced parentheses in its definition".toList) := by
    simp [unbalancedReport, Sheet.report, toString]
  exact Diagnostic.subject_eq message opening whole

/-- The name of an extracted macro is that of the first line of its definition,
if this has one. -/
theorem standsOnLine_of_directive?
    {logical : LogicalLine} {front others back : List Line} {first : Line}
    (joins : LogicalLine.Joins (Line.all (Comment.blank text)) front
      (first :: others) back logical)
    {name rest : Text}
    (directive : Definition.directive? (LineQueue.tidy logical.text) =
      some (name, rest))
    (defines : (Definition.directive? (part first)).isSome = true) :
    text.StandsOnLine (front.length + 1) name := by
  obtain ⟨⟨own, behind⟩, found⟩ := Option.isSome_iff_exists.mp defines
  have names := Definition.names_of_directive? found
  obtain ⟨more, joined, begins⟩ :=
    LogicalLine.exists_joinWith_append (part first) (others.map part)
  have same : own = name := by
    have whole : Definition.Names logical.text own := by
      rw [joins.text, List.map_cons, joined]
      exact names.append begins
    obtain ⟨_, again⟩ := whole.tidy.exists_directive?
    rw [directive] at again
    exact (congrArg Prod.fst (Option.some.inj again)).symm
  subst same
  obtain ⟨identifier, inside, after, shape, ends, beginsAfter⟩ :=
    names.exists_apart
  obtain ⟨ending, glued, dropped⟩ := LogicalLine.exists_part_append first
  have beginsEnding : Text.BeginsApart ending := by
    intro c head
    rcases dropped c (List.mem_of_mem_head? head) with blank | rfl
    · exact Text.isWordChar_of_isBlank blank
    · rfl
  have split : Line.all (Comment.blank text) =
      front ++ first :: (others ++ back) := joins.split
  refine Line.standsOnLine_of_blank split ?_ identifier ends
    (beginsAfter.append beginsEnding)
  rw [glued, shape]
  simp only [List.append_assoc]

theorem reportsUnbalanced
    (extracted : definition ∈ (Extraction.ofText path false text).definitions) :
    ReportsUnbalanced path text definition
      (unbalancedReport (Sheet.ofText path text)
        (Text.splitOn '\n' text) definition) := by
  obtain ⟨logical, joined, defines⟩ := Extraction.exists_macroOf? extracted
  obtain ⟨⟨name, written⟩, directive, made⟩ := Option.map_eq_some_iff.mp defines
  have named : definition.name = name := congrArg Definition.name made.symm
  have begun : definition.line = logical.first :=
    congrArg Definition.line made.symm
  have letters : ∀ c ∈ name, Text.isWordChar c = true := by
    obtain ⟨_, _, _, _, parts⟩ := Definition.names_of_directive? directive
    exact Text.isWordChar_of_isIdentifier parts.named
  obtain ⟨front, run, back, joins⟩ := LogicalLine.exists_joins joined
  obtain ⟨first, others, rfl⟩ := List.exists_cons_of_ne_nil joins.nonempty
  have split : Line.all (Comment.blank text) =
      front ++ first :: (others ++ back) := joins.split
  have stands := standsOnLine_of_directive? joins directive
  have present : (Line.all (Comment.blank text))[front.length]? =
      some first := by
    rw [split]
    simp
  obtain ⟨before, rest, rfl, count, opened⟩ := Line.exists_start_of_blank split
  have numbered : definition.line = before.count '\n' + 1 := by
    rw [begun, joins.first, count]
    rfl
  obtain ⟨line, points, otherwise⟩ :=
    points_unbalancedReport path opened numbered
  constructor
  case path_eq => rfl
  case line_eq =>
    rw [line, numbered]
    rfl
  case quoted =>
    apply subject_unbalancedReport
    intro member
    rw [named] at member
    exact absurd (letters _ member) (by decide)
  case length_eq => rfl
  case points => exact points
  case reads => exact fun standing => (points standing).readAt_eq
  case otherwise => exact otherwise
  case stands =>
    rw [line, Nat.add_sub_cancel, count, named]
    exact ⟨first, present, stands⟩

/-- The diagnostics about definitions are those that the definitions of the file
itself give. -/
theorem filter_unbalanced_perm
    (checked : (ofSheet lookup settings sheet).diagnostics = .ok diagnostics) :
    (diagnostics.filter (·.code = .unbalancedParentheses)).Perm
      (unbalanced sheet
        (Extraction.ofText sheet.path false sheet.text).definitions) := by
  obtain ⟨undefined, resolved, rfl⟩ := exists_resolved checked
  apply ((List.mergeSort_perm _ Diagnostic.le).filter _).trans
  have uses :
      (argumentCounts lookup sheet ++ undefined ++
        redefinitions lookup sheet).filter
        (·.code = .unbalancedParentheses) = [] := by
    apply List.filter_eq_nil_iff.mpr
    intro diagnostic member
    simpa using (origin_of_mem_uses resolved member).2
  have all :
      (unbalanced sheet
        (Extraction.ofText sheet.path false sheet.text).definitions).filter
        (·.code = .unbalancedParentheses) =
          unbalanced sheet
            (Extraction.ofText sheet.path false sheet.text).definitions := by
    apply List.filter_eq_self.mpr
    intro diagnostic member
    obtain ⟨definition, _, rfl⟩ := List.mem_map.mp member
    rfl
  rw [List.filter_append, uses, all, List.nil_append]

/-- A check reports each unbalanced definition of the file once: with its line
and its name, and at a word of that line that spells the name, if there is
one. -/
theorem exists_reportsUnbalanced
    (lookup : Lookup) (settings : Settings) (path : String)
    (small : text.length ≤ maxSize) :
    ((∀ name, ∀ definition ∈ lookup name, '\x00' ∉ definition.body) →
      ∃ diagnostics, (ofText lookup settings path text).diagnostics =
        .ok diagnostics) ∧
    ∀ diagnostics, (ofText lookup settings path text).diagnostics =
      .ok diagnostics →
      ∃ reported,
        (diagnostics.filter (·.code = .unbalancedParentheses)).Perm reported ∧
          List.Forall₂ (ReportsUnbalanced path text)
            ((Extraction.ofText path false text).definitions.filter
              (·.isUnbalanced)) reported := by
  refine ⟨fun clean => ofText_isOk clean settings path text, ?_⟩
  intro diagnostics checked
  rw [ofText_of_le small] at checked
  refine ⟨_, filter_unbalanced_perm checked, ?_⟩
  rw [unbalanced, List.forall₂_map_right_iff]
  apply List.forall₂_same.mpr
  intro definition member
  exact reportsUnbalanced (List.mem_of_mem_filter member)

/-- Names between comments, on a line that is continued behind the name, on one
with a tab, and on one with a comment that spells the name in front of it. -/
def openText : Text :=
  "#define/**/OPEN/**/(x\\\r\n) ((x)\n\t# define CLOSE ) // CLOSE\n".toList ++
    "/* FOO */ #define FOO (".toList

theorem exists_reportsUnbalanced_openText :
    openText.length ≤ maxSize ∧
      ((Extraction.ofText "main.c" false openText).definitions.filter
        (·.isUnbalanced)).map
          (fun definition => (definition.name, definition.line)) =
        [("OPEN".toList, 1), ("CLOSE".toList, 3), ("FOO".toList, 4)] ∧
      (unbalanced (.ofText "main.c" openText)
          (Extraction.ofText "main.c" false openText).definitions).map
          (fun diagnostic => (diagnostic.line, diagnostic.column)) =
        [(1, 12), (3, 11), (4, 4)] ∧
      ∃ diagnostics reported,
        (ofText (fun _ => []) .default "main.c" openText).diagnostics =
          .ok diagnostics ∧
          (diagnostics.filter (·.code = .unbalancedParentheses)).Perm reported ∧
          List.Forall₂ (ReportsUnbalanced "main.c" openText)
            ((Extraction.ofText "main.c" false openText).definitions.filter
              (·.isUnbalanced))
            reported := by
  have small : openText.length ≤ maxSize := by decide
  obtain ⟨succeeds, reports⟩ :=
    exists_reportsUnbalanced (fun _ => []) .default "main.c" small
  obtain ⟨diagnostics, checked⟩ :=
    succeeds (fun _ _ member => absurd member List.not_mem_nil)
  obtain ⟨reported, perm, pointed⟩ := reports diagnostics checked
  exact ⟨small, by decide +kernel, by decide +kernel, diagnostics, reported,
    checked, perm, pointed⟩

/-- A definition that is continued in front of its name. -/
def splitText : Text :=
  "#define \\\nFOO (".toList

def splitSheet : Sheet :=
  .ofText "main.c" splitText

/-- The name is not on the first line, so other characters stand at the place
that is given. -/
theorem not_reads_splitText :
    (ofText (fun _ => []) .default "main.c" splitText).diagnostics =
        .ok [⟨"main.c", 1, 1, 3, .unbalancedParentheses,
          "Macro 'FOO' has unbalanced parentheses in its definition"⟩] ∧
      splitText.readAt 1 1 3 = "#de".toList := by
  have resolved : (resolve (fun _ => []) .default splitSheet [] ⟨[], []⟩
      (concerns (fun _ => []) splitSheet)).1 = .ok [] := by
    decide +kernel
  have counts : argumentCounts (fun _ => []) splitSheet = [] := by
    decide +kernel
  have several : redefinitions (fun _ => []) splitSheet = [] := by
    decide +kernel
  have unclosed : unbalanced splitSheet
      (Extraction.ofText splitSheet.path false splitSheet.text).definitions =
        [⟨"main.c", 1, 1, 3, .unbalancedParentheses,
          "Macro 'FOO' has unbalanced parentheses in its definition"⟩] := by
    decide +kernel
  have checked := diagnostics_ofSheet resolved
  rw [counts, several, unclosed, List.append_nil, List.append_nil,
    List.nil_append, List.mergeSort_singleton] at checked
  rw [ofText_of_le (by decide)]
  exact ⟨checked, by decide +kernel⟩

end Check

end MacroTrace
