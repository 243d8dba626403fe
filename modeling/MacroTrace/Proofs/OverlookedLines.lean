import MacroTrace.Proofs.DefineLines
import MacroTrace.Proofs.Position
import MacroTrace.Proofs.Spelling
import MacroTrace.Proofs.Tiling
import MacroTrace.Proofs.UndefinedUse

/-!
# Diagnostics on the lines of definitions

The words of a definition are no uses, so a line that defines a macro is left
out when a file is checked.  It is left out unless a blank other than a space or
a tab stands around its hash: such a line is a definition when definitions are
read, but it is overlooked when they are marked, and its words are checked as if
they were code.
-/

namespace MacroTrace

theorem Text.isBlank_of_gap
    {c : Char}
    (gap : (c = ' ' || c = '\t') = true) :
    isBlank c = true := by
  simp only [Bool.or_eq_true, decide_eq_true_eq] at gap
  rcases gap with rfl | rfl
  · rfl
  · rfl

namespace Directive

/-- The parts of a line that reads `#define`. -/
structure DefineParts (line before between rest : Text) : Prop where
  shape : line = before ++ '#' :: (between ++ ("define".toList ++ rest))
  apart : Text.BeginsApart rest

theorem startsWithWord_iff
    {word text : Text} :
    startsWithWord word text = true ↔ ∃ rest, text = word ++ rest ∧
      Text.BeginsApart rest := by
  have begins (rest : Text) :
      (!rest.head?.any Text.isWordChar) = true ↔ Text.BeginsApart rest := by
    cases rest with
    | nil => simp [Text.BeginsApart]
    | cons c rest => simp [Text.BeginsApart]
  rw [startsWithWord, Bool.and_eq_true, List.isPrefixOf_iff_prefix]
  constructor
  · rintro ⟨⟨rest, rfl⟩, apart⟩
    rw [List.drop_left, begins] at apart
    exact ⟨rest, rfl, apart⟩
  · rintro ⟨rest, rfl, apart⟩
    rw [List.drop_left, begins]
    exact ⟨List.prefix_append _ _, apart⟩

theorem define_append (rest : Text) :
    "define".toList ++ rest = 'd' :: ("efine".toList ++ rest) := by
  rfl

theorem isDefine_iff
    {skip : Char → Bool}
    (hash : skip '#' = false)
    (letter : skip 'd' = false)
    {line : Text} :
    isDefine skip (line.dropWhile skip) = true ↔
      ∃ before between rest,
        DefineParts line before between rest ∧
          ∀ c ∈ before ++ between, skip c = true := by
  constructor
  · intro defines
    generalize stripped : line.dropWhile skip = text at defines
    unfold isDefine at defines
    split at defines
    next behind =>
      obtain ⟨rest, keyword, apart⟩ := startsWithWord_iff.mp defines
      refine ⟨line.takeWhile skip, behind.takeWhile skip, rest, ⟨?_, apart⟩, ?_⟩
      · rw [← keyword, List.takeWhile_append_dropWhile, ← stripped,
          List.takeWhile_append_dropWhile]
      · intro c member
        rcases List.mem_append.mp member with left | right
        · exact List.mem_takeWhile_imp left
        · exact List.mem_takeWhile_imp right
    next => cases defines
  · rintro ⟨before, between, rest, ⟨rfl, apart⟩, skipped⟩
    have first : ∀ c ∈ before, skip c = true :=
      fun c member => skipped c (List.mem_append_left _ member)
    have second : ∀ c ∈ between, skip c = true :=
      fun c member => skipped c (List.mem_append_right _ member)
    have keyword : ("define".toList ++ rest).dropWhile skip =
        "define".toList ++ rest := by
      rw [define_append]
      exact List.dropWhile_cons_of_neg (by simp [letter])
    rw [List.dropWhile_append_of_pos first,
      List.dropWhile_cons_of_neg (by simp [hash]), isDefine,
      List.dropWhile_append_of_pos second, keyword]
    exact startsWithWord_iff.mpr ⟨rest, rfl, apart⟩

/-- The blanks around the hash are all that stand there. -/
theorem DefineParts.blanks_eq
    {line before between rest : Text}
    (parts : DefineParts line before between rest)
    (blank : ∀ c ∈ before ++ between, Text.isBlank c = true) :
    before = line.takeWhile Text.isBlank ∧
      between =
        ((line.dropWhile Text.isBlank).drop 1).takeWhile Text.isBlank := by
  have hash : ¬ Text.isBlank '#' = true := by decide
  have letter : ¬ Text.isBlank 'd' = true := by decide
  rw [List.forall_mem_append] at blank
  rw [parts.shape, List.takeWhile_append_of_pos blank.1,
    List.dropWhile_append_of_pos blank.1, List.takeWhile_cons_of_neg hash,
    List.dropWhile_cons_of_neg hash, List.drop_one, List.tail_cons,
    List.takeWhile_append_of_pos blank.2, define_append,
    List.takeWhile_cons_of_neg letter, List.append_nil, List.append_nil]
  exact ⟨rfl, rfl⟩

end Directive

namespace Sheet

open Directive (DefineParts isDefine_iff)

/-- A line that reads `#define`, with some blank around the hash that is neither
a space nor a tab. -/
def IsOverlooked (line : Text) : Prop :=
  ∃ before between rest,
    DefineParts line before between rest ∧
      (∀ c ∈ before ++ between, Text.isBlank c = true) ∧
      ∃ c ∈ before ++ between, c ≠ ' ' ∧ c ≠ '\t'

/-- The overlooked lines are those that only one of two readers takes for
definitions. -/
theorem isOverlooked_iff
    {line : Text} :
    IsOverlooked line ↔
      Directive.isDefine Text.isBlank (Text.trimLeft line) = true ∧
        isDefineLine line = false := by
  let isGap (c : Char) : Bool := c = ' ' || c = '\t'
  have gaps {text : Text} : (∃ c ∈ text, c ≠ ' ' ∧ c ≠ '\t') ↔
      ¬ ∀ c ∈ text, isGap c = true := by
    simp [isGap]
  have marked : isDefineLine line = true ↔
      ∃ before between rest,
        DefineParts line before between rest ∧
          ∀ c ∈ before ++ between, isGap c = true :=
    isDefine_iff (by decide) (by decide)
  rw [Text.trimLeft, isDefine_iff (by decide) (by decide),
    ← Bool.not_eq_true, marked]
  constructor
  · rintro ⟨before, between, rest, parts, blanks, other⟩
    refine ⟨⟨before, between, rest, parts, blanks⟩, ?_⟩
    rintro ⟨before', between', rest', parts', onlyGaps⟩
    obtain ⟨rfl, rfl⟩ := parts.blanks_eq blanks
    obtain ⟨rfl, rfl⟩ :=
      parts'.blanks_eq fun c member => Text.isBlank_of_gap (onlyGaps c member)
    exact gaps.mp other onlyGaps
  · rintro ⟨⟨before, between, rest, parts, blanks⟩, unmarked⟩
    refine ⟨before, between, rest, parts, blanks, gaps.mpr ?_⟩
    exact fun onlyGaps => unmarked ⟨before, between, rest, parts, onlyGaps⟩

end Sheet

namespace Text

theorem head?_trimLeft_eq (text : Text) :
    (trimLeft text).head? = text.find? (!isBlank ·) := by
  rw [trimLeft]
  induction text with
  | nil => rfl
  | cons c rest ih =>
      cases blank : isBlank c with
      | true => simpa [blank] using ih
      | false => simp [blank]

theorem head?_trimLeft_append (front back : Text) :
    (trimLeft (front ++ back)).head? =
      (trimLeft front).head?.or (trimLeft back).head? := by
  rw [head?_trimLeft_eq, head?_trimLeft_eq, head?_trimLeft_eq,
    List.find?_append]

end Text

/-- Merging and trimming blanks keeps the first character that is none. -/
theorem LineQueue.head?_trimLeft_tidy (text : Text) :
    (Text.trimLeft (tidy text)).head? = (Text.trimLeft text).head? := by
  rw [Text.head?_trimLeft_eq, Text.head?_trimLeft_eq, ← List.head?_filter,
    ← List.head?_filter, tidy, Text.filter_trim, Text.squeeze,
    Text.filter_squeezeFrom fun _ gap => Text.isBlank_of_gap gap]
  rfl

theorem Definition.head?_of_directive?
    {line : Text}
    (defines : (directive? line).isSome = true) :
    (Text.trimLeft line).head? = some '#' := by
  unfold directive? at defines
  split at defines
  next shape => rw [shape, List.head?_cons]
  next => cases defines

/-- A macro is recorded at the first line of a logical line that begins with a
hash. -/
theorem Extraction.exists_line_of_mem
    {path : String} {detectTypes : Bool} {text : Text}
    {definition : Definition}
    (extracted : definition ∈ (ofText path detectTypes text).definitions)
    (isMacro : definition.isMacro = true) :
    ∃ line ∈ LogicalLine.all path (Comment.blank text),
      definition.line = line.first ∧
        (Text.trimLeft line.text).head? = some '#' := by
  obtain ⟨line, joined, adds⟩ := exists_adds extracted
  rcases adds with defines | ⟨queue, declaration, _, declared⟩
  · obtain ⟨directive, reads, rfl⟩ := Option.map_eq_some_iff.mp defines
    refine ⟨line, joined, rfl, ?_⟩
    rw [← LineQueue.head?_trimLeft_tidy]
    exact Definition.head?_of_directive? (Option.isSome_of_eq_some reads)
  · have noMacro :=
      ((declare_spec _ _ queue declaration).2 definition declared).1
    exact absurd (isMacro.symm.trans noMacro) Bool.false_ne_true.symm

namespace LogicalLine

/-- What a line does not add to its logical line is blanks and a backslash. -/
theorem exists_part_append (line : Line) :
    ∃ ending, line.text = part line ++ ending ∧
      ∀ c ∈ ending, Text.isBlank c = true ∨ c = '\\' := by
  have gives := gives_part line
  generalize part line = kept at gives ⊢
  cases gives with
  | whole => exact ⟨[], by simp, by simp⟩
  | cut continued =>
      obtain ⟨blanks, shape, blank⟩ := continued
      refine ⟨'\\' :: blanks, shape, ?_⟩
      intro c member
      rcases List.mem_cons.mp member with rfl | among
      · exact .inr rfl
      · exact .inl (blank c among)

theorem head?_trimLeft_joinWith (part : Text) (parts : List Text) :
    (Text.trimLeft (Text.joinWith [' '] (part :: parts))).head? =
      (Text.trimLeft part).head?.or
        (Text.trimLeft (Text.joinWith [' '] parts)).head? := by
  cases parts with
  | nil => simp [Text.joinWith, Text.trimLeft]
  | cons next parts =>
      have shape : Text.joinWith [' '] (part :: next :: parts) =
          part ++ ([' '] ++ Text.joinWith [' '] (next :: parts)) := by
        simp [Text.joinWith, List.intercalate]
      rw [shape, Text.head?_trimLeft_append, Text.head?_trimLeft_append]
      rfl

/-- A logical line that begins with a hash has a physical line that does so, and
only blanks and backslashes in front of it. -/
theorem exists_opening
    {run : List Line}
    (starts : (Text.trimLeft (Text.joinWith [' '] (run.map part))).head? =
      some '#') :
    ∃ lead opening tail,
      run = lead ++ opening :: tail ∧
        (∀ line ∈ lead, ∀ c ∈ line.text, Text.isBlank c = true ∨ c = '\\') ∧
        (Text.trimLeft opening.text).head? = some '#' := by
  induction run with
  | nil => cases starts
  | cons line rest ih =>
      obtain ⟨ending, shape, dropped⟩ := exists_part_append line
      rw [List.map_cons, head?_trimLeft_joinWith] at starts
      cases first : (Text.trimLeft (part line)).head? with
      | none =>
          rw [first, Option.none_or] at starts
          obtain ⟨lead, opening, tail, rfl, blank, opens⟩ := ih starts
          refine ⟨line :: lead, opening, tail, rfl, ?_, opens⟩
          intro other member c inside
          rcases List.mem_cons.mp member with rfl | among
          · rw [shape] at inside
            rcases List.mem_append.mp inside with kept | lost
            · rw [Text.head?_trimLeft_eq, List.find?_eq_none] at first
              exact .inl (by simpa using first c kept)
            · exact dropped c lost
          · exact blank other among c inside
      | some c =>
          rw [first, Option.some_or] at starts
          refine ⟨[], line, rest, rfl, nofun, ?_⟩
          rw [shape, Text.head?_trimLeft_append, first, Option.some_or]
          exact starts

end LogicalLine

namespace Literal.Scan

theorem getLast?_of_run_escaped
    {text : Text} {quote : Char}
    (escapes : code.run text = escaped quote) :
    text.getLast? = some '\\' := by
  rcases List.eq_nil_or_concat text with rfl | ⟨front, c, rfl⟩
  · cases escapes
  · rw [List.concat_eq_append] at escapes ⊢
    rw [run, List.foldl_append, List.foldl_cons, List.foldl_nil] at escapes
    rw [List.getLast?_concat]
    cases state : front.foldl step code with
    | code =>
        rw [state, step] at escapes
        split at escapes
        next => cases escapes
        next => cases escapes
    | inside opened =>
        rw [state, step] at escapes
        split at escapes
        next backslash => rw [backslash]
        next =>
          split at escapes
          next => cases escapes
          next => cases escapes
    | escaped opened =>
        rw [state, step] at escapes
        cases escapes

theorem step_lineBreak
    {scan : Scan}
    (unescaped : ∀ quote, scan ≠ escaped quote)
    {c : Char}
    (breaks : Text.isLineBreak c = true) :
    scan.step c = code := by
  have plain : isQuote c = false ∧ c ≠ '\\' := by
    simp only [Text.isLineBreak, Bool.or_eq_true, beq_iff_eq] at breaks
    rcases breaks with rfl | rfl
    · decide
    · decide
  cases scan with
  | code => exact step_code_of_not_quote plain.1
  | inside quote => simp [step, plain.2, breaks]
  | escaped quote => exact absurd rfl (unescaped quote)

end Literal.Scan

namespace Line

open Literal (Scan)

theorem eq_feed_of_getLast?_render
    {lines : List Line}
    (ended : ∀ line ∈ lines, line.ending ≠ .textEnd) :
    ∀ c ∈ (render lines).getLast?, c = '\n' := by
  rcases List.eq_nil_or_concat lines with rfl | ⟨front, last, rfl⟩
  · nofun
  · rw [List.concat_eq_append] at ended ⊢
    rw [render_append, render_cons, ← List.append_assoc]
    have feeds := ended last (by simp)
    cases shape : last.ending with
    | textEnd => exact absurd shape feeds
    | feed => simp [render, LineEnd.text]
    | returnFeed => simp [render, LineEnd.text]

theorem getLast?_of_closed
    {text : Text}
    (closed : isContinued text = false) :
    text.getLast? ≠ some '\\' := by
  intro last
  have solid : Text.trimRight text = text := by
    simpa [Text.trimRight] using Text.trimRight_append last rfl []
  rw [isContinued, solid, last] at closed
  cases closed

/-- No literal reaches over the end of a line that is not continued. -/
theorem run_render_of_closed
    {lines : List Line}
    (ended : ∀ line ∈ lines, line.ending ≠ .textEnd)
    (closed : ∀ line ∈ lines.getLast?, isContinued line.text = false) :
    Scan.code.run (render lines) = .code := by
  rcases List.eq_nil_or_concat lines with rfl | ⟨front, last, rfl⟩
  · rfl
  · rw [List.concat_eq_append] at ended closed ⊢
    have closes : isContinued last.text = false := closed last (by simp)
    have feeds : last.ending ≠ .textEnd := ended last (by simp)
    have unescaped (quote : Char) : Scan.code.run (render front ++ last.text) ≠
        .escaped quote := by
      intro escapes
      have backslash := Scan.getLast?_of_run_escaped escapes
      rw [List.getLast?_append] at backslash
      cases final : last.text.getLast? with
      | none =>
          rw [final, Option.none_or] at backslash
          have feed := eq_feed_of_getLast?_render
            (fun line member => ended line (List.mem_append_left _ member)) _
            backslash
          cases feed
      | some c =>
          rw [final, Option.some_or] at backslash
          exact getLast?_of_closed closes (final.trans backslash)
    have shape : render (front ++ [last]) =
        (render front ++ last.text) ++ last.ending.text := by
      rw [render_append, render_cons]
      simp [render]
    rw [shape, Scan.run_append]
    cases ending : last.ending with
    | textEnd => exact absurd ending feeds
    | feed => exact Scan.step_lineBreak unescaped rfl
    | returnFeed =>
        change ((Scan.code.run _).step '\r').step '\n' = .code
        rw [Scan.step_lineBreak unescaped rfl]
        rfl

end Line

theorem Sheet.position_of_line
    {path : String} {text : Text} {earlier later : List Line} {line : Line}
    (split : Line.all (ofText path text).clean = earlier ++ line :: later)
    {inside more : Text}
    (shape : line.text = inside ++ more) :
    ((ofText path text).position
        ((Line.render earlier).length + inside.length)).1 =
      earlier.length + 1 := by
  have whole : (ofText path text).clean =
      (Line.render earlier ++ inside) ++
        (more ++ (line.ending.text ++ Line.render later)) := by
    rw [← Line.render_all (ofText path text).clean, split, Line.render_append,
      Line.render_cons, shape]
    simp
  have cut : Line.Cut (earlier ++ line :: later) := split ▸ Line.cut_all _
  have free : '\n' ∉ inside := by
    have member : line ∈ Line.all (ofText path text).clean := by simp [split]
    have feedless := Line.feed_not_mem_all member
    rw [shape] at feedless
    exact fun member => feedless (List.mem_append_left _ member)
  have starts : (ofText path text).lineStarts =
      lineStartsFrom 0 [0] (ofText path text).clean := rfl
  rw [whole] at starts
  rw [← List.length_append, position_eq starts, List.count_append,
    Line.count_render cut.of_append, List.count_eq_zero.mpr free, Nat.add_zero]

namespace LogicalLine.Joins

open Directive (isHidden shown shown_append)
open Line (carries)

variable {lines front run back inner rest : List Line} {line : LogicalLine}
  {physical : Line}

/-- Lines of a run are left as they are up to the first one that is blanked. -/
theorem exists_shown
    (joins : Joins lines front run back line)
    (split : run = inner ++ physical :: rest)
    (visible : ∀ line ∈ inner ++ [physical], isHidden line.text = false) :
    ∃ later, shown false lines =
      (shown false front ++ inner) ++ physical :: later := by
  have shape : lines = front ++ ((inner ++ [physical]) ++ (rest ++ back)) := by
    rw [joins.split, split]
    simp
  refine ⟨shown (carries isHidden false (inner ++ [physical])) (rest ++ back),
    ?_⟩
  rw [shape, shown_append, Line.carries_of_closed joins.before, shown_append,
    Directive.shown_eq_self visible]
  simp only [List.append_assoc, List.singleton_append]

theorem carries_inner
    (joins : Joins lines front run back line)
    (split : run = inner ++ physical :: rest)
    (begins : Text → Bool)
    {earlier : List Line}
    (closed : ∀ line ∈ earlier.getLast?, Line.isContinued line.text = false) :
    carries begins false (earlier ++ inner) = inner.any fun line =>
      begins line.text := by
  have continued : ∀ line ∈ inner, Line.isContinued line.text = true := by
    intro line member
    apply joins.inner
    rw [split, List.dropLast_append_of_ne_nil (List.cons_ne_nil _ _)]
    exact List.mem_append_left _ member
  rw [Line.carries_append, Line.carries_of_closed closed,
    Line.carries_of_continued continued, Bool.false_or]

end LogicalLine.Joins

namespace LogicalLine

/-- The first physical line of a logical line that is more than blanks and
backslashes is overlooked. -/
def IsOverlooked (lines : List Line) (line : LogicalLine) : Prop :=
  ∃ front opening back,
    lines = front ++ opening :: back ∧
      line.first ≤ front.length + 1 ∧
      front.length < line.last ∧
      (∀ earlier ∈ front.drop (line.first - 1), ∀ c ∈ earlier.text,
        Text.isBlank c = true ∨ c = '\\') ∧
      Sheet.IsOverlooked opening.text

theorem Joins.isOverlooked_iff
    {lines front run back : List Line} {line : LogicalLine}
    (joins : Joins lines front run back line) :
    line.IsOverlooked lines ↔
      ∃ lead opening tail,
        run = lead ++ opening :: tail ∧
          (∀ earlier ∈ lead, ∀ c ∈ earlier.text,
            Text.isBlank c = true ∨ c = '\\') ∧
          Sheet.IsOverlooked opening.text := by
  constructor
  · rintro ⟨before, opening, after, split, notBefore, notBehind,
      blank, overlooked⟩
    obtain ⟨lead, tail, rfl, shape⟩ :=
      joins.exists_inner split notBefore notBehind
    rw [joins.first, Nat.add_sub_cancel, List.drop_left] at blank
    exact ⟨lead, opening, tail, shape, blank, overlooked⟩
  · rintro ⟨lead, opening, tail, rfl, blank, overlooked⟩
    refine ⟨front ++ lead, opening, tail ++ back, ?_, ?_, ?_, ?_, overlooked⟩
    · rw [joins.split]
      simp
    · rw [joins.first, List.length_append]
      omega
    · rw [joins.last]
      simp only [List.length_append, List.length_cons]
      omega
    · rw [joins.first, Nat.add_sub_cancel, List.drop_left]
      exact blank

end LogicalLine

namespace Check

open Directive (DefineParts isHidden shown)
open Literal (Scan)
open LogicalLine (Joins)
open Sheet (isDefineLine)

variable {path : String} {text : Text} {word : Word}
  {front run back : List Line} {line : LogicalLine}

/-- A word in code stands on a line of the prepared text that belongs to no
definition. -/
theorem exists_line_of_mem_uses
    (used : word ∈ uses (Sheet.ofText path text)) :
    ∃ earlier displayed later,
      Line.all (Sheet.ofText path text).clean = earlier ++ displayed :: later ∧
        (∃ c ∈ displayed.text, Text.isWordChar c = true) ∧
        ((Sheet.ofText path text).position word.start).1 = earlier.length + 1 ∧
        (Line.carries isDefineLine false earlier ||
          isDefineLine displayed.text) = false := by
  obtain ⟨identifier, -, inCode⟩ := mem_inCode_iff.mp used
  obtain ⟨⟨before, shape, start⟩, letters, nonempty⟩ :=
    Word.stands_of_mem_identifiers identifier
  obtain ⟨c, others, spelled⟩ := List.exists_cons_of_ne_nil nonempty
  have letter : Text.isWordChar c = true := letters c (by simp [spelled])
  have visible : Text.isLineBreak c = false :=
    Text.isLineBreak_of_isWordChar letter
  have glued : Line.render (Line.all (Sheet.ofText path text).clean) =
      before ++ c :: (others ++ word.after) := by
    rw [Line.render_all, shape, spelled]
    rfl
  obtain ⟨earlier, displayed, later, inside, more, split, rfl, inLine⟩ :=
    Line.exists_of_render_eq glued visible
  have unmarked : Span.covered (Sheet.ofText path text).defines word.start =
      false := by
    simp only [Sheet.isCode, Bool.not_eq_true', Bool.or_eq_false_iff] at inCode
    exact inCode.1
  rw [start, List.length_append] at unmarked ⊢
  rw [Sheet.covered_defines split (by simp [inLine])] at unmarked
  exact ⟨earlier, displayed, later, split, ⟨c, by simp [inLine], letter⟩,
    Sheet.position_of_line split inLine, unmarked⟩

/-- If a word in code stands on a line of a run, neither this line nor one in
front of it in the run begins a directive that is blanked or marked. -/
theorem exists_physical_of_mem_uses
    (joins : Joins (Line.all (Comment.blank text)) front run back line)
    (used : word ∈ uses (Sheet.ofText path text))
    (notBefore : line.first ≤ ((Sheet.ofText path text).position word.start).1)
    (notBehind : ((Sheet.ofText path text).position word.start).1 ≤ line.last) :
    ∃ inner physical rest,
      run = inner ++ physical :: rest ∧
        (∀ line ∈ inner ++ [physical],
          isHidden line.text = false ∧ isDefineLine line.text = false) ∧
        ∃ c ∈ physical.text, Text.isWordChar c = true := by
  obtain ⟨earlier, displayed, later, split, ⟨c, inLine, letter⟩,
      place, unmarked⟩ :=
    exists_line_of_mem_uses used
  -- The same line before directives were blanked.
  have cleaned := (Directive.all_blank (Comment.blank text)).symm.trans split
  obtain ⟨_, physical, after, whole, rfl, same⟩ :=
    Directive.exists_of_shown_eq cleaned
  rw [place, Directive.length_shown] at notBefore notBehind
  obtain ⟨inner, rest, rfl, inRun⟩ :=
    joins.exists_inner whole notBefore notBehind
  have visible :
      (Line.carries isHidden false (front ++ inner) || isHidden physical.text) =
        false := by
    by_contra hides
    rw [Bool.not_eq_false] at hides
    rw [same, if_pos hides] at inLine
    rw [List.eq_of_mem_replicate inLine] at letter
    exact absurd letter (by decide)
  rw [visible] at same
  obtain rfl : displayed = physical := same
  rw [joins.carries_inner inRun isHidden joins.before, Bool.or_eq_false_iff,
    List.any_eq_false] at visible
  have openInner : shown false inner = inner :=
    Directive.shown_eq_self fun line member => by
      simpa using visible.1 line member
  rw [Directive.shown_append, Line.carries_of_closed joins.before, openInner,
    joins.carries_inner inRun isDefineLine
      (Directive.closed_shown joins.before false),
    Bool.or_eq_false_iff, List.any_eq_false] at unmarked
  refine ⟨inner, displayed, rest, inRun, ?_, c, inLine, letter⟩
  intro line member
  rcases List.mem_append.mp member with among | final
  · exact ⟨by simpa using visible.1 line among,
      by simpa using unmarked.1 line among⟩
  · rw [List.mem_singleton.mp final]
    exact ⟨visible.2, unmarked.2⟩

/-- A word in code stands on a line of a directive only if that is
overlooked. -/
theorem isOverlooked_of_mem_uses
    (joins : Joins (Line.all (Comment.blank text)) front run back line)
    (begins : (Text.trimLeft line.text).head? = some '#')
    (used : word ∈ uses (Sheet.ofText path text))
    (notBefore : line.first ≤ ((Sheet.ofText path text).position word.start).1)
    (notBehind : ((Sheet.ofText path text).position word.start).1 ≤ line.last) :
    line.IsOverlooked (Line.all (Comment.blank text)) := by
  obtain ⟨inner, physical, rest, inRun, seen, c, inLine, letter⟩ :=
    exists_physical_of_mem_uses joins used notBefore notBehind
  rw [joins.text] at begins
  obtain ⟨lead, opening, tail, opened, blank, hash⟩ :=
    LogicalLine.exists_opening begins
  have reached : opening ∈ inner ++ [physical] := by
    rcases List.append_eq_append_cons (opened.symm.trans inRun) with
      ⟨more, shape, _⟩ | ⟨more, shape, meets⟩
    · have inLead : physical ∈ lead := by simp [shape]
      rcases blank physical inLead c inLine with space | rfl
      · rw [Text.isBlank_of_isWordChar letter] at space
        cases space
      · exact absurd letter (by decide)
    · cases more with
      | nil =>
          obtain ⟨rfl, _⟩ := List.cons.inj meets
          simp
      | cons first more =>
          obtain ⟨rfl, _⟩ := List.cons.inj meets
          simp [shape]
  obtain ⟨visible, unmarked⟩ := seen opening reached
  refine joins.isOverlooked_iff.mpr ⟨lead, opening, tail, opened, blank, ?_⟩
  refine Sheet.isOverlooked_iff.mpr ⟨?_, unmarked⟩
  simpa [isHidden, hash] using visible

theorem seen_of_not_mem_hash
    {text : Text}
    (absent : '#' ∉ text) :
    isHidden text = false ∧ isDefineLine text = false := by
  have unopened {skip : Char → Bool} :
      (text.dropWhile skip).head? ≠ some '#' := by
    intro hash
    exact absent (List.dropWhile_subset _ (List.mem_of_head? hash))
  constructor
  · rw [isHidden, Text.trimLeft, beq_eq_false_iff_ne.mpr unopened,
      Bool.false_and]
  · unfold isDefineLine Directive.isDefine
    simp only
    split
    next rest shape => exact absurd (congrArg List.head? shape) unopened
    next => rfl

theorem isQuote_of_blank_or_backslash
    {c : Char}
    (either : Text.isBlank c = true ∨ c = '\\') :
    Literal.isQuote c = false := by
  rcases either with blank | rfl
  · exact Text.isQuote_of_isBlank blank
  · rfl

/-- A line that is cut off does not go on behind its end. -/
theorem beginsApart_behind
    {earlier later : List Line} {line : Line}
    (cut : Line.Cut (earlier ++ line :: later))
    {rest : Text}
    (begins : Text.BeginsApart rest) :
    Text.BeginsApart (rest ++ (line.ending.text ++ Line.render later)) := by
  cases rest with
  | cons c rest => exact begins
  | nil =>
      rw [List.nil_append]
      cases ending : line.ending with
      | textEnd =>
          cases later with
          | nil => nofun
          | cons next later =>
              rw [List.append_cons] at cut
              exact absurd ending (cut.of_append line (by simp)).2
      | feed =>
          rintro c ⟨⟩
          decide
      | returnFeed =>
          rintro c ⟨⟩
          decide

/-- Where an overlooked line begins, no literal is open. -/
theorem run_render_lead
    {earlier lead later : List Line} {opening : Line}
    (cut : Line.Cut (earlier ++ lead ++ opening :: later))
    (closed : ∀ line ∈ earlier.getLast?, Line.isContinued line.text = false)
    (blank : ∀ line ∈ lead, ∀ c ∈ line.text, Text.isBlank c = true ∨ c = '\\') :
    Scan.code.run (Line.render (earlier ++ lead)) = .code := by
  have ended : ∀ line ∈ earlier, line.ending ≠ .textEnd :=
    fun line member => (cut.of_append line (List.mem_append_left _ member)).2
  rw [Line.render_append, Scan.run_append,
    Line.run_render_of_closed ended closed]
  apply Scan.run_code_of_not_quote
  intro c member
  obtain ⟨line, listed, inside⟩ := List.mem_flatMap.mp member
  rcases List.mem_append.mp inside with inText | inEnding
  · exact isQuote_of_blank_or_backslash (blank line listed c inText)
  · apply isQuote_of_blank_or_backslash
    have breaks := Line.isLineBreak_of_mem_ending inEnding
    simp only [Text.isLineBreak, Bool.or_eq_true, beq_iff_eq] at breaks
    rcases breaks with rfl | rfl
    · exact .inl rfl
    · exact .inl rfl

/-- The keyword of a definition stands in code if its line is not marked and
begins in code. -/
theorem exists_keyword_mem_uses
    {earlier later : List Line} {opening : Line}
    (split : Line.all (Sheet.ofText path text).clean =
      earlier ++ opening :: later)
    {before between rest : Text}
    (parts : DefineParts opening.text before between rest)
    (blanks : ∀ c ∈ before ++ between, Text.isBlank c = true)
    (unquoted : Scan.code.run (Line.render earlier) = .code)
    (unmarked :
      (Line.carries isDefineLine false earlier || isDefineLine opening.text) =
        false) :
    ∃ word ∈ uses (Sheet.ofText path text),
      word.spelling = "define".toList ∧
        ((Sheet.ofText path text).position word.start).1 =
          earlier.length + 1 := by
  have cut : Line.Cut (earlier ++ opening :: later) :=
    split ▸ Line.cut_all (Sheet.ofText path text).clean
  have inLine : opening.text =
      (before ++ '#' :: between) ++ ("define".toList ++ rest) := by
    rw [parts.shape]
    simp
  have whole : (Sheet.ofText path text).clean =
      (Line.render earlier ++ (before ++ '#' :: between)) ++
        ("define".toList ++
          (rest ++ (opening.ending.text ++ Line.render later))) := by
    rw [← Line.render_all (Sheet.ofText path text).clean, split,
      Line.render_append, Line.render_cons, inLine]
    simp only [List.append_assoc]
  have quiet : ∀ c ∈ before ++ '#' :: between,
      Text.isBlank c = true ∨ c = '#' := by
    intro c member
    rw [List.mem_append, List.mem_cons] at member
    rcases member with left | hash | right
    · exact .inl (blanks c (List.mem_append_left _ left))
    · exact .inr hash
    · exact .inl (blanks c (List.mem_append_right _ right))
  have ends :
      Text.EndsApart (Line.render earlier ++ (before ++ '#' :: between)) := by
    intro c last
    rw [List.getLast?_append_of_ne_nil _ (by simp)] at last
    rcases quiet c (List.mem_of_getLast? last) with space | rfl
    · by_contra letter
      rw [Bool.not_eq_false] at letter
      rw [Text.isBlank_of_isWordChar letter] at space
      cases space
    · decide
  have keyword : Text.isIdentifier "define".toList = true := by decide
  obtain ⟨word, listed, start, spelled⟩ :=
    Word.exists_of_apart ends keyword (beginsApart_behind cut parts.apart)
  rw [← whole] at listed
  have covered : Span.covered (Sheet.ofText path text).defines word.start =
      false := by
    rw [start, List.length_append,
      Sheet.covered_defines split (by simp [inLine])]
    exact unmarked
  have outside : Span.covered (Sheet.ofText path text).literals word.start =
      false := by
    have literals : (Sheet.ofText path text).literals =
        Literal.spans (Sheet.ofText path text).clean := rfl
    have noQuote : ∀ c ∈ before ++ '#' :: between,
        Literal.isQuote c = false := by
      intro c member
      rcases quiet c member with space | rfl
      · exact isQuote_of_blank_or_backslash (.inl space)
      · rfl
    rw [literals, whole, start, Directive.define_append, Literal.covered_spans,
      Scan.run_append, unquoted, Scan.run_code_of_not_quote noQuote]
    rfl
  have place := Sheet.position_of_line split inLine
  rw [← List.length_append, ← start] at place
  refine ⟨word, mem_inCode_iff.mpr ⟨listed, ?_, ?_⟩, spelled, place⟩
  · rw [spelled]
    decide
  · rw [Sheet.isCode, covered, outside]
    rfl

/-- On the lines of an overlooked definition some word stands in code. -/
theorem exists_mem_uses_of_isOverlooked
    (joins : Joins (Line.all (Comment.blank text)) front run back line)
    (overlooked : line.IsOverlooked (Line.all (Comment.blank text)))
    (path : String) :
    ∃ word ∈ uses (Sheet.ofText path text),
      line.first ≤ ((Sheet.ofText path text).position word.start).1 ∧
        ((Sheet.ofText path text).position word.start).1 ≤ line.last := by
  obtain ⟨lead, opening, tail, inRun, blank, overlooks⟩ :=
    joins.isOverlooked_iff.mp overlooked
  obtain ⟨defines, undefined⟩ := Sheet.isOverlooked_iff.mp overlooks
  obtain ⟨before, between, rest, parts, blanks, -⟩ := overlooks
  have seenLead : ∀ line ∈ lead, isHidden line.text = false ∧
      isDefineLine line.text = false := by
    intro line member
    apply seen_of_not_mem_hash
    intro hash
    exact absurd (blank line member _ hash) (by decide)
  have visible : ∀ line ∈ lead ++ [opening], isHidden line.text = false := by
    intro line member
    rcases List.mem_append.mp member with inLead | final
    · exact (seenLead line inLead).1
    · rw [List.mem_singleton.mp final, isHidden, defines, Bool.not_true,
        Bool.and_false]
  obtain ⟨later, cleaned⟩ := joins.exists_shown inRun visible
  have split : Line.all (Sheet.ofText path text).clean = _ :=
    (Directive.all_blank (Comment.blank text)).trans cleaned
  have closed := Directive.closed_shown joins.before false
  have unquoted := run_render_lead (split ▸ Line.cut_all _) closed blank
  have unmarked :
      (Line.carries isDefineLine false (shown false front ++ lead) ||
        isDefineLine opening.text) = false := by
    rw [joins.carries_inner inRun isDefineLine closed, undefined, Bool.or_false,
      List.any_eq_false]
    exact fun line member => by simp [(seenLead line member).2]
  obtain ⟨word, used, -, place⟩ :=
    exists_keyword_mem_uses split parts blanks unquoted unmarked
  rw [List.length_append, Directive.length_shown] at place
  refine ⟨word, used, ?_, ?_⟩
  · rw [place, joins.first]
    omega
  · rw [place, joins.last, inRun, List.length_append, List.length_cons]
    omega

/-- The logical line at which a macro is recorded begins with a hash. -/
theorem head?_of_extracted
    {detectTypes : Bool} {definition : Definition}
    (joins : Joins (Line.all (Comment.blank text)) front run back line)
    (extracted : definition ∈
      (Extraction.ofText path detectTypes text).definitions)
    (isMacro : definition.isMacro = true)
    (starts : definition.line = line.first) :
    (Text.trimLeft line.text).head? = some '#' := by
  obtain ⟨defining, among, place, hash⟩ :=
    Extraction.exists_line_of_mem extracted isMacro
  obtain ⟨front', run', back', joins'⟩ := LogicalLine.exists_joins among
  have same : line.first = defining.first := by
    rw [starts] at place
    exact_mod_cast place
  obtain ⟨rfl, rfl⟩ := joins.unique joins' same
  rw [joins.text, ← joins'.text]
  exact hash

/-- On the lines of a definition there are diagnostics about uses only if the
definition is overlooked, and there are words in code exactly then. -/
theorem isOverlooked_of_diagnostic
    {detectTypes : Bool} {definition : Definition}
    (joined : line ∈ LogicalLine.all path (Comment.blank text))
    (extracted : definition ∈
      (Extraction.ofText path detectTypes text).definitions)
    (isMacro : definition.isMacro = true)
    (starts : definition.line = line.first) :
    (∀ lookup settings diagnostics,
        (ofText lookup settings path text).diagnostics = .ok diagnostics →
        ∀ diagnostic ∈ diagnostics,
          diagnostic.code ≠ .unbalancedParentheses →
          line.first ≤ diagnostic.line →
          diagnostic.line ≤ line.last →
          line.IsOverlooked (Line.all (Comment.blank text))) ∧
      (line.IsOverlooked (Line.all (Comment.blank text)) ↔
        ∃ word ∈ uses (Sheet.ofText path text),
          line.first ≤ ((Sheet.ofText path text).position word.start).1 ∧
            ((Sheet.ofText path text).position word.start).1 ≤ line.last) := by
  obtain ⟨front, run, back, joins⟩ := LogicalLine.exists_joins joined
  have begins := head?_of_extracted joins extracted isMacro starts
  have overlooked {word : Word} (used : word ∈ uses (Sheet.ofText path text))
      (notBefore : line.first ≤
        ((Sheet.ofText path text).position word.start).1)
      (notBehind : ((Sheet.ofText path text).position word.start).1 ≤
        line.last) :
      line.IsOverlooked (Line.all (Comment.blank text)) :=
    isOverlooked_of_mem_uses joins begins used notBefore notBehind
  refine ⟨?_, ?_, ?_⟩
  · intro lookup settings diagnostics checked diagnostic member ofUse
      notBefore notBehind
    unfold ofText at checked
    split at checked
    next =>
      cases checked
      cases member
    next =>
      obtain ⟨word, used, about⟩ := exists_about checked member ofUse
      have place : diagnostic.line =
          ((Sheet.ofText path text).position word.start).1 := by
        rw [about.reported]
        rfl
      rw [place] at notBefore notBehind
      exact overlooked used notBefore notBehind
  · intro overlooks
    exact exists_mem_uses_of_isOverlooked joins overlooks path
  · rintro ⟨word, used, notBefore, notBehind⟩
    exact overlooked used notBefore notBehind

def tabbedText : Text :=
  "LOST;\n \\\n\t# define FOO(a) \\\n a + LOST".toList

def tabbedLine : LogicalLine :=
  ⟨"  \t# define FOO(a)   a + LOST".toList, 2, 4, []⟩

def tabbedMacro : Definition :=
  ⟨"FOO".toList, some ["a".toList], "a + LOST".toList, "main.c", 2, true⟩

theorem isOverlooked_of_diagnostic_tabbed :
    tabbedLine ∈ LogicalLine.all "main.c" (Comment.blank tabbedText) ∧
      tabbedMacro ∈ (Extraction.ofText "main.c" true tabbedText).definitions ∧
      tabbedMacro.isMacro = true ∧
      tabbedMacro.line = tabbedLine.first ∧
      ∀ lookup settings diagnostics,
        (ofText lookup settings "main.c" tabbedText).diagnostics =
          .ok diagnostics →
        ∀ diagnostic ∈ diagnostics,
          diagnostic.code ≠ .unbalancedParentheses →
          ¬ (tabbedLine.first ≤ diagnostic.line ∧
            diagnostic.line ≤ tabbedLine.last) := by
  have joined : tabbedLine ∈
      LogicalLine.all "main.c" (Comment.blank tabbedText) := by
    decide +kernel
  have extracted : tabbedMacro ∈
      (Extraction.ofText "main.c" true tabbedText).definitions := by
    decide +kernel
  have unused : ¬ ∃ word ∈ uses (Sheet.ofText "main.c" tabbedText),
      tabbedLine.first ≤
        ((Sheet.ofText "main.c" tabbedText).position word.start).1 ∧
        ((Sheet.ofText "main.c" tabbedText).position word.start).1 ≤
          tabbedLine.last := by
    decide +kernel
  obtain ⟨overlooked, exactly⟩ :=
    isOverlooked_of_diagnostic joined extracted rfl rfl
  refine ⟨joined, extracted, rfl, rfl, ?_⟩
  intro lookup settings diagnostics checked diagnostic member ofUse inside
  exact unused (exactly.mp
    (overlooked lookup settings diagnostics checked diagnostic member ofUse
      inside.1 inside.2))

def formFeedText : Text :=
  "\x0c#define FOO BAR_X".toList

def formFeedLine : LogicalLine :=
  ⟨formFeedText, 1, 1, []⟩

def formFeedMacro : Definition :=
  ⟨"FOO".toList, none, "BAR_X".toList, "main.c", 1, true⟩

/-- The name and the body of a definition behind a form feed are reported. -/
theorem diagnostic_formFeed :
    formFeedLine ∈ LogicalLine.all "main.c" (Comment.blank formFeedText) ∧
      formFeedMacro ∈
        (Extraction.ofText "main.c" true formFeedText).definitions ∧
      formFeedMacro.isMacro = true ∧
      formFeedMacro.line = formFeedLine.first ∧
      ∃ diagnostics,
        (ofText noMacros.lookup .default "main.c" formFeedText).diagnostics =
          .ok diagnostics ∧
          ⟨"main.c", 1, 10, 3, .undefinedMacro, "Undefined macro 'FOO'"⟩ ∈
            diagnostics ∧
          ⟨"main.c", 1, 14, 5, .undefinedMacro, "Undefined macro 'BAR_X'"⟩ ∈
            diagnostics := by
  have resolved :
      (resolve noMacros.lookup .default
        (.ofText "main.c" formFeedText) [] ⟨[], []⟩
        (concerns noMacros.lookup (.ofText "main.c" formFeedText))).1 =
          .ok [⟨"main.c", 1, 10, 3, .undefinedMacro, "Undefined macro 'FOO'"⟩,
            ⟨"main.c", 1, 14, 5, .undefinedMacro,
              "Undefined macro 'BAR_X'"⟩] := by
    decide +kernel
  have checked := diagnostics_ofSheet resolved
  rw [← ofText_of_le (by decide)] at checked
  refine ⟨by decide +kernel, by decide +kernel, rfl, rfl, _, checked, ?_, ?_⟩
  · simp only [List.mem_mergeSort, List.mem_append, List.mem_cons,
      true_or, or_true]
  · simp only [List.mem_mergeSort, List.mem_append, List.mem_cons,
      true_or, or_true]

end Check

end MacroTrace
