import MacroTrace.Proofs.Detection
import MacroTrace.Proofs.Separation

/-!
# Enumerations

The constants of an enumeration are the names in front of the commas and
equality signs between its braces.  The commas inside the parentheses of an
initialiser are not told apart from those between two enumerators, so a name
that stands alone between such commas becomes a constant as well.
-/

namespace MacroTrace

namespace TypeName

/-- The constant that a part of the text between the braces declares. -/
def constant? (part : Text) : Option Text :=
  let name := Text.trim (part.takeWhile (· ≠ '='))
  if Text.isMacroName name then some name else none

theorem enumConstants_of_body
    {text body : Text}
    (between : enumBody? text = some body) :
    enumConstants text = (List.splitOn ',' body).filterMap constant? := by
  rw [enumConstants, between]
  simp only [Text.splitOn_eq]
  generalize List.splitOn ',' body = parts
  induction parts with
  | nil => rfl
  | cons part parts ih =>
      rw [List.map_cons, List.filter_cons, List.filterMap_cons, ih, constant?]
      split
      · rfl
      · rfl

/-- Merging blanks does not change what is declared. -/
theorem constant?_squeeze
    {merged : Char → Bool}
    (blank : ∀ c, merged c = true → Text.isBlank c = true)
    (part : Text) :
    constant? (Text.squeeze merged part) = constant? part := by
  rw [constant?, constant?, Text.takeWhile_squeeze blank rfl,
    Text.trim_squeeze blank]
  generalize Text.trim _ = name
  have unnamed {text : Text} {c : Char} (member : c ∈ text)
      (hidden : Text.isBlank c = true) :
      ¬ Text.isMacroName text = true := by
    intro named
    have letter := Text.isWordChar_of_isMacroName named c member
    rw [Text.isWordChar_of_isBlank hidden] at letter
    cases letter
  by_cases solid : ∀ c ∈ name, merged c = false
  · rw [Text.squeeze_of_solid solid]
  · obtain ⟨c, member, merges⟩ : ∃ c ∈ name, merged c = true := by
      simpa using solid
    simp only [if_neg (unnamed member (blank c merges)),
      if_neg (unnamed (Text.space_mem_squeeze member merges) rfl)]

/-- A name between blanks is declared, also with an initialiser. -/
theorem constant?_append
    {lead name trail rest : Text}
    (blankLead : ∀ c ∈ lead, Text.isBlank c = true)
    (letters : ∀ c ∈ name, Text.isWordChar c = true)
    (blankTrail : ∀ c ∈ trail, Text.isBlank c = true)
    (ends : ∀ c, rest.head? = some c → c = '=') :
    constant? (lead ++ (name ++ (trail ++ rest))) =
      if Text.isMacroName name then some name else none := by
  have absent :=
    Text.not_mem_padded blankLead letters blankTrail (c := '=') rfl rfl
  have stops : rest.takeWhile (· ≠ '=') = [] := by
    cases rest with
    | nil => rfl
    | cons c rest =>
        apply List.takeWhile_cons_of_neg
        simp [ends c rfl]
  have whole : lead ++ (name ++ (trail ++ rest)) =
      (lead ++ (name ++ trail)) ++ rest := by simp
  have front : (lead ++ (name ++ (trail ++ rest))).takeWhile (· ≠ '=') =
      lead ++ (name ++ trail) := by
    rw [whole, List.takeWhile_append_of_not_mem absent, stops, List.append_nil]
  rw [constant?]
  simp only [front,
    Text.trim_of_trimmed blankLead blankTrail (Text.trimmed_of_letters letters)]

theorem exists_of_constant?
    {part name : Text}
    (declares : constant? part = some name) :
    Text.isMacroName name = true ∧ ∃ lead trail rest,
      part = lead ++ (name ++ (trail ++ rest)) ∧
        (∀ c ∈ lead, Text.isBlank c = true) ∧
        (∀ c ∈ trail, Text.isBlank c = true) ∧
        ∀ c, rest.head? = some c → c = '=' := by
  obtain ⟨named, trimmed⟩ := Option.ite_none_right_eq_some.mp declares
  cases trimmed
  obtain ⟨trail, blankTrail, shape⟩ :=
    Text.exists_trim_append (part.takeWhile (· ≠ '='))
  refine ⟨named, (part.takeWhile (· ≠ '=')).takeWhile Text.isBlank, trail,
    part.dropWhile (· ≠ '='), ?_, fun _ member => List.mem_takeWhile_imp member,
    Text.isAllBlank_iff.mp blankTrail, ?_⟩
  · calc part = part.takeWhile (· ≠ '=') ++ part.dropWhile (· ≠ '=') :=
          List.takeWhile_append_dropWhile.symm
      _ = _ := by
          conv_lhs => rw [shape]
          simp only [List.append_assoc]
  · intro c first
    have stops := List.head?_dropWhile_not (· ≠ '=') part
    rw [first] at stops
    simpa using stops

theorem enumBody?_append
    {front body : Text}
    (outside : '\x7b' ∉ front)
    (closes : '\x7d' ∉ front ++ body)
    (behind : Text) :
    enumBody? (front ++ '\x7b' :: (body ++ '\x7d' :: behind)) = some body := by
  rw [List.mem_append, not_or] at closes
  have beforeOpening : ∀ c ∈ front, decide (c ≠ '\x7b') = true := by
    rintro c member
    exact decide_eq_true fun same => outside (same ▸ member)
  have beforeClosing : ∀ c ∈ front ++ '\x7b' :: body,
      decide (c ≠ '\x7d') = true := by
    intro c member
    apply decide_eq_true
    rintro rfl
    rcases List.mem_append.mp member with inFront | inBody
    · exact closes.1 inFront
    · rcases List.mem_cons.mp inBody with brace | inBody
      · exact absurd brace (by decide)
      · exact closes.2 inBody
  have whole : front ++ '\x7b' :: (body ++ '\x7d' :: behind) =
      (front ++ '\x7b' :: body) ++ '\x7d' :: behind := by simp
  have upToBrace :
      (front ++ '\x7b' :: (body ++ '\x7d' :: behind)).takeWhile (· ≠ '\x7d') =
        front ++ '\x7b' :: body := by
    rw [whole, List.takeWhile_append_of_pos beforeClosing,
      List.takeWhile_cons_of_neg (by simp), List.append_nil]
  have fromBrace : (front ++ '\x7b' :: body).dropWhile (· ≠ '\x7b') =
      '\x7b' :: body := by
    rw [List.dropWhile_append_of_pos beforeOpening,
      List.dropWhile_cons_of_neg (by simp)]
  rw [enumBody?, if_pos (by simp)]
  simp only [upToBrace, fromBrace, List.drop_succ_cons, List.drop_zero]

/-- An expression that may stand behind an equality sign: its commas are inside
parentheses. -/
structure IsInitialiser (value : Text) : Prop where
  plain : ∀ c ∈ value, c ≠ '\x7b' ∧ c ≠ '\x7d' ∧ Literal.isQuote c = false
  balanced : Nesting.isBalanced value = true
  commas : value.CommasEnclosed

instance (value : Text) : Decidable (IsInitialiser value) :=
  decidable_of_iff
    ((value.all fun c => c ≠ '\x7b' && c ≠ '\x7d' && !Literal.isQuote c) =
      true ∧
      Nesting.isBalanced value = true ∧ value.CommasEnclosed) <| by
    constructor
    · rintro ⟨plain, balanced, commas⟩
      refine ⟨?_, balanced, commas⟩
      intro c member
      simpa [and_assoc] using List.all_eq_true.mp plain c member
    · rintro ⟨plain, balanced, commas⟩
      refine ⟨List.all_eq_true.mpr ?_, balanced, commas⟩
      intro c member
      simpa [and_assoc] using plain c member

/-- There are no literals in an initialiser, so parentheses enclose its
commas. -/
theorem IsInitialiser.depth_pos
    {value front rest : Text}
    (initialiser : IsInitialiser value)
    (shape : value = front ++ ',' :: rest) :
    0 < (Nesting.depths value)[front.length]?.getD 0 := by
  have inCode : Literal.Scan.code.run front = .code := by
    apply Literal.Scan.run_code_of_not_quote
    intro c member
    exact (initialiser.plain c (by simp [shape, member])).2.2
  have enclosed :=
    Text.CommasEnclosed.iff_forall_append.mp initialiser.commas front rest shape
  rw [inCode] at enclosed
  rw [shape, Nesting.depths_getElem?, Option.getD_some]
  exact enclosed.resolve_left (by decide)

/-- A name, and possibly an initialiser. -/
structure Enumerator where
  lead : Text
  name : Text
  trail : Text
  value? : Option Text
  blankLead : ∀ c ∈ lead, Text.isBlank c = true
  blankTrail : ∀ c ∈ trail, Text.isBlank c = true
  named : Text.isIdentifier name = true
  initialises : ∀ value ∈ value?, IsInitialiser value

namespace Enumerator

def written (enumerator : Enumerator) : Text :=
  enumerator.lead ++ (enumerator.name ++ (enumerator.trail ++
    enumerator.value?.elim [] ('=' :: ·)))

/-- The constants found behind the commas of the initialiser. -/
def strays (enumerator : Enumerator) : List Text :=
  (List.splitOn ',' (enumerator.value?.getD [])).tail.filterMap constant?

/-- The constants found in an enumerator. -/
def constants (enumerator : Enumerator) : List Text :=
  [enumerator.name].filter Text.isMacroName ++ enumerator.strays

/-- The name stands alone behind a comma inside the parentheses of the
initialiser. -/
def Strays (enumerator : Enumerator) (name : Text) : Prop :=
  ∃ value front lead trail back,
    enumerator.value? = some value ∧
      value = front ++ ',' :: (lead ++ (name ++ (trail ++ back))) ∧
      0 < (Nesting.depths value)[front.length]?.getD 0 ∧
      (∀ c ∈ lead, Text.isBlank c = true) ∧
      (∀ c ∈ trail, Text.isBlank c = true) ∧
      ∀ c, back.head? = some c → c = ',' ∨ c = '='

variable (enumerator : Enumerator)

theorem letters : ∀ c ∈ enumerator.name, Text.isWordChar c = true :=
  Text.isWordChar_of_isIdentifier enumerator.named

theorem written_eq :
    enumerator.written =
      enumerator.lead ++ (enumerator.name ++ enumerator.trail) ++
        enumerator.value?.elim [] ('=' :: ·) := by
  rw [written]
  simp only [List.append_assoc]

/-- The parts of an enumerator declare its name and what is found in its
initialiser. -/
theorem filterMap_splitOn_written :
    (List.splitOn ',' enumerator.written).filterMap constant? =
      enumerator.constants := by
  have absent := Text.not_mem_padded enumerator.blankLead enumerator.letters
    enumerator.blankTrail (c := ',') rfl rfl
  have own {rest : Text} (ends : ∀ c, rest.head? = some c → c = '=')
      (others : List Text) :
        ((enumerator.lead ++ (enumerator.name ++ enumerator.trail) ++ rest) ::
            others).filterMap constant? =
          [enumerator.name].filter Text.isMacroName ++
            others.filterMap constant? := by
    have declared := constant?_append enumerator.blankLead enumerator.letters
      enumerator.blankTrail ends
    rw [List.filterMap_cons, List.append_assoc, List.append_assoc, declared]
    cases named : Text.isMacroName enumerator.name with
    | true => simp [named]
    | false => simp [named]
  rw [written_eq, List.splitOn_append_of_not_mem absent, constants, strays]
  cases enumerator.value? with
  | none => exact own (by simp) []
  | some value =>
      have mark : ',' ∉ ['='] := by decide
      have cut := List.splitOn_append_of_not_mem mark value
      rw [List.singleton_append] at cut
      rw [Option.elim_some, Option.getD_some, cut]
      cases parts : List.splitOn ',' value with
      | nil => exact absurd parts (List.splitOn_ne_nil _ _)
      | cons first others =>
          apply own
          rintro c ⟨⟩
          rfl

theorem mem_strays_iff
    {name : Text} :
    name ∈ enumerator.strays ↔ Text.isMacroName name = true ∧
      enumerator.Strays name := by
  rw [strays]
  cases given : enumerator.value? with
  | none =>
      constructor
      · intro member
        cases member
      · rintro ⟨-, value, _, _, _, _, none, _⟩
        rw [given] at none
        cases none
  | some value =>
      rw [Option.getD_some, List.mem_filterMap]
      constructor
      · rintro ⟨part, member, declares⟩
        obtain ⟨front, back, shape, ends⟩ :=
          List.exists_of_mem_tail_splitOn member
        obtain ⟨named, lead, trail, rest, rfl, blankLead,
            blankTrail, endsRest⟩ :=
          exists_of_constant? declares
        have deep := (enumerator.initialises value given).depth_pos shape
        refine ⟨named, value, front, lead, trail, rest ++ back, given, ?_,
          deep, blankLead, blankTrail, ?_⟩
        · rw [shape]
          simp only [List.append_assoc]
        · intro c first
          cases rest with
          | nil => exact .inl (ends c first)
          | cons d rest => exact .inr (endsRest c first)
      · rintro ⟨named, _, front, lead, trail, back, same, shape, -, blankLead,
          blankTrail, ends⟩
        obtain rfl := Option.some.inj (given.symm.trans same)
        have letters := Text.isWordChar_of_isMacroName named
        have absent :=
          Text.not_mem_padded blankLead letters blankTrail (c := ',') rfl rfl
        have endsPart : ∀ c, (back.takeWhile (· ≠ ',')).head? =
            some c → c = '=' := by
          intro c first
          cases back with
          | nil => cases first
          | cons d back =>
              rw [List.head?_takeWhile, List.head?_cons,
                Option.filter_eq_some_iff] at first
              obtain ⟨⟨⟩, notComma⟩ := first
              exact (ends c rfl).resolve_left (of_decide_eq_true notComma)
        have whole : lead ++ (name ++ (trail ++ back)) =
            (lead ++ (name ++ trail)) ++ back := by
          simp
        have first := Text.head?_splitOn ',' (lead ++ (name ++ (trail ++ back)))
        rw [whole, List.takeWhile_append_of_not_mem absent, ← whole] at first
        refine ⟨lead ++ (name ++ trail) ++ back.takeWhile (· ≠ ','), ?_, ?_⟩
        · rw [shape, List.splitOn_append_cons_self,
            List.tail_append_of_ne_nil (List.splitOn_ne_nil _ _)]
          exact List.mem_append_right _ (List.mem_of_mem_head? first)
        · rw [List.append_assoc, List.append_assoc,
            constant?_append blankLead letters blankTrail endsPart,
            if_pos named]

theorem brace_not_mem_written : '\x7d' ∉ enumerator.written := by
  have absent := Text.not_mem_padded enumerator.blankLead enumerator.letters
    enumerator.blankTrail (c := '\x7d') rfl rfl
  rw [written_eq, List.mem_append, not_or]
  refine ⟨absent, ?_⟩
  cases given : enumerator.value? with
  | none => exact List.not_mem_nil
  | some value =>
      rw [Option.elim_some, List.mem_cons, not_or]
      refine ⟨by decide, fun member => ?_⟩
      exact ((enumerator.initialises value given).plain _ member).2.1 rfl

end Enumerator

/-- An enumeration, with or without a tag, and what follows it on its line. -/
structure Enumeration where
  lead : Text
  gap : Text
  tag : Option Text
  opening : Text
  enumerators : List Enumerator
  behind : Text
  blankLead : ∀ c ∈ lead, Text.isBlank c = true
  blankGap : ∀ c ∈ gap, Text.isBlank c = true
  blankOpening : ∀ c ∈ opening, Text.isBlank c = true
  tagged : ∀ name ∈ tag, gap ≠ [] ∧ Text.isIdentifier name = true

namespace Enumeration

def body (enumeration : Enumeration) : Text :=
  Text.joinWith [','] (enumeration.enumerators.map Enumerator.written)

def written (enumeration : Enumeration) : Text :=
  enumeration.lead ++
    ("enum".toList ++ (enumeration.gap ++ (enumeration.tag.getD [] ++
      (enumeration.opening ++ '\x7b' ::
        (enumeration.body ++ '\x7d' :: enumeration.behind)))))

/-- The enumerators that look like macros. -/
def names (enumeration : Enumeration) : List Text :=
  (enumeration.enumerators.map Enumerator.name).filter Text.isMacroName

/-- Only an enumeration without a tag, or with one that looks like a macro, is
recognised. -/
def IsRecognised (enumeration : Enumeration) : Prop :=
  ∀ name ∈ enumeration.tag, Text.isMacroName name = true

instance (enumeration : Enumeration) : Decidable enumeration.IsRecognised :=
  inferInstanceAs
    (Decidable (∀ name ∈ enumeration.tag, Text.isMacroName name = true))

/-- The constants found between the braces. -/
def constants (enumeration : Enumeration) : List Text :=
  enumeration.enumerators.flatMap Enumerator.constants

/-- What an enumeration declares: its tag and its enumerators, as far as they
look like macros. -/
def declared (path : String) (line : Int) (enumeration : Enumeration) :
    List Definition :=
  (enumeration.tag.filter Text.isMacroName).toList.map
    (record path line "enum") ++
    enumeration.names.map (record path line "enum constant")

/-- What is recorded about an enumeration. -/
def records (path : String) (line : Int) (enumeration : Enumeration) :
    List Definition :=
  if enumeration.IsRecognised then
    enumeration.tag.toList.map (record path line "enum") ++
      enumeration.constants.map (record path line "enum constant")
  else []

variable (enumeration : Enumeration)

theorem filterMap_splitOn_body :
    (List.splitOn ',' enumeration.body).filterMap constant? =
      enumeration.constants := by
  rw [body, Text.joinWith, constants]
  induction enumeration.enumerators with
  | nil => rfl
  | cons enumerator enumerators ih =>
      rw [List.flatMap_cons, ← ih, ← enumerator.filterMap_splitOn_written,
        List.map_cons]
      cases enumerators with
      | nil =>
          rw [List.map_nil, List.intercalate_singleton]
          exact (List.append_nil _).symm
      | cons other enumerators =>
          rw [List.map_cons, List.intercalate_cons_cons, List.append_assoc,
            List.singleton_append, List.splitOn_append_cons_self,
            List.filterMap_append]

theorem brace_not_mem_body : '\x7d' ∉ enumeration.body := by
  intro member
  rcases Text.mem_joinWith member with comma | ⟨part, among, inside⟩
  · exact absurd (List.mem_singleton.mp comma) (by decide)
  · obtain ⟨enumerator, _, rfl⟩ := List.mem_map.mp among
    exact enumerator.brace_not_mem_written inside

/-- Merging blanks keeps the tag and the brace behind it. -/
theorem exists_squeeze_gap
    {merged : Char → Bool}
    (blank : ∀ c, merged c = true → Text.isBlank c = true)
    (rest : Text) :
    ∃ gap opening,
      Text.squeeze merged (enumeration.gap ++ (enumeration.tag.getD [] ++
          (enumeration.opening ++ '\x7b' :: rest))) =
        gap ++
          (enumeration.tag.getD [] ++
            (opening ++ '\x7b' :: Text.squeeze merged rest)) ∧
        (∀ c ∈ gap, Text.isBlank c = true) ∧
        (∀ c ∈ opening, Text.isBlank c = true) ∧
        ∀ name ∈ enumeration.tag, gap ≠ [] := by
  have brace : merged '\x7b' = false := Text.merged_eq_false blank rfl
  cases named : enumeration.tag with
  | none =>
      -- Without a tag the blanks on its two sides are one run.
      refine ⟨Text.squeeze merged (enumeration.gap ++ enumeration.opening), [],
        ?_, ?_, by simp, by simp⟩
      · rw [Option.getD_none, List.nil_append, ← List.append_assoc,
          Text.squeeze_append_cons brace]
        rfl
      · apply Text.isBlank_of_mem_squeeze blank
        rw [List.forall_mem_append]
        exact ⟨enumeration.blankGap, enumeration.blankOpening⟩
  | some name =>
      obtain ⟨gapped, identifier⟩ := enumeration.tagged name named
      have letters := Text.isWordChar_of_isIdentifier identifier
      have trimmed := Text.trimmed_of_letters letters
      have first : ∀ c,
          (name ++ (enumeration.opening ++ '\x7b' :: rest)).head? = some c →
          Text.isBlank c = false := by
        obtain ⟨d, others, rfl⟩ :=
          List.exists_cons_of_ne_nil (Text.ne_nil_of_isIdentifier identifier)
        exact trimmed.first
      have solid : ∀ c ∈ name, merged c = false := fun c member =>
        Text.merged_eq_false blank
          (Text.isBlank_of_isWordChar (letters c member))
      refine ⟨Text.squeeze merged enumeration.gap,
        Text.squeeze merged enumeration.opening, ?_,
        Text.isBlank_of_mem_squeeze blank enumeration.blankGap,
        Text.isBlank_of_mem_squeeze blank enumeration.blankOpening,
        fun _ _ => Text.squeeze_ne_nil gapped⟩
      rw [Option.getD_some, Text.squeeze_append_of_head blank first,
        Text.squeeze_append_of_getLast blank trimmed.last,
        Text.squeeze_of_solid solid, Text.squeeze_append_cons brace]

/-- A tidy enumeration has the same parts. -/
theorem exists_tidy_written :
    ∃ gap opening behind,
      LineQueue.tidy enumeration.written =
          "enum".toList ++
            (gap ++ (enumeration.tag.getD [] ++ (opening ++ '\x7b' ::
              (Text.squeeze (fun c => c = ' ' || c = '\t') enumeration.body ++
                '\x7d' :: behind)))) ∧
        (∀ c ∈ gap, Text.isBlank c = true) ∧
        (∀ c ∈ opening, Text.isBlank c = true) ∧
        ∀ name ∈ enumeration.tag, gap ≠ [] := by
  rw [LineQueue.tidy, written]
  have blank : ∀ c, (fun c => c = ' ' || c = '\t' : Char → Bool) c = true →
      Text.isBlank c = true :=
    fun _ gap => Text.isBlank_of_gap gap
  generalize (fun c => c = ' ' || c = '\t' : Char → Bool) = merged at blank
  obtain ⟨gap, opening, shape, blankGap, blankOpening, gapped⟩ :=
    enumeration.exists_squeeze_gap blank
      (enumeration.body ++ '\x7d' :: enumeration.behind)
  refine ⟨gap, opening, Text.trimRight (Text.squeeze merged enumeration.behind),
    ?_, blankGap, blankOpening, gapped⟩
  have keyword : ∀ c ∈ "enum".toList, Text.isWordChar c = true :=
    Text.isWordChar_of_isIdentifier (by decide)
  have trimmed := Text.trimmed_of_letters keyword
  have solid : ∀ c ∈ "enum".toList, merged c = false := fun c member =>
    Text.merged_eq_false blank (Text.isBlank_of_isWordChar (keyword c member))
  have left (text : Text) :
      Text.trimLeft (Text.squeeze merged enumeration.lead ++
          ("enum".toList ++ text)) =
        "enum".toList ++ text := by
    rw [Text.trimLeft, List.dropWhile_append_of_pos
      (Text.isBlank_of_mem_squeeze blank enumeration.blankLead)]
    rfl
  have ending (front : Text) : (front ++ ['\x7d']).getLast? = some '\x7d' :=
    List.getLast?_concat
  have right := Text.trimRight_append (ending ("enum".toList ++ (gap ++
    (enumeration.tag.getD [] ++ (opening ++ '\x7b' ::
      Text.squeeze merged enumeration.body))))) rfl (Text.squeeze merged
        enumeration.behind)
  rw [Text.squeeze_append_of_head blank (by rintro c ⟨⟩; rfl),
    Text.squeeze_append_of_getLast blank trimmed.last,
    Text.squeeze_of_solid solid, shape,
    Text.squeeze_append_cons (Text.merged_eq_false blank rfl), Text.trim, left]
  simpa only [List.append_assoc, List.cons_append, List.nil_append] using right

section Opening

variable {gap opening : Text} {tag : Option Text}
  (blankGap : ∀ c ∈ gap, Text.isBlank c = true)
  (blankOpening : ∀ c ∈ opening, Text.isBlank c = true)
  (tagged : ∀ name ∈ tag, gap ≠ [] ∧ Text.isIdentifier name = true)
  (rest : Text)

include blankGap blankOpening tagged

theorem tag?_append :
    tag? "enum".toList ("enum".toList ++
        (gap ++ (tag.getD [] ++ (opening ++ '\x7b' :: rest)))) =
      tag.filter Text.isMacroName := by
  have skip (text : Text) : Text.trimLeft ("enum".toList ++ text) =
      "enum".toList ++ text := rfl
  have brace : Text.BeginsApart ('\x7b' :: rest) := by
    intro c first
    cases first
    rfl
  rw [tag?, skip]
  cases tag with
  | none =>
      rw [Option.getD_none, List.nil_append, ← List.append_assoc gap]
      have blank : ∀ c ∈ gap ++ opening, Text.isBlank c = true :=
        List.forall_mem_append.mpr ⟨blankGap, blankOpening⟩
      generalize gap ++ opening = blanks at blank
      cases blanks with
      | nil => rfl
      | cons c blanks =>
          have after :=
            @Definition.afterKeyword?_append _ ('\x7b' :: rest) blank
              (List.cons_ne_nil c blanks) rfl "enum".toList
          rw [after]
          rfl
  | some name =>
      obtain ⟨gapped, identifier⟩ := tagged name rfl
      have letters := Text.isWordChar_of_isIdentifier identifier
      have begins := Text.beginsApart_blanks blankOpening brace
      have solid : Text.trimLeft (name ++ (opening ++ '\x7b' :: rest)) =
          name ++ (opening ++ '\x7b' :: rest) := by
        obtain ⟨d, others, rfl⟩ :=
          List.exists_cons_of_ne_nil (Text.ne_nil_of_isIdentifier identifier)
        apply List.dropWhile_cons_of_neg
        simp [Text.isBlank_of_isWordChar (letters d List.mem_cons_self)]
      rw [Option.getD_some,
        Definition.afterKeyword?_append blankGap gapped solid]
      simp only [Text.takeWhile_letters letters begins, Option.filter_some]

theorem isAnonymousEnum_append :
    isAnonymousEnum ("enum".toList ++
        (gap ++ (tag.getD [] ++ (opening ++ '\x7b' :: rest)))) =
      tag.isNone := by
  have skip (text : Text) : Text.trimLeft ("enum".toList ++ text) =
      "enum".toList ++ text := rfl
  have behind (text : Text) :
      ("enum".toList ++ text).drop "enum".toList.length = text := rfl
  have starts (text : Text) : "enum".toList.isPrefixOf ("enum".toList ++ text) =
      true :=
    List.isPrefixOf_iff_prefix.mpr (List.prefix_append _ _)
  simp only [isAnonymousEnum, skip, starts, behind, Bool.true_and]
  rw [Text.trimLeft, List.dropWhile_append_of_pos blankGap]
  cases tag with
  | none =>
      rw [Option.getD_none, List.nil_append,
        List.dropWhile_append_of_pos blankOpening]
      rfl
  | some name =>
      obtain ⟨-, identifier⟩ := tagged name rfl
      obtain ⟨d, others, rfl⟩ :=
        List.exists_cons_of_ne_nil (Text.ne_nil_of_isIdentifier identifier)
      have letter :=
        Text.isWordChar_of_isIdentifier identifier d List.mem_cons_self
      have solid : ¬ Text.isBlank d = true := by
        simp [Text.isBlank_of_isWordChar letter]
      rw [Option.getD_some, List.cons_append, List.dropWhile_cons_of_neg solid]
      apply beq_eq_false_iff_ne.mpr
      rintro ⟨⟩
      exact absurd letter (by decide)

/-- The keyword, the tag and the brace are recognised. -/
theorem declaration?_append :
    Extraction.declaration?
        ("enum".toList ++
          (gap ++ (tag.getD [] ++ (opening ++ '\x7b' :: rest)))) =
      if ∀ name ∈ tag, Text.isMacroName name = true then
        some (.enumeration tag) else none := by
  have typedef (text : Text) : Definition.afterKeyword? "typedef".toList
      (Text.trimLeft ("enum".toList ++ text)) = none := rfl
  have struct (text : Text) : tag? "struct".toList ("enum".toList ++ text) =
      none := rfl
  have union (text : Text) : tag? "union".toList ("enum".toList ++ text) =
      none := rfl
  simp only [Extraction.declaration?, typedef, struct, union,
    Option.isSome_none, Bool.false_eq_true, if_false,
    tag?_append blankGap blankOpening tagged,
    isAnonymousEnum_append blankGap blankOpening tagged]
  cases tag with
  | none => simp
  | some name =>
      rw [Option.filter_some]
      cases named : Text.isMacroName name with
      | true => simp [named]
      | false => simp [named]

end Opening

/-- The constants are found between the braces of a tidy enumeration. -/
theorem enumConstants_append
    {gap opening : Text}
    (blankGap : ∀ c ∈ gap, Text.isBlank c = true)
    (blankOpening : ∀ c ∈ opening, Text.isBlank c = true)
    (behind : Text) :
    enumConstants
      ("enum".toList ++
        (gap ++ (enumeration.tag.getD [] ++ (opening ++ '\x7b' ::
          (Text.squeeze (fun c => c = ' ' || c = '\t') enumeration.body ++
            '\x7d' :: behind))))) =
      enumeration.constants := by
  have blank : ∀ c, (fun c => c = ' ' || c = '\t' : Char → Bool) c = true →
      Text.isBlank c = true := fun _ gap => Text.isBlank_of_gap gap
  have letters : ∀ c ∈ enumeration.tag.getD [], Text.isWordChar c = true := by
    cases given : enumeration.tag with
    | none => simp
    | some name =>
        exact Text.isWordChar_of_isIdentifier (enumeration.tagged name given).2
  have outside {c : Char} (solid : Text.isBlank c = false)
      (noLetter : Text.isWordChar c = false) :
      c ∉ "enum".toList ++ (gap ++ (enumeration.tag.getD [] ++ opening)) := by
    rw [List.mem_append, not_or]
    refine ⟨?_,
      Text.not_mem_padded blankGap letters blankOpening solid noLetter⟩
    intro member
    rw [Text.isWordChar_of_isIdentifier (by decide) c member] at noLetter
    cases noLetter
  have closes : '\x7d' ∉
      "enum".toList ++ (gap ++ (enumeration.tag.getD [] ++ opening)) ++
      Text.squeeze (fun c => c = ' ' || c = '\t') enumeration.body := by
    rw [List.mem_append, not_or, Text.mem_squeeze_iff blank rfl]
    exact ⟨outside rfl rfl, enumeration.brace_not_mem_body⟩
  have between := enumBody?_append (outside rfl rfl) closes behind
  simp only [List.append_assoc] at between
  rw [enumConstants_of_body between, Text.splitOn_squeeze blank rfl,
    List.filterMap_map, ← filterMap_splitOn_body]
  congr 1
  funext part
  exact constant?_squeeze blank part

/-- A line that reads an enumeration declares it, is complete, and defines no
macro. -/
theorem declaration?_tidy_written :
    Extraction.declaration? (LineQueue.tidy enumeration.written) =
        (if enumeration.IsRecognised then some (.enumeration enumeration.tag)
          else none) ∧
      Definition.directive? (LineQueue.tidy enumeration.written) = none ∧
      isCompleteEnum (LineQueue.tidy enumeration.written) = true ∧
      enumConstants (LineQueue.tidy enumeration.written) =
        enumeration.constants := by
  obtain ⟨gap, opening, behind, shape, blankGap, blankOpening, gapped⟩ :=
    enumeration.exists_tidy_written
  have tagged : ∀ name ∈ enumeration.tag, gap ≠ [] ∧
      Text.isIdentifier name = true :=
    fun name given => ⟨gapped name given, (enumeration.tagged name given).2⟩
  rw [shape]
  refine ⟨declaration?_append blankGap blankOpening tagged _, rfl,
    by simp [isCompleteEnum], ?_⟩
  exact enumeration.enumConstants_append blankGap blankOpening behind

theorem names_eq :
    enumeration.names =
      enumeration.enumerators.flatMap fun enumerator =>
        [enumerator.name].filter Text.isMacroName := by
  rw [names]
  induction enumeration.enumerators with
  | nil => rfl
  | cons enumerator enumerators ih =>
      rw [List.map_cons, List.flatMap_cons, ← ih, ← List.filter_append,
        List.singleton_append]

/-- The constants are the enumerators unless an initialiser holds one. -/
theorem constants_eq_names_iff :
    enumeration.constants = enumeration.names ↔
      ∀ enumerator ∈ enumeration.enumerators, enumerator.strays = [] := by
  have length : enumeration.constants.length =
      enumeration.names.length +
        (enumeration.enumerators.flatMap Enumerator.strays).length := by
    rw [constants, names_eq]
    induction enumeration.enumerators with
    | nil => rfl
    | cons enumerator enumerators ih =>
        simp only [List.flatMap_cons, List.length_append,
          Enumerator.constants] at ih ⊢
        omega
  constructor
  · intro same
    rw [same] at length
    have none : enumeration.enumerators.flatMap Enumerator.strays = [] :=
      List.length_eq_zero_iff.mp (by omega)
    exact List.flatMap_eq_nil_iff.mp none
  · intro none
    rw [constants, names_eq]
    apply List.flatMap_congr
    intro enumerator member
    rw [Enumerator.constants, none enumerator member, List.append_nil]

theorem records_eq_declared_iff
    (recognised : enumeration.IsRecognised)
    (path : String) (line : Int) :
    enumeration.records path line = enumeration.declared path line ↔
      ∀ enumerator ∈ enumeration.enumerators, enumerator.strays = [] := by
  have tag : enumeration.tag.filter Text.isMacroName = enumeration.tag := by
    cases given : enumeration.tag with
    | none => rfl
    | some name => rw [Option.filter_some, if_pos (recognised name given)]
  have distinct : Function.Injective (record path line "enum constant") := by
    intro left right same
    exact (Definition.mk.inj same).1
  rw [records, if_pos recognised, declared, tag, List.append_right_inj,
    (List.map_injective_iff.mpr distinct).eq_iff, constants_eq_names_iff]

end Enumeration

end TypeName

namespace Extraction

/-- What a line adds, and what is left of the queue behind the lines that
continue it. -/
def added (path : String) (line : QueuedLine) (queue : LineQueue) :
    List Definition × LineQueue :=
  match Definition.directive? line.text with
  | some (name, body) =>
      ([Definition.ofWritten path line.number name
        (Definition.Written.ofText body)], queue)
  | none =>
      match declaration? line.text with
      | none => ([], queue)
      | some declaration =>
          let declared := declare path line queue declaration
          (declared.1, declared.2.2)

theorem skips_added (path : String) (line : QueuedLine) (queue : LineQueue) :
    Skips queue (added path line queue).2 := by
  unfold added
  split
  next => exact .refl queue
  next =>
    split
    next => exact .refl queue
    next declaration _ => exact (declare_spec path line queue declaration).1

/-- A line that is read together with those that continue it. -/
structure Round where
  line : QueuedLine
  continued : List QueuedLine
  records : List Definition
  deriving DecidableEq, Repr

/-- The lines at which the reader begins anew. -/
def rounds (path : String) (queue : LineQueue) : List Round :=
  match queue with
  | ⟨[], _⟩ => []
  | ⟨line :: rest, _⟩ =>
      let behind := (added path line ⟨rest, false⟩).2
      ⟨line, rest.take (rest.length - behind.lines.length),
        (added path line ⟨rest, false⟩).1⟩ ::
        rounds path behind
termination_by queue.lines.length
decreasing_by
  obtain ⟨taken, shape, _⟩ := skips_added path line ⟨rest, false⟩
  have split : rest = taken ++ (added path line ⟨rest, false⟩).2.lines := shape
  have length := congrArg List.length split
  rw [List.length_append] at length
  simp only [List.length_cons]
  omega

theorem rounds_cons
    (path : String) (line : QueuedLine) (rest : List QueuedLine)
    (returned : Bool) :
    ∃ continued,
      rest = continued ++ (added path line ⟨rest, false⟩).2.lines ∧
        rounds path ⟨line :: rest, returned⟩ =
          ⟨line, continued, (added path line ⟨rest, false⟩).1⟩ ::
            rounds path (added path line ⟨rest, false⟩).2 := by
  obtain ⟨taken, shape, _⟩ := skips_added path line ⟨rest, false⟩
  have split : rest = taken ++ (added path line ⟨rest, false⟩).2.lines := shape
  refine ⟨taken, split, ?_⟩
  have length := congrArg List.length split
  rw [List.length_append] at length
  have front :
      rest.take (rest.length - (added path line ⟨rest, false⟩).2.lines.length) =
        taken := by
    rw [show rest.length - (added path line ⟨rest, false⟩).2.lines.length =
      taken.length by omega]
    conv_lhs => rw [split]
    exact List.take_left
  rw [rounds]
  simp only [front]

theorem exists_readFrom_cons
    (path : String) (found : List Definition) (log : List Log.Entry)
    (line : QueuedLine) (rest : List QueuedLine) (returned : Bool) :
    ∃ log',
      readFrom path true found log ⟨line :: rest, returned⟩ =
        readFrom path true
          ((added path line ⟨rest, false⟩).1.reverse ++ found) log'
          (added path line ⟨rest, false⟩).2 := by
  rw [readFrom, added]
  cases Definition.directive? line.text with
  | some directive => exact ⟨_, rfl⟩
  | none =>
      simp only [if_true]
      cases declaration? line.text with
      | none => exact ⟨_, rfl⟩
      | some declaration => exact ⟨_, rfl⟩

/-- Every line belongs to one round, and what is read is what the rounds
record. -/
theorem readFrom_rounds
    (path : String) (found : List Definition) (log : List Log.Entry)
    (queue : LineQueue) :
    (readFrom path true found log queue).1 =
        found.reverse ++ (rounds path queue).flatMap (·.records) ∧
      ((rounds path queue).flatMap fun round => round.line :: round.continued) =
        queue.lines := by
  -- A round may take several lines, so the induction is on their number.
  induction length : queue.lines.length using Nat.strongRecOn
    generalizing found log queue with
  | ind number ih =>
      obtain ⟨lines, returned⟩ := queue
      cases lines with
      | nil =>
          rw [rounds]
          exact ⟨by simp [readFrom], rfl⟩
      | cons line rest =>
          obtain ⟨log', step⟩ :=
            exists_readFrom_cons path found log line rest returned
          obtain ⟨continued, split, first⟩ :=
            rounds_cons path line rest returned
          have shorter := congrArg List.length split
          rw [List.length_append] at shorter
          rw [List.length_cons] at length
          obtain ⟨read, lines⟩ := ih _ (by omega)
            ((added path line ⟨rest, false⟩).1.reverse ++ found) log'
            (added path line ⟨rest, false⟩).2 rfl
          rw [step, read, first, List.flatMap_cons, List.flatMap_cons, lines]
          refine ⟨by simp, ?_⟩
          conv_rhs => rw [split]
          rfl

theorem exists_of_mem_rounds
    {path : String} {queue : LineQueue} {round : Round}
    (member : round ∈ rounds path queue) :
    ∃ rest, (added path round.line rest).1 = round.records ∧
      rest.lines = round.continued ++ (added path round.line rest).2.lines := by
  induction length : queue.lines.length using Nat.strongRecOn
    generalizing queue with
  | ind number ih =>
      obtain ⟨lines, returned⟩ := queue
      cases lines with
      | nil =>
          rw [rounds] at member
          cases member
      | cons line rest =>
          obtain ⟨continued, split, first⟩ :=
            rounds_cons path line rest returned
          have shorter := congrArg List.length split
          rw [List.length_append] at shorter
          rw [List.length_cons] at length
          rw [first] at member
          rcases List.mem_cons.mp member with rfl | later
          · exact ⟨⟨rest, false⟩, rfl, split⟩
          · exact ih _ (by omega) later rfl

theorem added_enumeration
    {path : String} {line : QueuedLine} {enumeration : TypeName.Enumeration}
    (reads : line.text = LineQueue.tidy enumeration.written)
    (queue : LineQueue) :
    added path line queue = (enumeration.records path line.number, queue) := by
  obtain ⟨declares, noDirective, complete, constants⟩ :=
    enumeration.declaration?_tidy_written
  rw [← reads] at declares noDirective complete constants
  rw [added, noDirective]
  simp only [declares, TypeName.Enumeration.records]
  by_cases recognised : enumeration.IsRecognised
  · rw [if_pos recognised, if_pos recognised]
    have whole : gather TypeName.isCompleteEnum line.text [] queue =
        ⟨line.text, [], queue⟩ := by
      rw [gather, if_pos complete]
    simp only [declare, whole, constants]
  · rw [if_neg recognised, if_neg recognised]

/-- The rounds in which a text is read. -/
def roundsOf (path : String) (text : Text) : List Round :=
  rounds path
    (LineQueue.ofLogicalLines (LogicalLine.all path (Comment.blank text)))

/-- A text is read in rounds, each of which takes up a line and takes the lines
that continue it.  An enumeration that is taken up and stands on one line is a
round of its own.  If it is recognised, its tag and the names between its braces
are recorded, and these are its enumerators unless a name stands alone behind a
comma inside an initialiser. -/
theorem records_of_enumeration (path : String) (text : Text) :
    (ofText path true text).definitions =
      (roundsOf path text).flatMap (·.records) ∧
      ((roundsOf path text).flatMap fun round =>
          round.line :: round.continued) =
        (LineQueue.ofLogicalLines
          (LogicalLine.all path (Comment.blank text))).lines ∧
      ∀ round ∈ roundsOf path text, ∀ enumeration : TypeName.Enumeration,
        round.line.text = LineQueue.tidy enumeration.written →
          round.continued = [] ∧
            round.records = enumeration.records path round.line.number ∧
            (enumeration.IsRecognised →
              (round.records = enumeration.declared path round.line.number ↔
                ∀ enumerator ∈ enumeration.enumerators, ∀ name,
                  Text.isMacroName name = true →
                  ¬ enumerator.Strays name)) := by
  obtain ⟨read, lines⟩ := readFrom_rounds path [] []
    (LineQueue.ofLogicalLines (LogicalLine.all path (Comment.blank text)))
  refine ⟨read, lines, ?_⟩
  intro round member enumeration reads
  obtain ⟨rest, records, split⟩ := exists_of_mem_rounds member
  have whole := @added_enumeration path _ _ reads rest
  rw [whole] at records split
  refine ⟨List.self_eq_append_left.mp split, records.symm, ?_⟩
  intro recognised
  rw [← records, enumeration.records_eq_declared_iff recognised]
  apply forall₂_congr
  intro enumerator _
  rw [List.eq_nil_iff_forall_not_mem]
  simp only [enumerator.mem_strays_iff, not_and]

def colorText : Text :=
  "typedef struct \x7b\n int x;\n\x7d POINT;\n".toList ++
    "\tenum  COLOR\t\x7b RED = MIX(1, 2),low, BLUE=RED \x7d;\n".toList

theorem blank_space : ∀ c ∈ [' '], Text.isBlank c = true :=
  List.forall_mem_singleton.mpr rfl

def colorEnumeration : TypeName.Enumeration where
  lead := ['\t']
  gap := [' ', ' ']
  tag := some "COLOR".toList
  opening := ['\t']
  enumerators := [
    ⟨[' '], "RED".toList, [' '], some " MIX(1, 2)".toList, blank_space,
      blank_space, by decide, by decide⟩,
    ⟨[], "low".toList, [], none, by simp, by simp, by decide, by decide⟩,
    ⟨[' '], "BLUE".toList, [], some "RED ".toList, blank_space, by simp,
      by decide, by decide⟩]
  behind := [';']
  blankLead := List.forall_mem_singleton.mpr rfl
  blankGap := List.forall_mem_cons.mpr ⟨rfl, blank_space⟩
  blankOpening := List.forall_mem_singleton.mpr rfl
  tagged := by decide

def colorRound : Round :=
  ⟨⟨"enum COLOR \x7b RED = MIX(1, 2),low, BLUE=RED \x7d;".toList, 4, []⟩, [],
    TypeName.record "color.h" 4 "enum" "COLOR".toList ::
      ["RED".toList, "BLUE".toList].map
        (TypeName.record "color.h" 4 "enum constant")⟩

theorem records_of_enumeration_colorText :
    colorRound ∈ roundsOf "color.h" colorText ∧
      colorRound.line.text = LineQueue.tidy colorEnumeration.written ∧
      colorEnumeration.IsRecognised ∧
      colorRound.records = colorEnumeration.declared "color.h" 4 := by
  have member : colorRound ∈ roundsOf "color.h" colorText := by decide +kernel
  have reads : colorRound.line.text =
      LineQueue.tidy colorEnumeration.written := by decide +kernel
  have recognised : colorEnumeration.IsRecognised := by decide
  have none : ∀ enumerator ∈ colorEnumeration.enumerators,
      enumerator.strays = [] := by
    decide +kernel
  obtain ⟨-, -, read⟩ := records_of_enumeration "color.h" colorText
  obtain ⟨-, -, exactly⟩ := read colorRound member colorEnumeration reads
  refine ⟨member, reads, recognised, (exactly recognised).mpr ?_⟩
  intro enumerator listed name named strays
  have found := enumerator.mem_strays_iff.mpr ⟨named, strays⟩
  rw [none enumerator listed] at found
  cases found

def limitText : Text :=
  "enum \x7b SIZE = MAX(1, LIMIT, 2), NEXT \x7d;".toList

def limitEnumeration : TypeName.Enumeration where
  lead := []
  gap := [' ']
  tag := none
  opening := []
  enumerators := [
    ⟨[' '], "SIZE".toList, [' '], some " MAX(1, LIMIT, 2)".toList, blank_space,
      blank_space, by decide, by decide⟩,
    ⟨[' '], "NEXT".toList, [' '], none, blank_space, blank_space,
      by decide, by decide⟩]
  behind := [';']
  blankLead := by simp
  blankGap := blank_space
  blankOpening := by simp
  tagged := by simp

/-- The second argument of a call in an initialiser is recorded as a
constant. -/
theorem records_ne_declared_limitText :
    limitEnumeration.written = limitText ∧
      limitEnumeration.IsRecognised ∧
      limitEnumeration.declared "limit.h" 1 =
        ["SIZE".toList, "NEXT".toList].map
          (TypeName.record "limit.h" 1 "enum constant") ∧
      (ofText "limit.h" true limitText).definitions =
        ["SIZE".toList, "LIMIT".toList, "NEXT".toList].map
          (TypeName.record "limit.h" 1 "enum constant") := by
  refine ⟨rfl, by decide, by decide, by decide +kernel⟩

end Extraction

end MacroTrace
