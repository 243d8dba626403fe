import MacroTrace.Definition.Extract
import MacroTrace.Proofs.Blanking
import MacroTrace.Proofs.Occurrence
import MacroTrace.Proofs.Piece
import MacroTrace.Proofs.Position

/-!
# Reading back the spelling of a macro

The spelling of a macro is one line.  It holds no comment and no blanks that
reading would merge, so it passes through blanking, joining and merging as it
is.  What is read from it is the name, the parameters and the body that it was
made of.
-/

namespace MacroTrace

open Literal (Scan)

namespace Text

/-- All blanks are single spaces. -/
structure Spaced (text : Text) : Prop where
  spaces : ∀ c ∈ text, isBlank c = true → c = ' '
  single : text.IsChain fun c d => ¬ (c = ' ' ∧ d = ' ')

/-- All blanks are single spaces between other characters. -/
structure Normalized (text : Text) : Prop extends Spaced text where
  first : text.head? ≠ some ' '
  last : text.getLast? ≠ some ' '

theorem Spaced.of_solid
    {text : Text}
    (solid : ∀ c ∈ text, isBlank c = false) :
    Spaced text := by
  constructor
  · intro c member blank
    rw [solid c member] at blank
    cases blank
  · apply List.Pairwise.isChain
    apply List.pairwise_of_forall_mem_list
    rintro c member d - ⟨rfl, -⟩
    cases solid _ member

theorem Spaced.of_all
    {text : Text}
    (spaces : text.all (fun c => !isBlank c || c == ' ') = true)
    (single : text.IsChain fun c d => ¬ (c = ' ' ∧ d = ' ')) :
    Spaced text := by
  refine ⟨?_, single⟩
  intro c member blank
  have either := List.all_eq_true.mp spaces c member
  simpa [blank] using either

theorem Spaced.append
    {front back : Text}
    (spacedFront : Spaced front)
    (spacedBack : Spaced back)
    (apart : front.getLast? = some ' ' → back.head? ≠ some ' ') :
    Spaced (front ++ back) := by
  constructor
  · intro c member blank
    rcases List.mem_append.mp member with left | right
    · exact spacedFront.spaces c left blank
    · exact spacedBack.spaces c right blank
  · apply List.isChain_append.mpr
    refine ⟨spacedFront.single, spacedBack.single, ?_⟩
    rintro c last d first ⟨rfl, rfl⟩
    exact apart last first

theorem Spaced.squeezeFrom_eq
    {merged : Char → Bool} {text : Text}
    (spaced : Spaced text)
    (blank : ∀ c, merged c = true → isBlank c = true)
    {inRun : Bool}
    (apart : inRun = true → text.head? ≠ some ' ')
    (written : Text) :
    squeezeFrom merged inRun written text = written.reverse ++ text := by
  induction text generalizing inRun written with
  | nil => simp [squeezeFrom]
  | cons c rest ih =>
      have spacedRest : Spaced rest :=
        ⟨fun d member => spaced.spaces d (List.mem_cons_of_mem _ member),
          spaced.single.tail⟩
      simp only [squeezeFrom]
      split
      next isMerged =>
        obtain rfl := spaced.spaces c List.mem_cons_self (blank c isMerged)
        have fresh : inRun = false := by
          cases inRun with
          | false => rfl
          | true => exact absurd rfl (apart rfl)
        have next : rest.head? ≠ some ' ' := by
          intro again
          obtain ⟨behind, rfl⟩ := List.head?_eq_some_iff.mp again
          exact (List.isChain_cons_cons.mp spaced.single).1 ⟨rfl, rfl⟩
        rw [fresh, ih spacedRest fun _ => next]
        simp
      next =>
        rw [ih spacedRest (fun run => by cases run)]
        simp

namespace Normalized

variable {text : Text}

theorem of_solid
    (solid : ∀ c ∈ text, isBlank c = false) :
    Normalized text := by
  have noSpace : ' ' ∉ text := fun member => by cases solid _ member
  refine ⟨.of_solid solid, ?_, ?_⟩
  · intro head
    exact noSpace (List.mem_of_head? head)
  · intro last
    exact noSpace (List.mem_of_getLast? last)

theorem trimmed
    (normalized : Normalized text) :
    Trimmed text := by
  constructor
  · intro c head
    by_contra blank
    rw [Bool.not_eq_false] at blank
    have space := normalized.spaces c (List.mem_of_head? head) blank
    exact normalized.first (space ▸ head)
  · intro c ending
    by_contra blank
    rw [Bool.not_eq_false] at blank
    have space := normalized.spaces c (List.mem_of_getLast? ending) blank
    exact normalized.last (space ▸ ending)

theorem tidy_eq
    (normalized : Normalized text) :
    LineQueue.tidy text = text := by
  have blank : ∀ c, (decide (c = ' ') || decide (c = '\t')) = true →
      isBlank c = true := by
    intro c merged
    simp only [Bool.or_eq_true, decide_eq_true_eq] at merged
    rcases merged with rfl | rfl
    · rfl
    · rfl
  rw [LineQueue.tidy, squeeze,
    normalized.squeezeFrom_eq blank (fun run => by cases run)]
  exact normalized.trimmed.trim_eq

theorem spaced_cons_space
    (normalized : Normalized text) :
    Spaced (' ' :: text) := by
  have space : Spaced [' '] := ⟨by simp, by simp⟩
  exact space.append normalized.toSpaced fun _ => normalized.first

theorem normalizeBlanks_cons_space
    (normalized : Normalized text) :
    normalizeBlanks (' ' :: text) = text := by
  rw [normalizeBlanks, squeeze,
    normalized.spaced_cons_space.squeezeFrom_eq (fun _ blank => blank)
      (fun run => by cases run)]
  exact normalized.trimmed.trim_eq

end Normalized

theorem splitFrom_of_not_mem
    {separator : Char} {part : Text}
    (absent : separator ∉ part)
    (current : Text) :
    splitFrom separator [] current part = [current.reverse ++ part] := by
  induction part generalizing current with
  | nil => simp [splitFrom]
  | cons c part ih =>
      rw [List.mem_cons, not_or] at absent
      rw [splitFrom, if_neg (Ne.symm absent.1), ih absent.2]
      simp

theorem splitOn_append
    {separator : Char} {part : Text}
    (absent : separator ∉ part)
    (rest : Text) :
    splitOn separator (part ++ separator :: rest) =
      part :: splitOn separator rest := by
  suffices general : ∀ current,
      splitFrom separator [] current (part ++ separator :: rest) =
        (current.reverse ++ part) :: splitOn separator rest from general []
  induction part with
  | nil =>
      intro current
      rw [List.nil_append, splitFrom, if_pos rfl, splitFrom_parts]
      simp [splitOn]
  | cons c part ih =>
      intro current
      rw [List.mem_cons, not_or] at absent
      rw [List.cons_append, splitFrom, if_neg (Ne.symm absent.1), ih absent.2]
      simp

theorem mem_joinWith
    {separator : Text} {parts : List Text} {c : Char}
    (member : c ∈ joinWith separator parts) :
    c ∈ separator ∨ ∃ part ∈ parts, c ∈ part := by
  induction parts with
  | nil => cases member
  | cons part parts ih =>
      cases parts with
      | nil =>
          rw [joinWith, List.intercalate_singleton] at member
          exact .inr ⟨part, List.mem_cons_self, member⟩
      | cons other parts =>
          rw [joinWith, List.intercalate_cons_cons, List.mem_append,
            List.mem_append] at member
          rcases member with (here | between) | later
          · exact .inr ⟨part, List.mem_cons_self, here⟩
          · exact .inl between
          · rcases ih later with between | ⟨found, among, inside⟩
            · exact .inl between
            · exact .inr ⟨found, List.mem_cons_of_mem _ among, inside⟩

theorem spaced_joinWith
    {parts : List Text}
    (solid : ∀ part ∈ parts, part ≠ [] ∧ ∀ c ∈ part, isBlank c = false) :
    Spaced (joinWith [',', ' '] parts) ∧
      (joinWith [',', ' '] parts).head? ≠ some ' ' := by
  induction parts with
  | nil => exact ⟨⟨nofun, .nil⟩, nofun⟩
  | cons part parts ih =>
      have normalized : Normalized part :=
        .of_solid (solid part List.mem_cons_self).2
      cases parts with
      | nil =>
          rw [joinWith, List.intercalate_singleton]
          exact ⟨normalized.toSpaced, normalized.first⟩
      | cons other parts =>
          have solidRest : ∀ later ∈ other :: parts, later ≠ [] ∧ ∀ c ∈ later,
              isBlank c = false :=
            fun later member => solid later (List.mem_cons_of_mem _ member)
          obtain ⟨spaced, first⟩ := ih solidRest
          have comma : Spaced [','] :=
            .of_solid (List.forall_mem_singleton.mpr rfl)
          have space : Spaced [' '] := ⟨by simp, by simp⟩
          have joined : joinWith [',', ' '] (part :: other :: parts) =
              part ++
                ([','] ++ ([' '] ++ joinWith [',', ' '] (other :: parts))) := by
            simp [joinWith, List.intercalate_cons_cons]
          rw [joined]
          constructor
          · apply normalized.toSpaced.append
            · exact comma.append (space.append spaced fun _ => first) (by simp)
            · intro last
              exact absurd last normalized.last
          · obtain ⟨c, rest, rfl⟩ :=
              List.exists_cons_of_ne_nil (solid part List.mem_cons_self).1
            exact normalized.first

theorem splitOn_joinWith
    {separator : Char} {padding part : Text} {parts : List Text}
    (absent : separator ∉ part)
    (apart : ∀ other ∈ parts, separator ∉ padding ++ other) :
    splitOn separator (joinWith (separator :: padding) (part :: parts)) =
      part :: parts.map (padding ++ ·) := by
  -- The padding in front of a part is read as a part of it.
  suffices general : ∀ front, separator ∉ front ++ part →
      splitOn separator
          (front ++ joinWith (separator :: padding) (part :: parts)) =
        (front ++ part) :: parts.map (padding ++ ·) from general [] absent
  induction parts generalizing part with
  | nil =>
      intro front free
      have alone := splitFrom_of_not_mem free []
      simpa [joinWith, splitOn] using alone
  | cons other parts ih =>
      intro front free
      have freeOther := apart other List.mem_cons_self
      have freeParts : ∀ later ∈ parts, separator ∉ padding ++ later :=
        fun later member => apart later (List.mem_cons_of_mem _ member)
      have absentOther : separator ∉ other :=
        fun member => freeOther (List.mem_append_right _ member)
      have joined :
          front ++ joinWith (separator :: padding) (part :: other :: parts) =
            (front ++ part) ++
              separator ::
                (padding ++ joinWith (separator :: padding)
                  (other :: parts)) := by
        simp [joinWith, List.intercalate_cons_cons]
      rw [joined, splitOn_append free,
        ih absentOther freeParts padding freeOther]
      rfl

end Text

namespace Definition

variable {definition : Definition} {parameters : List Text}
  {parameter body : Text}

/-- The parameter lists that can be written: identifiers, the last of which may
be variadic. -/
inductive IsParameterList : List Text → Prop where
  | nil : IsParameterList []
  | unnamed : IsParameterList [ellipsis]
  | variadic {name : Text} :
      Text.isIdentifier name = true →
      IsParameterList [name ++ ellipsis]
  | cons {name : Text} {rest : List Text} :
      Text.isIdentifier name = true →
      IsParameterList rest →
      IsParameterList (name :: rest)

def isParameterChar (c : Char) : Bool :=
  Text.isWordChar c || c == '.'

theorem isBlank_of_isParameterChar
    {c : Char}
    (inParameter : isParameterChar c = true) :
    Text.isBlank c = false := by
  simp only [isParameterChar, Bool.or_eq_true, beq_iff_eq] at inParameter
  rcases inParameter with letter | rfl
  · exact Text.isBlank_of_isWordChar letter
  · rfl

theorem IsParameterList.mem
    (list : IsParameterList parameters)
    (member : parameter ∈ parameters) :
    parameter ≠ [] ∧ ∀ c ∈ parameter, isParameterChar c = true := by
  have dots : ∀ c ∈ ellipsis, isParameterChar c = true :=
    List.all_eq_true.mp (by decide)
  have letters {name : Text} (identifier : Text.isIdentifier name = true) :
      ∀ c ∈ name, isParameterChar c = true := by
    intro c inName
    rw [isParameterChar, Text.isWordChar_of_isIdentifier identifier c inName,
      Bool.true_or]
  induction list with
  | nil => cases member
  | unnamed =>
      obtain rfl := List.mem_singleton.mp member
      exact ⟨by decide, dots⟩
  | variadic identifier =>
      obtain rfl := List.mem_singleton.mp member
      refine ⟨by simp [ellipsis], ?_⟩
      intro c among
      rcases List.mem_append.mp among with inName | inDots
      · exact letters identifier c inName
      · exact dots c inDots
  | cons identifier _ ih =>
      rcases List.mem_cons.mp member with rfl | later
      · exact ⟨Text.ne_nil_of_isIdentifier identifier, letters identifier⟩
      · exact ih later

theorem parametersOf_joinWith
    (list : IsParameterList parameters) :
    parametersOf (Text.joinWith [',', ' '] parameters) = parameters := by
  have noComma : ∀ parameter ∈ parameters, ',' ∉ parameter :=
    fun parameter member =>
      List.not_mem_of_forall (list.mem member).2 (by decide)
  have solid : ∀ parameter ∈ parameters, Text.Normalized parameter :=
    fun parameter member => .of_solid fun c inside =>
      isBlank_of_isParameterChar ((list.mem member).2 c inside)
  have nonempty : ∀ parameter ∈ parameters, (!parameter.isEmpty) = true := by
    intro parameter member
    simpa using (list.mem member).1
  cases parameters with
  | nil => rfl
  | cons first others =>
      have apart : ∀ other ∈ others, ',' ∉ [' '] ++ other := by
        intro other member comma
        rcases List.mem_append.mp comma with padding | inside
        · revert padding
          decide
        · exact noComma other (List.mem_cons_of_mem _ member) inside
      have trimmed : (first :: others.map ([' '] ++ ·)).map Text.trim =
          first :: others := by
        rw [List.map_cons, (solid first List.mem_cons_self).trimmed.trim_eq,
          List.map_map]
        congr 1
        conv => rhs; rw [← List.map_id others]
        apply List.map_congr_left
        intro other member
        exact (solid other (List.mem_cons_of_mem _ member)).trimmed.trim_eq
      rw [parametersOf,
        Text.splitOn_joinWith (noComma first List.mem_cons_self) apart, trimmed]
      exact List.filter_eq_self.mpr nonempty

/-- The parameter list directly behind the name. -/
def listText : Option (List Text) → Text
  | none => []
  | some parameters => '(' :: (Text.joinWith [',', ' '] parameters ++ [')'])

/-- The body, set off by a space. -/
def tail (body : Text) : Text :=
  if body.isEmpty then [] else ' ' :: body

theorem normalizeBlanks_tail
    (normalized : Text.Normalized body) :
    Text.normalizeBlanks (tail body) = body := by
  rw [tail]
  split
  next empty =>
    rw [List.isEmpty_iff.mp empty]
    rfl
  next => exact normalized.normalizeBlanks_cons_space

theorem splitParameters_append
    {list : Text}
    (opening : '(' ∉ list)
    (closing : ')' ∉ list)
    (inside rest : Text) :
    splitParameters 0 inside (list ++ ')' :: rest) =
      some (inside.reverse ++ list, rest) := by
  induction list generalizing inside with
  | nil => simp [splitParameters]
  | cons c list ih =>
      rw [List.mem_cons, not_or] at opening closing
      rw [List.cons_append, splitParameters, if_neg (Ne.symm opening.1),
        if_neg (Ne.symm closing.1), ih opening.2 closing.2]
      simp

/-- The characters of a parameter list. -/
def isListChar (c : Char) : Bool :=
  isParameterChar c || c == ',' || c == ' '

theorem isListChar_of_mem_joinWith
    (list : IsParameterList parameters) :
    ∀ c ∈ Text.joinWith [',', ' '] parameters, isListChar c = true := by
  intro c member
  rcases Text.mem_joinWith member with between | ⟨parameter, among, inside⟩
  · rcases List.mem_pair.mp between with rfl | rfl
    · rfl
    · rfl
  · rw [isListChar, (list.mem among).2 c inside]
    rfl

theorem ofText_listText
    {parameters : Option (List Text)}
    (lists : ∀ list, parameters = some list → IsParameterList list)
    (normalized : Text.Normalized body) :
    Written.ofText (listText parameters ++ tail body) =
      ⟨parameters, body, Nesting.isBalanced body⟩ := by
  cases parameters with
  | none =>
      have parts : split (tail body) = (none, tail body, true) := by
        rw [tail]
        split
        next => rfl
        next => rfl
      rw [listText, List.nil_append, Written.ofText, parts]
      simp only [normalizeBlanks_tail normalized, Bool.true_and]
  | some parameters =>
      have list := lists parameters rfl
      have listed := isListChar_of_mem_joinWith list
      have noOpening : '(' ∉ Text.joinWith [',', ' '] parameters :=
        List.not_mem_of_forall listed (by decide)
      have noClosing : ')' ∉ Text.joinWith [',', ' '] parameters :=
        List.not_mem_of_forall listed (by decide)
      have parts : split (listText (some parameters) ++ tail body) =
          (some parameters, tail body, true) := by
        rw [listText, List.cons_append, List.append_assoc,
          List.singleton_append, split,
          splitParameters_append noOpening noClosing, List.reverse_nil,
          List.nil_append]
        simp only [parametersOf_joinWith list]
      rw [Written.ofText, parts]
      simp only [normalizeBlanks_tail normalized, Bool.true_and]

theorem beginsApart_listText (parameters : Option (List Text)) (body : Text) :
    Text.BeginsApart (listText parameters ++ tail body) := by
  cases parameters with
  | none =>
      rw [listText, List.nil_append, tail]
      split
      next => nofun
      next =>
        rintro c ⟨⟩
        decide
  | some list =>
      rintro c ⟨⟩
      decide

theorem afterKeyword?_append
    {gap rest : Text}
    (blank : ∀ c ∈ gap, Text.isBlank c = true)
    (gapped : gap ≠ [])
    (solid : Text.trimLeft rest = rest)
    (keyword : Text) :
    afterKeyword? keyword (keyword ++ (gap ++ rest)) = some rest := by
  obtain ⟨c, others, rfl⟩ := List.exists_cons_of_ne_nil gapped
  rw [List.forall_mem_cons] at blank
  have skipped : Text.trimLeft (others ++ rest) = rest :=
    (List.dropWhile_append_of_pos blank.2).trans solid
  rw [afterKeyword?,
    if_pos (List.isPrefixOf_iff_prefix.mpr (List.prefix_append _ _)),
    List.drop_left]
  simp [blank.1, skipped]

theorem directive?_append
    {before between gap name rest : Text}
    (blank : ∀ c ∈ before ++ (between ++ gap), Text.isBlank c = true)
    (gapped : gap ≠ [])
    (identifier : Text.isIdentifier name = true)
    (begins : Text.BeginsApart rest) :
    directive?
      (before ++ '#' ::
        (between ++ ("define".toList ++ (gap ++ (name ++ rest))))) =
      some (name, rest) := by
  rw [List.forall_mem_append, List.forall_mem_append] at blank
  obtain ⟨blankBefore, blankBetween, blankGap⟩ := blank
  have letters := Text.isWordChar_of_isIdentifier identifier
  obtain ⟨c, others, shape⟩ :=
    List.exists_cons_of_ne_nil (Text.ne_nil_of_isIdentifier identifier)
  have solid : Text.trimLeft (name ++ rest) = name ++ rest := by
    rw [shape]
    apply List.dropWhile_cons_of_neg
    simp [Text.isBlank_of_isWordChar (letters c (by simp [shape]))]
  have hash (text : Text) :
      Text.trimLeft (before ++ '#' :: text) = '#' :: text :=
    List.dropWhile_append_of_pos blankBefore
  have keyword (text : Text) :
      Text.trimLeft (between ++ ("define".toList ++ text)) =
        "define".toList ++ text :=
    List.dropWhile_append_of_pos blankBetween
  have first : (name ++ rest).head?.any Text.isIdentifierStart = true := by
    rw [Text.isIdentifier, Bool.and_eq_true] at identifier
    rw [shape] at identifier ⊢
    exact identifier.1
  have taken := Text.takeWhile_letters letters begins
  have dropped : (name ++ rest).dropWhile Text.isWordChar = rest := by
    have whole :=
      List.takeWhile_append_dropWhile (p := Text.isWordChar) (l := name ++ rest)
    rw [taken] at whole
    exact List.append_cancel_left whole
  rw [directive?, hash]
  simp only [keyword, afterKeyword?_append blankGap gapped solid, first,
    if_true, taken, dropped]

theorem spaced_listText
    {parameters : Option (List Text)}
    (lists : ∀ list, parameters = some list → IsParameterList list) :
    Text.Spaced (listText parameters) := by
  cases parameters with
  | none => exact ⟨nofun, .nil⟩
  | some parameters =>
      have list := lists parameters rfl
      have joined : Text.Spaced (Text.joinWith [',', ' '] parameters) := by
        apply (Text.spaced_joinWith _).1
        intro parameter member
        obtain ⟨nonempty, characters⟩ := list.mem member
        exact ⟨nonempty,
          fun c inside => isBlank_of_isParameterChar (characters c inside)⟩
      have opening : Text.Spaced ['('] :=
        .of_solid (List.forall_mem_singleton.mpr rfl)
      have closing : Text.Spaced [')'] :=
        .of_solid (List.forall_mem_singleton.mpr rfl)
      exact opening.append (joined.append closing (by simp)) (by simp)

/-- What stands in front of the body. -/
def lead (definition : Definition) : Text :=
  "#define ".toList ++ (definition.name ++ listText definition.parameters)

-- Rewriting with the equation of `lead` itself would evaluate the keyword.
theorem lead_eq (definition : Definition) :
    definition.lead =
      "#define ".toList ++
        (definition.name ++ listText definition.parameters) :=
  rfl

def isLeadChar (c : Char) : Bool :=
  isListChar c || c == '#' || c == '(' || c == ')'

/-- A definition whose spelling can be read: its name and its parameters are
identifiers, and its body, which carries the mark if it is unbalanced, is a text
that holds single spaces only, is not continued and opens no comment. -/
structure Spellable (definition : Definition) (body : Text) : Prop where
  isMacro : definition.isMacro = true
  line : definition.line = 1
  name : Text.isIdentifier definition.name = true
  parameters : ∀ list, definition.parameters = some list → IsParameterList list
  marked : definition.body = if Nesting.isBalanced body then body
    else unbalancedMark ++ body
  normalized : Text.Normalized body
  complete : body.getLast? ≠ some '\\'
  free : ∀ index < body.length, (body.drop index).take 2 ∈
    ["//".toList, "/*".toList] →
    Span.covered (Literal.spans body) index = true

namespace Spellable

variable (spellable : Spellable definition body)

include spellable

theorem free_body : Comment.Free .code body := by
  intro front c back shape reached
  by_contra opens
  have either : c = '/' ∨ c = '*' := by tauto
  have inside : front.length < body.length := by
    rw [shape]
    simp
  have pair : (body.drop front.length).take 2 = ['/', c] := by
    rw [shape, List.drop_left]
    rfl
  have opening : (body.drop front.length).take 2 ∈
      ["//".toList, "/*".toList] := by
    rw [pair]
    rcases either with rfl | rfl
    · exact List.mem_cons_self
    · exact List.mem_cons_of_mem _ List.mem_cons_self
  have covered := spellable.free front.length inside opening
  rw [shape, Literal.covered_spans, reached] at covered
  cases covered

theorem shownBody_eq : definition.shownBody = body := by
  rw [shownBody, isUnbalanced, spellable.marked]
  split
  next =>
    apply if_neg
    intro begins
    obtain ⟨rest, shape⟩ := List.isPrefixOf_iff_prefix.mp begins
    exact (spellable.free_body [] '*' _ shape.symm rfl).2 rfl
  next => simp

theorem isLeadChar_of_mem_lead :
    ∀ c ∈ definition.lead, isLeadChar c = true := by
  have keyword : ∀ c ∈ "#define ".toList, isLeadChar c = true :=
    List.all_eq_true.mp (by decide)
  have listed {c : Char} (inList : isListChar c = true) :
      isLeadChar c = true := by
    rw [isLeadChar, inList]
    rfl
  intro c member
  simp only [lead_eq, List.mem_append] at member
  rcases member with inKeyword | inName | inList
  · exact keyword c inKeyword
  · apply listed
    rw [isListChar, isParameterChar,
      Text.isWordChar_of_isIdentifier spellable.name c inName]
    rfl
  · cases parameters : definition.parameters with
    | none =>
        rw [parameters] at inList
        cases inList
    | some list =>
        rw [parameters, listText, List.mem_cons, List.mem_append,
          List.mem_singleton] at inList
        rcases inList with rfl | inside | rfl
        · rfl
        · exact listed
            (isListChar_of_mem_joinWith
              (spellable.parameters list parameters) c inside)
        · rfl

theorem exists_getLast?_lead :
    ∃ c, definition.lead.getLast? = some c ∧
      Text.isBlank c = false ∧ c ≠ '\\' := by
  cases parameters : definition.parameters with
  | none =>
      have nonempty := Text.ne_nil_of_isIdentifier spellable.name
      have letter :=
        Text.isWordChar_of_isIdentifier spellable.name _
          (List.getLast_mem nonempty)
      refine ⟨_, ?_, Text.isBlank_of_isWordChar letter, ?_⟩
      · rw [lead_eq, parameters, listText, List.append_nil,
          List.getLast?_append_of_ne_nil _ nonempty]
        exact List.getLast?_eq_some_getLast nonempty
      · intro backslash
        rw [backslash] at letter
        revert letter
        decide
  | some list =>
      refine ⟨')', ?_, by decide, by decide⟩
      rw [lead_eq, parameters, listText, ← List.append_assoc,
        ← List.cons_append, ← List.append_assoc]
      exact List.getLast?_concat

theorem normalized_name : Text.Normalized definition.name :=
  .of_solid fun c inside =>
    Text.isBlank_of_isWordChar
      (Text.isWordChar_of_isIdentifier spellable.name c inside)

theorem spaced_lead : Text.Spaced definition.lead := by
  have keyword : Text.Spaced "#define ".toList :=
    .of_all (by decide) (by decide)
  have name := spellable.normalized_name
  apply keyword.append
  · apply name.toSpaced.append (spaced_listText spellable.parameters)
    intro last
    exact absurd last name.last
  · intro _ first
    obtain ⟨c, rest, shape⟩ :=
      List.exists_cons_of_ne_nil (Text.ne_nil_of_isIdentifier spellable.name)
    apply name.first
    rw [shape] at first ⊢
    exact first

theorem exists_getLast?_line :
    ∃ c, (definition.lead ++ tail body).getLast? = some c ∧
      c ≠ ' ' ∧ c ≠ '\\' := by
  rw [tail]
  split
  next =>
    obtain ⟨c, last, solid, other⟩ := spellable.exists_getLast?_lead
    refine ⟨c, by rwa [List.append_nil], ?_, other⟩
    rintro rfl
    cases solid
  next filled =>
    have nonempty : body ≠ [] := by simpa using filled
    have last : body.getLast? = some (body.getLast nonempty) :=
      List.getLast?_eq_some_getLast nonempty
    refine ⟨body.getLast nonempty, ?_, ?_, ?_⟩
    · rw [List.getLast?_append_cons,
        List.getLast?_cons_of_ne_nil nonempty, last]
    · intro space
      exact spellable.normalized.last (space ▸ last)
    · intro backslash
      exact spellable.complete (backslash ▸ last)

theorem normalized_line : Text.Normalized (definition.lead ++ tail body) := by
  obtain ⟨c, last, solid, -⟩ := spellable.exists_getLast?_lead
  have noSpace : definition.lead.getLast? ≠ some ' ' := by
    rw [last]
    intro space
    rw [Option.some.inj space] at solid
    cases solid
  have spaced : Text.Spaced (tail body) := by
    rw [tail]
    split
    next => exact ⟨nofun, .nil⟩
    next => exact spellable.normalized.spaced_cons_space
  refine ⟨spellable.spaced_lead.append spaced fun ending =>
      absurd ending noSpace, ?_, ?_⟩
  · have first : (definition.lead ++ tail body).head? = some '#' := rfl
    rw [first]
    decide
  · obtain ⟨d, ending, other, -⟩ := spellable.exists_getLast?_line
    rw [ending]
    exact fun same => other (Option.some.inj same)

theorem spelling_eq : definition.spelling = definition.lead ++ tail body := by
  have head : definition.head =
      definition.name ++ listText definition.parameters := by
    rw [Definition.head]
    cases definition.parameters with
    | none => exact (List.append_nil _).symm
    | some list => rfl
  rw [spelling, if_pos spellable.isMacro, spellable.shownBody_eq,
    head, ← lead_eq]
  by_cases empty : body = []
  · obtain ⟨c, last, solid, -⟩ := spellable.exists_getLast?_lead
    rw [empty, Text.trimRight_append last solid]
    rfl
  · have shape : tail body = ' ' :: body := if_neg (by simpa using empty)
    rw [← shape]
    exact spellable.normalized_line.trimmed.trimRight_eq

theorem blank_line :
    Comment.blank (definition.lead ++ tail body) =
      definition.lead ++ tail body := by
  have characters := spellable.isLeadChar_of_mem_lead
  have noQuote : ∀ c ∈ definition.lead, Literal.isQuote c = false := by
    intro c member
    by_contra quote
    simp only [Literal.isQuote, Bool.not_eq_false, Bool.or_eq_true,
      beq_iff_eq] at quote
    rcases quote with rfl | rfl
    · exact List.not_mem_of_forall characters (by decide) member
    · exact List.not_mem_of_forall characters (by decide) member
  have code : Scan.code.run definition.lead = .code :=
    Scan.run_code_of_not_quote noQuote
  apply Comment.blank_of_free
  apply Comment.Free.of_append (List.not_mem_of_forall characters (by decide))
  rw [code, tail]
  split
  next =>
    intro front c back shape
    simp at shape
  next =>
    have behind : Comment.Free .code ([' '] ++ body) :=
      .of_append (by decide) spellable.free_body
    exact behind

theorem feed_not_mem_line : '\n' ∉ definition.lead ++ tail body := by
  intro member
  cases spellable.normalized_line.spaces _ member rfl

theorem isContinued_line :
    Line.isContinued (definition.lead ++ tail body) = false := by
  obtain ⟨c, last, -, other⟩ := spellable.exists_getLast?_line
  rw [Line.isContinued, spellable.normalized_line.trimmed.trimRight_eq,
    beq_eq_false_iff_ne, last]
  exact fun same => other (Option.some.inj same)

theorem directive?_line :
    directive? (definition.lead ++ tail body) =
      some (definition.name, listText definition.parameters ++ tail body) := by
  rw [lead_eq, List.append_assoc, List.append_assoc]
  exact @directive?_append [] [] [' '] _ _
    (List.forall_mem_singleton.mpr rfl) (by decide)
    spellable.name (beginsApart_listText _ _)

end Spellable

end Definition

theorem Line.allFrom_of_not_mem
    {text : Text}
    (free : '\n' ∉ text)
    (current : Text) :
    allFrom [] current text = [⟨current.reverse ++ text, .textEnd⟩] := by
  induction text generalizing current with
  | nil => simp [allFrom]
  | cons c rest ih =>
      rw [List.mem_cons, not_or] at free
      rw [allFrom, if_neg (Ne.symm free.1), ih free.2]
      simp

theorem LogicalLine.all_of_not_mem
    {text : Text}
    (free : '\n' ∉ text)
    (complete : Line.isContinued text = false)
    (path : String) :
    all path text = [⟨text, 1, 1, []⟩] := by
  have line : Line.all text = [⟨text, .textEnd⟩] :=
    Line.allFrom_of_not_mem free []
  rw [all, line, joinFrom]
  simp [complete, joinFrom, Draft.finish, Text.joinWith]

namespace Extraction

variable {definition : Definition} {body : Text}

/-- Reading undoes spelling. -/
theorem ofText_spelling
    (spellable : definition.Spellable body)
    (detectTypes : Bool) :
    (ofText definition.file detectTypes definition.spelling).definitions =
      [definition] := by
  have made : Definition.ofWritten definition.file 1 definition.name
      ⟨definition.parameters, body, Nesting.isBalanced body⟩ = definition := by
    rw [Definition.ofWritten, ← spellable.marked, ← spellable.line,
      ← spellable.isMacro]
  rw [spellable.spelling_eq, ofText, spellable.blank_line,
    LogicalLine.all_of_not_mem spellable.feed_not_mem_line
      spellable.isContinued_line]
  simp only [LineQueue.ofLogicalLines, List.map_cons, List.map_nil,
    spellable.normalized_line.tidy_eq]
  rw [readFrom]
  simp only [spellable.directive?_line]
  rw [Definition.ofText_listText spellable.parameters spellable.normalized,
    readFrom]
  exact congrArg (fun read => [read]) made

def logBody : Text :=
  "print(\"// (\" #level, args".toList

/-- A variadic macro with an unbalanced body. -/
def logMacro : Definition :=
  ⟨"LOG".toList, some ["level".toList, "args...".toList],
    Definition.unbalancedMark ++ logBody, "log.h", 1, true⟩

theorem ofText_spelling_logMacro :
    logMacro.Spellable logBody ∧
      (ofText "log.h" true logMacro.spelling).definitions = [logMacro] := by
  have spellable : logMacro.Spellable logBody := by
    constructor
    case isMacro => rfl
    case line => rfl
    case name => decide
    case parameters =>
      rintro list ⟨⟩
      have variadic : Definition.IsParameterList ["args".toList ++ ellipsis] :=
        .variadic (by decide)
      exact .cons (by decide) variadic
    case marked => decide +kernel
    case normalized =>
      exact ⟨.of_all (by decide) (by decide), by decide, by decide⟩
    case complete => decide
    case free => decide +kernel
  exact ⟨spellable, ofText_spelling spellable true⟩

end Extraction

end MacroTrace
