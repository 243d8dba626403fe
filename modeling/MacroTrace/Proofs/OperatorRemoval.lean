import MacroTrace.Proofs.Detection
import MacroTrace.Proofs.Occurrence
import MacroTrace.Proofs.Paste

/-!
# Operators after pasting

Pasting goes through a text once.  On one line it leaves no operator outside the
literals, since what stands on the two sides of a chain never makes a new one.
It keeps the literals, and takes nothing away but hashes and blanks.  A text
whose operators all lie in literals is left as it is, so pasting twice is
pasting once.  The bodies that are read from source texts are single lines.
-/

namespace MacroTrace

open Literal (Scan)

namespace Text

def IsOneLine (text : Text) : Prop :=
  ∀ c ∈ text, isLineBreak c = false

instance (text : Text) : Decidable text.IsOneLine :=
  decidable_of_iff (text.all (!isLineBreak ·) = true) (by simp [IsOneLine])

theorem IsOneLine.append
    {left right : Text}
    (first : left.IsOneLine)
    (second : right.IsOneLine) :
    IsOneLine (left ++ right) :=
  List.forall_mem_append.mpr ⟨first, second⟩

theorem IsOneLine.tail
    {c : Char} {rest : Text}
    (oneLine : IsOneLine (c :: rest)) :
    rest.IsOneLine :=
  (List.forall_mem_cons.mp oneLine).2

theorem IsOneLine.of_append
    {left right : Text}
    (oneLine : IsOneLine (left ++ right)) :
    left.IsOneLine ∧ right.IsOneLine :=
  List.forall_mem_append.mp oneLine

theorem isOneLine_normalizeBlanks (text : Text) :
    IsOneLine (normalizeBlanks text) :=
  fun _ member => isLineBreak_of_mem_normalizeBlanks member

/-- A text without its hashes and blanks. -/
def bare (text : Text) : Text :=
  text.filter fun c => c != '#' && !isBlank c

theorem bare_append (left right : Text) :
    bare (left ++ right) = bare left ++ bare right :=
  List.filter_append left right

theorem bare_hash (rest : Text) : bare ('#' :: rest) = bare rest :=
  List.filter_cons_of_neg (by decide)

theorem bare_of_isBlank
    {blanks : Text}
    (blank : ∀ c ∈ blanks, isBlank c = true) :
    bare blanks = [] := by
  apply List.filter_eq_nil_iff.mpr
  intro c member
  simp [blank c member]

theorem holds_append
    (front needle after : Text)
    (nonempty : needle ≠ []) :
    holds needle (front ++ (needle ++ after)) = true := by
  induction front with
  | nil =>
      obtain ⟨c, rest, rfl⟩ := List.exists_cons_of_ne_nil nonempty
      rw [List.nil_append, List.cons_append, holds, ← List.cons_append,
        List.isPrefixOf_iff_prefix.mpr (List.prefix_append _ _), Bool.true_or]
  | cons c front ih => rw [List.cons_append, holds, ih, Bool.or_true]

end Text

namespace Paste

open Text (bare IsOneLine)

theorem bare_of_afterOperator?
    {text after : Text}
    (found : afterOperator? text = some after) :
    bare text = bare after := by
  obtain ⟨before, behind, rfl, blankBefore, blankBehind⟩ :=
    exists_of_afterOperator? found
  rw [Text.bare_append, Text.bare_hash, Text.bare_hash, Text.bare_append,
    Text.bare_of_isBlank blankBefore, Text.bare_of_isBlank blankBehind]
  rfl

theorem bare_takeChain (text : Text) :
    bare text = bare (takeChain text).1.flatten ++ bare (takeChain text).2 := by
  fun_induction takeChain text with
  | case1 text none => rfl
  | case2 text after found chain ih =>
      calc bare text
        _ = bare after := bare_of_afterOperator? found
        _ = bare (takeToken after).1 ++ bare (takeToken after).2 := by
          rw [← Text.bare_append, (takeToken_spec after).1]
        _ = bare ((takeToken after).1 :: chain.1).flatten ++ bare chain.2 := by
          rw [ih, List.flatten_cons, Text.bare_append, List.append_assoc]

theorem bare_of_chain?
    {text : Text} {chain : Chain}
    (found : chain? text = some chain) :
    bare text = bare chain.token ++ bare chain.after := by
  obtain ⟨_, rfl⟩ := eq_of_chain? found
  rw [Chain.token_eq, List.flatten_cons, Text.bare_append, List.append_assoc,
    ← bare_takeChain, ← Text.bare_append, (takeToken_spec text).1]

theorem bare_replacement (text : Text) (chain : Chain) :
    bare (replacement text chain) = bare chain.token := by
  unfold replacement
  split
  next => exact List.filter_cons_of_neg (by decide)
  next => rfl

/-- A chain has an operator behind its left operand. -/
theorem exists_operator
    {text : Text} {chain : Chain}
    (found : chain? text = some chain) :
    ∃ blanks later, text = chain.left ++ (blanks ++ '#' :: '#' :: later) ∧
      ∀ c ∈ blanks, Text.isBlank c = true := by
  obtain ⟨chained, rfl⟩ := eq_of_chain? found
  rw [takeChain] at chained
  split at chained
  next => exact absurd rfl chained
  next after operator =>
    obtain ⟨blanks, behind, shape, blank, _⟩ :=
      exists_of_afterOperator? operator
    exact ⟨blanks, behind ++ after,
      by rw [← shape, (takeToken_spec text).1], blank⟩

theorem isQuote_of_chain?
    {c : Char} {rest : Text} {chain : Chain}
    (found : chain? (c :: rest) = some chain) :
    Literal.isQuote c = false := by
  obtain ⟨⟨run, shape, inert⟩, _⟩ := chain?_spec found
  cases run with
  | nil =>
      have shorter := chain?_length found
      rw [shape] at shorter
      exact absurd shorter (Nat.lt_irrefl _)
  | cons d run =>
      obtain ⟨rfl, _⟩ := List.cons.inj shape
      exact Place.isQuote_of_isInert (inert c List.mem_cons_self)

theorem takeChain_ne_nil
    {text after : Text}
    (found : afterOperator? text = some after) :
    (takeChain text).1 ≠ [] := by
  rw [takeChain]
  split
  next none =>
    rw [found] at none
    cases none
  next => exact List.cons_ne_nil _ _

theorem chain?_operator (rest : Text) : chain? ('#' :: '#' :: rest) ≠ none := by
  have token : takeToken ('#' :: '#' :: rest) = ([], '#' :: '#' :: rest) := rfl
  have operator : afterOperator? ('#' :: '#' :: rest) =
      some (Text.trimLeft rest) := rfl
  simp [chain?, token, takeChain_ne_nil operator]

/-- Only a chain that begins with its operator may vanish. -/
theorem head?_of_replacement_eq_nil
    {text : Text} {chain : Chain}
    (found : chain? text = some chain)
    (vanishes : replacement text chain = []) :
    text.head? = some '#' := by
  obtain ⟨blanks, later, shape, blank⟩ := exists_operator found
  unfold replacement at vanishes
  split at vanishes
  next => cases vanishes
  next solid =>
    rw [Chain.token_eq, List.flatten_cons] at vanishes
    have noLeft : chain.left = [] := (List.append_eq_nil_iff.mp vanishes).1
    rw [noLeft, List.nil_append] at shape
    cases blanks with
    | nil => rw [shape]; rfl
    | cons c blanks =>
        -- Blanks in place of a left operand leave a space behind.
        apply absurd _ solid
        rw [noLeft, shape]
        simpa using blank c List.mem_cons_self

namespace Pastes

variable {scan : Scan} {text : Text} {result : Result}

theorem bare_eq
    (pastes : Pastes scan text result) :
    bare result.text = bare text := by
  induction pastes with
  | nil => rfl
  | @char _ c rest result _ _ ih =>
      calc bare ([c] ++ result.text)
        _ = bare [c] ++ bare rest := by rw [Text.bare_append, ih]
        _ = bare (c :: rest) := (Text.bare_append [c] rest).symm
  | quoted _ shape _ _ ih => rw [shape, Text.bare_append, Text.bare_append, ih]
  | pasted found _ _ _ ih =>
      rw [Text.bare_append, bare_replacement, ih, bare_of_chain? found]

theorem isOneLine
    (pastes : Pastes scan text result)
    (oneLine : text.IsOneLine) :
    result.text.IsOneLine := by
  induction pastes with
  | nil => exact oneLine
  | char _ _ ih =>
      obtain ⟨first, rest⟩ := List.forall_mem_cons.mp oneLine
      exact List.forall_mem_cons.mpr ⟨first, ih rest⟩
  | quoted _ shape _ _ ih =>
      rw [shape] at oneLine
      obtain ⟨run, after⟩ := List.forall_mem_append.mp oneLine
      exact Text.IsOneLine.append run (ih after)
  | @pasted _ c rest run chain _ found shape _ _ ih =>
      rw [shape] at oneLine
      refine Text.IsOneLine.append ?_ (ih (List.forall_mem_append.mp oneLine).2)
      intro d member
      rcases mem_replacement found member with rfl | inToken
      · rfl
      · by_contra breaks
        rw [Bool.not_eq_false, Text.isLineBreak, Bool.or_eq_true, beq_iff_eq,
          beq_iff_eq] at breaks
        rcases breaks with rfl | rfl
        · exact absurd inToken (by decide)
        · exact absurd inToken (by decide)

/-- On one line, a chain that is replaced stands in code, and the text behind it
too. -/
theorem code_of_uncovered
    {c : Char} {rest run : Text} {chain : Chain}
    (found : chain? (c :: rest) = some chain)
    (shape : c :: rest = run ++ chain.after)
    (uncovered : scan.covers c = false)
    (oneLine : IsOneLine (c :: rest)) :
    scan = .code ∧ scan.run run = .code := by
  obtain rfl :=
    Scan.eq_code_of_not_covers (oneLine c List.mem_cons_self) uncovered
  refine ⟨rfl, Scan.run_code_of_not_quote fun d member => ?_⟩
  exact Place.isQuote_of_isInert (isInert_of_chain? found shape d member)

theorem agree
    (pastes : Pastes scan text result)
    (oneLine : text.IsOneLine) :
    Literal.Agree scan result.text text := by
  induction pastes with
  | nil => exact .refl _ _
  | char _ _ ih => exact .cons (ih (List.forall_mem_cons.mp oneLine).2)
  | quoted _ shape _ _ ih =>
      rw [shape] at oneLine ⊢
      exact .append (ih (List.forall_mem_append.mp oneLine).2)
  | pasted found shape uncovered _ ih =>
      obtain ⟨rfl, inCode⟩ := code_of_uncovered found shape uncovered oneLine
      rw [inCode] at ih
      have behind := (List.forall_mem_append.mp (shape ▸ oneLine)).2
      have kept := (ih behind).skip_append fun c member =>
        Place.isQuote_of_isInert (isInert_of_chain? found shape c member)
      rw [← shape] at kept
      exact (kept.symm.skip_append fun c member =>
        Place.isQuote_of_isInert
          (isInert_of_mem_replacement found c member)).symm

end Pastes

/-- No operator of a text behind `scan` stands in code. -/
def Clear (scan : Scan) (text : Text) : Prop :=
  ∀ front after, text = front ++ '#' :: '#' :: after → scan.run front ≠ .code

namespace Clear

variable {scan : Scan} {left right : Text}

theorem behind
    (clear : Clear scan (left ++ right)) :
    Clear (scan.run left) right := by
  intro front after shape
  rw [← Scan.run_append]
  exact clear (left ++ front) after (by rw [shape, List.append_assoc])

theorem cons
    {c : Char}
    (clear : Clear (scan.step c) right)
    (apart : scan = .code → c = '#' → right.head? ≠ some '#') :
    Clear scan (c :: right) := by
  intro front after shape inCode
  cases front with
  | nil =>
      obtain ⟨rfl, rfl⟩ := List.cons.inj shape
      exact apart inCode rfl rfl
  | cons d front =>
      obtain ⟨rfl, rfl⟩ := List.cons.inj shape
      exact clear front after rfl inCode

theorem append_code
    (clear : Clear .code right)
    (plain : ∀ c ∈ left, Literal.isQuote c = false)
    (solid : '#' ∉ left) :
    Clear .code (left ++ right) := by
  induction left with
  | nil => exact clear
  | cons c left ih =>
      obtain ⟨first, rest⟩ := List.forall_mem_cons.mp plain
      obtain ⟨other, absent⟩ := not_or.mp (List.mem_cons.not.mp solid)
      apply Clear.cons
      · rw [Scan.step_code_of_not_quote first]
        exact ih rest absent
      · intro _ hash
        exact absurd hash.symm other

theorem append_literal
    (clear : Clear (scan.run left) right)
    (genuine : scan.Genuine)
    (inLiteral : scan ≠ .code)
    (plain : ∀ c ∈ left, Literal.isQuote c = false)
    (oneLine : left.IsOneLine) :
    Clear scan (left ++ right) := by
  induction left generalizing scan with
  | nil => exact clear
  | cons c left ih =>
      obtain ⟨first, rest⟩ := List.forall_mem_cons.mp plain
      obtain ⟨goesOn, later⟩ := List.forall_mem_cons.mp oneLine
      have stays :=
        genuine.step_ne_code inLiteral first
          (Scan.covers_of_ne_code inLiteral goesOn)
      exact (ih clear (genuine.step c) stays rest later).cons fun inCode =>
        absurd inCode inLiteral

end Clear

theorem clear_of_holds_eq_false
    {text : Text}
    (free : Text.holds ['#', '#'] text = false) :
    Clear .code text := by
  rintro front after rfl
  have holds := Text.holds_append front ['#', '#'] after (List.cons_ne_nil _ _)
  exact absurd (free.symm.trans holds) Bool.false_ne_true

/-- No operator is left in code.  The second part carries the induction: what is
left of the text begins with a hash only if the text does, so a hash that was
copied does not meet another. -/
theorem Pastes.clear
    {scan : Scan} {text : Text} {result : Result}
    (pastes : Pastes scan text result)
    (genuine : scan.Genuine)
    (oneLine : text.IsOneLine) :
    Clear scan result.text ∧
      (scan = .code → result.text.head? = some '#' →
        text.head? = some '#') := by
  induction pastes with
  | nil scan =>
      exact ⟨fun front after shape => by simp at shape, fun _ none => none⟩
  | @char scan c rest _ none _ ih =>
      obtain ⟨clear, begins⟩ :=
        ih (genuine.step c) (List.forall_mem_cons.mp oneLine).2
      refine ⟨clear.cons ?_, fun _ first => first⟩
      rintro rfl rfl meets
      obtain ⟨later, rfl⟩ := List.head?_eq_some_iff.mp (begins rfl meets)
      exact chain?_operator later none
  | @quoted scan c rest run chain _ found shape covered _ ih =>
      have plain : ∀ d ∈ run, Literal.isQuote d = false := fun d member =>
        Place.isQuote_of_isInert (isInert_of_chain? found shape d member)
      have inLiteral : scan ≠ .code := by
        rintro rfl
        exact absurd (covered.symm.trans (isQuote_of_chain? found))
          Bool.false_ne_true.symm
      obtain ⟨oneRun, oneAfter⟩ := List.forall_mem_append.mp (shape ▸ oneLine)
      obtain ⟨clear, _⟩ := ih (genuine.run run) oneAfter
      exact ⟨clear.append_literal genuine inLiteral plain oneRun,
        fun inCode => absurd inCode inLiteral⟩
  | @pasted scan c rest run chain _ found shape uncovered _ ih =>
      obtain ⟨rfl, inCode⟩ := code_of_uncovered found shape uncovered oneLine
      rw [inCode] at ih
      obtain ⟨clear, _⟩ :=
        ih trivial (List.forall_mem_append.mp (shape ▸ oneLine)).2
      have solid : '#' ∉ replacement (c :: rest) chain := by
        intro member
        rcases mem_replacement found member with space | inToken
        · exact absurd space (by decide)
        · exact absurd inToken (by decide)
      refine ⟨clear.append_code (fun d member => ?_) solid, ?_⟩
      · exact Place.isQuote_of_isInert
          (isInert_of_mem_replacement found d member)
      · intro _ first
        apply head?_of_replacement_eq_nil found
        cases made : replacement (c :: rest) chain with
        | nil => rfl
        | cons d more =>
            rw [made] at first solid
            cases first
            exact absurd List.mem_cons_self solid

/-- Where no operator stands in code there is nothing to paste. -/
theorem Pastes.eq_self
    {scan : Scan} {text : Text} {result : Result}
    (pastes : Pastes scan text result)
    (oneLine : text.IsOneLine)
    (clear : Clear scan text) :
    result = ⟨text, []⟩ := by
  induction pastes with
  | nil => rfl
  | @char scan c rest _ _ _ ih =>
      have behind : Clear (scan.step c) rest :=
        @Clear.behind scan [c] rest clear
      rw [ih (List.forall_mem_cons.mp oneLine).2 behind]
  | quoted _ shape _ _ ih =>
      have behind := (List.forall_mem_append.mp (shape ▸ oneLine)).2
      rw [shape] at clear
      rw [ih behind clear.behind, shape]
  | @pasted scan c rest run chain _ found shape uncovered _ _ =>
      obtain ⟨rfl, _⟩ := code_of_uncovered found shape uncovered oneLine
      obtain ⟨blanks, later, operator, blank⟩ := exists_operator found
      rw [← List.append_assoc] at operator
      apply absurd _ (clear _ later operator)
      apply Scan.run_code_of_not_quote
      intro d member
      rcases List.mem_append.mp member with inLeft | inBlanks
      · have inToken : d ∈ chain.token := by
          rw [Chain.token_eq, List.flatten_cons]
          exact List.mem_append_left _ inLeft
        exact Place.isQuote_of_isInert
          (isInert_of_isTokenChar ((chain?_spec found).2 d inToken))
      · exact Text.isQuote_of_isBlank (blank d inBlanks)

theorem pastes_apply
    {text : Text}
    (oneLine : text.IsOneLine) :
    Pastes .code text (apply text) := by
  have pastes := pastes_applyFrom text
  unfold apply
  split
  next => exact pastes
  next free =>
    have clear := clear_of_holds_eq_false (Bool.eq_false_iff.mpr free)
    rwa [pastes.eq_self oneLine clear] at pastes

/-- Every operator of a text lies in a literal. -/
def IsPasted (text : Text) : Prop :=
  ∀ index, text[index]? = some '#' → text[index + 1]? = some '#' →
    Span.covered (Literal.spans text) index = true ∧
      Span.covered (Literal.spans text) (index + 1) = true

theorem isPasted_iff (text : Text) : IsPasted text ↔ Clear .code text := by
  constructor
  · rintro pasted front after rfl inCode
    have covered := (pasted front.length (by simp) (by simp)).1
    rw [Literal.covered_spans, inCode] at covered
    exact absurd covered (by decide)
  · intro clear index first second
    obtain ⟨front, rest, rfl, rfl⟩ := List.exists_append_of_getElem? first
    rw [List.getElem?_append_right (by omega), Nat.add_sub_cancel_left,
      List.getElem?_cons_succ, ← List.head?_eq_getElem?] at second
    obtain ⟨after, rfl⟩ := List.head?_eq_some_iff.mp second
    have inLiteral := clear front after rfl
    have outside : Scan.code.Genuine := trivial
    have genuine := outside.run front
    have covered : (Scan.code.run front).covers '#' = true :=
      Scan.covers_of_ne_code inLiteral (by decide)
    have stays := genuine.step_ne_code inLiteral (by decide) covered
    constructor
    · rw [Literal.covered_spans]
      exact covered
    · have behind := Literal.covered_spans (front ++ ['#']) '#' after
      rw [Scan.run_append, List.length_append, List.append_assoc] at behind
      exact behind.trans (Scan.covers_of_ne_code stays (by decide))

end Paste

namespace Extraction

open Text (IsOneLine)

theorem isOneLine_record
    (path : String) (number : Int)
    {kind : String}
    (oneLine : IsOneLine kind.toList)
    (name : Text) :
    IsOneLine (TypeName.record path number kind name).body := by
  have shape : (TypeName.record path number kind name).body =
      "/* ".toList ++ kind.toList ++ " */".toList := by
    simp only [TypeName.record, String.toList_append, toString]
  rw [shape]
  exact ((by decide : IsOneLine "/* ".toList).append oneLine).append (by decide)

theorem isOneLine_ofWritten (path : String) (number : Int) (name rest : Text) :
    IsOneLine
      (Definition.ofWritten path number name
        (Definition.Written.ofText rest)).body := by
  have body : IsOneLine (Definition.Written.ofText rest).body :=
    Text.isOneLine_normalizeBlanks _
  unfold Definition.ofWritten
  split
  next => exact body
  next => exact Text.IsOneLine.append (by decide) body

theorem kind_of_declaration?
    {line name : Text} {kind : String}
    (declares : declaration? line = some (.tagged kind name)) :
    kind = "struct" ∨ kind = "union" := by
  unfold declaration? at declares
  split at declares
  next => cases declares
  next =>
    split at declares
    next =>
      cases declares
      exact .inl rfl
    next =>
      split at declares
      next =>
        cases declares
        exact .inr rfl
      next =>
        split at declares
        next => cases declares
        next =>
          split at declares
          next => cases declares
          next => cases declares

theorem isOneLine_of_mem_declare
    {path : String} {line : QueuedLine} {queue : LineQueue}
    {declaration : Declaration}
    (declares : declaration? line.text = some declaration) :
    ∀ definition ∈ (declare path line queue declaration).1,
      IsOneLine definition.body := by
  have recorded
      {kind : String}
      (oneLine : IsOneLine kind.toList)
      {names : List Text}
      {definition : Definition}
      (member : definition ∈
        names.map (TypeName.record path line.number kind)) :
      IsOneLine definition.body := by
    obtain ⟨name, _, rfl⟩ := List.mem_map.mp member
    exact isOneLine_record path line.number oneLine name
  intro definition member
  cases declaration with
  | typedef => exact recorded (by decide) member
  | tagged kind name =>
      rw [List.mem_singleton.mp member]
      rcases kind_of_declaration? declares with rfl | rfl
      · exact isOneLine_record _ _ (by decide) _
      · exact isOneLine_record _ _ (by decide) _
  | enumeration tag =>
      rcases List.mem_append.mp member with tagged | constant
      · exact recorded (by decide) tagged
      · exact recorded (by decide) constant

theorem isOneLine_body
    {path : String} {detectTypes : Bool} {source : Text}
    {definition : Definition}
    (member : definition ∈ (ofText path detectTypes source).definitions) :
    definition.body.IsOneLine := by
  obtain ⟨line, _, defines | ⟨queue, declaration, declares, declared⟩⟩ :=
    exists_adds member
  · obtain ⟨directive, _, rfl⟩ := Option.map_eq_some_iff.mp defines
    exact isOneLine_ofWritten _ _ _ _
  · exact isOneLine_of_mem_declare declares definition declared

end Extraction

namespace Paste

open Text (bare IsOneLine)

/-- On one line, pasting removes every operator outside the literals and nothing
else: it keeps the literals and all characters but hashes and blanks, and it
leaves a text alone that has no such operator, so pasting again does nothing.
All bodies that are read from source texts are single lines. -/
theorem apply_removes_operators :
    (∀ text : Text, text.IsOneLine →
      IsPasted (apply text).text ∧
        apply (apply text).text = ⟨(apply text).text, []⟩ ∧
        Literal.texts (apply text).text = Literal.texts text ∧
        bare (apply text).text = bare text ∧
        (IsPasted text → apply text = ⟨text, []⟩)) ∧
      ∀ (path : String) (detectTypes : Bool) (source : Text),
        ∀ definition ∈ (Extraction.ofText path detectTypes source).definitions,
          definition.body.IsOneLine := by
  constructor
  · intro text oneLine
    have pastes := pastes_apply oneLine
    have pasted := (pastes.clear trivial oneLine).1
    have oneResult := pastes.isOneLine oneLine
    refine ⟨(isPasted_iff _).mpr pasted, ?_, (pastes.agree oneLine).texts_eq,
      pastes.bare_eq, ?_⟩
    · exact (pastes_apply oneResult).eq_self oneResult pasted
    · intro already
      exact pastes.eq_self oneLine ((isPasted_iff text).mp already)
  · intro path detectTypes source definition member
    exact Extraction.isOneLine_body member

def joiningText : Text :=
  "#define JOIN x ## \"a ## b\" ###y # ## ##z".toList

def joiningMacro : Definition :=
  ⟨"JOIN".toList, none, "x ## \"a ## b\" ###y # ## ##z".toList,
    "join.h", 1, true⟩

def joinedBody : Text :=
  "x\"a ## b\" #y # z".toList

theorem apply_removes_operators_joining :
    joiningMacro ∈ (Extraction.ofText "join.h" false joiningText).definitions ∧
      joiningMacro.body.IsOneLine ∧
      apply joiningMacro.body =
        ⟨joinedBody, [⟨['x'], [['x']]⟩, ⟨['z'], [['z']]⟩]⟩ ∧
      IsPasted joinedBody ∧
      apply joinedBody = ⟨joinedBody, []⟩ ∧
      Literal.texts joinedBody = Literal.texts joiningMacro.body := by
  have extracted : joiningMacro ∈
      (Extraction.ofText "join.h" false joiningText).definitions := by
    decide +kernel
  have joined : apply joiningMacro.body =
      ⟨joinedBody, [⟨['x'], [['x']]⟩, ⟨['z'], [['z']]⟩]⟩ := by
    decide +kernel
  obtain ⟨removes, bodies⟩ := apply_removes_operators
  have oneLine := bodies _ _ _ _ extracted
  obtain ⟨pasted, again, literals, _⟩ := removes joiningMacro.body oneLine
  rw [joined] at pasted again literals
  exact ⟨extracted, oneLine, joined, pasted, again, literals⟩

end Paste

end MacroTrace
