import MacroTrace.Proofs.Occurrence
import MacroTrace.Proofs.Outline

/-!
# The normal form of a text with groups

Simplifying a text removes its redundant parentheses.  The main statement is
that this is a normal form: simplifying again changes nothing, and in what a
balanced text becomes no group holds, up to blanks, just another group.
-/

namespace MacroTrace

open Literal (Scan)

namespace Part

theorem soleGroup?_eq_some
    {parts : List Part} {part : Part}
    (sole : soleGroup? parts = some part) :
    parts.filter (fun part => !part.isBlank) = [part] ∧
      ∃ inner, part = .group inner := by
  unfold soleGroup? at sole
  split at sole
  next inner filtered =>
    cases sole
    exact ⟨filtered, inner, rfl⟩
  next => cases sole

theorem soleGroup?_of_filter
    {parts inner : List Part}
    (filtered : parts.filter (fun part => !part.isBlank) = [.group inner]) :
    soleGroup? parts = some (.group inner) := by
  rw [soleGroup?, filtered]

theorem mem_of_soleGroup?
    {parts : List Part} {part : Part}
    (sole : soleGroup? parts = some part) :
    part ∈ parts := by
  have only := (soleGroup?_eq_some sole).1
  apply List.mem_of_mem_filter (p := fun part => !part.isBlank)
  rw [only]
  exact List.mem_singleton_self part

/-- A group stays a group. -/
theorem exists_strip_group (inner : List Part) :
    ∃ content, strip (.group inner) = .group content := by
  rw [strip]
  cases sole : soleGroup? (inner.map strip) with
  | none => exact ⟨_, rfl⟩
  | some part =>
      obtain ⟨content, rfl⟩ := (soleGroup?_eq_some sole).2
      exact ⟨content, rfl⟩

/-- Parts in which no group holds, up to blanks, just another group. -/
inductive Normal : List Part → Prop where
  | nil : Normal []
  | char {c : Char} {rest : List Part} : Normal rest → Normal (.char c :: rest)
  | group {inner rest : List Part} :
      soleGroup? inner = none →
      Normal inner →
      Normal rest →
      Normal (.group inner :: rest)

theorem Normal.append
    {left right : List Part}
    (first : Normal left)
    (second : Normal right) :
    Normal (left ++ right) := by
  induction first with
  | nil => exact second
  | char rest ih => exact .char ih
  | group shallow inner rest _ ih => exact .group shallow inner ih

theorem Normal.of_mem
    {parts : List Part}
    (normal : Normal parts)
    {part : Part}
    (member : part ∈ parts) :
    Normal [part] := by
  induction normal with
  | nil => cases member
  | char rest ih =>
      rcases List.mem_cons.mp member with rfl | member
      · exact .char .nil
      · exact ih member
  | group shallow inner rest _ ih =>
      rcases List.mem_cons.mp member with rfl | member
      · exact .group shallow inner .nil
      · exact ih member

/-- Normal parts are not changed. -/
theorem Normal.map_strip
    {parts : List Part}
    (normal : Normal parts) :
    parts.map strip = parts := by
  induction normal with
  | nil => rfl
  | char rest ih => rw [List.map_cons, strip, ih]
  | group shallow inner rest innerIh ih =>
      rw [List.map_cons, strip, innerIh, shallow, ih]
      rfl

namespace Reads

variable {scan last : Scan} {parts : List Part}

theorem normal_strip
    (reads : Reads scan parts last) :
    Normal (parts.map strip) := by
  induction reads with
  | nil scan => exact .nil
  | char allowed rest ih =>
      rw [List.map_cons, strip]
      exact .char ih
  | @group inner rest last readsInner reads innerIh ih =>
      have here : Normal [strip (.group inner)] := by
        rw [strip]
        cases sole : soleGroup? (inner.map strip) with
        | none => exact .group sole innerIh .nil
        | some part => exact innerIh.of_mem (mem_of_soleGroup? sole)
      exact here.append ih

/-- A group anywhere among parts can be read by itself. -/
theorem of_mem_group
    (reads : Reads scan parts last)
    {inner : List Part}
    (member : .group inner ∈ parts) :
    Reads .code [.group inner] .code := by
  induction reads with
  | nil scan => cases member
  | char allowed rest ih =>
      rcases List.mem_cons.mp member with same | member
      · cases same
      · exact ih member
  | group readsInner rest _ ih =>
      rcases List.mem_cons.mp member with same | member
      · cases same
        exact .group readsInner (.nil .code)
      · exact ih member

theorem map_strip
    (reads : Reads scan parts last) :
    Reads scan (parts.map strip) last := by
  induction reads with
  | nil scan => exact .nil scan
  | char allowed rest ih =>
      rw [List.map_cons, strip]
      exact .char allowed ih
  | @group inner rest last readsInner reads innerIh ih =>
      have here : Reads .code [strip (.group inner)] .code := by
        rw [strip]
        cases sole : soleGroup? (inner.map strip) with
        | none => exact .group innerIh (.nil .code)
        | some part =>
            obtain ⟨content, rfl⟩ := (soleGroup?_eq_some sole).2
            exact innerIh.of_mem_group (mem_of_soleGroup? sole)
      exact here.append ih

end Reads

theorem head?_write_strip (parts : List Part) :
    (write (parts.map strip)).head? = (write parts).head? := by
  cases parts with
  | nil => rfl
  | cons part rest =>
      cases part with
      | char c =>
          rw [List.map_cons, strip, write_char, write_char, List.head?_cons,
            List.head?_cons]
      | group inner =>
          obtain ⟨content, stripped⟩ := exists_strip_group inner
          rw [List.map_cons, stripped, write_group, write_group,
            List.head?_cons, List.head?_cons]

theorem getLast?_write_strip (parts : List Part) :
    (write (parts.map strip)).getLast? = (write parts).getLast? := by
  rcases List.eq_nil_or_concat parts with rfl | ⟨front, part, rfl⟩
  · rfl
  · rw [List.concat_eq_append, List.map_append, write_append, write_append,
      List.map_singleton]
    cases part with
    | char c =>
        rw [strip, write_char, List.getLast?_append, List.getLast?_append]; rfl
    | group inner =>
        obtain ⟨content, stripped⟩ := exists_strip_group inner
        have ending (front : Text) (parts : List Part) :
            (front ++ write [.group parts]).getLast? = some ')' := by
          rw [write_group, write_nil, ← List.cons_append, ← List.append_assoc,
            List.getLast?_concat]
        rw [stripped, ending, ending]

theorem trimmed_write_strip
    {parts : List Part}
    (trimmed : Text.Trimmed (write parts)) :
    Text.Trimmed (write (parts.map strip)) := by
  constructor
  · intro c head
    rw [head?_write_strip] at head
    exact trimmed.first c head
  · intro c ending
    rw [getLast?_write_strip] at ending
    exact trimmed.last c ending

/-- A parenthesis that is opened outside literals begins a group. -/
theorem Reads.exists_group
    {scan last : Scan} {parts : List Part}
    (reads : Reads scan parts last)
    {front behind : Text}
    (shape : write parts = front ++ '(' :: behind)
    (uncovered : (scan.run front).covers '(' = false) :
    ∃ inner after,
      behind = write inner ++ ')' :: after ∧
        Reads .code inner .code ∧
        (Normal parts → soleGroup? inner = none) := by
  induction reads generalizing front behind with
  | nil scan =>
      rw [write_nil] at shape
      exact absurd shape.symm (by simp)
  | @char scan last c rest allowed reads ih =>
      rw [write_char] at shape
      cases front with
      | nil =>
          obtain ⟨rfl, _⟩ := List.cons.inj shape
          rcases allowed with covered | ⟨other, _⟩
          · rw [Scan.run_nil, covered] at uncovered
            cases uncovered
          · exact absurd rfl other
      | cons d front =>
          obtain ⟨rfl, tail⟩ := List.cons.inj shape
          obtain ⟨inner, after, found, readsInner, shallow⟩ := ih tail uncovered
          refine ⟨inner, after, found, readsInner, ?_⟩
          intro normal
          cases normal with
          | char normalRest => exact shallow normalRest
  | @group inner rest last readsInner reads innerIh ih =>
      rw [write_group] at shape
      cases front with
      | nil =>
          refine ⟨inner, write rest, (List.cons.inj shape).2.symm,
            readsInner, ?_⟩
          intro normal
          cases normal with
          | group shallow _ _ => exact shallow
      | cons d front =>
          obtain ⟨rfl, tail⟩ := List.cons.inj shape
          have opens : Scan.code.run ('(' :: front) = Scan.code.run front := rfl
          rw [opens] at uncovered
          rcases List.append_eq_append_iff.mp tail with
            ⟨middle, split, later⟩ | ⟨middle, split, later⟩
          · -- The parenthesis stands behind this group.
            cases middle with
            | nil => cases (List.cons.inj later).1
            | cons d middle =>
                obtain ⟨rfl, further⟩ := List.cons.inj later
                have closes : Scan.code.run (')' :: middle) =
                    Scan.code.run middle := rfl
                rw [split, Scan.run_append, readsInner.run, closes] at uncovered
                obtain ⟨content, after, found, readsContent, shallow⟩ :=
                  ih further uncovered
                refine ⟨content, after, found, readsContent, ?_⟩
                intro normal
                cases normal with
                | group _ _ normalRest => exact shallow normalRest
          · -- It stands inside.
            cases middle with
            | nil => cases (List.cons.inj later).1
            | cons d middle =>
                rw [List.cons_append] at later
                obtain ⟨rfl, further⟩ := List.cons.inj later
                obtain ⟨content, after, found, readsContent, shallow⟩ :=
                  innerIh split uncovered
                refine ⟨content, after ++ ')' :: write rest, ?_,
                  readsContent, ?_⟩
                · rw [further, found, List.append_assoc, List.cons_append]
                · intro normal
                  cases normal with
                  | group _ normalInner _ => exact shallow normalInner

/-- The group that begins at a parenthesis ends where it closes. -/
theorem Reads.closing?
    {inner : List Part}
    (reads : Reads .code inner .code)
    (front after : Text) :
    Nesting.closing? (front ++ '(' :: (write inner ++ ')' :: after))
        front.length =
      some (front.length + 1 + (write inner).length) := by
  have passed :=
    reads.closingFrom (Int.le_refl 1) (front.length + 1) (')' :: after)
  rw [Nesting.closing?, List.drop_left]
  change Nesting.closingFrom .code 1 (front.length + 1)
    (write inner ++ ')' :: after) = _
  rw [passed]
  rfl

theorem isBlank_of_write
    {parts : List Part}
    (blank : ∀ c ∈ write parts, Text.isBlank c = true) :
    parts.filter (fun part => !part.isBlank) = [] := by
  induction parts with
  | nil => rfl
  | cons part rest ih =>
      cases part with
      | char c =>
          rw [write_char] at blank
          have here := blank c List.mem_cons_self
          rw [List.filter_cons_of_neg (by simp [isBlank, here])]
          exact ih fun d member => blank d (List.mem_cons_of_mem _ member)
      | group inner =>
          rw [write_group] at blank
          exact absurd (blank '(' List.mem_cons_self) (by decide)

/-- Parts between two parentheses make, up to blanks, a single group only if
there is just one part, a group, that is not blank. -/
theorem Reads.soleGroup?_of_isWrapped
    {last : Scan} {parts : List Part}
    (reads : Reads .code parts last)
    (wrapped : Nesting.isWrapped (write parts) = true) :
    soleGroup? parts ≠ none := by
  induction parts with
  | nil => cases wrapped
  | cons part rest ih =>
      cases reads with
      | @char _ _ c _ allowed reads =>
          rw [write_char] at wrapped
          cases blank : Text.isBlank c with
          | true =>
              have skipped : Text.trim (c :: write rest) =
                  Text.trim (write rest) := by
                rw [Text.trim, Text.trimLeft, List.dropWhile_cons_of_pos blank]
                rfl
              have kept : soleGroup? (.char c :: rest) = soleGroup? rest := by
                rw [soleGroup?,
                  List.filter_cons_of_neg (by simp [isBlank, blank]),
                  soleGroup?]
              rw [Place.step_code_of_inert (Text.isInert_of_isBlank blank)]
                at reads
              rw [kept]
              apply ih reads
              rw [Nesting.isWrapped, skipped] at wrapped
              exact wrapped
          | false =>
              simp only [Nesting.isWrapped, Text.trim_cons_of_solid blank,
                List.head?_cons, Bool.and_eq_true, beq_iff_eq,
                Option.some.injEq] at wrapped
              obtain ⟨⟨rfl, _⟩, _⟩ := wrapped
              rcases allowed with covered | ⟨other, _⟩
              · cases covered
              · exact absurd rfl other
      | @group inner _ _ readsInner reads =>
          have trimmed : Text.trim (write (.group inner :: rest)) =
              '(' :: (write inner ++ ')' :: Text.trimRight (write rest)) := by
            have ending : (write inner ++ [')']).getLast? = some ')' :=
              List.getLast?_concat
            have kept := Text.trimRight_append ending rfl (write rest)
            rw [List.append_assoc, List.append_assoc] at kept
            rw [write_group, Text.trim_cons_of_solid rfl]
            exact congrArg _ kept
          have closed := readsInner.closing? [] (Text.trimRight (write rest))
          rw [List.nil_append, List.length_nil] at closed
          simp only [Nesting.isWrapped, trimmed, closed,
            Bool.and_eq_true, beq_iff_eq, Option.some.injEq, List.length_cons,
            List.length_append] at wrapped
          -- The group ends where the text does, so nothing but blanks follows
          -- it.
          have nothing : Text.trimRight (write rest) = [] := by
            apply List.eq_nil_of_length_eq_zero
            omega
          obtain ⟨blanks, blank, shape⟩ :=
            Text.exists_trimRight_append (write rest)
          rw [nothing, List.nil_append] at shape
          have only :
              (Part.group inner :: rest).filter (fun part => !part.isBlank) =
                [.group inner] := by
            rw [List.filter_cons_of_pos rfl, isBlank_of_write (shape ▸ blank)]
          rw [soleGroup?_of_filter only]
          exact Option.some_ne_none _

end Part

namespace Nesting

/-- Blanks at the end of a text do not matter to its balance, also inside a
literal. -/
theorem balancedFrom_append_of_inert
    {blanks : Text}
    (inert : ∀ c ∈ blanks, Place.isInert c = true)
    (text : Text) (scan : Scan) (depth : Nat) :
    balancedFrom scan depth (text ++ blanks) =
      balancedFrom scan depth text := by
  have alone (scan : Scan) (depth : Nat) : balancedFrom scan depth blanks =
      (depth == 0) := by
    induction blanks generalizing scan with
    | nil => rfl
    | cons c rest ih =>
        have later := ih fun d member => inert d (List.mem_cons_of_mem _ member)
        have here := inert c List.mem_cons_self
        rw [Place.isInert_iff] at here
        simp [balancedFrom, here, later]
  fun_induction balancedFrom scan depth text with
  | case1 scan depth => exact alone scan depth
  | case2 scan depth c rest covered ih => simp [balancedFrom, covered, ih]
  | case3 scan depth rest uncovered ih => simp [balancedFrom, uncovered, ih]
  | case4 scan rest uncovered notOpening => simp [balancedFrom, uncovered]
  | case5 scan rest depth uncovered notOpening ih =>
      simp [balancedFrom, uncovered, ih]
  | case6 scan depth c rest uncovered notOpening notClosing ih =>
      simp [balancedFrom, uncovered, notOpening, notClosing, ih]

theorem isBalanced_append_of_inert
    {blanks : Text}
    (inert : ∀ c ∈ blanks, Place.isInert c = true)
    (text : Text) :
    isBalanced (blanks ++ text) = isBalanced text := by
  induction blanks with
  | nil => rfl
  | cons c rest ih =>
      have later := ih fun d member => inert d (List.mem_cons_of_mem _ member)
      have here := inert c List.mem_cons_self
      have step := Place.step_code_of_inert here
      rw [Place.isInert_iff] at here
      rw [← later]
      simp [isBalanced, balancedFrom, here, step]

theorem isBalanced_trim (text : Text) :
    isBalanced (Text.trim text) = isBalanced text := by
  obtain ⟨blanks, blank, shape⟩ :=
    Text.exists_trimRight_append (Text.trimLeft text)
  have leading : ∀ c ∈ text.takeWhile Text.isBlank, Place.isInert c = true :=
    fun c member => Text.isInert_of_isBlank (List.mem_takeWhile_imp member)
  have trailing : ∀ c ∈ blanks, Place.isInert c = true :=
    fun c member => Text.isInert_of_isBlank (blank c member)
  calc isBalanced (Text.trim text)
      = isBalanced (Text.trim text ++ blanks) :=
        (balancedFrom_append_of_inert trailing _ _ _).symm
    _ = isBalanced (Text.trimLeft text) := by rw [Text.trim, ← shape]
    _ = isBalanced (text.takeWhile Text.isBlank ++ Text.trimLeft text) :=
        (isBalanced_append_of_inert leading _).symm
    _ = isBalanced text := by rw [Text.trimLeft_append]

end Nesting

namespace Group

open MacroTrace.Part (Reads Normal write)

/-- Parts that write a trimmed text are written again without redundant
layers. -/
theorem simplify_write
    {parts : List Part} {last : Scan}
    (reads : Reads .code parts last)
    (trimmed : Text.Trimmed (write parts)) :
    simplify (write parts) = write (parts.map Part.strip) := by
  rw [simplify, reads.isBalanced, if_pos rfl, trimmed.trim_eq, strip,
    reads.ofText]
  exact List.append_nil _

theorem simplify_trim
    {text : Text}
    (balanced : Nesting.isBalanced text = true) :
    simplify (Text.trim text) = simplify text := by
  rw [simplify, simplify, Nesting.isBalanced_trim, balanced,
    (Text.trimmed_trim text).trim_eq]
  rfl

/-- What a balanced text is simplified to is written by normal parts. -/
theorem exists_simplify
    {text : Text}
    (balanced : Nesting.isBalanced text = true) :
    ∃ parts last,
      Reads .code parts last ∧ write parts = Text.trim text ∧
        simplify text = write (parts.map Part.strip) := by
  have trimmed := Text.trimmed_trim text
  obtain ⟨parts, last, reads, written⟩ :=
    Part.exists_reads ((Nesting.isBalanced_trim text).trans balanced)
  rw [← written] at trimmed
  refine ⟨parts, last, reads, written, ?_⟩
  rw [← simplify_trim balanced, ← written, simplify_write reads trimmed]

/-- In a text that normal parts write, every group closes and is not just
another group. -/
theorem exists_closing_of_normal
    {parts : List Part} {last : Scan}
    (reads : Reads .code parts last)
    (normal : Normal parts)
    {start : Nat}
    (opening : (write parts)[start]? = some '(')
    (uncovered : Span.covered (Literal.spans (write parts)) start = false) :
    ∃ stop,
      Nesting.closing? (write parts) start = some stop ∧
        Nesting.isWrapped (Text.slice (write parts) ⟨start + 1, stop⟩) =
          false := by
  obtain ⟨front, behind, shape, rfl⟩ := List.exists_append_of_getElem? opening
  rw [shape, Literal.covered_spans] at uncovered
  obtain ⟨inner, after, rfl, readsInner, shallow⟩ :=
    reads.exists_group shape uncovered
  refine ⟨front.length + 1 + (write inner).length, ?_, ?_⟩
  · rw [shape, readsInner.closing?]
  · have content : Text.slice (write parts)
        ⟨front.length + 1, front.length + 1 + (write inner).length⟩ =
          write inner := by
      rw [shape, Text.slice, Nat.add_sub_cancel_left, ← List.drop_drop,
        List.drop_left, List.drop_one, List.tail_cons, List.take_left]
    rw [content]
    by_contra wrapped
    rw [Bool.not_eq_false] at wrapped
    exact readsInner.soleGroup?_of_isWrapped wrapped (shallow normal)

/-- Simplifying a text gives its normal form: another time changes nothing, and
if the text is balanced, so is the result, and every group in it closes and is
not, up to blanks, just another group in parentheses. -/
theorem simplify_isNormal (text : Text) :
    simplify (simplify text) = simplify text ∧
      (Nesting.isBalanced text = true →
        Nesting.isBalanced (simplify text) = true ∧
          ∀ start,
            (simplify text)[start]? = some '(' →
            Span.covered (Literal.spans (simplify text)) start = false →
            ∃ stop,
              Nesting.closing? (simplify text) start = some stop ∧
                Nesting.isWrapped
                  (Text.slice (simplify text) ⟨start + 1, stop⟩) = false) := by
  cases balanced : Nesting.isBalanced text with
  | false =>
      have same : simplify text = text := by
        rw [simplify, balanced]
        rfl
      refine ⟨?_, fun impossible => by cases impossible⟩
      rw [same, same]
  | true =>
      obtain ⟨parts, last, reads, written, simplified⟩ :=
        exists_simplify balanced
      have trimmed : Text.Trimmed (write (parts.map Part.strip)) := by
        apply Part.trimmed_write_strip
        rw [written]
        exact Text.trimmed_trim text
      rw [simplified]
      refine ⟨?_, fun _ => ⟨reads.map_strip.isBalanced, ?_⟩⟩
      · rw [simplify_write reads.map_strip trimmed,
          reads.normal_strip.map_strip]
      · intro start opening uncovered
        exact exists_closing_of_normal reads.map_strip reads.normal_strip
          opening uncovered

/-- A call in redundant layers, in front of a literal that the end of the text
cuts short. -/
theorem simplify_isNormal_layers :
    Nesting.isBalanced " ( ( f((a)) ) ) \"((".toList = true ∧
      simplify " ( ( f((a)) ) ) \"((".toList = "( f(a) ) \"((".toList ∧
      ∃ stop,
        Nesting.closing? "( f(a) ) \"((".toList 3 = some stop ∧
          Nesting.isWrapped (Text.slice "( f(a) ) \"((".toList ⟨3 + 1, stop⟩) =
            false := by
  have simplified : simplify " ( ( f((a)) ) ) \"((".toList =
      "( f(a) ) \"((".toList := by cbv
  have balanced : Nesting.isBalanced " ( ( f((a)) ) ) \"((".toList = true := by
    decide
  have normal :=
    ((simplify_isNormal " ( ( f((a)) ) ) \"((".toList).2 balanced).2 3
  rw [simplified] at normal
  exact ⟨balanced, simplified, normal (by decide) (by decide)⟩

end Group

end MacroTrace
