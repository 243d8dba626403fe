import MacroTrace.Proofs.CommentRemoval
import MacroTrace.Proofs.Evaluation
import MacroTrace.Proofs.Laminar

/-!
# Stringified arguments

An argument behind the operator `#` becomes one string literal, and the argument
can be read off it.  Wherever the literal begins outside the literals of a text
it is one of them, so no invocation and no parenthesis is found in it.  Behind a
quote that nothing closes it is not: then its first quote ends the literal in
front, and its content is rescanned like any other text.
-/

namespace MacroTrace

open Literal (Scan)

namespace Literal

/-- The characters do not lead the scan out of the literal that it is in. -/
def Scan.Keeps : Scan → Text → Prop
  | _, [] => True
  | scan, c :: rest => scan.step c ≠ .code ∧ (scan.step c).Keeps rest

theorem spansFrom_of_keeps
    {scan : Scan} {content : Text}
    (inLiteral : scan ≠ .code)
    (keeps : scan.Keeps content)
    (opened offset : Nat) (found : List (Span Nat)) (rest : Text) :
    spansFrom scan opened offset found (content ++ rest) =
      spansFrom (scan.run content) opened
        (offset + content.length) found rest := by
  induction content generalizing scan offset with
  | nil => rfl
  | cons c content ih =>
      have later := ih keeps.1 keeps.2 (offset + 1)
      rw [Nat.add_right_comm] at later
      rw [List.cons_append, Scan.run_cons, List.length_cons,
        ← Nat.add_assoc, ← later]
      cases scan with
      | code => exact absurd rfl inLiteral
      | escaped quote => rfl
      | inside quote =>
          have goesOn := keeps.1
          rw [spansFrom]
          cases reached : (Scan.inside quote).step c with
          | code => exact absurd reached goesOn
          | inside other => rfl
          | escaped other => rfl

/-- A scan that gets back to code has found the literals of the part read. -/
theorem exists_spansFrom_append
    {scan : Scan} {front : Text}
    (code : scan.run front = .code)
    (opened offset : Nat) (found : List (Span Nat)) (rest : Text) :
    ∃ last earlier,
      spansFrom scan opened offset found (front ++ rest) =
        spansFrom .code last (offset + front.length) earlier rest := by
  induction front generalizing scan opened offset found with
  | nil =>
      obtain rfl : scan = .code := code
      exact ⟨opened, found, rfl⟩
  | cons c front ih =>
      have length : offset + (c :: front).length =
          offset + 1 + front.length := by
        rw [List.length_cons]
        omega
      rw [List.cons_append, length]
      rw [Scan.run_cons] at code
      cases scan with
      | code => exact ih code _ _ _
      | escaped quote => exact ih code _ _ _
      | inside quote =>
          rw [spansFrom]
          cases reached : (Scan.inside quote).step c with
          | code =>
              rw [reached] at code
              exact ih code _ _ _
          | inside other =>
              rw [reached] at code
              exact ih code _ _ _
          | escaped other =>
              rw [reached] at code
              exact ih code _ _ _

/-- A quote, characters inside its literal, and the quote again are a literal of
every text in which they begin outside literals. -/
theorem mem_spans_of_keeps
    {quote : Char} {content : Text}
    (quotes : isQuote quote = true)
    (keeps : (Scan.inside quote).Keeps content)
    (ends : (Scan.inside quote).run content = .inside quote)
    {front : Text}
    (code : Scan.code.run front = .code)
    (behind : Text) :
    ⟨front.length, front.length + (quote :: (content ++ [quote])).length⟩ ∈
      spans (front ++ quote :: (content ++ [quote]) ++ behind) := by
  have closes : (Scan.inside quote).step quote = .code := by
    have notEscape : quote ≠ '\\' := by
      rintro rfl
      exact absurd quotes (by decide)
    simp [Scan.step, notEscape]
  obtain ⟨last, earlier, reached⟩ := exists_spansFrom_append code 0 0 []
    (quote :: (content ++ quote :: behind))
  have opens : spansFrom .code last (0 + front.length) earlier
        (quote :: (content ++ quote :: behind)) =
      spansFrom (.inside quote) front.length (front.length + 1) earlier
        (content ++ quote :: behind) := by
    rw [spansFrom, Scan.step, if_pos quotes, Nat.zero_add]
  have whole : front ++ quote :: (content ++ [quote]) ++ behind =
      front ++ quote :: (content ++ quote :: behind) := by simp
  rw [spans, whole, reached, opens, spansFrom_of_keeps (by simp) keeps,
    ends, spansFrom]
  simp only [closes]
  have covered : (Scan.inside quote).covers quote = true := by
    simp [Scan.covers]
  rw [if_pos covered, spansFrom_found, List.mem_append]
  refine .inl (List.mem_reverse.mpr ?_)
  have length : front.length + (quote :: (content ++ [quote])).length =
      front.length + 1 + content.length + 1 := by
    simp only [List.length_cons, List.length_append, List.length_nil]
    omega
  rw [length]
  exact List.mem_cons_self

theorem endFrom_escape (quote c : Char) (offset : Nat) (rest : Text) :
    endFrom quote offset ('\\' :: c :: rest) =
      endFrom quote (offset + 2) rest := by
  conv_lhs => unfold endFrom
  rw [if_pos rfl]

theorem endFrom_of_ne
    {quote c : Char}
    (notEscape : c ≠ '\\')
    (notQuote : c ≠ quote)
    (goesOn : Text.isLineBreak c = false)
    (offset : Nat) (rest : Text) :
    endFrom quote offset (c :: rest) = endFrom quote (offset + 1) rest := by
  conv_lhs => unfold endFrom
  rw [if_neg notEscape, if_neg notQuote, goesOn]
  rfl

/-- Reading from the quote on comes to the same end, also if a backslash has
just been read. -/
theorem endFrom_of_keeps
    {quote : Char}
    (notEscape : quote ≠ '\\')
    (content behind : Text) :
    (∀ offset, (Scan.inside quote).Keeps content →
      (Scan.inside quote).run content = .inside quote →
      endFrom quote offset (content ++ quote :: behind) =
        offset + content.length + 1) ∧
    (∀ offset, (Scan.escaped quote).run content = .inside quote →
      (Scan.escaped quote).Keeps content →
      endFrom quote offset ('\\' :: (content ++ quote :: behind)) =
        offset + content.length + 2) := by
  induction content with
  | nil =>
      refine ⟨?_, ?_⟩
      · intro offset _ _
        rw [List.nil_append]
        unfold endFrom
        rw [if_neg notEscape, if_pos rfl]
        rfl
      · intro offset ends
        cases ends
  | cons c content ih =>
      obtain ⟨inside, escaped⟩ := ih
      refine ⟨?_, ?_⟩
      · intro offset keeps ends
        by_cases escape : c = '\\'
        · subst escape
          rw [List.cons_append, escaped offset ends keeps.2, List.length_cons]
          omega
        · have goesOn := keeps.1
          simp only [Scan.step, escape, if_false] at goesOn
          have within : c ≠ quote ∧ Text.isLineBreak c = false := by
            split at goesOn
            · exact absurd rfl goesOn
            next other => simpa using other
          have stays : (Scan.inside quote).step c = .inside quote := by
            simp [Scan.step, escape, within.1, within.2]
          have kept := keeps.2
          rw [Scan.run_cons, stays] at ends
          rw [stays] at kept
          rw [List.cons_append, endFrom_of_ne escape within.1 within.2,
            inside (offset + 1) kept ends, List.length_cons]
          omega
      · intro offset ends keeps
        rw [List.cons_append, endFrom_escape, inside (offset + 2) keeps.2 ends,
          List.length_cons]
        omega

end Literal

/-- No parenthesis of a literal counts. -/
theorem Nesting.depths_of_mem_spans
    {text : Text} {span : Span Nat}
    (member : span ∈ Literal.spans text)
    {index : Nat}
    (inside : span.start + index ≤ span.stop) :
    (depths text)[span.start + index]? = (depths text)[span.start]? := by
  induction index with
  | zero => rfl
  | succ index ih =>
      have ends := Literal.stop_le_of_mem_spans member
      obtain ⟨c, here⟩ : ∃ c, text[span.start + index]? = some c :=
        ⟨_, List.getElem?_eq_getElem (by omega)⟩
      obtain ⟨front, rest, rfl, length⟩ := List.exists_append_of_getElem? here
      have covered : (Scan.code.run front).covers c = true := by
        rw [← Literal.covered_spans front c rest, length,
          Span.covered_iff (Literal.separated_spans _)]
        exact ⟨span, member, Nat.le_add_right _ _, inside⟩
      have before := depths_getElem? front (c :: rest)
      have after := depths_getElem? (front ++ [c]) rest
      rw [behind_append, List.append_assoc, List.singleton_append,
        List.length_append, length, List.length_singleton,
        Nat.add_assoc] at after
      rw [length] at before
      rw [after, ← ih (Nat.le_of_succ_le inside), before]
      simp only [behind, next, if_pos covered]

theorem Invocation.outside_of_mem_spans
    {text : Text} {span : Span Nat}
    (member : span ∈ Literal.spans text)
    {invocation : Invocation}
    (found : invocation ∈ all text) :
    invocation.start < span.start ∨ span.stop ≤ invocation.start := by
  by_contra inside
  have outside := (placed_of_mem_all found).outside
  have covered : Span.covered (Literal.spans text) invocation.start = true := by
    rw [Span.covered_iff (Literal.separated_spans text)]
    exact ⟨span, member, by omega, by omega⟩
  rw [covered] at outside
  cases outside

namespace Substitution

/-- Escaped quotes and backslashes do not end the literal, and nothing else
can. -/
theorem keeps_escaped
    {text : Text}
    (unbroken : ∀ c ∈ text, Text.isLineBreak c = false) :
    (Scan.inside '"').Keeps (escaped text) ∧
      (Scan.inside '"').run (escaped text) = .inside '"' := by
  induction text with
  | nil => exact ⟨trivial, rfl⟩
  | cons c text ih =>
      obtain ⟨keeps, ends⟩ :=
        ih fun d member => unbroken d (List.mem_cons_of_mem _ member)
      have goesOn := unbroken c List.mem_cons_self
      rw [escaped_cons]
      split
      next => exact ⟨⟨by simp [Scan.step], by simp [Scan.step], keeps⟩, ends⟩
      next plain =>
        simp only [Bool.or_eq_true, decide_eq_true_eq, not_or] at plain
        have stays : (Scan.inside '"').step c = .inside '"' := by
          simp [Scan.step, plain, goesOn]
        rw [Scan.run_cons, Scan.Keeps, stays]
        exact ⟨⟨by simp, keeps⟩, ends⟩

/-- A stringified argument is one closed string literal, which stands for the
argument without its comments.  In every text in which it begins outside the
literals in front of it, it is a literal, in which no invocation starts and no
parenthesis changes the depth. -/
theorem stringify_is_literal (argument : Text) :
    Literal.end? (stringify argument) 0 = some (stringify argument).length ∧
      unquote? (stringify argument) = some (Comment.remove argument) ∧
      ∀ front behind, Scan.code.run front = .code →
        ⟨front.length, front.length + (stringify argument).length⟩ ∈
            Literal.spans (front ++ stringify argument ++ behind) ∧
          (∀ invocation ∈ Invocation.all
              (front ++ stringify argument ++ behind),
            invocation.start < front.length ∨
              front.length + (stringify argument).length ≤ invocation.start) ∧
          ∀ index ≤ (stringify argument).length,
            (Nesting.depths (front ++ stringify argument ++
                behind))[front.length + index]? =
              (Nesting.depths (front ++ stringify argument ++
                behind))[front.length]? := by
  have unbroken : ∀ c ∈ Comment.remove argument, Text.isLineBreak c = false :=
    fun _ member => Text.isLineBreak_of_mem_normalizeBlanks member
  obtain ⟨keeps, ends⟩ := keeps_escaped unbroken
  unfold stringify
  refine ⟨?_, unquote?_quoted _, ?_⟩
  · have reached :=
      (Literal.endFrom_of_keeps (by decide) (escaped (Comment.remove argument))
        []).1 1 keeps ends
    simp only [Literal.end?, quoted, List.drop_zero, reached, List.length_cons,
      List.length_append, List.length_nil]
    congr 1
    omega
  · intro front behind code
    have member := Literal.mem_spans_of_keeps rfl keeps ends code behind
    rw [← quoted] at member
    refine ⟨member,
      fun invocation found => Invocation.outside_of_mem_spans member found, ?_⟩
    intro index inside
    exact Nesting.depths_of_mem_spans member (Nat.add_le_add_left inside _)

/-- A call with a string that ends in a backslash, and a comment. -/
def pathArgument : Text :=
  "open(\"C:\\\\\") /* ( */".toList

theorem stringify_is_literal_pathArgument :
    stringify pathArgument = "\"open(\\\"C:\\\\\\\\\\\")\"".toList ∧
      unquote? (stringify pathArgument) = some "open(\"C:\\\\\")".toList ∧
      Scan.code.run "f('(', ".toList = .code ∧
      ⟨7, 25⟩ ∈
        Literal.spans ("f('(', ".toList ++ stringify pathArgument ++
          ")".toList) ∧
      ∀ invocation ∈ Invocation.all ("f('(', ".toList ++
        stringify pathArgument ++ ")".toList),
        invocation.start < 7 ∨ 25 ≤ invocation.start := by
  have removed : Comment.remove pathArgument = "open(\"C:\\\\\")".toList := by
    decide +kernel
  have literal : stringify pathArgument =
      "\"open(\\\"C:\\\\\\\\\\\")\"".toList := by
    rw [stringify, removed]
    decide
  obtain ⟨_, read, inText⟩ := stringify_is_literal pathArgument
  obtain ⟨member, outside, _⟩ := inText "f('(', ".toList ")".toList rfl
  have length : "f('(', ".toList.length + (stringify pathArgument).length =
      25 := by
    rw [literal]
    rfl
  rw [length] at member outside
  exact ⟨literal, removed ▸ read, rfl, member, outside⟩

/-- A macro that puts its second argument as a literal behind its first one as
it is. -/
def besideMacro : Definition :=
  ⟨"BESIDE".toList, some ["a".toList, "b".toList], "a #b".toList,
    "beside.h", 1, true⟩

def beside : Snapshot :=
  ⟨[besideMacro, ⟨"ITEM".toList, none, "1".toList, "beside.h", 2, true⟩]⟩

/-- The first argument is a quote that nothing closes. -/
def strayQuote : Use :=
  ⟨"BESIDE".toList, some ["\"".toList, "ITEM".toList]⟩

/-- Behind a quote that nothing closes the content of the literal is rescanned:
a name is found in it and expanded. -/
theorem content_rescanned_strayQuote :
    Scope.firstBody ⟨beside.lookup, []⟩ Settings.default
      [strayQuote.key] 1 besideMacro
        strayQuote.arguments [] =
      .ok (⟨"\" ".toList ++ stringify "ITEM".toList, []⟩, [],
        "Function-like macro expansion") ∧
    (∃ invocation ∈ Scope.candidates ⟨beside.lookup, []⟩ true
        ("\" ".toList ++ stringify "ITEM".toList),
      2 ≤ invocation.start ∧
        invocation.start < 2 + (stringify "ITEM".toList).length) ∧
    ∃ expansion, Expansion.ofUse beside.lookup Settings.default strayQuote =
      .ok expansion ∧
      expansion.error = none ∧ expansion.finalText = "\" \"1\"".toList := by
  have literal : "\" ".toList ++ stringify "ITEM".toList =
      "\" \"ITEM\"".toList := by
    decide +kernel
  have length : (stringify "ITEM".toList).length = 6 := by decide +kernel
  have argument :
      Scope.Finishes ⟨beside.lookup, []⟩ Settings.default [strayQuote.key] 1
        ⟨"\"".toList, [], []⟩ "\"".toList :=
    Scope.finishes_of_candidates_eq_nil rfl
  have replaced :
      Substitution.replaced besideMacro.body besideMacro.parameterList
        ["\"".toList, "ITEM".toList]
        (fun other => ([(0, "\"".toList)].lookup other).getD []) =
          "\" \"ITEM\"".toList := by decide +kernel
  have opened : Scope.firstBody ⟨beside.lookup, []⟩ Settings.default
      [strayQuote.key] 1 besideMacro strayQuote.arguments [] =
        .ok (⟨"\" \"ITEM\"".toList, []⟩, [], "Function-like macro expansion") :=
    Scope.firstBody_of_finishes rfl (by decide) rfl argument replaced rfl
  have selected : Settings.default.mode.select
      (Scope.candidates ⟨beside.lookup, []⟩ true "\" \"ITEM\"".toList) =
        [⟨"ITEM".toList, none, 3, 7, 0⟩] := rfl
  have finishes :
      Scope.Finishes ⟨beside.lookup, []⟩ Settings.default [strayQuote.key] 1
        ⟨"\" \"ITEM\"".toList, [], []⟩ "\" \"1\"".toList :=
    Scope.finishes_of_single selected (by decide) rfl rfl (by decide)
      (Scope.finishes_of_candidates_eq_nil rfl)
  have selects : strayQuote.Selects beside.lookup besideMacro :=
    ⟨rfl, rfl, fun _ => .inr rfl⟩
  obtain ⟨expansion, result, complete, final⟩ :=
    Expansion.exists_of_finishes selects rfl (by decide) opened finishes
  have simplified : Group.simplify "\" \"1\"".toList = "\" \"1\"".toList := by
    cbv
  rw [literal, length]
  refine ⟨opened, ?_, expansion, result, complete, final.trans simplified⟩
  refine ⟨⟨"ITEM".toList, none, 3, 7, 0⟩, ?_, by decide, by decide⟩
  exact Mode.mem_of_mem_select (selected ▸ List.mem_singleton_self _)

end Substitution

end MacroTrace
