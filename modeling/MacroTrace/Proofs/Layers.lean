import MacroTrace.Proofs.Provenance
import MacroTrace.Proofs.Trace
import Mathlib.Logic.Function.Iterate

/-!
# Layers of flat macros

A flat macro is object-like and has a body without parentheses, quotes and
pasting.  In a text made of such bodies every identifier stands by itself, so a
pass over the whole layer replaces each macro among the pieces by the pieces of
its body, and a pass over a single macro does so for one of them.  Passes over
layers are therefore never behind: whatever single passes reduce completely, as
many passes over layers reduce to the same text.
-/

namespace MacroTrace

namespace Scope

/-- Every macro is object-like and unmarked, and its body holds no parentheses,
quotes or paste operators. -/
def Flat (scope : Scope) : Prop :=
  ∀ name definition, scope.definition? name = some definition →
    definition.isMacro = true →
    definition.parameters = none ∧ definition.isUnbalanced = false ∧
      (∀ c ∈ definition.body, Place.isInert c = true) ∧
      Text.holds ['#', '#'] definition.body = false

theorem Flat.objectLike
    {scope : Scope}
    (flat : scope.Flat) :
    scope.ObjectLike := by
  intro name definition defined isMacro
  obtain ⟨noParameters, _, _, unpasted⟩ := flat name definition defined isMacro
  exact ⟨noParameters, unpasted⟩

theorem Flat.not_marked
    {scope : Scope}
    (flat : scope.Flat)
    (name : Text) :
    ¬ scope.Marked name := by
  rintro ⟨definition, defined, isMacro, marked⟩
  rw [(flat name definition defined isMacro).2.1] at marked
  cases marked

/-- The body that replaces a piece, if the piece is the name of a macro. -/
def body? (scope : Scope) (piece : Text) : Option Text :=
  if Text.isIdentifier piece then
    ((scope.definition? piece).filter (·.isMacro)).map (·.body)
  else none

/-- The pieces that take the place of a piece. -/
def expandPiece (scope : Scope) (piece : Text) : List Text :=
  match scope.body? piece with
  | some body => Text.pieces body
  | none => [piece]

/-- Replace every macro among pieces. -/
def layer (scope : Scope) (pieces : List Text) : List Text :=
  pieces.flatMap scope.expandPiece

/-- No piece is the name of a macro. -/
def Normal (scope : Scope) (pieces : List Text) : Prop :=
  ∀ piece ∈ pieces, scope.body? piece = none

variable {scope : Scope}

theorem body?_eq_some_iff
    {piece body : Text} :
    scope.body? piece = some body ↔
      Text.isIdentifier piece = true ∧ ∃ definition,
        scope.definition? piece = some definition ∧ definition.isMacro = true ∧
          definition.body = body := by
  unfold body?
  split
  next identifier =>
    rw [Option.map_eq_some_iff]
    constructor
    · rintro ⟨definition, found, rfl⟩
      obtain ⟨defined, isMacro⟩ := Option.filter_eq_some_iff.mp found
      exact ⟨identifier, definition, defined, isMacro, rfl⟩
    · rintro ⟨_, definition, defined, isMacro, rfl⟩
      exact ⟨definition, Option.filter_eq_some_iff.mpr ⟨defined, isMacro⟩, rfl⟩
  next other =>
    constructor
    · nofun
    · rintro ⟨identifier, _⟩
      exact absurd identifier other

theorem expandPiece_of_body?
    {piece body : Text}
    (replaced : scope.body? piece = some body) :
    scope.expandPiece piece = Text.pieces body := by
  rw [expandPiece, replaced]

theorem expandPiece_of_body?_eq_none
    {piece : Text}
    (kept : scope.body? piece = none) :
    scope.expandPiece piece = [piece] := by
  rw [expandPiece, kept]

theorem body?_singleton
    (scope : Scope)
    {c : Char}
    (other : Text.isWordChar c = false) :
    scope.body? [c] = none := by
  rw [body?, Text.isIdentifier_singleton other]
  rfl

theorem normal_append
    {front back : List Text} :
    scope.Normal (front ++ back) ↔ scope.Normal front ∧ scope.Normal back :=
  List.forall_mem_append

theorem layer_append (scope : Scope) (front back : List Text) :
    scope.layer (front ++ back) = scope.layer front ++ scope.layer back :=
  List.flatMap_append

theorem layer_cons (scope : Scope) (piece : Text) (rest : List Text) :
    scope.layer (piece :: rest) = scope.expandPiece piece ++ scope.layer rest :=
  List.flatMap_cons

theorem layer_of_normal
    {pieces : List Text}
    (normal : scope.Normal pieces) :
    scope.layer pieces = pieces := by
  induction pieces with
  | nil => rfl
  | cons piece rest ih =>
      rw [layer_cons,
        expandPiece_of_body?_eq_none (normal piece List.mem_cons_self),
        ih fun other member => normal other (List.mem_cons_of_mem _ member),
        List.singleton_append]

theorem iterate_layer_append
    (scope : Scope) (count : Nat) (front back : List Text) :
    scope.layer^[count] (front ++ back) =
      scope.layer^[count] front ++ scope.layer^[count] back := by
  induction count generalizing front back with
  | zero => rfl
  | succ count ih =>
      rw [Function.iterate_succ_apply, layer_append, ih]
      rfl

/-- Once everything is reduced, it does not matter that one macro was replaced a
layer earlier. -/
theorem iterate_layer_replace
    {count : Nat} {front back : List Text} {piece body : Text}
    (replaced : scope.body? piece = some body)
    (normal :
      scope.Normal (scope.layer^[count] (front ++ Text.pieces body ++ back))) :
    scope.layer^[count + 1] (front ++ piece :: back) =
      scope.layer^[count] (front ++ Text.pieces body ++ back) := by
  rw [iterate_layer_append, iterate_layer_append, normal_append,
    normal_append] at normal
  obtain ⟨⟨normalFront, _⟩, normalBack⟩ := normal
  have here : scope.layer [piece] = Text.pieces body := by
    rw [layer_cons, expandPiece_of_body? replaced]
    exact List.append_nil _
  calc scope.layer^[count + 1] (front ++ piece :: back)
    _ = scope.layer^[count + 1] front ++ scope.layer^[count + 1] [piece] ++
          scope.layer^[count + 1] back := by
        rw [List.append_cons, iterate_layer_append, iterate_layer_append]
    _ = scope.layer^[count] front ++ scope.layer^[count] (Text.pieces body) ++
          scope.layer^[count] back := by
        rw [Function.iterate_succ_apply' _ _ front, layer_of_normal normalFront,
          Function.iterate_succ_apply' _ _ back, layer_of_normal normalBack,
          Function.iterate_succ_apply _ _ [piece], here]
    _ = scope.layer^[count] (front ++ Text.pieces body ++ back) := by
        rw [iterate_layer_append, iterate_layer_append]

theorem beginsApart_layer
    (scope : Scope)
    {text : Text}
    (begins : Text.BeginsApart text) :
    Text.BeginsApart (scope.layer (Text.pieces text)).flatten := by
  cases text with
  | nil => nofun
  | cons c rest =>
      have other : Text.isWordChar c = false := begins c rfl
      have kept := expandPiece_of_body?_eq_none (body?_singleton scope other)
      rw [Text.pieces_cons other, layer_cons, kept]
      rintro d ⟨⟩
      exact other

/-- Replacing the macros of a text joins nothing: its pieces stay apart. -/
theorem pieces_flatten_layer (scope : Scope) (text : Text) :
    Text.pieces (scope.layer (Text.pieces text)).flatten =
      scope.layer (Text.pieces text) := by
  induction text using Text.pieces_induction with
  | nil => rfl
  | other c rest other ih =>
      have kept := expandPiece_of_body?_eq_none (body?_singleton scope other)
      rw [Text.pieces_cons other, layer_cons, kept, List.singleton_append,
        List.flatten_cons, List.singleton_append, Text.pieces_cons other, ih]
  | word word after nonempty letters begins ih =>
      rw [Text.pieces_word_append nonempty letters begins, layer_cons,
        List.flatten_append,
        Text.pieces_append_of_beginsApart (beginsApart_layer scope begins), ih]
      cases replaced : scope.body? word with
      | none =>
          rw [expandPiece_of_body?_eq_none replaced, List.flatten_singleton,
            Text.pieces_word nonempty letters]
      | some body => rw [expandPiece_of_body? replaced, Text.flatten_pieces]

end Scope

/-- A text without parentheses and quotes. -/
def Text.IsFlat (text : Text) : Prop :=
  ∀ c ∈ text, Place.isInert c = true

theorem Text.IsFlat.of_append
    {front back : Text}
    (flat : Text.IsFlat (front ++ back)) :
    Text.IsFlat front ∧ Text.IsFlat back :=
  List.forall_mem_append.mp flat

theorem Text.IsFlat.append
    {front back : Text}
    (flatFront : Text.IsFlat front)
    (flatBack : Text.IsFlat back) :
    Text.IsFlat (front ++ back) :=
  List.forall_mem_append.mpr ⟨flatFront, flatBack⟩

namespace Invocation

/-- The invocation by an identifier that is not called and stands outside
parentheses. -/
def bare (entry : Nat × Text) : Invocation :=
  ⟨entry.2, none, entry.1, entry.1 + entry.2.length, 0⟩

theorem heading?_of_isFlat
    {word after : Text}
    (letters : ∀ c ∈ word, Text.isWordChar c = true)
    (begins : Text.BeginsApart after)
    (flat : Text.IsFlat after)
    (offset : Nat) :
    heading? 0 offset (word ++ after) = some (bare (offset, word)) := by
  have stops : ∀ c, after.head? = some c → Text.isWordChar c = false :=
    fun c first => begins c first
  have name : (word ++ after).takeWhile Text.isWordChar = word := by
    rw [List.takeWhile_append_of_head? stops,
      List.takeWhile_eq_self_iff.mpr letters]
  have behind : (word ++ after).dropWhile Text.isWordChar = after := by
    rw [List.dropWhile_append_of_head? stops,
      List.dropWhile_eq_nil_iff.mpr letters, List.nil_append]
  simp only [heading?, name, behind]
  split
  next rest called =>
    have opening : '(' ∈ after := by
      apply (List.dropWhile_sublist Text.isBlank).subset
      change '(' ∈ Text.trimLeft after
      rw [called]
      exact List.mem_cons_self
    exact absurd (flat _ opening) (by decide)
  next => rfl

theorem stream_of_beginsApart
    {after : Text}
    (begins : Text.BeginsApart after)
    (scan : Literal.Scan) (depth offset : Nat) (inWord : Bool) :
    stream scan depth offset inWord after =
      stream scan depth offset false after := by
  cases after with
  | nil => rfl
  | cons c rest =>
      have notFirst : Text.isIdentifierStart c = false := by
        by_contra first
        rw [Bool.not_eq_false] at first
        have isWord := Text.isWordChar_of_isIdentifierStart first
        rw [begins c rfl] at isWord
        cases isWord
      rw [stream_cons_of_not_start (.inr notFirst),
        stream_cons_of_not_start (.inr notFirst)]

/-- The invocations of a flat text are its identifiers. -/
theorem stream_of_isFlat
    {text : Text}
    (flat : Text.IsFlat text)
    (offset : Nat) :
    stream .code 0 offset false text =
      (Text.identifiersFrom offset (Text.pieces text)).map bare := by
  induction text using Text.pieces_induction generalizing offset with
  | nil => rfl
  | other c rest other ih =>
      have inert := flat c List.mem_cons_self
      have begins : Text.BeginsApart (c :: rest) := by
        rintro d ⟨⟩
        exact other
      have later :=
        ih (fun d member => flat d (List.mem_cons_of_mem _ member)) (offset + 1)
      rw [← stream_of_beginsApart begins _ _ _ true,
        stream_cons_of_not_start (.inl rfl), Place.step_code_of_inert inert,
        next_code_of_inert inert, other, later, Text.pieces_cons other,
        Text.identifiersFrom, Text.identifiersFrom, Text.located,
        List.filter_cons_of_neg (by simp [Text.isIdentifier_singleton other])]
      rfl
  | word word after nonempty letters begins ih =>
      obtain ⟨_, flatAfter⟩ := flat.of_append
      have found := heading?_of_isFlat letters begins flatAfter offset
      have identifier := Text.isIdentifier_word letters
      rw [Text.pieces_word_append nonempty letters begins, Text.identifiersFrom,
        Text.located]
      cases word with
      | nil => exact absurd rfl nonempty
      | cons c word =>
          have isWord := letters c List.mem_cons_self
          have inert := flat c List.mem_cons_self
          have rest : stream .code 0 (offset + 1) true (word ++ after) =
              (Text.identifiersFrom (offset + (c :: word).length)
                (Text.pieces after)).map bare := by
            rw [stream_word
              (fun d member => letters d (List.mem_cons_of_mem _ member)),
              stream_of_beginsApart begins, ih flatAfter, List.length_cons,
              Nat.add_assoc, Nat.add_comm 1]
          rw [List.cons_append] at found ⊢
          rw [List.head?_cons, Option.any_some] at identifier
          simp only [stream, Place.step_code_of_inert inert,
            next_code_of_inert inert, isWord, rest, found,
            List.filter_cons, identifier]
          cases Text.isIdentifierStart c with
          | false => rfl
          | true =>
              have uncovered : Literal.Scan.code.covers c = false :=
                Place.isQuote_of_isInert inert
              rw [uncovered]
              rfl

theorem all_of_isFlat
    {text : Text}
    (flat : Text.IsFlat text) :
    all text = (Text.identifiers text).map bare := by
  rw [all_eq_stream]
  exact stream_of_isFlat flat 0

end Invocation

namespace Scope

variable {scope : Scope}

/-- The macros among pieces. -/
def macrosFrom (scope : Scope) (offset : Nat) (pieces : List Text) :
    List Invocation :=
  ((Text.located offset pieces).filter fun entry =>
      (scope.body? entry.2).isSome).map
    Invocation.bare

theorem isCandidate_bare
    (flat : scope.Flat)
    {offset : Nat} {name : Text}
    (identifier : Text.isIdentifier name = true) :
    scope.isCandidate true (.bare (offset, name)) =
      (scope.body? name).isSome := by
  have named : (Invocation.bare (offset, name)).name = name := rfl
  rw [isCandidate, named, body?, if_pos identifier]
  cases defined : scope.definition? name with
  | none => rfl
  | some definition =>
      cases isMacro : definition.isMacro with
      | false => simp [Option.filter, isMacro]
      | true =>
          obtain ⟨noParameters, unmarked, _, _⟩ :=
            flat name definition defined isMacro
          simp [Option.filter, isMacro, unmarked, Definition.accepts,
            noParameters, Invocation.bare, Invocation.use]

theorem candidates_of_isFlat
    (flat : scope.Flat)
    {text : Text}
    (isFlat : text.IsFlat) :
    scope.candidates true text = scope.macrosFrom 0 (Text.pieces text) := by
  have found : (Invocation.all text).filter (scope.isCandidate true) =
      scope.macrosFrom 0 (Text.pieces text) := by
    rw [Invocation.all_of_isFlat isFlat, List.filter_map, Text.identifiers,
      Text.identifiersFrom, List.filter_filter, macrosFrom]
    congr 1
    apply List.filter_congr
    rintro ⟨offset, name⟩ _
    cases identifier : Text.isIdentifier name with
    | false => simp [body?, identifier]
    | true => simp [isCandidate_bare flat identifier]
  have unprotected :
      (scope.macrosFrom 0 (Text.pieces text)).flatMap scope.protectedSpans =
        [] := by
    apply List.flatMap_eq_nil_iff.mpr
    intro invocation member
    obtain ⟨entry, _, rfl⟩ := List.mem_map.mp member
    unfold protectedSpans
    split
    next => rfl
    next => split <;> rfl
  rw [candidates, found, unprotected]
  apply List.filter_eq_self.mpr
  intro invocation _
  rfl

theorem candidates_eq_nil_iff_normal
    (flat : scope.Flat)
    {text : Text}
    (isFlat : text.IsFlat) :
    scope.candidates true text = [] ↔ scope.Normal (Text.pieces text) := by
  rw [candidates_of_isFlat flat isFlat, macrosFrom, List.map_eq_nil_iff,
    List.filter_eq_nil_iff]
  constructor
  · intro none piece member
    obtain ⟨front, back, shape⟩ := List.append_of_mem member
    have listed : (front.flatten.length, piece) ∈
        Text.located 0 (Text.pieces text) := by
      rw [shape, Text.located_append, Nat.zero_add]
      exact List.mem_append_right _ List.mem_cons_self
    simpa using none _ listed
  · rintro normal ⟨offset, piece⟩ listed
    obtain ⟨front, back, shape, _⟩ := Text.exists_append_of_mem_located listed
    rw [normal piece (by rw [shape]; simp)]
    nofun

/-- Invocations that all stand outside parentheses are selected from all of
them. -/
theorem deepestLevel_of_depth_eq_zero
    {candidates : List Invocation}
    (shallow : ∀ invocation ∈ candidates, invocation.depth = 0) :
    Mode.deepestLevel candidates = candidates := by
  have deepest : Mode.deepest candidates = 0 := by
    induction candidates with
    | nil => rfl
    | cons invocation rest ih =>
        rw [Mode.deepest_cons, shallow invocation List.mem_cons_self,
          ih fun other member => shallow other (List.mem_cons_of_mem _ member),
          Nat.max_self]
  apply List.filter_eq_self.mpr
  intro invocation member
  rw [deepest, shallow invocation member]
  rfl

theorem deepestLevel_candidates
    (flat : scope.Flat)
    {text : Text}
    (isFlat : text.IsFlat) :
    Mode.deepestLevel (scope.candidates true text) =
      scope.macrosFrom 0 (Text.pieces text) := by
  rw [candidates_of_isFlat flat isFlat]
  apply deepestLevel_of_depth_eq_zero
  intro invocation member
  obtain ⟨entry, _, rfl⟩ := List.mem_map.mp member
  rfl

theorem replacement_bare
    (flat : scope.Flat)
    {offset : Nat} {name body : Text}
    (replaced : scope.body? name = some body) :
    scope.replacement (Invocation.bare (offset, name)).use =
      .ok ⟨body, []⟩ := by
  obtain ⟨_, definition, defined, isMacro, rfl⟩ := body?_eq_some_iff.mp replaced
  obtain ⟨noParameters, unmarked, _, unpasted⟩ :=
    flat name definition defined isMacro
  have definedUse :
      scope.definition? (Invocation.bare (offset, name)).use.name =
        some definition := defined
  simp only [replacement, definedUse, unmarked, noParameters,
    Paste.apply, unpasted]
  rfl

theorem rewriteAll_concat
    {first : List Invocation} {last : Invocation} {text middle written : Text}
    {events : List Paste.Event}
    (rewritten : scope.rewriteAll first text = .ok middle)
    (replaced : scope.replacement last.use = .ok ⟨written, events⟩) :
    scope.rewriteAll (first ++ [last]) text =
      .ok (middle.take last.start ++ written ++ middle.drop last.stop) := by
  induction first generalizing text with
  | nil =>
      cases rewritten
      simp only [List.nil_append, rewriteAll, replaced]
  | cons invocation first ih =>
      rw [rewriteAll] at rewritten
      rw [List.cons_append, rewriteAll]
      split at rewritten
      next => cases rewritten
      next result _ => exact ih rewritten

/-- Replacing the macros among pieces from right to left makes the next
layer. -/
theorem rewriteAll_macrosFrom
    (flat : scope.Flat)
    (front : Text) (pieces : List Text) :
    scope.rewriteAll (scope.macrosFrom front.length pieces).reverse
        (front ++ pieces.flatten) =
      .ok (front ++ (scope.layer pieces).flatten) := by
  induction pieces generalizing front with
  | nil => rfl
  | cons piece pieces ih =>
      have later := ih (front ++ piece)
      rw [List.length_append, List.append_assoc, List.append_assoc] at later
      rw [macrosFrom, Text.located, List.flatten_cons, layer_cons,
        List.flatten_append]
      cases replaced : scope.body? piece with
      | none =>
          rw [List.filter_cons_of_neg (by simp [replaced]),
            expandPiece_of_body?_eq_none replaced, List.flatten_singleton]
          exact later
      | some body =>
          rw [List.filter_cons_of_pos (by simp [replaced]), List.map_cons,
            List.reverse_cons, expandPiece_of_body? replaced,
            Text.flatten_pieces]
          have cut (rest : Text) :
              (front ++ (piece ++ rest)).take front.length = front :=
            List.take_left
          have kept (rest : Text) :
              (front ++ (piece ++ rest)).drop (front.length + piece.length) =
                rest := by
            rw [← List.drop_drop, List.drop_left, List.drop_left]
          have written := rewriteAll_concat later
            (@replacement_bare scope flat front.length piece body replaced)
          simp only [Invocation.bare, cut, kept] at written
          rw [List.append_assoc] at written
          exact written

theorem rewrite_singleLayer
    (flat : scope.Flat)
    {text : Text}
    (isFlat : text.IsFlat) :
    scope.rewrite .singleLayer text =
      .ok (scope.layer (Text.pieces text)).flatten := by
  have written := rewriteAll_macrosFrom flat [] (Text.pieces text)
  rw [Text.flatten_pieces, List.nil_append, List.nil_append] at written
  change scope.rewriteAll
    (Mode.deepestLevel (scope.candidates true text)).reverse text = _
  rw [deepestLevel_candidates flat isFlat]
  exact written

/-- A pass over a single macro replaces one of the pieces. -/
theorem rewrite_singleMacro
    (flat : scope.Flat)
    {text : Text}
    (isFlat : text.IsFlat)
    (expandable : scope.candidates true text ≠ []) :
    ∃ front piece body back,
      Text.pieces text = front ++ piece :: back ∧
        scope.body? piece = some body ∧
        scope.rewrite .singleMacro text =
          .ok (front.flatten ++ body ++ back.flatten) := by
  rw [candidates_of_isFlat flat isFlat] at expandable
  change ∃ front piece body back, _ ∧ _ ∧
    scope.rewriteAll
      ((Mode.deepestLevel (scope.candidates true text)).take 1) text = _
  rw [deepestLevel_candidates flat isFlat]
  cases listed : scope.macrosFrom 0 (Text.pieces text) with
  | nil => exact absurd listed expandable
  | cons invocation rest =>
      have member : invocation ∈ scope.macrosFrom 0 (Text.pieces text) := by
        rw [listed]
        exact List.mem_cons_self
      obtain ⟨⟨offset, piece⟩, found, rfl⟩ := List.mem_map.mp member
      obtain ⟨located, isMacro⟩ := List.mem_filter.mp found
      obtain ⟨body, replaced⟩ := Option.isSome_iff_exists.mp isMacro
      obtain ⟨front, back, shape, place⟩ :=
        Text.exists_append_of_mem_located located
      rw [Nat.zero_add] at place
      subst place
      have whole : text = front.flatten ++ (piece ++ back.flatten) := by
        rw [← Text.flatten_pieces text, shape, List.flatten_append,
          List.flatten_cons]
      have written := @rewriteAll_concat scope [] _ text text _ _ rfl
        (@replacement_bare scope flat front.flatten.length piece body replaced)
      refine ⟨front, piece, body, back, shape, replaced, ?_⟩
      rw [List.take_succ_cons, List.take_zero]
      rw [List.nil_append] at written
      rw [written, whole]
      simp only [Invocation.bare, List.take_left]
      rw [← List.drop_drop, List.drop_left, List.drop_left]

theorem isFlat_of_body?
    (flat : scope.Flat)
    {piece body : Text}
    (replaced : scope.body? piece = some body) :
    body.IsFlat := by
  obtain ⟨_, definition, defined, isMacro, rfl⟩ := body?_eq_some_iff.mp replaced
  exact (flat piece definition defined isMacro).2.2.1

theorem isFlat_layer
    (flat : scope.Flat)
    {pieces : List Text}
    (isFlat : Text.IsFlat pieces.flatten) :
    Text.IsFlat (scope.layer pieces).flatten := by
  induction pieces with
  | nil => exact isFlat
  | cons piece pieces ih =>
      rw [List.flatten_cons] at isFlat
      obtain ⟨here, later⟩ := isFlat.of_append
      rw [layer_cons, List.flatten_append]
      apply Text.IsFlat.append _ (ih later)
      cases replaced : scope.body? piece with
      | none =>
          rw [expandPiece_of_body?_eq_none replaced, List.flatten_singleton]
          exact here
      | some body =>
          rw [expandPiece_of_body? replaced, Text.flatten_pieces]
          exact isFlat_of_body? flat replaced

variable {settings : Settings}

/-- A pass over a single macro changes the text, since no macro mentions
itself. -/
theorem not_stalls_singleMacro
    (flat : scope.Flat)
    (acyclic : scope.Acyclic)
    {text : Text}
    (isFlat : text.IsFlat) :
    ¬ scope.Stalls .singleMacro text := by
  rintro ⟨expandable, unchanged⟩
  obtain ⟨front, piece, body, back, shape, replaced, written⟩ :=
    rewrite_singleMacro flat isFlat expandable
  obtain ⟨identifier, definition, defined, isMacro, rfl⟩ :=
    body?_eq_some_iff.mp replaced
  have letters := Text.isWordChar_of_isIdentifier identifier
  have same : front.flatten ++ definition.body ++ back.flatten = text := by
    rw [written] at unchanged
    exact Except.ok.inj unchanged
  have pieces := Text.pieces_splice shape letters definition.body
  rw [same, shape, List.append_assoc] at pieces
  have alone : Text.pieces definition.body = [piece] := by
    have behind := List.append_cancel_left pieces
    rw [← List.singleton_append] at behind
    exact (List.append_cancel_right behind).symm
  apply acyclic piece
  apply Relation.TransGen.single
  refine mentions_iff.mpr ⟨definition, 0, defined, isMacro, ?_⟩
  rw [Text.identifiers, alone]
  exact List.mem_filter.mpr ⟨List.mem_singleton_self _, identifier⟩

/-- As many layers as there are passes over single macros reduce a text to the
same one. -/
theorem Passes.iterate_layer
    (flat : scope.Flat)
    (mode : settings.mode = .singleMacro)
    {level : Nat} {text last : Text} {steps : List Step}
    (passes : scope.Passes settings level text steps last)
    (isFlat : text.IsFlat) :
    last.IsFlat ∧ (scope.Normal (Text.pieces last) →
      scope.layer^[steps.length] (Text.pieces text) = Text.pieces last) := by
  induction passes with
  | nil level text => exact ⟨isFlat, fun _ => rfl⟩
  | @cons level text next last steps subject note room expandable rewritten
      changed passes ih =>
      obtain ⟨front, piece, body, back, shape, replaced, written⟩ :=
        rewrite_singleMacro flat isFlat expandable
      rw [mode, written] at rewritten
      cases rewritten
      have identifier := (body?_eq_some_iff.mp replaced).1
      have pieces :=
        Text.pieces_splice shape
          (Text.isWordChar_of_isIdentifier identifier) body
      have flatNext : Text.IsFlat (front.flatten ++ body ++ back.flatten) := by
        rw [← Text.flatten_pieces text, shape, List.flatten_append,
          List.flatten_cons] at isFlat
        obtain ⟨flatFront, flatRest⟩ := isFlat.of_append
        exact (flatFront.append (isFlat_of_body? flat replaced)).append
          flatRest.of_append.2
      obtain ⟨flatLast, reduced⟩ := ih flatNext
      refine ⟨flatLast, ?_⟩
      intro normal
      have later := reduced normal
      rw [pieces] at later
      rw [List.length_cons, shape, ← later]
      apply iterate_layer_replace replaced
      rw [later]
      exact normal

theorem iterate_layer_of_normal
    {pieces : List Text}
    (normal : scope.Normal pieces)
    (count : Nat) :
    scope.layer^[count] pieces = pieces :=
  Function.iterate_fixed (layer_of_normal normal) count

/-- A text that layers reduce completely is reduced by passes over layers. -/
theorem passes_singleLayer
    (flat : scope.Flat)
    (mode : settings.mode = .singleLayer)
    {count level : Nat} {text : Text}
    (isFlat : text.IsFlat)
    (reduced : scope.Normal (scope.layer^[count] (Text.pieces text)))
    (room : level + count ≤ settings.maxDepth) :
    ∃ steps,
      scope.Passes settings level text steps
          (scope.layer^[count] (Text.pieces text)).flatten ∧
        steps.length ≤ count := by
  induction count generalizing level text with
  | zero =>
      rw [Function.iterate_zero, id, Text.flatten_pieces]
      exact ⟨[], .nil level text, Nat.le_refl 0⟩
  | succ count ih =>
      by_cases none : scope.candidates true text = []
      · have normal := (candidates_eq_nil_iff_normal flat isFlat).mp none
        rw [iterate_layer_of_normal normal, Text.flatten_pieces]
        exact ⟨[], .nil level text, Nat.zero_le _⟩
      · have pieces := pieces_flatten_layer scope text
        have changed : (scope.layer (Text.pieces text)).flatten ≠ text := by
          intro same
          rw [same] at pieces
          rw [Function.iterate_fixed pieces.symm] at reduced
          exact none ((candidates_eq_nil_iff_normal flat isFlat).mpr reduced)
        have flatNext :
            Text.IsFlat (scope.layer (Text.pieces text)).flatten := by
          apply isFlat_layer flat
          rw [Text.flatten_pieces]
          exact isFlat
        have rewritten := rewrite_singleLayer flat isFlat
        rw [← mode] at rewritten
        rw [Function.iterate_succ_apply, ← pieces] at reduced ⊢
        obtain ⟨steps, passes, length⟩ :=
          @ih (level + 1) _ flatNext reduced (by omega)
        exact ⟨_, .cons [] "" (by omega) none rewritten changed passes,
          Nat.succ_le_succ length⟩

/-- What passes over single macros reduce, passes over layers reduce as well. -/
theorem Passes.exists_layers
    (flat : scope.Flat)
    (acyclic : scope.Acyclic)
    {level : Nat} {text last : Text} {steps : List Step}
    (passes :
      scope.Passes { settings with mode := .singleMacro } level text steps last)
    (settled : scope.Settled .singleMacro last)
    (isFlat : text.IsFlat)
    (room : level ≤ settings.maxDepth) :
    scope.candidates true last = [] ∧
      ∃ others,
        scope.Passes { settings with
          mode := .singleLayer } level text others last ∧
        others.length ≤ steps.length := by
  obtain ⟨flatLast, reduced⟩ := passes.iterate_layer flat rfl isFlat
  have none :=
    settled.resolve_right (not_stalls_singleMacro flat acyclic flatLast)
  have normal := (candidates_eq_nil_iff_normal flat flatLast).mp none
  have same := reduced normal
  refine ⟨none, ?_⟩
  rw [← same] at normal
  rw [← Text.flatten_pieces last, ← same]
  exact passes_singleLayer flat rfl isFlat normal (passes.length_le room)

end Scope

namespace Expansion

variable {lookup : Lookup} {settings : Settings}

/-- The first body of a macro that is not called and pastes nothing is its
body. -/
theorem target_of_run
    {name last : Text} {definition : Definition} {first : Step}
    {rest : List Step}
    (objectLike : Scope.ObjectLike ⟨lookup, []⟩)
    (run : Run lookup settings ⟨name, none⟩ definition first rest last) :
    first.target = definition.body := by
  obtain ⟨result, opens, target⟩ := run.opens
  have unpasted :=
    (objectLike name definition run.selects.defined run.selects.isMacro).2
  cases opens with
  | bare _ =>
      rw [target, Paste.apply, unpasted]
      rfl

/-- An expansion of an object-like macro finishes with the rescan of its
body. -/
theorem exists_finished
    (objectLike : Scope.ObjectLike ⟨lookup, []⟩)
    {name text : Text} {definition : Definition}
    (defined : Scope.definition? ⟨lookup, []⟩ name = some definition)
    (isMacro : definition.isMacro = true)
    (balanced : definition.isUnbalanced = false)
    (outcome :
      (Scope.rescan ⟨lookup, []⟩ settings [name] 1
        ⟨definition.body, [], []⟩).outcome =
      .ok text)
    (room : 0 < settings.maxDepth) :
    ∃ scanned : Rescan,
      ofUse lookup settings ⟨name, none⟩ =
          .ok (finished lookup settings definition text scanned) ∧
        scanned.steps.length =
          (Scope.rescan ⟨lookup, []⟩ settings [name] 1
            ⟨definition.body, [], []⟩).steps.length +
            1 := by
  have expanded :=
    Scope.expandUse_objectLike defined isMacro objectLike room balanced
  have finishes :
      (Scope.expandUse ⟨lookup, []⟩ settings [] 0 ⟨name, none⟩ []).outcome =
        .ok text := by
    rw [expanded]
    exact outcome
  refine ⟨Scope.expandUse ⟨lookup, []⟩ settings [] 0 ⟨name, none⟩ [], ?_, ?_⟩
  · exact ofUse_of_ok defined isMacro finishes
  · rw [expanded]
    rfl

/-- Where macros are flat, an expansion by layers ends like one by single
macros, in no more steps. -/
theorem exists_singleLayer
    (flat : Scope.Flat ⟨lookup, []⟩)
    (acyclic : Scope.Acyclic ⟨lookup, []⟩)
    {name : Text} {single : Expansion}
    (result : ofUse lookup { settings with mode := .singleMacro } ⟨name, none⟩ =
      .ok single)
    (complete : single.error = none) :
    ∃ layered,
      ofUse lookup { settings with mode := .singleLayer } ⟨name, none⟩ =
        .ok layered ∧
        layered.error = none ∧ layered.isComplete = single.isComplete ∧
        layered.finalText = single.finalText ∧
        layered.undefined = single.undefined ∧
        layered.steps.length ≤ single.steps.length := by
  cases outcome_of_ofUse result with
  | refused error => cases complete
  | broken error run => cases complete
  | untouched remarks unselected =>
      exact ⟨_, ofUse_eq_of_not_selects unselected _, rfl, rfl, rfl, rfl,
        Nat.le_refl _⟩
  | @finished definition first rest last scanned run settled steps =>
      have defined : Scope.definition? ⟨lookup, []⟩ name = some definition :=
        run.selects.defined
      have isMacro := run.selects.isMacro
      have passes := run.passes
      rw [target_of_run flat.objectLike run] at passes
      obtain ⟨reduced, others, layers, fewer⟩ :=
        passes.exists_layers flat acyclic settled
          (flat name definition defined isMacro).2.2.1 run.room
      obtain ⟨outcome, count⟩ :=
        Scope.Sourced.rescan_of_passes flat.objectLike acyclic
          flat.not_marked layers reduced (.start defined isMacro []) rfl
      obtain ⟨scannedLayers, expanded, taken⟩ :=
        exists_finished flat.objectLike defined isMacro run.balanced
          outcome run.room
      have positive : scannedLayers.steps.isEmpty = false := by
        rw [List.isEmpty_eq_false_iff, ← List.length_pos_iff, taken]
        exact Nat.succ_pos _
      refine ⟨_, expanded, rfl, ?_, rfl, rfl, ?_⟩
      · simp only [isComplete, finished, steps, positive, List.isEmpty_cons]
      · simp only [finished, taken, count, steps, List.length_cons]
        exact Nat.succ_le_succ fewer

/-- Macros over two levels, one of which leaves nothing. -/
def terraces : Snapshot :=
  ⟨[⟨"TOP".toList, none, "MID-MID".toList, "terraces.h", 1, true⟩,
    ⟨"MID".toList, none, "GAP LOW".toList, "terraces.h", 2, true⟩,
    ⟨"GAP".toList, none, [], "terraces.h", 3, true⟩,
    ⟨"LOW".toList, none, "1".toList, "terraces.h", 4, true⟩]⟩

def terracesRank (name : Text) : Nat :=
  (terraces.definitions.map (·.name)).idxOf name

private theorem flat_terraces : Scope.Flat ⟨terraces.lookup, []⟩ := by
  intro name definition defined _
  have all : ∀ definition ∈ terraces.definitions,
      definition.parameters = none ∧ definition.isUnbalanced = false ∧
        definition.body.all Place.isInert = true ∧
        Text.holds ['#', '#'] definition.body = false := by decide
  obtain ⟨noParameters, unmarked, inert, unpasted⟩ :=
    all definition (Scope.mem_of_definition?_lookup defined).1
  exact ⟨noParameters, unmarked, List.all_eq_true.mp inert, unpasted⟩

private theorem acyclic_terraces : Scope.Acyclic ⟨terraces.lookup, []⟩ := by
  have ranked : ∀ definition ∈ terraces.definitions,
      ∀ word ∈ Word.identifiers definition.body,
      terracesRank definition.name < terracesRank word.spelling := by decide
  exact Scope.acyclic_lookup ranked

private theorem passes_terraces :
    ∃ steps, Scope.Passes ⟨terraces.lookup, []⟩ { Settings.default with
      mode := .singleMacro } 1 "MID-MID".toList steps " 1- 1".toList := by
  have pass {level : Nat} {text next : Text} {steps : List Step}
      (room : level < 30)
      (rewritten : Scope.rewrite ⟨terraces.lookup, []⟩ .singleMacro text =
        .ok next) (expandable :
          Scope.candidates ⟨terraces.lookup, []⟩ true text ≠ [])
            (changed : next ≠ text)
            (later : Scope.Passes ⟨terraces.lookup, []⟩ { Settings.default with
              mode := .singleMacro } (level + 1) next steps " 1- 1".toList) :
            ∃ steps, Scope.Passes ⟨terraces.lookup, []⟩ { Settings.default with
              mode := .singleMacro } level text steps " 1- 1".toList :=
    ⟨_, .cons [] "" room expandable rewritten changed later⟩
  obtain ⟨_, sixth⟩ :=
    @pass 6 " 1- LOW".toList _ _ (by decide) rfl (by decide) (by decide)
      (.nil _ _)
  obtain ⟨_, fifth⟩ :=
    @pass 5 " 1-GAP LOW".toList _ _ (by decide) rfl (by decide)
      (by decide) sixth
  obtain ⟨_, fourth⟩ :=
    @pass 4 " 1-MID".toList _ _ (by decide) rfl (by decide) (by decide) fifth
  obtain ⟨_, third⟩ :=
    @pass 3 " LOW-MID".toList _ _ (by decide) rfl (by decide) (by decide) fourth
  obtain ⟨_, second⟩ :=
    @pass 2 "GAP LOW-MID".toList _ _ (by decide) rfl (by decide) (by decide)
      third
  exact pass (by decide) rfl (by decide) (by decide) second

theorem exists_singleLayer_terraces :
    Scope.Flat ⟨terraces.lookup, []⟩ ∧ Scope.Acyclic ⟨terraces.lookup, []⟩ ∧
      ∃ single layered,
        ofUse terraces.lookup { Settings.default with mode := .singleMacro }
            ⟨"TOP".toList, none⟩ = .ok single ∧
          single.error = none ∧
          ofUse terraces.lookup { Settings.default with mode := .singleLayer }
            ⟨"TOP".toList, none⟩ = .ok layered ∧
          layered.error = none ∧ layered.isComplete = single.isComplete ∧
          layered.finalText = single.finalText ∧
          layered.undefined = single.undefined ∧
          layered.steps.length ≤ single.steps.length := by
  obtain ⟨steps, passes⟩ := passes_terraces
  have defined : Scope.definition? ⟨terraces.lookup, []⟩ "TOP".toList =
      some ⟨"TOP".toList, none, "MID-MID".toList, "terraces.h", 1, true⟩ := rfl
  obtain ⟨outcome, _⟩ :=
    Scope.Sourced.rescan_of_passes flat_terraces.objectLike acyclic_terraces
      flat_terraces.not_marked passes (by decide) (.start defined rfl []) rfl
  obtain ⟨scanned, result, _⟩ :=
    exists_finished flat_terraces.objectLike defined rfl
      (by decide) outcome (by decide)
  obtain ⟨layered, conclusion⟩ :=
    exists_singleLayer flat_terraces acyclic_terraces result rfl
  exact ⟨flat_terraces, acyclic_terraces, _, layered, result, rfl, conclusion⟩

end Expansion

end MacroTrace
