import MacroTrace.Expansion.Basic
import MacroTrace.Proofs.Occurrence
import MacroTrace.Proofs.Piece

/-!
# Substitution with a callback

The arguments of plain uses are expanded while the body is read, each at the
first plain use of its parameter.  The main statement is that this makes no
difference: the arguments might as well be expanded in advance, each of them
once, and then take the places of all uses at the same time.  It holds for
callbacks with effects of any kind.
-/

namespace MacroTrace

namespace Word

/-- An identifier of a text has no word characters beside it. -/
theorem exists_apart
    {text : Text} {word : Word}
    (member : word ∈ identifiers text) :
    ∃ front,
      text = front ++ (word.spelling ++ word.after) ∧
        word.start = front.length ∧
        Text.isIdentifier word.spelling = true ∧
        Text.EndsApart front ∧ Text.BeginsApart word.after := by
  have stands := stands_of_mem_identifiers member
  obtain ⟨front, shape, start⟩ := stands.split
  have identifier : Text.isIdentifier word.spelling = true := by
    rw [Text.isIdentifier_word stands.letters]
    exact (List.mem_filter.mp member).2
  have listed : (word.start, word.spelling) ∈ Text.identifiers text := by
    rw [← map_identifiers]
    exact List.mem_map.mpr ⟨word, member, rfl⟩
  obtain ⟨before, behind, pieces, _, taken, dropped⟩ :=
    Text.exists_append_of_mem_identifiers listed
  obtain ⟨ends, begins⟩ := Text.apart_of_pieces pieces stands.letters
  have sameFront : front = before.flatten := by
    rw [← taken, shape, start, List.take_left]
  have sameAfter : word.after = behind.flatten := by
    rw [← dropped, shape, start, ← List.drop_drop, List.drop_left,
      List.drop_left]
  exact ⟨front, shape, start, identifier, sameFront ▸ ends, sameAfter ▸ begins⟩

end Word

namespace Occurrence

/-- How a name between two texts is used, and where its use begins: at the hash
in front of it, if there is one. -/
inductive Operates (front after : Text) : Context → Nat → Prop where
  | paste :
      ['#', '#'] <:+ Text.trimRight front ∨ ['#', '#'] <+: Text.trimLeft after →
      Operates front after .paste front.length
  | stringify {lead : Text} :
      Text.trimRight front = lead ++ ['#'] →
      ¬ (['#', '#'] <:+ Text.trimRight front ∨
        ['#', '#'] <+: Text.trimLeft after) →
      Operates front after .stringify lead.length
  | plain :
      (Text.trimRight front).getLast? ≠ some '#' →
      ¬ (['#', '#'] <:+ Text.trimRight front ∨
        ['#', '#'] <+: Text.trimLeft after) →
      Operates front after .plain front.length

/-- A name stands for the last parameter that is called so. -/
structure Names (parameters : List Text) (name : Text)
    (index : Nat) : Prop where
  called : (parameters.map parameterName)[index]? = some name
  last : ∀ later, index < later →
    (parameters.map parameterName)[later]? ≠ some name

/-- The use of a parameter in a body: a whole identifier outside literals that
names it. -/
structure IsUse (body : Text) (parameters : List Text)
    (occurrence : Occurrence) : Prop where
  stands : ∃ front name after,
    body = front ++ (name ++ after) ∧
      Text.isIdentifier name = true ∧ Text.EndsApart front ∧
      Text.BeginsApart after ∧
      Span.covered (Literal.spans body) front.length = false ∧
      Names parameters name occurrence.parameter ∧
      occurrence.stop = front.length + name.length ∧
      Operates front after occurrence.context occurrence.start

theorem parameterIndex?_eq_some_iff
    {parameters : List Text} {name : Text} {index : Nat} :
    parameterIndex? parameters name = some index ↔
      Names parameters name index := by
  have general (names : List Text) :
      (names.zipIdx.reverse.find? fun entry => entry.1 == name).map (·.2) =
        some index ↔
      names[index]? = some name ∧
        ∀ later, index < later → names[later]? ≠ some name := by
    induction names using List.reverseRecOn with
    | nil => simp
    | append_singleton front last ih =>
        have final : (front ++ [last])[front.length]? = some last := by simp
        have beyond (later : Nat) (behind : front.length < later) :
            (front ++ [last])[later]? = none := by
          apply List.getElem?_eq_none
          rw [List.length_append, List.length_singleton]
          exact behind
        have inside (early : Nat) (before : early < front.length) :
            (front ++ [last])[early]? = front[early]? :=
          List.getElem?_append_left before
        rw [List.zipIdx_append, List.reverse_append, Nat.zero_add,
          List.zipIdx_singleton, List.reverse_singleton, List.singleton_append,
          List.find?_cons]
        by_cases same : last = name
        · subst same
          rw [beq_self_eq_true, Option.map_some, Option.some.injEq]
          constructor
          · rintro rfl
            refine ⟨final, fun later behind => ?_⟩
            rw [beyond later behind]
            exact (Option.some_ne_none last).symm
          · rintro ⟨here, none⟩
            rcases Nat.lt_trichotomy index front.length with
              before | same | behind
            · exact absurd final (none _ before)
            · exact same.symm
            · rw [beyond index behind] at here
              cases here
        · have unchanged (other : Nat) :
              (front ++ [last])[other]? = some name ↔
                front[other]? = some name := by
            rcases Nat.lt_trichotomy other front.length with
              before | rfl | behind
            · rw [inside other before]
            · simp [same]
            · rw [beyond other behind,
                List.getElem?_eq_none (Nat.le_of_lt behind)]
          simp only [beq_eq_false_iff_ne.mpr same, ih, unchanged, ne_eq]
  rw [parameterIndex?, general]
  exact ⟨fun ⟨called, last⟩ => ⟨called, last⟩,
    fun ⟨called, last⟩ => ⟨called, last⟩⟩

theorem operates_iff
    {front after : Text} {context : Context} {start : Nat} :
    Operates front after context start ↔
      context = contextOf (Text.trimRight front) (Text.trimLeft after) ∧
        start = if context = .stringify then (Text.trimRight front).length - 1
          else front.length := by
  have pasted : (['#', '#'].isSuffixOf (Text.trimRight front) ||
      ['#', '#'].isPrefixOf (Text.trimLeft after)) = true ↔
        ['#', '#'] <:+ Text.trimRight front ∨
          ['#', '#'] <+: Text.trimLeft after := by
    rw [Bool.or_eq_true, List.isSuffixOf_iff_suffix, List.isPrefixOf_iff_prefix]
  unfold contextOf
  constructor
  · intro operates
    cases operates with
    | paste hashes =>
        rw [if_pos (pasted.mpr hashes)]
        exact ⟨rfl, rfl⟩
    | @stringify lead hash apart =>
        rw [if_neg (mt pasted.mp apart), hash, List.getLast?_concat, if_pos rfl]
        refine ⟨rfl, ?_⟩
        rw [if_pos rfl, List.length_append]
        rfl
    | plain noHash apart =>
        rw [if_neg (mt pasted.mp apart), if_neg noHash]
        exact ⟨rfl, rfl⟩
  · rintro ⟨used, rfl⟩
    split at used
    next hashes =>
      subst used
      exact .paste (pasted.mp hashes)
    next apart =>
      split at used
      next hash =>
        subst used
        obtain ⟨lead, shape⟩ := List.getLast?_eq_some_iff.mp hash
        have length : (Text.trimRight front).length - 1 = lead.length := by
          rw [shape, List.length_append]
          rfl
        rw [if_pos rfl, length]
        exact .stringify shape (mt pasted.mpr apart)
      next noHash =>
        subst used
        exact .plain noHash (mt pasted.mpr apart)

/-- The occurrence at a word is the one use that the word makes. -/
theorem eq_ofWord_iff
    {body front : Text} {word : Word}
    (shape : body = front ++ (word.spelling ++ word.after))
    (start : word.start = front.length)
    {occurrence : Occurrence} :
    occurrence = ofWord body occurrence.parameter word ↔
      occurrence.stop = front.length + word.spelling.length ∧
        Operates front word.after occurrence.context occurrence.start := by
  have taken : body.take front.length = front := by rw [shape, List.take_left]
  obtain ⟨first, last, parameter, context⟩ := occurrence
  rw [operates_iff]
  simp only [ofWord, Word.stop, start, taken, mk.injEq, true_and]
  constructor
  · rintro ⟨begins, ends, used⟩
    refine ⟨ends, used, ?_⟩
    rw [used]
    exact begins
  · rintro ⟨ends, used, begins⟩
    refine ⟨?_, ends, used⟩
    rw [used] at begins
    exact begins

theorem mem_all_iff
    {body : Text} {parameters : List Text} {occurrence : Occurrence} :
    occurrence ∈ all body parameters ↔ IsUse body parameters occurrence := by
  constructor
  · intro member
    obtain ⟨word, found, made⟩ := List.mem_filterMap.mp member
    obtain ⟨front, shape, start, identifier, ends, begins⟩ :=
      Word.exists_apart found
    split at made
    next => cases made
    next index named =>
      split at made
      next => cases made
      next uncovered =>
        rw [start, Bool.not_eq_true] at uncovered
        have same := Option.some.inj made
        have parameter : occurrence.parameter = index := by rw [← same, ofWord]
        subst parameter
        obtain ⟨stop, operates⟩ := (eq_ofWord_iff shape start).mp same.symm
        exact ⟨front, word.spelling, word.after, shape, identifier, ends,
          begins, uncovered, parameterIndex?_eq_some_iff.mp named,
          stop, operates⟩
  · rintro ⟨front, name, after, shape, identifier, ends, begins, uncovered,
      named, stop, operates⟩
    obtain ⟨word, found, start, rfl⟩ :=
      Word.exists_of_apart ends identifier begins
    rw [← shape] at found
    obtain ⟨before, split, sameStart, _⟩ := Word.exists_apart found
    obtain ⟨rfl, behind⟩ :=
      List.append_inj (shape.symm.trans split) (start.symm.trans sameStart)
    obtain rfl := List.append_cancel_left behind
    have made := (eq_ofWord_iff split start).mpr ⟨stop, operates⟩
    refine List.mem_filterMap.mpr ⟨word, found, ?_⟩
    simp only [parameterIndex?_eq_some_iff.mpr named, start, uncovered,
      Bool.false_eq_true, if_false, ← made]

end Occurrence

namespace Substitution

/-- The parameters that plain uses of them stand for, use by use. -/
def plainUses (body : Text) (parameters : List Text) : List Nat :=
  ((Occurrence.all body parameters).filter (·.context = .plain)).map
    (·.parameter)

theorem mem_plainParameters_iff
    {body : Text} {parameters : List Text} {index : Nat} :
    index ∈ plainParameters body parameters ↔
      ∃ occurrence ∈ Occurrence.all body parameters,
        occurrence.context = .plain ∧ occurrence.parameter = index := by
  rw [plainParameters, List.mem_eraseDups, List.mem_map]
  constructor
  · rintro ⟨occurrence, member, named⟩
    obtain ⟨listed, plain⟩ := List.mem_filter.mp member
    exact ⟨occurrence, listed, of_decide_eq_true plain, named⟩
  · rintro ⟨occurrence, listed, plain, named⟩
    exact ⟨occurrence, List.mem_filter.mpr ⟨listed, decide_eq_true plain⟩,
      named⟩

/-- The parameters with a plain use that have not been expanded. -/
def wanted (expanded : List (Nat × Text))
    (occurrences : List Occurrence) : List Nat :=
  (((occurrences.filter (·.context = .plain)).map (·.parameter)).filter
    fun index => (expanded.lookup index).isNone).eraseDups

theorem wanted_nil (body : Text) (parameters : List Text) :
    wanted [] (Occurrence.all body parameters) =
      plainParameters body parameters := by
  simp [wanted, plainParameters]

section Wanted

variable {expanded : List (Nat × Text)} {occurrence : Occurrence}
  {rest : List Occurrence}

theorem wanted_of_operand
    (operand : occurrence.context ≠ .plain) :
    wanted expanded (occurrence :: rest) = wanted expanded rest := by
  rw [wanted, List.filter_cons_of_neg (by simpa using operand), wanted]

theorem wanted_of_expanded
    {text : Text}
    (plain : occurrence.context = .plain)
    (found : expanded.lookup occurrence.parameter = some text) :
    wanted expanded (occurrence :: rest) = wanted expanded rest := by
  rw [wanted, List.filter_cons_of_pos (by simpa using plain), List.map_cons,
    List.filter_cons_of_neg (by simp [found]), wanted]

theorem wanted_of_fresh
    (plain : occurrence.context = .plain)
    (fresh : expanded.lookup occurrence.parameter = none)
    (text : Text) :
    wanted expanded (occurrence :: rest) =
      occurrence.parameter ::
        wanted ((occurrence.parameter, text) :: expanded) rest := by
  rw [wanted, List.filter_cons_of_pos (by simpa using plain), List.map_cons,
    List.filter_cons_of_pos (by simp [fresh]), List.eraseDups_cons,
    List.filter_filter, wanted]
  congr 3
  funext index
  rw [List.lookup_cons]
  cases index == occurrence.parameter with
  | true => rfl
  | false => rfl

/-- What has been expanded is not wanted again. -/
theorem lookup_of_expanded
    {index : Nat} {text : Text}
    (found : expanded.lookup index = some text)
    (occurrences : List Occurrence) (texts : List Text) :
    (((wanted expanded occurrences).zip texts).reverse ++ expanded).lookup
      index = some text := by
  have fresh : ((wanted expanded occurrences).zip texts).reverse.lookup index =
      none := by
    rw [List.lookup_eq_none_iff]
    intro entry member
    have listed :=
      List.mem_eraseDups.mp (List.of_mem_zip (List.mem_reverse.mp member)).1
    have missing := (List.mem_filter.mp listed).2
    rw [bne_iff_ne]
    intro same
    rw [← same, found] at missing
    cases missing
  rw [List.lookup_append, fresh, Option.none_or, found]

end Wanted

section Callback

variable {m : Type → Type u} [Monad m] [LawfulMonad m] (expand : Text → m Text)
variable (parameters arguments : List Text)

/-- The arguments may be expanded in advance. -/
theorem replacementsWith_eq
    (expanded : List (Nat × Text)) (occurrences : List Occurrence) :
    replacementsWith expand (values parameters arguments) expanded occurrences =
      (do
        let texts ← (wanted expanded occurrences).mapM fun index =>
          expand ((values parameters arguments)[index]?.getD [])
        let found (index : Nat) : Option Text :=
          (((wanted expanded occurrences).zip texts).reverse ++
            expanded).lookup index
        pure (occurrences.map
          (replacementOf parameters arguments fun index =>
            (found index).getD []))) := by
  induction occurrences generalizing expanded with
  | nil => simp [replacementsWith, wanted]
  | cons occurrence rest ih =>
      cases used : occurrence.context with
      | stringify =>
          have operand : occurrence.context ≠ .plain := by simp [used]
          simp only [replacementsWith, used, ih, wanted_of_operand operand,
            bind_assoc, pure_bind, List.map_cons, replacementOf]
      | paste =>
          have operand : occurrence.context ≠ .plain := by simp [used]
          simp only [replacementsWith, used, ih, wanted_of_operand operand,
            bind_assoc, pure_bind, List.map_cons, replacementOf]
      | plain =>
          cases found : expanded.lookup occurrence.parameter with
          | some text =>
              simp only [replacementsWith, used, found, ih,
                wanted_of_expanded used found, bind_assoc, pure_bind,
                List.map_cons, replacementOf, lookup_of_expanded found,
                Option.getD_some]
          | none =>
              -- Which parameters are wanted later does not depend on the text
              -- for this one.
              have same (text : Text) :
                  wanted ((occurrence.parameter, text) :: expanded) rest =
                    wanted ((occurrence.parameter, []) :: expanded) rest :=
                (List.cons.inj ((wanted_of_fresh used found text).symm.trans
                  (wanted_of_fresh used found []))).2
              have here (text : Text) (texts : List Text) :
                  (((wanted ((occurrence.parameter, []) :: expanded) rest).zip
                    texts).reverse ++
                    (occurrence.parameter, text) ::
                        expanded).lookup occurrence.parameter =
                      some text := by
                rw [← same text]
                exact lookup_of_expanded (by simp) rest texts
              rw [wanted_of_fresh used found [], List.mapM_cons]
              simp only [replacementsWith, used, found, ih, same,
                bind_assoc, pure_bind, List.zip_cons_cons, List.reverse_cons,
                List.append_assoc, List.singleton_append, List.map_cons,
                replacementOf, here, Option.getD_some]

/-- Substitution with a callback is substitution of arguments that have been
expanded in advance. -/
theorem applyWith_eq_apply (body : Text) :
    applyWith body parameters arguments expand = (do
      let texts ← (plainParameters body parameters).mapM fun index =>
        expand ((values parameters arguments)[index]?.getD [])
      pure (apply body parameters arguments fun index =>
        (((plainParameters body parameters).zip texts).reverse.lookup
          index).getD [])) := by
  simp only [applyWith, replacementsWith_eq, wanted_nil, bind_assoc, pure_bind,
    List.append_nil]
  rfl

end Callback

/-- In a body without placeholders of its own, all uses of parameters are
replaced at once, operands of `#` and `##` by arguments as written and plain
uses by what the callback makes of them.  The callback is called once for each
parameter with a plain use, in the order of their first plain uses, and never
otherwise. -/
theorem applyWith_replaces_at_once
    {m : Type → Type u} [Monad m] [LawfulMonad m] {body : Text}
    (clean : '\x00' ∉ body)
    (parameters arguments : List Text) (expand : Text → m Text) :
    (applyWith body parameters arguments expand = do
      let texts ← (plainParameters body parameters).mapM fun index =>
        expand ((values parameters arguments)[index]?.getD [])
      let plain (index : Nat) : Text :=
        (((plainParameters body parameters).zip texts).lookup index).getD []
      pure (.ok (Paste.apply (Text.splice body 0
        ((Occurrence.all body parameters).map fun occurrence =>
          ⟨occurrence.start, occurrence.stop,
            replacementOf parameters arguments plain occurrence⟩))))) ∧
      (∀ index,
        index ∈ plainParameters body parameters ↔
          ∃ occurrence ∈ Occurrence.all body parameters,
            occurrence.context = .plain ∧ occurrence.parameter = index) ∧
      (plainParameters body parameters).Pairwise (fun first second =>
        (plainUses body parameters).idxOf first <
          (plainUses body parameters).idxOf second) ∧
      (∀ occurrence,
        occurrence ∈ Occurrence.all body parameters ↔
          occurrence.IsUse body parameters) ∧
      (Occurrence.all body parameters).Pairwise fun first second =>
        first.stop ≤ second.start := by
  have ordered : (plainParameters body parameters).Pairwise fun first second =>
      (plainUses body parameters).idxOf first <
        (plainUses body parameters).idxOf second :=
    List.pairwise_idxOf_eraseDups (plainUses body parameters)
  have once : (plainParameters body parameters).Nodup := by
    refine ordered.imp ?_
    rintro first second less rfl
    exact Nat.lt_irrefl _ less
  refine ⟨?_, fun index => mem_plainParameters_iff, ordered, fun occurrence =>
    Occurrence.mem_all_iff, Occurrence.pairwise_all body parameters⟩
  simp only [applyWith_eq_apply, List.lookup_reverse_zip once, apply_eq clean,
    replaced, edits_map]

/-- Note every argument, and put it in brackets. -/
def noting (argument : Text) : StateM (List Text) Text := do
  modify (· ++ [argument])
  pure ('<' :: (argument ++ ['>']))

/-- An argument that looks like a parameter in front of a placeholder. -/
theorem applyWith_replaces_at_once_noting :
    '\x00' ∉ "#a b##a a+a".toList ∧
      (applyWith "#a b##a a+a".toList ["a".toList, "b".toList]
        ["b\x000\x00".toList, "x".toList] noting).run [] =
          (.ok (Paste.apply
            "\"b\x000\x00\" x##b\x000\x00 <b\x000\x00>+<b\x000\x00>".toList),
            ["b\x000\x00".toList]) := by
  have clean : '\x00' ∉ "#a b##a a+a".toList := by decide
  have asked : plainParameters "#a b##a a+a".toList ["a".toList, "b".toList] =
      [0] := by decide
  have spliced : Text.splice "#a b##a a+a".toList 0
      ((Occurrence.all "#a b##a a+a".toList ["a".toList, "b".toList]).map
        fun occurrence =>
        ⟨occurrence.start, occurrence.stop,
          replacementOf ["a".toList, "b".toList] ["b\x000\x00".toList,
            "x".toList]
            (fun index => ([(0, "<b\x000\x00>".toList)].lookup index).getD [])
            occurrence⟩) =
        "\"b\x000\x00\" x##b\x000\x00 <b\x000\x00>+<b\x000\x00>".toList := by
    decide +kernel
  refine ⟨clean, ?_⟩
  rw [(applyWith_replaces_at_once clean _ _ _).1, asked, ← spliced]
  rfl

end Substitution

namespace Scope

/-- Rescan an argument.  The macro names made by pasting are the state. -/
def expandArgument (scope : Scope) (settings : Settings) (chain : List Text)
    (level : Nat) (argument : Text) :
      StateT (List Text) (Except (Failure × List Text)) Text :=
  fun pasted =>
    let scanned := scope.rescan settings chain level ⟨argument, [], pasted⟩
    match scanned.outcome with
    | .ok text => .ok (text, scanned.pasted)
    | .error failure => .error (failure, scanned.pasted)

theorem expandArguments_eq_mapM
    (scope : Scope) (settings : Settings) (chain : List Text) (level : Nat)
    (values : List Text) (wanted : List Nat) (done : ExpandedArguments) :
    scope.expandArguments settings chain level values wanted done =
      (fun result => ⟨(wanted.zip result.1).reverse ++ done.texts,
        result.2⟩) <$> (wanted.mapM fun index =>
          scope.expandArgument settings chain level
            (values[index]?.getD [])).run done.pasted := by
  induction wanted generalizing done with
  | nil => rfl
  | cons index wanted ih =>
      rw [List.mapM_cons, StateT.run_bind]
      simp only [expandArguments, expandArgument, StateT.run, ih,
        bind_pure_comp]
      cases (scope.rescan settings chain level
        ⟨values[index]?.getD [], [], done.pasted⟩).outcome with
      | error failure => rfl
      | ok text =>
          generalize (scope.rescan settings chain level _).pasted = pasted
          change _ = _ <$> StateT.run ((text :: ·) <$> wanted.mapM _) pasted
          rw [StateT.run_map, Functor.map_map]
          simp only [List.zip_cons_cons, List.reverse_cons, List.append_assoc,
            List.singleton_append]
          rfl

/-- The body of a macro for a call is made by substitution with this
callback. -/
theorem firstBody_eq_applyWith
    (scope : Scope) (settings : Settings) (chain : List Text) (level : Nat)
    {definition : Definition} {parameters : List Text}
    (parameterized : definition.parameters = some parameters)
    (arguments pasted : List Text) :
    scope.firstBody settings chain level definition (some arguments) pasted =
      match (Substitution.applyWith definition.body parameters arguments
        (scope.expandArgument settings chain level)).run pasted with
      | .error failure => .error failure
      | .ok (.ok result, pasted) =>
          .ok (result, pasted, "Function-like macro expansion")
      | .ok (.error error, pasted) => .error (.placeholder error, pasted) := by
  simp only [firstBody, parameterized, expandArguments_eq_mapM,
    Substitution.applyWith_eq_apply, bind_pure_comp, StateT.run_map,
    List.append_nil]
  cases ((Substitution.plainParameters definition.body parameters).mapM
    fun index =>
    scope.expandArgument settings chain level
      ((Substitution.values parameters arguments)[index]?.getD
        [])).run pasted with
  | error failure => rfl
  | ok expanded =>
      simp only [Except.map_ok]
      split
      next result applied => simp only [applied]
      next error applied => simp only [applied]

end Scope

end MacroTrace
