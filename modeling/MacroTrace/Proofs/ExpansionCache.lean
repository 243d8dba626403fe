import MacroTrace.Proofs.ArgumentCount
import MacroTrace.Proofs.Evaluation
import MacroTrace.Proofs.Separation

/-!
# Remembered expansions

A check expands a use only if no use with the same key has been expanded, so
every use is expanded like the first one of the file that has its key.  Uses
with the same key are the same unless an argument in front of another one ends
inside a literal.  A line break has cut such a literal short and is trimmed from
the argument, so in the key the comma behind the argument reads as if it were
quoted.
-/

namespace MacroTrace

open Literal (Scan)

theorem Nesting.behind_of_balancedFrom
    {scan : Scan} {depth : Nat} {text : Text}
    (balanced : balancedFrom scan depth text = true) :
    behind scan depth text = 0 := by
  induction text generalizing scan depth with
  | nil => simpa [balancedFrom, behind] using balanced
  | cons c rest ih =>
      rw [behind, next]
      unfold balancedFrom at balanced
      split at balanced
      next covered =>
        rw [if_pos covered]
        exact ih balanced
      next uncovered =>
        rw [if_neg uncovered, depthAfter]
        split at balanced
        next opening =>
          rw [if_pos opening]
          exact ih balanced
        next notOpening =>
          rw [if_neg notOpening]
          split at balanced
          next closing =>
            rw [if_pos closing]
            cases depth with
            | zero => cases balanced
            | succ depth => exact ih balanced
          next notClosing =>
            rw [if_neg notClosing]
            exact ih balanced

/-- No comma stands outside the literals and parentheses, which are balanced. -/
structure Text.IsListed (argument : Text) : Prop where
  balanced : Nesting.isBalanced argument = true
  commas : argument.CommasEnclosed

/-- A balanced text in front of a comma of an argument ends inside a literal. -/
theorem Text.IsListed.run_ne_code
    {argument front rest : Text}
    (listed : IsListed argument)
    (shape : argument = front ++ ',' :: rest)
    (balanced : Nesting.isBalanced front = true) :
    Scan.code.run front ≠ .code := by
  intro code
  rcases CommasEnclosed.iff_forall_append.mp listed.commas front rest shape with
    quoted | enclosed
  · rw [code] at quoted
    exact absurd quoted (by decide)
  · rw [Nesting.behind_of_balancedFrom balanced] at enclosed
    exact absurd enclosed (Nat.lt_irrefl 0)

theorem ArgumentList.Draft.isListed_trim
    {raw : Text} {scan : Scan}
    (draft : Draft raw scan 0) :
    Text.IsListed (Text.trim raw) :=
  ⟨draft.isBalanced_trim, draft.commas_trim⟩

/-- What is read is never a single empty argument. -/
theorem ArgumentList.listed_of_at?
    {text : Text} {start : Nat} {list : ArgumentList}
    (found : at? text start = some list) :
    list.texts ≠ [[]] ∧ ∀ argument ∈ list.texts, argument.IsListed := by
  unfold at? at found
  split at found
  next rest opens =>
    have behind : text.drop (start + 1) = ([] : Text).reverse ++ rest := by
      rw [← List.drop_drop, opens]
      rfl
    obtain ⟨arguments, tiles, made⟩ :=
      exists_tiles (readFrom_eq_some_iff.mp found) behind (Nat.add_zero _) .nil
    rw [texts, made]
    by_cases void : arguments.map (·.text) = [[]]
    · rw [if_pos ⟨rfl, void⟩]
      exact ⟨by simp, by simp⟩
    · rw [if_neg fun both => void both.2]
      refine ⟨void, ?_⟩
      intro argument member
      obtain ⟨listed, among, rfl⟩ := List.mem_map.mp member
      obtain ⟨raw, _, position, draft, -, rfl⟩ :=
        tiles.exists_draft listed among
      exact draft.isListed_trim
  next => cases found

namespace Use

/-- Some argument in front of another one ends inside a literal. -/
def IsCut (use : Use) : Prop :=
  ∃ argument ∈ (use.arguments.getD []).dropLast, Scan.code.run argument ≠ .code

instance (use : Use) : Decidable use.IsCut :=
  inferInstanceAs
    (Decidable (∃ argument ∈ (use.arguments.getD []).dropLast,
      Scan.code.run argument ≠ .code))

/-- A use as it is read from a text. -/
structure IsRead (use : Use) : Prop where
  letters : ∀ c ∈ use.name, Text.isWordChar c = true
  present : use.arguments ≠ some [[]]
  listed : ∀ arguments ∈ use.arguments, ∀ argument ∈ arguments,
    argument.IsListed

theorem joinWith_cons_cons (first second : Text) (rest : List Text) :
    Text.joinWith [','] (first :: second :: rest) =
      first ++ ',' :: Text.joinWith [','] (second :: rest) := by
  rw [Text.joinWith, List.intercalate_cons_cons, List.append_assoc]
  rfl

theorem eq_nil_of_joinWith
    {arguments : List Text}
    (present : arguments ≠ [[]])
    (joined : Text.joinWith [','] arguments = []) :
    arguments = [] := by
  cases arguments with
  | nil => rfl
  | cons first rest =>
      cases rest with
      | nil =>
          rw [Text.joinWith, List.intercalate_singleton] at joined
          exact absurd (congrArg (fun argument => [argument]) joined) present
      | cons second rest =>
          rw [joinWith_cons_cons] at joined
          simp at joined

/-- Arguments that are joined to the same text are the same up to the first that
is cut. -/
theorem eq_or_cut_of_joinWith
    {left right : List Text}
    (someLeft : left ≠ [])
    (someRight : right ≠ [])
    (listedLeft : ∀ argument ∈ left, argument.IsListed)
    (listedRight : ∀ argument ∈ right, argument.IsListed)
    (same : Text.joinWith [','] left = Text.joinWith [','] right) :
    left = right ∨
      (∃ argument ∈ left.dropLast, Scan.code.run argument ≠ .code) ∨
      ∃ argument ∈ right.dropLast, Scan.code.run argument ≠ .code := by
  induction left generalizing right with
  | nil => exact absurd rfl someLeft
  | cons a left ih =>
      obtain ⟨b, right, rfl⟩ := List.exists_cons_of_ne_nil someRight
      have listedA := listedLeft a List.mem_cons_self
      have listedB := listedRight b List.mem_cons_self
      cases left with
      | nil =>
          cases right with
          | nil =>
              rw [Text.joinWith, Text.joinWith, List.intercalate_singleton,
                List.intercalate_singleton] at same
              exact .inl (by rw [same])
          | cons second right =>
              rw [joinWith_cons_cons, Text.joinWith,
                List.intercalate_singleton] at same
              exact .inr (.inr ⟨b, List.mem_cons_self,
                listedA.run_ne_code same listedB.balanced⟩)
      | cons next left =>
          cases right with
          | nil =>
              rw [joinWith_cons_cons, eq_comm, Text.joinWith,
                List.intercalate_singleton] at same
              exact .inr (.inl ⟨a, List.mem_cons_self,
                listedB.run_ne_code same listedA.balanced⟩)
          | cons second right =>
              rw [joinWith_cons_cons, joinWith_cons_cons] at same
              -- Unless they are the same, one first argument ends where the
              -- other has a comma.
              rcases List.append_eq_append_cons same with
                ⟨rest, shape, -⟩ | ⟨inner, shape, behind⟩
              · exact .inr (.inr ⟨b, List.mem_cons_self,
                  listedA.run_ne_code shape listedB.balanced⟩)
              · cases inner with
                | cons c inner =>
                    obtain rfl : ',' = c := (List.cons.inj behind).1
                    exact .inr (.inl ⟨a, List.mem_cons_self,
                      listedB.run_ne_code shape listedA.balanced⟩)
                | nil =>
                    rw [List.append_nil] at shape
                    subst shape
                    rcases ih (List.cons_ne_nil _ _) (List.cons_ne_nil _ _)
                      (fun argument member =>
                        listedLeft argument (List.mem_cons_of_mem _ member))
                      (fun argument member =>
                        listedRight argument (List.mem_cons_of_mem _ member))
                      (List.cons.inj behind).2 with
                      equal | ⟨argument, member, cut⟩ | ⟨argument, member, cut⟩
                    · exact .inl (by rw [equal])
                    · exact .inr (.inl ⟨argument,
                        List.mem_cons_of_mem _ member, cut⟩)
                    · exact .inr (.inr ⟨argument,
                        List.mem_cons_of_mem _ member, cut⟩)

theorem eq_or_cut_of_key_eq
    {first second : Use}
    (readFirst : first.IsRead)
    (readSecond : second.IsRead)
    (same : first.key = second.key) :
    first = second ∨ first.IsCut ∨ second.IsCut := by
  have named {use : Use} (read : use.IsRead) :
      use.key.takeWhile Text.isWordChar = use.name := by
    obtain ⟨name, arguments⟩ := use
    cases arguments with
    | none => exact List.takeWhile_eq_self_iff.mpr read.letters
    | some arguments =>
        apply Text.takeWhile_letters read.letters
        intro c head
        cases head
        rfl
  have names : first.name = second.name := by
    rw [← named readFirst, same, named readSecond]
  obtain ⟨name, left⟩ := first
  obtain ⟨other, right⟩ := second
  obtain rfl : name = other := names
  cases left with
  | none =>
      cases right with
      | none => exact .inl rfl
      | some right => exact absurd same (by simp [key, written])
  | some left =>
      cases right with
      | none => exact absurd same (by simp [key, written])
      | some right =>
          have joined : Text.joinWith [','] left =
              Text.joinWith [','] right := by
            simpa [key, written] using same
          by_cases emptyLeft : left = []
          · have emptyRight : right = [] := by
              apply eq_nil_of_joinWith fun single =>
                readSecond.present (congrArg some single)
              rw [← joined, emptyLeft]
              rfl
            exact .inl (by rw [emptyLeft, emptyRight])
          · by_cases emptyRight : right = []
            · have none : left = [] := by
                apply eq_nil_of_joinWith fun single =>
                  readFirst.present (congrArg some single)
                rw [joined, emptyRight]
                rfl
              exact absurd none emptyLeft
            · rcases eq_or_cut_of_joinWith emptyLeft emptyRight
                (readFirst.listed left rfl)
                (readSecond.listed right rfl) joined with equal | cut
              · exact .inl (by rw [equal])
              · exact .inr cut

/-- The first of some uses that has the same key. -/
def firstAlike (uses : List Use) (use : Use) : Use :=
  (uses.find? (·.key = use.key)).getD use

theorem firstAlike_eq
    {uses : List Use} {use : Use}
    (only : ∀ other ∈ uses, other.key = use.key → other = use) :
    firstAlike uses use = use := by
  rw [firstAlike]
  cases found : uses.find? (·.key = use.key) with
  | none => rfl
  | some first =>
      have same : first.key = use.key := by simpa using List.find?_some found
      exact only first (List.mem_of_find?_eq_some found) same

end Use

namespace Check

variable {lookup : Lookup} {settings : Settings} {sheet : Sheet}

/-- The problems that concerns turn out to be if uses are expanded by
`expand`. -/
def resolveWith (expand : Use → Except Substitution.PlaceholderError Expansion)
    (sheet : Sheet) :
    List Concern → Except Substitution.PlaceholderError (List Diagnostic)
  | [] => .ok []
  | .undefined word :: rest =>
      (resolveWith expand sheet rest).map (undefinedReport sheet word :: ·)
  | .expansion word use :: rest =>
      match expand use with
      | .error error => .error error
      | .ok expansion =>
          (resolveWith expand sheet rest).map
            ((expansionReport? sheet word expansion).toList ++ ·)

/-- All diagnostics of a sheet, given those that its concerns turn out to be. -/
def assembled (lookup : Lookup) (sheet : Sheet) (undefined : List Diagnostic) :
    List Diagnostic :=
  (argumentCounts lookup sheet ++ undefined ++ redefinitions lookup sheet ++
    unbalanced sheet
      (Extraction.ofText sheet.path false sheet.text).definitions).mergeSort
      Diagnostic.le

/-- The diagnostics of a file if uses are expanded by `expand`. -/
def diagnosticsWith (expand : Use →
    Except Substitution.PlaceholderError Expansion)
    (lookup : Lookup) (path : String) (text : Text) :
    Except Substitution.PlaceholderError (List Diagnostic) :=
  if maxSize < text.length then .ok []
  else
    (resolveWith expand (Sheet.ofText path text)
      (concerns lookup (Sheet.ofText path text))).map
      (assembled lookup (Sheet.ofText path text))

def Concern.use? : Concern → Option Use
  | .undefined _ => none
  | .expansion _ use => some use

/-- The uses of a file whose expansions are looked at. -/
def expandedUses (lookup : Lookup) (sheet : Sheet) : List Use :=
  (concerns lookup sheet).filterMap Concern.use?

theorem resolveWith_congr
    {expand other : Use → Except Substitution.PlaceholderError Expansion}
    {concerns : List Concern}
    (agree : ∀ use ∈ concerns.filterMap Concern.use?, expand use = other use)
    (sheet : Sheet) :
    resolveWith expand sheet concerns = resolveWith other sheet concerns := by
  induction concerns with
  | nil => rfl
  | cons concern concerns ih =>
      cases concern with
      | undefined word => rw [resolveWith, resolveWith, ih agree]
      | expansion word use =>
          have rest :=
            ih fun later member => agree later (List.mem_cons_of_mem _ member)
          rw [resolveWith, resolveWith, agree use List.mem_cons_self, rest]

theorem diagnosticsWith_congr
    {expand other : Use → Except Substitution.PlaceholderError Expansion}
    {path : String} {text : Text}
    (agree : ∀ use ∈ expandedUses lookup (Sheet.ofText path text), expand use =
      other use) :
    diagnosticsWith expand lookup path text =
      diagnosticsWith other lookup path text := by
  rw [diagnosticsWith, diagnosticsWith, resolveWith_congr agree]

theorem isRead_of_mem_expandedUses
    {use : Use}
    (member : use ∈ expandedUses lookup sheet) :
    use.IsRead := by
  obtain ⟨concern, raised, given⟩ := List.mem_filterMap.mp member
  have letters := letters_of_mem_uses (word_mem_uses_of_mem_concerns raised)
  rcases List.mem_append.mp raised with call | plain
  · obtain ⟨word, called, raised⟩ := List.mem_filterMap.mp call
    rw [word_of_callConcern? raised] at letters
    have identifier := (mem_inCode_iff.mp (mem_uses_of_mem_callWords called)).1
    unfold callConcern? at raised
    split at raised
    next =>
      cases raised
      cases given
    next =>
      split at raised
      next list closed =>
        split at raised
        next =>
          cases raised
          cases given
          rw [Word.argumentList?_eq_at? identifier] at closed
          obtain ⟨present, listed⟩ := ArgumentList.listed_of_at? closed
          refine ⟨letters, fun single => present (Option.some.inj single), ?_⟩
          rintro arguments ⟨⟩
          exact listed
        next => cases raised
      next => cases raised
  · obtain ⟨word, standing, raised⟩ := List.mem_filterMap.mp plain
    rw [word_of_plainConcern? raised] at letters
    unfold plainConcern? at raised
    split at raised
    next =>
      cases raised
      cases given
    next =>
      split at raised
      next =>
        cases raised
        cases given
        exact ⟨letters, by simp, by simp⟩
      next => cases raised

/-- The expansions made are those of the first uses with their keys. -/
def Progress.Remembers (lookup : Lookup) (settings : Settings)
    (progress : Progress) (earlier : List Use) : Prop :=
  ∀ key, (progress.expansions.lookup key).map Except.ok =
    (earlier.find? (·.key = key)).map (Expansion.ofUse lookup settings)

namespace Progress.Remembers

variable {progress : Progress} {earlier : List Use}

theorem nil : Remembers lookup settings ⟨[], []⟩ [] := by
  intro key
  rfl

/-- A use whose key is known adds nothing. -/
theorem again
    {use first : Use}
    (remembers : progress.Remembers lookup settings earlier)
    (known : earlier.find? (·.key = use.key) = some first) :
    progress.Remembers lookup settings (earlier ++ [use]) := by
  intro key
  rw [remembers key, List.find?_append]
  by_cases same : use.key = key
  · subst same
    rw [known]
    rfl
  · rw [List.find?_cons_of_neg (by simpa using same), List.find?_nil,
      Option.or_none]

/-- The first use with its key is kept. -/
theorem cons
    {use : Use} {expansion : Expansion}
    (remembers : progress.Remembers lookup settings earlier)
    (unknown : earlier.find? (·.key = use.key) = none)
    (expanded : Expansion.ofUse lookup settings use = .ok expansion)
    (log : List Log.Entry) :
    Progress.Remembers lookup settings
      ⟨(use.key, expansion) :: progress.expansions, log⟩
      (earlier ++ [use]) := by
  intro key
  rw [List.find?_append, List.lookup_cons]
  by_cases same : use.key = key
  · subst same
    rw [beq_self_eq_true, unknown, Option.none_or,
      List.find?_cons_of_pos (by simp)]
    exact congrArg some expanded.symm
  · have apart : (key == use.key) = false :=
      beq_eq_false_iff_ne.mpr (Ne.symm same)
    rw [apart, List.find?_cons_of_neg (by simpa using same), List.find?_nil,
      Option.or_none]
    exact remembers key

/-- Expanding a use gives the expansion of the first use with its key, which is
kept. -/
theorem expand
    (remembers : progress.Remembers lookup settings earlier)
    (use : Use) (later : List Use) :
    (∃ error,
      Expansion.ofUse lookup settings
        (Use.firstAlike (earlier ++ use :: later) use) =
          .error error ∧
        progress.expand lookup settings use = .error error) ∨
    ∃ expansion progress',
      Expansion.ofUse lookup settings
        (Use.firstAlike (earlier ++ use :: later) use) =
          .ok expansion ∧
        progress.expand lookup settings use = .ok (expansion, progress') ∧
        progress'.Remembers lookup settings (earlier ++ [use]) := by
  have kept := remembers use.key
  rw [Progress.expand, Use.firstAlike, List.find?_append]
  cases known : earlier.find? (·.key = use.key) with
  | some first =>
      rw [known] at kept
      obtain ⟨expansion, found, expanded⟩ := Option.map_eq_some_iff.mp kept
      rw [found]
      exact .inr ⟨expansion, progress, expanded.symm, rfl,
        remembers.again known⟩
  | none =>
      rw [known] at kept
      rw [Option.map_eq_none_iff.mp kept, Option.none_or,
        List.find?_cons_of_pos (by simp), Option.getD_some]
      cases expanded : Expansion.ofUse lookup settings use with
      | error error => exact .inl ⟨error, rfl, rfl⟩
      | ok expansion =>
          exact .inr ⟨expansion, _, rfl, rfl, remembers.cons known expanded _⟩

end Progress.Remembers

/-- Resolving concerns with a memory expands every use like the first one with
its key. -/
theorem resolve_eq_resolveWith
    {progress : Progress} {earlier : List Use}
    (remembers : progress.Remembers lookup settings earlier)
    (found : List Diagnostic) (concerns : List Concern) :
    (resolve lookup settings sheet found progress concerns).1 =
      (resolveWith (fun use => Expansion.ofUse lookup settings
        (Use.firstAlike (earlier ++ concerns.filterMap Concern.use?) use)) sheet
        concerns).map (found.reverse ++ ·) := by
  induction concerns generalizing found progress earlier with
  | nil => simp [resolve, resolveWith, Except.map]
  | cons concern concerns ih =>
      cases concern with
      | undefined word =>
          rw [resolve, ih remembers, List.filterMap_cons_none rfl, resolveWith]
          generalize resolveWith _ sheet concerns = resolved
          cases resolved with
          | error error => rfl
          | ok diagnostics => simp [Except.map]
      | expansion word use =>
          rw [resolve, resolveWith,
            show (Concern.expansion word use :: concerns).filterMap
              Concern.use? =
            use :: concerns.filterMap Concern.use? from rfl]
          have split : earlier ++ use :: concerns.filterMap Concern.use? =
              (earlier ++ [use]) ++ concerns.filterMap Concern.use? := by simp
          rcases remembers.expand use (concerns.filterMap Concern.use?) with
            ⟨error, failed, expanded⟩ |
              ⟨expansion, progress', made, expanded, remembered⟩
          · rw [expanded, failed]
            rfl
          · rw [expanded, made, split]
            simp only
            rw [ih remembered]
            generalize resolveWith _ sheet concerns = resolved
            cases resolved with
            | error error => rfl
            | ok diagnostics =>
                cases expansionReport? sheet word expansion with
                | none => simp [Except.map]
                | some report => simp [Except.map]

theorem diagnostics_eq_map
    (lookup : Lookup) (settings : Settings) (sheet : Sheet) :
    (ofSheet lookup settings sheet).diagnostics =
      (resolve lookup settings sheet [] ⟨[], []⟩ (concerns lookup sheet)).1.map
        (assembled lookup sheet) := by
  unfold ofSheet
  cases resolve lookup settings sheet [] ⟨[], []⟩ (concerns lookup sheet) with
  | mk resolved progress =>
      cases resolved with
      | error error => rfl
      | ok undefined => rfl

theorem diagnostics_eq_diagnosticsWith
    (lookup : Lookup) (settings : Settings) (path : String) (text : Text) :
    (ofText lookup settings path text).diagnostics =
      diagnosticsWith (fun use => Expansion.ofUse lookup settings
        (Use.firstAlike (expandedUses lookup (Sheet.ofText path text)) use))
        lookup path text := by
  unfold ofText diagnosticsWith
  split
  next => rfl
  next =>
    rw [diagnostics_eq_map, resolve_eq_resolveWith .nil, List.nil_append,
      expandedUses]
    generalize resolveWith _ (Sheet.ofText path text) _ = resolved
    cases resolved with
    | error error => rfl
    | ok undefined => rfl

/-- A check expands every use like the first one of the file with its key.  Two
uses with the same key are the same unless an argument in front of another one
ends inside a literal, and without such arguments the check finds what a check
without a memory finds. -/
theorem diagnostics_remembered
    (lookup : Lookup) (settings : Settings) (path : String) (text : Text) :
    (ofText lookup settings path text).diagnostics =
        diagnosticsWith (fun use => Expansion.ofUse lookup settings
          (Use.firstAlike (expandedUses lookup (Sheet.ofText path text)) use))
          lookup path text ∧
      (∀ first ∈ expandedUses lookup (Sheet.ofText path text),
        ∀ second ∈ expandedUses lookup (Sheet.ofText path text),
          first.key = second.key → first = second ∨ first.IsCut ∨
            second.IsCut) ∧
      ((∀ use ∈ expandedUses lookup (Sheet.ofText path text), ¬ use.IsCut) →
        (ofText lookup settings path text).diagnostics =
          diagnosticsWith (Expansion.ofUse lookup settings)
            lookup path text) := by
  have remembered := diagnostics_eq_diagnosticsWith lookup settings path text
  have distinct {first second : Use}
      (memberFirst : first ∈ expandedUses lookup (Sheet.ofText path text))
      (memberSecond : second ∈ expandedUses lookup (Sheet.ofText path text))
      (same : first.key = second.key) : first = second ∨ first.IsCut ∨
        second.IsCut :=
    Use.eq_or_cut_of_key_eq (isRead_of_mem_expandedUses memberFirst)
      (isRead_of_mem_expandedUses memberSecond) same
  refine ⟨remembered,
    fun _ memberFirst _ memberSecond => distinct memberFirst memberSecond, ?_⟩
  intro closed
  rw [remembered]
  apply diagnosticsWith_congr
  intro use member
  rw [Use.firstAlike_eq]
  intro other among same
  rcases distinct among member same with equal | cut | cut
  · exact equal
  · exact absurd cut (closed other among)
  · exact absurd cut (closed use member)

def lastMacro : Definition :=
  ⟨"LAST".toList, some ["x".toList, "...".toList], "__VA_ARGS__".toList,
    "last.h", 1, true⟩

def lastOnly : Snapshot :=
  ⟨[lastMacro]⟩

def repeatedText : Text :=
  "LAST(\"a,\", LOST_NAME);\nLAST( \"a,\" ,LOST_NAME);\n".toList

def repeatedUse : Use :=
  ⟨"LAST".toList, some ["\"a,\"".toList, "LOST_NAME".toList]⟩

/-- Two calls with a comma in a literal, written differently. -/
theorem diagnostics_remembered_repeatedText :
    expandedUses lastOnly.lookup (Sheet.ofText "main.c" repeatedText) =
        [repeatedUse, repeatedUse] ∧
      ¬ repeatedUse.IsCut ∧
      (ofText lastOnly.lookup .default "main.c" repeatedText).diagnostics =
        diagnosticsWith (Expansion.ofUse lastOnly.lookup .default)
          lastOnly.lookup "main.c" repeatedText := by
  have uses :
      expandedUses lastOnly.lookup (Sheet.ofText "main.c" repeatedText) =
        [repeatedUse, repeatedUse] := by
    decide +kernel
  have closed : ¬ repeatedUse.IsCut := by decide
  refine ⟨uses, closed, ?_⟩
  apply (diagnostics_remembered lastOnly.lookup .default "main.c"
    repeatedText).2.2
  intro use member
  rw [uses] at member
  obtain rfl : use = repeatedUse := by simpa using member
  exact closed

/-- The literal of this call holds the comma. -/
def quotedCall : Text :=
  "LAST(';,LOST_NAME\n);\n".toList

/-- The literal of this call ends in front of the comma. -/
def cutCall : Text :=
  "LAST(';\n,LOST_NAME);\n".toList

def cutText : Text :=
  quotedCall ++ cutCall

def cutSheet : Sheet :=
  Sheet.ofText "main.c" cutText

def quotedUse : Use :=
  ⟨"LAST".toList, some ["';,LOST_NAME".toList]⟩

def cutUse : Use :=
  ⟨"LAST".toList, some ["';".toList, "LOST_NAME".toList]⟩

private theorem exists_ofUse_quotedUse :
    ∃ expansion, Expansion.ofUse lastOnly.lookup .default quotedUse =
      .ok expansion ∧
      expansion.undefined = [] := by
  have evaluated :
      (Expansion.ofUse lastOnly.lookup .default quotedUse).toOption.map
        (·.undefined) = some [] := by
    decide +kernel
  cases expanded : Expansion.ofUse lastOnly.lookup .default quotedUse with
  | error error =>
      rw [expanded] at evaluated
      cases evaluated
  | ok expansion =>
      rw [expanded] at evaluated
      exact ⟨expansion, rfl, Option.some.inj evaluated⟩

private theorem exists_ofUse_cutUse :
    ∃ expansion, Expansion.ofUse lastOnly.lookup .default cutUse =
      .ok expansion ∧
      expansion.undefined = ["LOST_NAME".toList] := by
  have outcome :
      (Scope.expandUse ⟨lastOnly.lookup, []⟩ .default [] 0 cutUse []).outcome =
        .ok "LOST_NAME".toList := by
    decide +kernel
  have selects : cutUse.Selects lastOnly.lookup lastMacro :=
    ⟨rfl, rfl, fun _ => .inr rfl⟩
  refine ⟨Expansion.finished lastOnly.lookup .default lastMacro
    "LOST_NAME".toList
    (Scope.expandUse ⟨lastOnly.lookup, []⟩ .default [] 0 cutUse []), ?_, ?_⟩
  · rw [Expansion.ofUse_of_selects selects, Expansion.ofRescan, outcome]
  · have simplified : Group.simplify "LOST_NAME".toList =
        "LOST_NAME".toList := by cbv
    have found : ((Word.macroNames "LOST_NAME".toList).filter fun word =>
        !Span.covered (Literal.spans "LOST_NAME".toList) word.start &&
          !isBuiltin word.spelling &&
          !(lastMacro.parameterList ++ lastMacro.variadicName?.toList).contains
            word.spelling &&
          (lastOnly.lookup word.spelling).isEmpty).map (·.spelling) =
            ["LOST_NAME".toList] := by
      decide +kernel
    change undefinedNames lastOnly.lookup
      (Group.simplify "LOST_NAME".toList) _ = _
    rw [simplified, undefinedNames]
    simp only [found]
    rw [Text.sortedSet, List.mergeSort_singleton]
    rfl

def quotedWord : Word :=
  ⟨"LAST".toList, 0, [], quotedCall.drop 4 ++ cutCall⟩

def cutWord : Word :=
  ⟨"LAST".toList, 21, quotedCall.reverse, cutCall.drop 4⟩

private theorem concerns_cutSheet :
    concerns lastOnly.lookup cutSheet =
      [.expansion quotedWord quotedUse, .expansion cutWord cutUse] := by
  decide +kernel

private theorem diagnosticsWith_cutText
    {expand : Use → Except Substitution.PlaceholderError Expansion}
    {first second : Expansion}
    (expandedFirst : expand quotedUse = .ok first)
    (expandedSecond : expand cutUse = .ok second) :
    diagnosticsWith expand lastOnly.lookup "main.c" cutText =
      .ok (((expansionReport? cutSheet quotedWord first).toList ++
        (expansionReport? cutSheet cutWord second).toList).mergeSort
          Diagnostic.le) := by
  have small : cutText.length ≤ maxSize := by decide
  have counts : argumentCounts lastOnly.lookup cutSheet = [] := by
    decide +kernel
  have several : redefinitions lastOnly.lookup cutSheet = [] := by
    decide +kernel
  have unclosed : unbalanced cutSheet
      (Extraction.ofText cutSheet.path false cutSheet.text).definitions =
        [] := by
    decide +kernel
  rw [diagnosticsWith, if_neg (Nat.not_lt.mpr small), ← cutSheet,
    concerns_cutSheet, resolveWith, expandedFirst]
  simp only
  rw [resolveWith, expandedSecond]
  simp only [resolveWith, Except.map, assembled, counts, several, unclosed,
    List.append_nil, List.nil_append]

def cutReport : Diagnostic :=
  ⟨"main.c", 3, 1, 4, .expansionUndefined,
    "Macro 'LAST' expands to undefined macro: LOST_NAME"⟩

/-- The second call is expanded like the first, and what its own expansion
brings up is missed. -/
theorem diagnostics_cutText :
    cutText.length ≤ maxSize ∧
      expandedUses lastOnly.lookup (Sheet.ofText "main.c" cutText) =
        [quotedUse, cutUse] ∧
      quotedUse.key = cutUse.key ∧
      (ofText lastOnly.lookup .default "main.c" cutText).diagnostics = .ok [] ∧
      diagnosticsWith (Expansion.ofUse lastOnly.lookup .default) lastOnly.lookup
          "main.c" cutText =
        .ok [cutReport] := by
  have uses : expandedUses lastOnly.lookup (Sheet.ofText "main.c" cutText) =
      [quotedUse, cutUse] := by
    rw [expandedUses, ← cutSheet, concerns_cutSheet]
    rfl
  obtain ⟨first, expandedFirst, none⟩ := exists_ofUse_quotedUse
  obtain ⟨second, expandedSecond, lost⟩ := exists_ofUse_cutUse
  have silent (word : Word) :
      expansionReport? cutSheet word first = Option.none := by
    rw [expansionReport?, none]
  have report : expansionReport? cutSheet cutWord second = some cutReport := by
    rw [expansionReport?, lost]
    decide +kernel
  refine ⟨by decide, uses, rfl, ?_, ?_⟩
  · have alike : ∀ use ∈ [quotedUse, cutUse],
        Use.firstAlike [quotedUse, cutUse] use = quotedUse := by
      decide
    have shared {use : Use} (member : use ∈ [quotedUse, cutUse]) :
        (fun use => Expansion.ofUse lastOnly.lookup .default
          (Use.firstAlike [quotedUse, cutUse] use)) use = .ok first := by
      simp only [alike use member, expandedFirst]
    rw [diagnostics_eq_diagnosticsWith, uses,
      diagnosticsWith_cutText (shared (by simp)) (shared (by simp)),
      silent, silent]
    exact congrArg Except.ok List.mergeSort_nil
  · rw [diagnosticsWith_cutText expandedFirst expandedSecond, silent, report]
    exact congrArg Except.ok (List.mergeSort_singleton cutReport)

end Check

end MacroTrace
