import MacroTrace.Diagnostic.Check
import MacroTrace.Proofs.Occurrence
import MacroTrace.Proofs.Passes

/-!
# What a check reports

Every diagnostic about a use comes from one word of the prepared text: it stands
at that word, has its length, and its message quotes the word before anything
else.
-/

namespace MacroTrace

/-- The name that the message of a diagnostic quotes first. -/
def Diagnostic.subject (diagnostic : Diagnostic) : Text :=
  ((diagnostic.message.toList.dropWhile (· ≠ '\x27')).drop 1).takeWhile
    (· ≠ '\x27')

theorem Diagnostic.subject_eq
    {diagnostic : Diagnostic} {before name after : Text}
    (message : diagnostic.message.toList =
      before ++ '\x27' :: (name ++ '\x27' :: after))
    (first : '\x27' ∉ before)
    (whole : '\x27' ∉ name) :
    diagnostic.subject = name := by
  have kept {text : Text} (free : '\x27' ∉ text) : ∀ c ∈ text,
      decide (c ≠ '\x27') = true := by
    intro c member
    rw [decide_eq_true_eq]
    rintro rfl
    exact free member
  rw [subject, message, List.dropWhile_append_of_pos (kept first),
    List.dropWhile_cons_of_neg (by decide), List.drop_one, List.tail_cons,
    List.takeWhile_append_of_pos (kept whole),
    List.takeWhile_cons_of_neg (by decide), List.append_nil]

namespace Check

def Concern.word : Concern → Word
  | .undefined word => word
  | .expansion word _ => word

/-- The diagnostics that a concern can turn out to be. -/
inductive Concern.Yields (sheet : Sheet) : Concern → Diagnostic → Prop where
  | undefined (word : Word) :
      Yields sheet (.undefined word) (undefinedReport sheet word)
  | expansion {word : Word} {use : Use} {expansion : Expansion}
      {diagnostic : Diagnostic} :
      expansionReport? sheet word expansion = some diagnostic →
      Yields sheet (.expansion word use) diagnostic

variable {lookup : Lookup} {settings : Settings} {sheet : Sheet} {word : Word}
  {diagnostic : Diagnostic} {diagnostics : List Diagnostic}

/-- A diagnostic that stands at a word and quotes it. -/
structure About (sheet : Sheet) (word : Word)
    (diagnostic : Diagnostic) : Prop where
  reported : diagnostic =
    sheet.reportWord word diagnostic.code diagnostic.message
  quoted : diagnostic.subject = word.spelling

theorem About.of_message
    {code : Diagnostic.Code} {message : String} {before : Text}
    (letters : ∀ c ∈ word.spelling, Text.isWordChar c = true)
    (first : '\x27' ∉ before)
    (begins : before ++ '\x27' :: (word.spelling ++ ['\x27']) <+:
      message.toList) :
    About sheet word (sheet.reportWord word code message) := by
  have whole : '\x27' ∉ word.spelling := by
    intro member
    have isWord := letters _ member
    revert isWord
    decide
  obtain ⟨after, shape⟩ := begins
  have quoting : message.toList =
      before ++ '\x27' :: (word.spelling ++ '\x27' :: after) := by
    rw [← shape]
    simp
  exact ⟨rfl, Diagnostic.subject_eq quoting first whole⟩

/-- What it takes for the arguments of a called word to be counted and found
wrong. -/
structure Miscounted (lookup : Lookup) (word : Word) (definition : Definition)
    (list : ArgumentList) : Prop where
  defined : firstMacro? lookup word.spelling = some definition
  parameters : definition.parameterList ≠ []
  unmarked : definition.isUnbalanced = false
  closed : word.argumentList? = some list
  own : ∀ argument ∈ list.texts, Text.holds variadicDefault argument = false
  refused : definition.accepts (some list.texts) = false

theorem argumentCount?_eq_some_iff :
    argumentCount? lookup sheet word = some diagnostic ↔
      ∃ definition list, Miscounted lookup word definition list ∧
        diagnostic = sheet.reportWord word .argumentCount
          (argumentCountMessage definition word.spelling
            list.texts.length) := by
  constructor
  · intro found
    obtain ⟨definition, defined, found⟩ := Option.bind_eq_some_iff.mp found
    obtain ⟨counted, found⟩ := Option.ite_none_left_eq_some.mp found
    obtain ⟨list, closed, found⟩ := Option.bind_eq_some_iff.mp found
    obtain ⟨own, found⟩ := Option.ite_none_left_eq_some.mp found
    obtain ⟨refused, found⟩ := Option.ite_none_left_eq_some.mp found
    simp only [Bool.or_eq_true, List.isEmpty_iff, not_or,
      Bool.not_eq_true] at counted
    simp only [List.any_eq_true, not_exists, not_and, Bool.not_eq_true] at own
    refine ⟨definition, list,
      ⟨defined, counted.1, counted.2, closed, own, ?_⟩, ?_⟩
    · simpa using refused
    · exact (Option.some.inj found).symm
  · rintro ⟨definition, list, wrong, rfl⟩
    simpa [argumentCount?, wrong.defined, wrong.parameters, wrong.unmarked,
      wrong.closed, wrong.refused] using wrong.own

section Letters

variable (letters : ∀ c ∈ word.spelling, Text.isWordChar c = true)

include letters

theorem about_undefinedReport :
    About sheet word (undefinedReport sheet word) := by
  have opening : '\x27' ∉ "Undefined macro ".toList := by decide
  apply About.of_message letters opening
  simp [toString]

theorem about_macroMessage
    {code : Diagnostic.Code} {message : String}
    (begins : "Macro '".toList ++ word.spelling ++ "'".toList <+:
      message.toList) :
    About sheet word (sheet.reportWord word code message) := by
  have opening : '\x27' ∉ "Macro ".toList := by decide
  apply About.of_message letters opening
  simpa using begins

theorem about_expansionReport?
    {expansion : Expansion}
    (found : expansionReport? sheet word expansion = some diagnostic) :
    About sheet word diagnostic ∧ diagnostic.code = .expansionUndefined := by
  unfold expansionReport? at found
  split at found
  next => cases found
  next =>
    cases found
    refine ⟨about_macroMessage letters ?_, rfl⟩
    simp [toString]

theorem about_argumentCount?
    (found : argumentCount? lookup sheet word = some diagnostic) :
    About sheet word diagnostic ∧ diagnostic.code = .argumentCount := by
  obtain ⟨definition, list, _, rfl⟩ := argumentCount?_eq_some_iff.mp found
  refine ⟨about_macroMessage letters ?_, rfl⟩
  simp [argumentCountMessage, toString]

theorem about_redefinition?
    (found : redefinition? lookup sheet word = some diagnostic) :
    About sheet word diagnostic ∧ diagnostic.code = .redefinition := by
  unfold redefinition? at found
  simp only at found
  split at found
  next => cases found
  next =>
    cases found
    refine ⟨about_macroMessage letters ?_, rfl⟩
    simp [toString]

end Letters

theorem Concern.Yields.about
    {concern : Concern}
    (yields : concern.Yields sheet diagnostic)
    (letters : ∀ c ∈ concern.word.spelling, Text.isWordChar c = true) :
    About sheet concern.word diagnostic := by
  cases yields with
  | undefined word => exact about_undefinedReport letters
  | expansion found => exact (about_expansionReport? letters found).1

/-- Nothing is reported that does not come from a concern, nothing found before
is lost, and no name without a definition is passed over. -/
theorem mem_resolve
    {found : List Diagnostic} {progress : Progress} {concerns : List Concern}
    (resolved : (resolve lookup settings sheet found progress concerns).1 =
      .ok diagnostics) :
    (∀ diagnostic ∈ diagnostics,
        diagnostic ∈ found ∨
          ∃ concern ∈ concerns, concern.Yields sheet diagnostic) ∧
      (∀ diagnostic ∈ found, diagnostic ∈ diagnostics) ∧
      ∀ word, .undefined word ∈ concerns →
        undefinedReport sheet word ∈ diagnostics := by
  induction concerns generalizing found progress with
  | nil =>
      cases resolved
      refine ⟨?_, ?_, nofun⟩
      · intro diagnostic member
        exact .inl (List.mem_reverse.mp member)
      · intro diagnostic member
        exact List.mem_reverse.mpr member
  | cons concern concerns ih =>
      cases concern with
      | undefined word =>
          rw [resolve] at resolved
          obtain ⟨reported, kept, noted⟩ := ih resolved
          refine ⟨?_, ?_, ?_⟩
          · intro diagnostic member
            rcases reported diagnostic member with
              earlier | ⟨concern, later, yields⟩
            · rcases List.mem_cons.mp earlier with rfl | earlier
              · exact .inr ⟨_, List.mem_cons_self, .undefined word⟩
              · exact .inl earlier
            · exact .inr ⟨concern, List.mem_cons_of_mem _ later, yields⟩
          · intro diagnostic member
            exact kept diagnostic (List.mem_cons_of_mem _ member)
          · intro other member
            rcases List.mem_cons.mp member with same | later
            · cases same
              exact kept _ List.mem_cons_self
            · exact noted other later
      | expansion word use =>
          rw [resolve] at resolved
          split at resolved
          next => cases resolved
          next expansion _ _ =>
            obtain ⟨reported, kept, noted⟩ := ih resolved
            refine ⟨?_, ?_, ?_⟩
            · intro diagnostic member
              rcases reported diagnostic member with
                earlier | ⟨concern, later, yields⟩
              · rcases List.mem_append.mp earlier with here | earlier
                · rw [Option.mem_toList] at here
                  exact .inr ⟨_, List.mem_cons_self, .expansion here⟩
                · exact .inl earlier
              · exact .inr ⟨concern, List.mem_cons_of_mem _ later, yields⟩
            · intro diagnostic member
              exact kept diagnostic (List.mem_append_right _ member)
            · intro other member
              rcases List.mem_cons.mp member with same | later
              · cases same
              · exact noted other later

theorem Progress.expand_isOk
    (clean : Scope.Clean ⟨lookup, []⟩)
    (settings : Settings) (progress : Progress) (use : Use) :
    ∃ result, progress.expand lookup settings use = .ok result := by
  unfold Progress.expand
  cases progress.expansions.lookup use.key with
  | some expansion => exact ⟨_, rfl⟩
  | none =>
      obtain ⟨expansion, result⟩ := Expansion.ofUse_isOk clean settings use
      rw [result]
      exact ⟨_, rfl⟩

theorem resolve_isOk
    (clean : Scope.Clean ⟨lookup, []⟩)
    (settings : Settings) (sheet : Sheet) (found : List Diagnostic)
    (progress : Progress) (concerns : List Concern) :
    ∃ diagnostics, (resolve lookup settings sheet found progress concerns).1 =
      .ok diagnostics := by
  induction concerns generalizing found progress with
  | nil => exact ⟨_, rfl⟩
  | cons concern concerns ih =>
      cases concern with
      | undefined word => exact ih _ _
      | expansion word use =>
          obtain ⟨result, expanded⟩ :=
            Progress.expand_isOk clean settings progress use
          rw [resolve, expanded]
          exact ih _ _

theorem mem_inCode_iff
    {words : List Word} :
    word ∈ inCode sheet words ↔
      word ∈ words ∧ isBuiltin word.spelling = false ∧
        sheet.isCode word.start = true := by
  simp [inCode]

theorem mem_identifiers_of_mem_macroNames
    {text : Text}
    (member : word ∈ Word.macroNames text) :
    word ∈ Word.identifiers text := by
  obtain ⟨present, named⟩ := List.mem_filter.mp member
  refine List.mem_filter.mpr ⟨present, ?_⟩
  cases spelled : word.spelling with
  | nil => simp [spelled, Text.isMacroName] at named
  | cons c rest =>
      simp only [spelled, Text.isMacroName, Bool.and_eq_true,
        Bool.or_eq_true] at named
      simp only [Word.isIdentifier, spelled, List.head?_cons, Option.any_some,
        Text.isIdentifierStart, Text.isAsciiLetter, Bool.or_eq_true]
      tauto

/-- The words of a sheet that a diagnostic can be about. -/
def uses (sheet : Sheet) : List Word :=
  inCode sheet (Word.identifiers sheet.clean)

theorem mem_uses_of_mem_inCode
    {words : List Word}
    (identifiers : ∀ word ∈ words, word ∈ Word.identifiers sheet.clean)
    (member : word ∈ inCode sheet words) :
    word ∈ uses sheet := by
  rw [mem_inCode_iff] at member
  exact mem_inCode_iff.mpr ⟨identifiers word member.1, member.2⟩

theorem letters_of_mem_uses
    (member : word ∈ uses sheet) :
    ∀ c ∈ word.spelling, Text.isWordChar c = true :=
  (Word.stands_of_mem_identifiers (mem_inCode_iff.mp member).1).letters

theorem mem_uses_of_mem_callWords
    (member : word ∈ callWords sheet) :
    word ∈ uses sheet := by
  apply mem_uses_of_mem_inCode _ member
  intro word called
  exact mem_identifiers_of_mem_macroNames (List.mem_of_mem_filter called)

theorem mem_uses_of_mem_plainWords
    (member : word ∈ plainWords sheet) :
    word ∈ uses sheet := by
  apply mem_uses_of_mem_inCode _ (List.mem_of_mem_filter member)
  intro word plain
  exact mem_identifiers_of_mem_macroNames (List.mem_of_mem_filter plain)

theorem word_of_callConcern?
    {concern : Concern}
    (raised : callConcern? lookup word = some concern) :
    concern.word = word := by
  unfold callConcern? at raised
  split at raised
  next => cases raised; rfl
  next =>
    split at raised
    next =>
      split at raised
      next => cases raised; rfl
      next => cases raised
    next => cases raised

theorem word_of_plainConcern?
    {concern : Concern}
    (raised : plainConcern? lookup word = some concern) :
    concern.word = word := by
  unfold plainConcern? at raised
  split at raised
  next => cases raised; rfl
  next =>
    split at raised
    next => cases raised; rfl
    next => cases raised

theorem word_mem_uses_of_mem_concerns
    {concern : Concern}
    (member : concern ∈ concerns lookup sheet) :
    concern.word ∈ uses sheet := by
  rcases List.mem_append.mp member with call | plain
  · obtain ⟨word, called, raised⟩ := List.mem_filterMap.mp call
    rw [word_of_callConcern? raised]
    exact mem_uses_of_mem_callWords called
  · obtain ⟨word, standing, raised⟩ := List.mem_filterMap.mp plain
    rw [word_of_plainConcern? raised]
    exact mem_uses_of_mem_plainWords standing

theorem ofText_of_le
    {path : String} {text : Text}
    (small : text.length ≤ maxSize) :
    ofText lookup settings path text =
      ofSheet lookup settings (Sheet.ofText path text) :=
  if_neg (Nat.not_lt.mpr small)

theorem diagnostics_ofSheet
    {undefined : List Diagnostic}
    (resolved :
      (resolve lookup settings sheet [] ⟨[], []⟩ (concerns lookup sheet)).1 =
        .ok undefined) :
    (ofSheet lookup settings sheet).diagnostics =
      .ok ((argumentCounts lookup sheet ++ undefined ++
        redefinitions lookup sheet ++
        unbalanced sheet
          (Extraction.ofText sheet.path false sheet.text).definitions).mergeSort
          Diagnostic.le) := by
  unfold ofSheet
  split
  next failed =>
    rw [failed] at resolved
    cases resolved
  next succeeded =>
    rw [succeeded] at resolved
    cases resolved
    rfl

theorem exists_resolved
    (checked : (ofSheet lookup settings sheet).diagnostics = .ok diagnostics) :
    ∃ undefined,
      (resolve lookup settings sheet [] ⟨[], []⟩ (concerns lookup sheet)).1 =
        .ok undefined ∧
        diagnostics =
          (argumentCounts lookup sheet ++ undefined ++
            redefinitions lookup sheet ++
            unbalanced sheet
              (Extraction.ofText sheet.path false
                sheet.text).definitions).mergeSort
            Diagnostic.le := by
  cases resolved :
    (resolve lookup settings sheet [] ⟨[], []⟩ (concerns lookup sheet)).1 with
  | error error =>
      unfold ofSheet at checked
      split at checked
      next => cases checked
      next succeeded =>
        rw [succeeded] at resolved
        cases resolved
  | ok undefined =>
      rw [diagnostics_ofSheet resolved] at checked
      cases checked
      exact ⟨undefined, rfl, rfl⟩

/-- A check against bodies that hold no placeholders of their own has a
result. -/
theorem ofText_isOk
    (clean : ∀ name, ∀ definition ∈ lookup name, '\x00' ∉ definition.body)
    (settings : Settings) (path : String) (text : Text) :
    ∃ diagnostics, (ofText lookup settings path text).diagnostics =
      .ok diagnostics := by
  unfold ofText
  split
  next => exact ⟨_, rfl⟩
  next =>
    obtain ⟨undefined, resolved⟩ :=
      resolve_isOk (Expansion.clean_of_lookup clean) settings
        (Sheet.ofText path text) [] ⟨[], []⟩
        (concerns lookup (Sheet.ofText path text))
    exact ⟨_, diagnostics_ofSheet resolved⟩

/-- Where a diagnostic comes from. -/
inductive Origin (lookup : Lookup) (sheet : Sheet)
    (diagnostic : Diagnostic) : Prop where
  | count {word : Word} :
      word ∈ uses sheet →
      argumentCount? lookup sheet word = some diagnostic →
      Origin lookup sheet diagnostic
  | concern {concern : Concern} :
      concern ∈ concerns lookup sheet →
      concern.Yields sheet diagnostic →
      Origin lookup sheet diagnostic
  | redefinition {word : Word} :
      word ∈ uses sheet →
      redefinition? lookup sheet word = some diagnostic →
      Origin lookup sheet diagnostic
  | unbalanced :
      diagnostic.code = .unbalancedParentheses →
      Origin lookup sheet diagnostic

theorem origin_of_mem_uses
    {undefined : List Diagnostic}
    (resolved :
      (resolve lookup settings sheet [] ⟨[], []⟩ (concerns lookup sheet)).1 =
        .ok undefined)
    (member : diagnostic ∈
      argumentCounts lookup sheet ++ undefined ++ redefinitions lookup sheet) :
    Origin lookup sheet diagnostic ∧
      diagnostic.code ≠ .unbalancedParentheses := by
  simp only [List.mem_append] at member
  rcases member with (counted | unknown) | redefined
  · obtain ⟨word, called, found⟩ := List.mem_filterMap.mp counted
    have used : word ∈ uses sheet :=
      mem_uses_of_mem_inCode
        (fun _ among => List.mem_of_mem_filter among) called
    refine ⟨.count used found, ?_⟩
    rw [(about_argumentCount? (letters_of_mem_uses used) found).2]
    decide
  · rcases (mem_resolve resolved).1 diagnostic unknown with
      none | ⟨concern, raised, yields⟩
    · cases none
    · refine ⟨.concern raised yields, ?_⟩
      have letters := letters_of_mem_uses (word_mem_uses_of_mem_concerns raised)
      cases yields with
      | undefined word =>
          change Diagnostic.Code.undefinedMacro ≠ _
          decide
      | expansion found =>
          rw [(about_expansionReport? letters found).2]
          decide
  · obtain ⟨word, named, found⟩ := List.mem_filterMap.mp redefined
    have used : word ∈ uses sheet :=
      mem_uses_of_mem_inCode
        (fun _ among => mem_identifiers_of_mem_macroNames among)
        (List.mem_of_mem_filter named)
    refine ⟨.redefinition used found, ?_⟩
    rw [(about_redefinition? (letters_of_mem_uses used) found).2]
    decide

theorem origin_of_mem
    (checked : (ofSheet lookup settings sheet).diagnostics = .ok diagnostics)
    (member : diagnostic ∈ diagnostics) :
    Origin lookup sheet diagnostic := by
  obtain ⟨undefined, resolved, rfl⟩ := exists_resolved checked
  rw [List.mem_mergeSort] at member
  rcases List.mem_append.mp member with ofUse | unclosed
  · exact (origin_of_mem_uses resolved ofUse).1
  · obtain ⟨definition, _, rfl⟩ := List.mem_map.mp unclosed
    exact .unbalanced rfl

/-- A diagnostic about a use is about a word in code. -/
theorem exists_about
    (checked : (ofSheet lookup settings sheet).diagnostics = .ok diagnostics)
    (member : diagnostic ∈ diagnostics)
    (ofUse : diagnostic.code ≠ .unbalancedParentheses) :
    ∃ word ∈ uses sheet, About sheet word diagnostic := by
  cases origin_of_mem checked member with
  | @count word used found =>
      exact ⟨word, used,
        (about_argumentCount? (letters_of_mem_uses used) found).1⟩
  | @concern concern raised yields =>
      have used := word_mem_uses_of_mem_concerns raised
      exact ⟨concern.word, used, yields.about (letters_of_mem_uses used)⟩
  | @redefinition word used found =>
      exact ⟨word, used,
        (about_redefinition? (letters_of_mem_uses used) found).1⟩
  | unbalanced code => exact absurd code ofUse

/-- What a diagnostic of each code comes from. -/
def Accounted (lookup : Lookup) (sheet : Sheet)
    (diagnostic : Diagnostic) : Prop :=
  match diagnostic.code with
  | .argumentCount => ∃ word ∈ uses sheet, argumentCount? lookup sheet word =
      some diagnostic
  | .undefinedMacro =>
      ∃ word, .undefined word ∈ concerns lookup sheet ∧
        diagnostic = undefinedReport sheet word
  | .expansionUndefined =>
      ∃ concern ∈ concerns lookup sheet, concern.Yields sheet diagnostic
  | .redefinition => ∃ word ∈ uses sheet, redefinition? lookup sheet word =
      some diagnostic
  | .unbalancedParentheses => True

theorem accounted_of_mem
    (checked : (ofSheet lookup settings sheet).diagnostics = .ok diagnostics)
    (member : diagnostic ∈ diagnostics) :
    Accounted lookup sheet diagnostic := by
  unfold Accounted
  cases origin_of_mem checked member with
  | @count word used found =>
      rw [(about_argumentCount? (letters_of_mem_uses used) found).2]
      exact ⟨word, used, found⟩
  | @concern concern raised yields =>
      have letters := letters_of_mem_uses (word_mem_uses_of_mem_concerns raised)
      cases yields with
      | undefined word => exact ⟨word, raised, rfl⟩
      | expansion found =>
          rw [(about_expansionReport? letters found).2]
          exact ⟨_, raised, .expansion found⟩
  | @redefinition word used found =>
      rw [(about_redefinition? (letters_of_mem_uses used) found).2]
      exact ⟨word, used, found⟩
  | unbalanced code =>
      rw [code]
      trivial

end Check

end MacroTrace
