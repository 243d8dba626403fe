import MacroTrace.Proofs.Report

/-!
# Undefined names that are reported

A name without a definition is reported where it is called.  Where it is not
called, it is reported unless it stands in an argument of some call.  It does
not matter what is called: the arguments of a call that has no expansion are not
looked at either.
-/

namespace MacroTrace

/-- A word between the parentheses of a call. -/
def Word.Encloses (call word : Word) : Prop :=
  ∃ list, call.argumentList? = some list ∧ call.next + 1 ≤ word.start ∧
    word.start < list.stop - 1

namespace Check

variable {lookup : Lookup} {settings : Settings} {sheet : Sheet} {word : Word}
  {name : Text} {path : String} {text : Text} {diagnostic : Diagnostic}
  {diagnostics : List Diagnostic}

/-- The macro names in code. -/
def macroWords (sheet : Sheet) : List Word :=
  inCode sheet (Word.macroNames sheet.clean)

theorem mem_callWords_iff :
    word ∈ callWords sheet ↔ word ∈ macroWords sheet ∧
      word.isCalled = true := by
  simp only [callWords, macroWords, mem_inCode_iff, List.mem_filter]
  tauto

theorem any_argumentExtents_iff :
    (argumentExtents sheet).any (·.contains word.start) = true ↔
      ∃ call ∈ callWords sheet, call.Encloses word := by
  simp only [List.any_eq_true, argumentExtents, List.mem_filterMap,
    Option.map_eq_some_iff, Span.contains, Bool.and_eq_true, decide_eq_true_eq,
    Word.Encloses]
  constructor
  · rintro ⟨_, ⟨call, called, list, closed, rfl⟩, inside⟩
    exact ⟨call, called, list, closed, inside⟩
  · rintro ⟨call, called, list, closed, inside⟩
    exact ⟨_, ⟨call, called, list, closed, rfl⟩, inside⟩

theorem mem_plainWords_iff :
    word ∈ plainWords sheet ↔
      word ∈ macroWords sheet ∧ word.isCalled = false ∧
        2 ≤ word.spelling.length ∧
        word.isPasted = false ∧
        (∀ call ∈ callWords sheet, call.spelling ≠ word.spelling) ∧
        ¬ ∃ call ∈ callWords sheet, call.Encloses word := by
  rw [← any_argumentExtents_iff]
  simp only [plainWords, macroWords, mem_inCode_iff, List.mem_filter,
    Bool.and_eq_true, Bool.not_eq_true', decide_eq_true_eq,
    List.contains_eq_mem, decide_eq_false_iff_not, List.mem_map, not_exists,
    not_and, Bool.not_eq_true]
  tauto

theorem callConcern?_eq_undefined_iff
    {other : Word} :
    callConcern? lookup word = some (.undefined other) ↔
      word = other ∧ lookup word.spelling = [] := by
  constructor
  · intro raised
    refine ⟨(word_of_callConcern? raised).symm, ?_⟩
    cases defined : lookup word.spelling with
    | nil => rfl
    | cons definition others =>
        simp only [callConcern?, defined] at raised
        split at raised
        next =>
          split at raised
          next => cases raised
          next => cases raised
        next => cases raised
  · rintro ⟨rfl, undefined⟩
    simp only [callConcern?, undefined]

theorem plainConcern?_eq_undefined_iff
    {other : Word} :
    plainConcern? lookup word = some (.undefined other) ↔
      word = other ∧ lookup word.spelling = [] := by
  constructor
  · intro raised
    refine ⟨(word_of_plainConcern? raised).symm, ?_⟩
    cases defined : lookup word.spelling with
    | nil => rfl
    | cons definition others =>
        simp only [plainConcern?, defined] at raised
        split at raised
        next => cases raised
        next => cases raised
  · rintro ⟨rfl, undefined⟩
    simp only [plainConcern?, undefined]

theorem undefined_mem_concerns_iff :
    .undefined word ∈ concerns lookup sheet ↔
      lookup word.spelling = [] ∧
        (word ∈ callWords sheet ∨ word ∈ plainWords sheet) := by
  simp only [concerns, List.mem_append, List.mem_filterMap,
    callConcern?_eq_undefined_iff, plainConcern?_eq_undefined_iff]
  constructor
  · rintro (⟨_, member, rfl, undefined⟩ | ⟨_, member, rfl, undefined⟩)
    · exact ⟨undefined, .inl member⟩
    · exact ⟨undefined, .inr member⟩
  · rintro ⟨undefined, called | plain⟩
    · exact .inl ⟨word, called, rfl, undefined⟩
    · exact .inr ⟨word, plain, rfl, undefined⟩

/-- The expansion of a closed call of a macro is looked at. -/
theorem expansion_mem_concerns
    {definition : Definition} {list : ArgumentList}
    (called : word ∈ callWords sheet)
    (defined : firstMacro? lookup word.spelling = some definition)
    (closed : word.argumentList? = some list) :
    .expansion word ⟨word.spelling, some list.texts⟩ ∈
      concerns lookup sheet := by
  obtain ⟨first, isMacro⟩ := Option.filter_eq_some_iff.mp defined
  obtain ⟨others, shape⟩ := List.head?_eq_some_iff.mp first
  apply List.mem_append_left
  apply List.mem_filterMap.mpr
  refine ⟨word, called, ?_⟩
  simp only [callConcern?, shape, closed]
  exact if_pos isMacro

/-- Some diagnostic says that a name is undefined. -/
def ReportsUndefined (diagnostics : List Diagnostic) (name : Text) : Prop :=
  ∃ diagnostic ∈ diagnostics, diagnostic.code = .undefinedMacro ∧
    diagnostic.subject = name

theorem exists_undefined_of_mem
    (checked : (ofSheet lookup settings sheet).diagnostics = .ok diagnostics)
    (member : diagnostic ∈ diagnostics)
    (code : diagnostic.code = .undefinedMacro) :
    ∃ word, .undefined word ∈ concerns lookup sheet ∧
      diagnostic = undefinedReport sheet word := by
  have accounted := accounted_of_mem checked member
  rwa [Accounted, code] at accounted

theorem reportsUndefined_iff_concerns
    (checked : (ofSheet lookup settings sheet).diagnostics = .ok diagnostics) :
    ReportsUndefined diagnostics name ↔
      ∃ word, .undefined word ∈ concerns lookup sheet ∧
        word.spelling = name := by
  have quoted {word : Word} (raised : .undefined word ∈ concerns lookup sheet) :
      (undefinedReport sheet word).subject = word.spelling := by
    have used : word ∈ uses sheet := word_mem_uses_of_mem_concerns raised
    exact (about_undefinedReport (letters_of_mem_uses used)).quoted
  constructor
  · rintro ⟨diagnostic, member, code, rfl⟩
    obtain ⟨word, raised, rfl⟩ := exists_undefined_of_mem checked member code
    exact ⟨word, raised, (quoted raised).symm⟩
  · rintro ⟨word, raised, rfl⟩
    obtain ⟨undefined, resolved, rfl⟩ := exists_resolved checked
    refine ⟨undefinedReport sheet word, ?_, rfl, quoted raised⟩
    have reported := (mem_resolve resolved).2.2 word raised
    simp only [List.mem_mergeSort, List.mem_append]
    exact .inl (.inl (.inr reported))

/-- A macro name in code that has no definition and is no operand of the paste
operator. -/
structure UndefinedUse (lookup : Lookup) (sheet : Sheet)
    (word : Word) : Prop where
  named : word ∈ macroWords sheet
  long : 2 ≤ word.spelling.length
  apart : word.isPasted = false
  undefined : lookup word.spelling = []

theorem reportsUndefined_of_mem_callWords
    (checked : (ofSheet lookup settings sheet).diagnostics = .ok diagnostics)
    (called : word ∈ callWords sheet)
    (undefined : lookup word.spelling = []) :
    ReportsUndefined diagnostics word.spelling := by
  apply (reportsUndefined_iff_concerns checked).mpr
  exact ⟨word, undefined_mem_concerns_iff.mpr ⟨undefined, .inl called⟩, rfl⟩

/-- A name that is not called is looked at unless it stands in an argument. -/
theorem UndefinedUse.reported_or_enclosed
    (use : UndefinedUse lookup sheet word)
    (checked : (ofSheet lookup settings sheet).diagnostics = .ok diagnostics) :
    ReportsUndefined diagnostics word.spelling ∨
      ∃ call ∈ callWords sheet, call.Encloses word := by
  by_cases enclosed : ∃ call ∈ callWords sheet, call.Encloses word
  · exact .inr enclosed
  · apply Or.inl
    by_cases called : ∃ call ∈ callWords sheet, call.spelling = word.spelling
    · -- The call has reported the name already.
      obtain ⟨call, member, same⟩ := called
      rw [← same]
      apply reportsUndefined_of_mem_callWords checked member
      rw [same]
      exact use.undefined
    · have others : ∀ call ∈ callWords sheet, call.spelling ≠ word.spelling :=
        fun call member same => called ⟨call, member, same⟩
      have uncalled : word.isCalled = false := by
        by_contra isCalled
        rw [Bool.not_eq_false] at isCalled
        exact others word (mem_callWords_iff.mpr ⟨use.named, isCalled⟩) rfl
      have plain : word ∈ plainWords sheet :=
        mem_plainWords_iff.mpr ⟨use.named, uncalled, use.long, use.apart,
          others, enclosed⟩
      apply (reportsUndefined_iff_concerns checked).mpr
      exact ⟨word, undefined_mem_concerns_iff.mpr ⟨use.undefined, .inr plain⟩,
        rfl⟩

/-- An undefined name is reported if and only if it is called somewhere or
stands somewhere outside all arguments.  So a use that goes unreported stands in
an argument of a call.  If nothing has the called name, that name is reported,
and if a macro has it, the expansion of the call is looked at; but nothing makes
sure that there is a macro, or that it takes these arguments. -/
theorem reportsUndefined_iff
    (settings : Settings)
    (small : text.length ≤ maxSize)
    (use : UndefinedUse lookup (Sheet.ofText path text) word) :
    ((∀ name, ∀ definition ∈ lookup name, '\x00' ∉ definition.body) →
      ∃ diagnostics, (ofText lookup settings path text).diagnostics =
        .ok diagnostics) ∧
    ∀ diagnostics, (ofText lookup settings path text).diagnostics =
      .ok diagnostics →
      (ReportsUndefined diagnostics word.spelling ↔
        ∃ other ∈ macroWords (Sheet.ofText path text),
          other.spelling = word.spelling ∧
          (other.isCalled = true ∨ other.isPasted = false ∧
            ¬ ∃ call ∈ callWords (Sheet.ofText path text),
              call.Encloses other)) ∧
      (ReportsUndefined diagnostics word.spelling ∨
        ∃ call ∈ callWords (Sheet.ofText path text), call.Encloses word ∧
          (lookup call.spelling = [] →
            ReportsUndefined diagnostics call.spelling) ∧
          ∀ definition list, firstMacro? lookup call.spelling =
            some definition →
            call.argumentList? = some list →
            .expansion call ⟨call.spelling, some list.texts⟩ ∈
              concerns lookup (Sheet.ofText path text)) := by
  refine ⟨fun clean => ofText_isOk clean settings path text, ?_⟩
  intro diagnostics checked
  rw [ofText_of_le small] at checked
  refine ⟨⟨?_, ?_⟩, ?_⟩
  · intro reported
    obtain ⟨other, raised, same⟩ :=
      (reportsUndefined_iff_concerns checked).mp reported
    rcases (undefined_mem_concerns_iff.mp raised).2 with called | plain
    · obtain ⟨named, isCalled⟩ := mem_callWords_iff.mp called
      exact ⟨other, named, same, .inl isCalled⟩
    · obtain ⟨named, -, -, apart, -, outside⟩ := mem_plainWords_iff.mp plain
      exact ⟨other, named, same, .inr ⟨apart, outside⟩⟩
  · rintro ⟨other, named, same, isCalled | ⟨apart, outside⟩⟩
    · rw [← same]
      apply reportsUndefined_of_mem_callWords checked
        (mem_callWords_iff.mpr ⟨named, isCalled⟩)
      rw [same]
      exact use.undefined
    · have otherUse : UndefinedUse lookup (Sheet.ofText path text) other :=
        ⟨named, same ▸ use.long, apart, same ▸ use.undefined⟩
      rw [← same]
      exact (otherUse.reported_or_enclosed checked).resolve_right outside
  · rcases use.reported_or_enclosed checked with
      reported | ⟨call, called, encloses⟩
    · exact .inl reported
    · refine .inr ⟨call, called, encloses, ?_, ?_⟩
      · exact reportsUndefined_of_mem_callWords checked called
      · intro definition list defined closed
        exact expansion_mem_concerns called defined closed

def noMacros : Snapshot :=
  ⟨[]⟩

def strayText : Text :=
  "WRAP(LOST_NAME);".toList

def straySheet : Sheet :=
  Sheet.ofText "main.c" strayText

def strayWord : Word :=
  ⟨"LOST_NAME".toList, 5, "(PARW".toList, ");".toList⟩

private theorem diagnostics_strayText :
    (ofText noMacros.lookup .default "main.c" strayText).diagnostics =
      .ok [⟨"main.c", 1, 1, 4, .undefinedMacro, "Undefined macro 'WRAP'"⟩] := by
  have resolved : (resolve noMacros.lookup .default straySheet [] ⟨[], []⟩
      (concerns noMacros.lookup straySheet)).1 =
        .ok [⟨"main.c", 1, 1, 4, .undefinedMacro,
          "Undefined macro 'WRAP'"⟩] := by
    decide +kernel
  have counts : argumentCounts noMacros.lookup straySheet = [] := by
    decide +kernel
  have several : redefinitions noMacros.lookup straySheet = [] := by
    decide +kernel
  have unclosed : unbalanced straySheet
      (Extraction.ofText straySheet.path false straySheet.text).definitions =
        [] := by
    decide +kernel
  have checked := diagnostics_ofSheet resolved
  rw [ofText_of_le (by decide)]
  rwa [counts, several, unclosed, List.nil_append, List.append_nil,
    List.append_nil, List.mergeSort_singleton] at checked

private theorem undefinedUse_strayWord :
    UndefinedUse noMacros.lookup straySheet strayWord := by
  constructor
  case named => decide +kernel
  case long => decide
  case apart => decide
  case undefined => rfl

theorem reportsUndefined_iff_strayWord :
    strayText.length ≤ maxSize ∧
      UndefinedUse noMacros.lookup straySheet strayWord ∧
      ∃ diagnostics,
        (ofText noMacros.lookup .default "main.c" strayText).diagnostics =
          .ok diagnostics ∧
          (ReportsUndefined diagnostics strayWord.spelling ↔
            ∃ other ∈ macroWords straySheet,
              other.spelling = strayWord.spelling ∧
              (other.isCalled = true ∨ other.isPasted = false ∧
                ¬ ∃ call ∈ callWords straySheet, call.Encloses other)) := by
  have small : strayText.length ≤ maxSize := by decide
  have conclusion := reportsUndefined_iff .default small undefinedUse_strayWord
  refine ⟨small, undefinedUse_strayWord, _, diagnostics_strayText, ?_⟩
  exact (conclusion.2 _ diagnostics_strayText).1

/-- A name in an argument of an undefined call is not reported, and nothing
expands there. -/
theorem not_reportsUndefined_strayWord :
    ∃ diagnostics,
      (ofText noMacros.lookup .default "main.c" strayText).diagnostics =
        .ok diagnostics ∧
        UndefinedUse noMacros.lookup straySheet strayWord ∧
        ¬ ReportsUndefined diagnostics strayWord.spelling ∧
        ∀ call ∈ callWords straySheet,
          firstMacro? noMacros.lookup call.spelling = none := by
  refine ⟨_, diagnostics_strayText, undefinedUse_strayWord, ?_,
    fun call _ => rfl⟩
  rintro ⟨diagnostic, member, -, subject⟩
  obtain rfl := List.mem_singleton.mp member
  revert subject
  decide +kernel

end Check

end MacroTrace
