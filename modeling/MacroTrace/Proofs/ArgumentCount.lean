import Mathlib.Data.List.Nodup
import MacroTrace.Proofs.Invocation
import MacroTrace.Proofs.Pointing

/-!
# Argument counts that are reported

A call of a macro is reported at its position if and only if the macro has
parameters and does not take the arguments.  A macro with an empty parameter
list may be called with any arguments: nothing is said about them.
-/

namespace MacroTrace

namespace Word

variable {text : Text} {word other : Word}

theorem eq_of_start_eq
    (member : word ∈ identifiers text)
    (memberOther : other ∈ identifiers text)
    (same : word.start = other.start) :
    word = other := by
  have apart : ((identifiers text).map (·.start)).Nodup := by
    apply List.pairwise_map.mpr
    apply (pairwise_identifiers text).imp_of_mem
    intro first second memberFirst _ order
    have long :=
      List.length_pos_iff.mpr (stands_of_mem_identifiers memberFirst).nonempty
    rw [stop] at order
    omega
  exact List.inj_on_of_nodup_map apart member memberOther same

theorem start_le
    (member : word ∈ identifiers text) :
    word.start ≤ text.length := by
  obtain ⟨⟨front, shape, start⟩, -, -⟩ := stands_of_mem_identifiers member
  rw [start, shape, List.length_append]
  exact Nat.le_add_right _ _

/-- The argument list behind a word is the one that opens at the next character
that is not blank. -/
theorem argumentList?_eq_at?
    (member : word ∈ identifiers text) :
    word.argumentList? = ArgumentList.at? text word.next := by
  obtain ⟨⟨front, shape, start⟩, -, -⟩ := stands_of_mem_identifiers member
  have behind : text.drop word.next = Text.trimLeft word.after := by
    rw [next, stop, start, shape, ← List.drop_drop, ← List.drop_drop,
      List.drop_left, List.drop_left, List.drop_takeWhile_length]
    rfl
  rw [argumentList?, ArgumentList.at?, behind]
  rfl

end Word

namespace Check

variable {lookup : Lookup} {settings : Settings} {path : String} {text : Text}
  {word : Word} {definition : Definition} {list : ArgumentList}
  {diagnostics : List Diagnostic}

/-- Some diagnostic at an offset says that the number of arguments is wrong. -/
def ReportsCountAt (text : Text) (diagnostics : List Diagnostic)
    (offset : Nat) : Prop :=
  ∃ diagnostic ∈ diagnostics,
    diagnostic.code = .argumentCount ∧ (diagnostic.line, diagnostic.column) =
      text.placeOf offset

/-- A closed call in code of a macro with a parameter list.  None of the
arguments passes on variadic ones. -/
structure CountedCall (lookup : Lookup) (sheet : Sheet) (word : Word)
    (definition : Definition) (list : ArgumentList) : Prop where
  identifier : word ∈ Word.identifiers sheet.clean
  called : word.isCalled = true
  notBuiltin : isBuiltin word.spelling = false
  inCode : sheet.isCode word.start = true
  closed : ArgumentList.at? sheet.clean word.next = some list
  own : ∀ argument ∈ list.texts, Text.holds variadicDefault argument = false
  first : (lookup word.spelling).head? = some definition
  isMacro : definition.isMacro = true
  isFunctionLike : definition.isFunctionLike = true
  unmarked : definition.isUnbalanced = false

namespace CountedCall

variable {sheet : Sheet}

theorem defined
    (call : CountedCall lookup sheet word definition list) :
    firstMacro? lookup word.spelling = some definition := by
  rw [firstMacro?, call.first]
  exact Option.filter_eq_some_iff.mpr ⟨rfl, call.isMacro⟩

theorem argumentList?_eq
    (call : CountedCall lookup sheet word definition list) :
    word.argumentList? = some list := by
  rw [Word.argumentList?_eq_at? call.identifier, call.closed]

theorem mem_uses
    (call : CountedCall lookup sheet word definition list) :
    word ∈ uses sheet :=
  mem_inCode_iff.mpr ⟨call.identifier, call.notBuiltin, call.inCode⟩

/-- A call is found wrong if and only if its macro has parameters and does not
take its arguments. -/
theorem exists_miscounted_iff
    (call : CountedCall lookup sheet word definition list) :
    (∃ definition list, Miscounted lookup word definition list) ↔
      definition.parameterList ≠ [] ∧
        definition.accepts (some list.texts) = false := by
  constructor
  · rintro ⟨other, otherList, wrong⟩
    obtain rfl : definition = other :=
      Option.some.inj (call.defined.symm.trans wrong.defined)
    obtain rfl : list = otherList :=
      Option.some.inj (call.argumentList?_eq.symm.trans wrong.closed)
    exact ⟨wrong.parameters, wrong.refused⟩
  · rintro ⟨parameters, refused⟩
    exact ⟨definition, list, call.defined, parameters, call.unmarked,
      call.argumentList?_eq, call.own, refused⟩

end CountedCall

theorem exists_count_of_mem
    {sheet : Sheet} {diagnostic : Diagnostic}
    (checked : (ofSheet lookup settings sheet).diagnostics = .ok diagnostics)
    (member : diagnostic ∈ diagnostics)
    (code : diagnostic.code = .argumentCount) :
    ∃ word ∈ uses sheet, argumentCount? lookup sheet word =
      some diagnostic := by
  have accounted := accounted_of_mem checked member
  rwa [Accounted, code] at accounted

theorem mem_of_argumentCount?
    {sheet : Sheet} {diagnostic : Diagnostic}
    (checked : (ofSheet lookup settings sheet).diagnostics = .ok diagnostics)
    (used : word ∈ uses sheet)
    (called : word.isCalled = true)
    (found : argumentCount? lookup sheet word = some diagnostic) :
    diagnostic ∈ diagnostics := by
  obtain ⟨undefined, -, rfl⟩ := exists_resolved checked
  obtain ⟨identifier, notBuiltin⟩ := mem_inCode_iff.mp used
  have counted : diagnostic ∈ argumentCounts lookup sheet := by
    apply List.mem_filterMap.mpr
    exact ⟨word, mem_inCode_iff.mpr ⟨List.mem_filter.mpr ⟨identifier, called⟩,
      notBuiltin⟩, found⟩
  simp only [List.mem_mergeSort, List.mem_append]
  exact .inl (.inl (.inl counted))

theorem start_le_of_mem_uses
    (used : word ∈ uses (Sheet.ofText path text)) :
    word.start ≤ text.length := by
  rw [(Sheet.hidden_clean path text).length_eq]
  exact Word.start_le (mem_inCode_iff.mp used).1

theorem place_reportWord
    (identifier : word ∈ Word.identifiers (Sheet.ofText path text).clean)
    (code : Diagnostic.Code) (message : String) :
    let diagnostic := (Sheet.ofText path text).reportWord word code message
    (diagnostic.line, diagnostic.column) = text.placeOf word.start := by
  exact Sheet.position_eq_placeOf (Word.start_le identifier)

/-- A wrong number of arguments is reported at a call if and only if its macro
has parameters and refuses the arguments. -/
theorem reportsCount_iff
    (settings : Settings)
    (small : text.length ≤ maxSize)
    (call : CountedCall lookup (Sheet.ofText path text) word definition list) :
    ((∀ name, ∀ definition ∈ lookup name, '\x00' ∉ definition.body) →
      ∃ diagnostics, (ofText lookup settings path text).diagnostics =
        .ok diagnostics) ∧
    ∀ diagnostics, (ofText lookup settings path text).diagnostics =
      .ok diagnostics →
      (ReportsCountAt text diagnostics word.start ↔
        definition.parameterList ≠ [] ∧
          definition.accepts (some list.texts) = false) := by
  refine ⟨fun clean => ofText_isOk clean settings path text, ?_⟩
  intro diagnostics checked
  rw [ofText_of_le small] at checked
  rw [← call.exists_miscounted_iff]
  constructor
  · rintro ⟨diagnostic, member, code, place⟩
    obtain ⟨other, used, found⟩ := exists_count_of_mem checked member code
    obtain ⟨otherDefinition, otherList, wrong, rfl⟩ :=
      argumentCount?_eq_some_iff.mp found
    have identifier := (mem_inCode_iff.mp used).1
    have same := Text.placeOf_injective (start_le_of_mem_uses used)
      (start_le_of_mem_uses call.mem_uses)
      ((place_reportWord identifier _ _).symm.trans place)
    obtain rfl := Word.eq_of_start_eq identifier call.identifier same
    exact ⟨otherDefinition, otherList, wrong⟩
  · rintro ⟨other, otherList, wrong⟩
    have found : argumentCount? lookup (Sheet.ofText path text) word = some _ :=
      argumentCount?_eq_some_iff.mpr ⟨other, otherList, wrong, rfl⟩
    have member := mem_of_argumentCount? checked call.mem_uses call.called found
    exact ⟨_, member, rfl, place_reportWord call.identifier _ _⟩

def zeroMacro : Definition :=
  ⟨"ZERO".toList, some [], "0".toList, "zero.h", 1, true⟩

def pairMacro : Definition :=
  ⟨"PAIR".toList, some ["a".toList, "b".toList], "a + b".toList,
    "pair.h", 3, true⟩

def pairMacros : Snapshot :=
  ⟨[zeroMacro, pairMacro]⟩

def pairText : Text :=
  "ZERO(1) +\n PAIR(1);".toList

def pairSheet : Sheet :=
  Sheet.ofText "main.c" pairText

def zeroWord : Word :=
  ⟨"ZERO".toList, 0, [], "(1) +\n PAIR(1);".toList⟩

def pairWord : Word :=
  ⟨"PAIR".toList, 11, " \n+ )1(OREZ".toList, "(1);".toList⟩

private theorem countedCall_zeroWord :
    CountedCall pairMacros.lookup pairSheet zeroWord zeroMacro
      ⟨[⟨"1".toList, ⟨5, 6⟩⟩], 7⟩ := by
  constructor <;> decide +kernel

private theorem countedCall_pairWord :
    CountedCall pairMacros.lookup pairSheet pairWord pairMacro
      ⟨[⟨"1".toList, ⟨16, 17⟩⟩], 18⟩ := by
  constructor <;> decide +kernel

private theorem diagnostics_pairText :
    (ofText pairMacros.lookup .default "main.c" pairText).diagnostics =
      .ok [⟨"main.c", 2, 2, 4, .argumentCount,
        "Macro 'PAIR' requires exactly 2 arguments, but 1 provided"⟩] := by
  have resolved : (resolve pairMacros.lookup .default pairSheet [] ⟨[], []⟩
      (concerns pairMacros.lookup pairSheet)).1 = .ok [] := by
    decide +kernel
  have counts : argumentCounts pairMacros.lookup pairSheet =
      [⟨"main.c", 2, 2, 4, .argumentCount,
        "Macro 'PAIR' requires exactly 2 arguments, but 1 provided"⟩] := by
    decide +kernel
  have several : redefinitions pairMacros.lookup pairSheet = [] := by
    decide +kernel
  have unclosed : unbalanced pairSheet
      (Extraction.ofText pairSheet.path false pairSheet.text).definitions =
        [] := by
    decide +kernel
  have checked := diagnostics_ofSheet resolved
  rw [ofText_of_le (by decide)]
  rwa [counts, several, unclosed, List.append_nil, List.append_nil,
    List.append_nil, List.mergeSort_singleton] at checked

theorem reportsCount_iff_pairWord :
    pairText.length ≤ maxSize ∧
      ∃ list, CountedCall pairMacros.lookup pairSheet pairWord pairMacro list ∧
        pairMacro.accepts (some list.texts) = false ∧
        ∃ diagnostics,
          (ofText pairMacros.lookup .default "main.c" pairText).diagnostics =
            .ok diagnostics ∧
            ReportsCountAt pairText diagnostics pairWord.start := by
  have small : pairText.length ≤ maxSize := by decide
  have conclusion := reportsCount_iff .default small countedCall_pairWord
  refine ⟨small, _, countedCall_pairWord, by decide, _,
    diagnostics_pairText, ?_⟩
  exact (conclusion.2 _ diagnostics_pairText).mpr ⟨by decide, by decide⟩

/-- A macro without parameters refuses an argument, and its call is not
reported. -/
theorem not_reportsCount_zeroWord :
    ∃ list, CountedCall pairMacros.lookup pairSheet zeroWord zeroMacro list ∧
      zeroMacro.accepts (some list.texts) = false ∧
      ∃ diagnostics,
        (ofText pairMacros.lookup .default "main.c" pairText).diagnostics =
          .ok diagnostics ∧
          ¬ ReportsCountAt pairText diagnostics zeroWord.start := by
  refine ⟨_, countedCall_zeroWord, by decide, _, diagnostics_pairText, ?_⟩
  rintro ⟨diagnostic, member, -, place⟩
  obtain rfl := List.mem_singleton.mp member
  revert place
  decide

end Check

end MacroTrace
