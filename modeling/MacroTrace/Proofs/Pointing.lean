import MacroTrace.Proofs.Invocation
import MacroTrace.Proofs.Position
import MacroTrace.Proofs.Report

/-!
# Where diagnostics point

Offsets are found in the prepared text.  Since blanking keeps every position,
the line and the column that a diagnostic gives are those of the quoted name in
the file itself, and the name is no part of a comment.
-/

namespace MacroTrace

/-- A diagnostic that gives the position of the name that it quotes.  The name
is still there when comments are blanked. -/
structure Diagnostic.PointsAt (text : Text)
    (diagnostic : Diagnostic) : Prop where
  line_pos : 1 ≤ diagnostic.line
  line_le : diagnostic.line ≤ text.count '\n' + 1
  column_pos : 1 ≤ diagnostic.column
  named : Text.isIdentifier diagnostic.subject = true
  length_eq : diagnostic.length = diagnostic.subject.length
  reads : Text.readAt text diagnostic.line diagnostic.column diagnostic.length =
    diagnostic.subject
  kept : Text.readAt (Comment.blank text) diagnostic.line diagnostic.column
      diagnostic.length =
    diagnostic.subject

namespace Diagnostic

/-- One diagnostic does not come behind another: it has a lower line, or the
same line and no higher column. -/
def Precedes (first second : Diagnostic) : Prop :=
  first.line < second.line ∨ first.line = second.line ∧
    first.column ≤ second.column

theorem le_iff_precedes
    {first second : Diagnostic} :
    le first second = true ↔ first.Precedes second := by
  simp [le, Precedes]

theorem pairwise_precedes_mergeSort (diagnostics : List Diagnostic) :
    (diagnostics.mergeSort le).Pairwise Precedes := by
  have transitive : ∀ first second third, le first second = true →
      le second third = true →
      le first third = true := by
    intro first second third earlier later
    rw [le_iff_precedes, Precedes] at *
    omega
  have total : ∀ first second, (le first second || le second first) = true := by
    intro first second
    rw [Bool.or_eq_true, le_iff_precedes, le_iff_precedes, Precedes, Precedes]
    omega
  exact (List.pairwise_mergeSort transitive total diagnostics).imp
    le_iff_precedes.mp

end Diagnostic

namespace Check

variable {lookup : Lookup} {settings : Settings} {path : String} {text : Text}
  {word : Word} {diagnostic : Diagnostic} {diagnostics : List Diagnostic}

theorem pointsAt_of_about
    (used : word ∈ uses (Sheet.ofText path text))
    (about : About (Sheet.ofText path text) word diagnostic) :
    diagnostic.PointsAt text := by
  obtain ⟨identifier, -, -⟩ := mem_inCode_iff.mp used
  obtain ⟨⟨front, shape, start⟩, letters, nonempty⟩ :=
    Word.stands_of_mem_identifiers identifier
  -- Both blankings lead from the file to the text in which the word was found.
  have directives : Text.Hidden Text.isFeed (Comment.blank text)
      (front ++ (word.spelling ++ word.after)) := by
    rw [← shape]
    exact Directive.hidden_blank _
  have comments := Comment.hidden_feeds text
  have position : (Sheet.ofText path text).position word.start =
      (front.count '\n' + 1, (Text.openLine [] front).length + 1) := by
    rw [start]
    apply Sheet.position_eq
    rw [← shape]
    rfl
  have visible {c : Char} (blank : Text.isBlank c = true) : c ∉
      word.spelling := by
    intro member
    rw [Text.isBlank_of_isWordChar (letters c member)] at blank
    cases blank
  have feeds : front.count '\n' ≤ text.count '\n' := by
    rw [← (comments.trans directives).count_feed, List.count_append]
    exact Nat.le_add_right _ _
  have identified : Text.isIdentifier word.spelling = true := by
    have first := (List.mem_filter.mp identifier).2
    simp only [Text.isIdentifier, Bool.and_eq_true, List.all_eq_true]
    exact ⟨first, letters⟩
  have line : diagnostic.line = front.count '\n' + 1 := by
    rw [about.reported, Sheet.reportWord, Sheet.report, position]
  have column : diagnostic.column = (Text.openLine [] front).length + 1 := by
    rw [about.reported, Sheet.reportWord, Sheet.report, position]
  have length : diagnostic.length = word.spelling.length := by
    rw [about.reported]
    rfl
  constructor
  case line_pos => omega
  case line_le => omega
  case column_pos => omega
  case named => rwa [about.quoted]
  case length_eq => rw [length, about.quoted]
  case reads =>
    rw [line, column, length, about.quoted]
    exact (comments.trans directives).readAt_eq (visible (by decide))
      (visible (by decide))
  case kept =>
    rw [line, column, length, about.quoted]
    exact directives.readAt_eq (visible (by decide)) (visible (by decide))

/-- Diagnostics come in the order of their positions, and each one about a use
gives the position of the name that it quotes in the file. -/
theorem pointsAt_of_ofText
    (checked : (ofText lookup settings path text).diagnostics =
      .ok diagnostics) :
    diagnostics.Pairwise Diagnostic.Precedes ∧
      ∀ diagnostic ∈ diagnostics,
        diagnostic.code ≠ .unbalancedParentheses →
          diagnostic.PointsAt text := by
  unfold ofText at checked
  split at checked
  next =>
    cases checked
    exact ⟨.nil, nofun⟩
  next =>
    constructor
    · obtain ⟨_, _, rfl⟩ := exists_resolved checked
      exact Diagnostic.pairwise_precedes_mergeSort _
    · intro diagnostic member ofUse
      obtain ⟨word, used, about⟩ := exists_about checked member ofUse
      exact pointsAt_of_about used about

def sumMacros : Snapshot :=
  ⟨[⟨"SUM".toList, some ["a".toList, "b".toList], "a + b".toList,
      "sum.h", 1, true⟩,
    ⟨"SUM".toList, some ["a".toList, "b".toList], "b + a".toList,
      "other.h", 4, true⟩]⟩

def sumText : Text :=
  "/* SUM */ x = SUM(1);\r\n#define OPEN (\n".toList ++
    "y = \"SUM\" \\\n\tLOST; // SUM".toList

private theorem resolve_sumText :
    (resolve sumMacros.lookup .default (.ofText "main.c" sumText) [] ⟨[], []⟩
        (concerns sumMacros.lookup (.ofText "main.c" sumText))).1 =
      .ok [⟨"main.c", 4, 2, 4, .undefinedMacro, "Undefined macro 'LOST'"⟩] := by
  decide +kernel

theorem pointsAt_of_ofText_sumText :
    ∃ diagnostics,
      (ofText sumMacros.lookup .default "main.c" sumText).diagnostics =
        .ok diagnostics ∧
        [.argumentCount, .undefinedMacro, .redefinition,
          .unbalancedParentheses] ⊆
          diagnostics.map (·.code) ∧
        diagnostics.Pairwise Diagnostic.Precedes ∧
        ∀ diagnostic ∈ diagnostics,
          diagnostic.code ≠ .unbalancedParentheses →
            diagnostic.PointsAt sumText := by
  have checked := diagnostics_ofSheet resolve_sumText
  rw [← ofText_of_le (by decide)] at checked
  refine ⟨_, checked, ?_, pointsAt_of_ofText checked⟩
  intro code among
  apply ((List.mergeSort_perm _ Diagnostic.le).map (·.code)).mem_iff.mpr
  revert code
  decide +kernel

end Check

end MacroTrace
