import MacroTrace.Proofs.WellFormed
import MacroTrace.Text.Group

/-!
# Outlines of balanced texts

A text with balanced parentheses is written by a list of parts, also when a line
break or the end of the text cuts a literal short.  Reading what parts write
gives the parts back, so a fact about the parentheses of balanced texts is
proved by induction on the parts that write them.
-/

namespace MacroTrace

open Literal (Scan)

/-- A parenthesis that no literal covers stands in code. -/
theorem Literal.Scan.eq_code_of_uncovered
    {scan : Scan} {c : Char}
    (parenthesis : c = '(' ∨ c = ')')
    (uncovered : scan.covers c = false) :
    scan = .code := by
  apply eq_code_of_not_covers _ uncovered
  rcases parenthesis with rfl | rfl
  · rfl
  · rfl

namespace Part

/-- The text that parts write, one after another. -/
def write (parts : List Part) : Text :=
  parts.flatMap render

@[simp] theorem write_nil : write [] = [] := rfl

theorem write_char (c : Char) (rest : List Part) :
    write (.char c :: rest) = c :: write rest := by
  rw [write, List.flatMap_cons, render, List.singleton_append, write]

theorem write_group (inner rest : List Part) :
    write (.group inner :: rest) =
      '(' :: (write inner ++ ')' :: write rest) := by
  rw [write, List.flatMap_cons, render, List.cons_append, List.append_assoc,
    List.singleton_append, write, write]

theorem write_append (left right : List Part) :
    write (left ++ right) = write left ++ write right :=
  List.flatMap_append

/-- Parts that write a balanced text and lead a literal scan to another one.  A
parenthesis is a character of its own only inside a literal. -/
inductive Reads : Scan → List Part → Scan → Prop where
  | nil (scan : Scan) : Reads scan [] scan
  | char {scan last : Scan} {c : Char} {rest : List Part} :
      scan.covers c = true ∨ (c ≠ '(' ∧ c ≠ ')') →
      Reads (scan.step c) rest last →
      Reads scan (.char c :: rest) last
  | group {inner rest : List Part} {last : Scan} :
      Reads .code inner .code →
      Reads .code rest last →
      Reads .code (.group inner :: rest) last

namespace Reads

variable {scan middle last : Scan} {parts : List Part}

theorem append
    {left right : List Part}
    (first : Reads scan left middle)
    (second : Reads middle right last) :
    Reads scan (left ++ right) last := by
  induction first with
  | nil scan => exact second
  | char allowed rest ih => exact .char allowed (ih second)
  | group inner rest innerIh ih => exact .group inner (ih second)

theorem run
    (reads : Reads scan parts last) :
    scan.run (write parts) = last := by
  induction reads with
  | nil scan => rfl
  | char allowed rest ih =>
      rw [write_char]
      exact ih
  | @group inner rest last readsInner reads innerIh ih =>
      have closes : Scan.code.run (')' :: write rest) =
          Scan.code.run (write rest) := rfl
      have opens (text : Text) : Scan.code.run ('(' :: text) =
          Scan.code.run text := rfl
      rw [write_group, opens, Scan.run_append, innerIh, closes]
      exact ih

theorem balancedFrom
    (reads : Reads scan parts last)
    (depth : Nat) (after : Text) :
    Nesting.balancedFrom scan depth (write parts ++ after) =
      Nesting.balancedFrom last depth after := by
  induction reads generalizing depth after with
  | nil scan => rfl
  | @char scan last c parts allowed reads ih =>
      rw [write_char, List.cons_append, ← ih depth]
      rcases allowed with covered | ⟨notOpening, notClosing⟩
      · simp [Nesting.balancedFrom, covered]
      · simp [Nesting.balancedFrom, notOpening, notClosing]
  | @group inner parts last readsInner reads innerIh ih =>
      rw [write_group, List.cons_append, List.append_assoc,
        List.cons_append, ← ih depth]
      exact innerIh (depth + 1) (')' :: (write parts ++ after))

/-- What parts write between two parentheses is passed over in the search for
the closing one. -/
theorem closingFrom
    (reads : Reads scan parts last)
    {depth : Int}
    (inside : 1 ≤ depth)
    (offset : Nat) (after : Text) :
    Nesting.closingFrom scan depth offset (write parts ++ after) =
      Nesting.closingFrom last depth (offset + (write parts).length) after := by
  induction reads generalizing depth offset after with
  | nil scan => rfl
  | @char scan last c parts allowed reads ih =>
      have length : offset + (c :: write parts).length =
          offset + 1 + (write parts).length := by
        rw [List.length_cons]
        omega
      rw [write_char, List.cons_append, length, ← ih inside]
      rcases allowed with covered | ⟨notOpening, notClosing⟩
      · simp [Nesting.closingFrom, covered]
      · simp [Nesting.closingFrom, notOpening, notClosing]
  | @group inner parts last readsInner reads innerIh ih =>
      have within : 1 ≤ depth + 1 := by omega
      have stays : depth + 1 ≠ 1 := by omega
      have closes (offset : Nat) (text : Text) :
          Nesting.closingFrom .code (depth + 1) offset (')' :: text) =
            Nesting.closingFrom .code depth (offset + 1) text := by
        simp [Nesting.closingFrom, Scan.covers, Literal.isQuote,
          Scan.step, stays]
      have length :
          offset + ('(' :: (write inner ++ ')' :: write parts)).length =
            offset + 1 + (write inner).length + 1 + (write parts).length := by
        simp only [List.length_cons, List.length_append]
        omega
      have opened := innerIh within (offset + 1) (')' :: (write parts ++ after))
      rw [write_group, length, ← ih inside, ← closes, ← opened,
        List.cons_append, List.append_assoc, List.cons_append]
      rfl

theorem readFrom
    (reads : Reads scan parts last)
    (pending : List Outline.Pending) (current : List Part) (after : Text) :
    Outline.readFrom scan pending current (write parts ++ after) =
      Outline.readFrom last pending (parts.reverse ++ current) after := by
  induction reads generalizing pending current after with
  | nil scan => rfl
  | @char scan last c parts allowed reads ih =>
      rw [write_char, List.cons_append, List.reverse_cons, List.append_assoc,
        List.singleton_append, ← ih]
      rcases allowed with covered | ⟨notOpening, notClosing⟩
      · simp [Outline.readFrom, covered]
      · simp [Outline.readFrom, notOpening, notClosing]
  | @group inner parts last readsInner reads innerIh ih =>
      have opens (text : Text) :
          Outline.readFrom .code pending current ('(' :: text) =
            Outline.readFrom .code
              (⟨current, '(' :: text⟩ :: pending) [] text := rfl
      have closes (opened text : Text) :
          Outline.readFrom .code (⟨current, opened⟩ :: pending) inner.reverse
              (')' :: text) =
            Outline.readFrom .code pending
              (.group inner.reverse.reverse :: current) text := rfl
      rw [write_group, List.cons_append, List.append_assoc, List.cons_append,
        opens, innerIh, List.append_nil, closes, List.reverse_reverse, ih,
        List.reverse_cons, List.append_assoc, List.singleton_append]

/-- Parts are read back from what they write. -/
theorem ofText
    (reads : Reads .code parts last) :
    Outline.ofText (write parts) = ⟨parts, []⟩ := by
  have read := reads.readFrom [] [] []
  rw [List.append_nil, List.append_nil] at read
  rw [Outline.ofText, read]
  simp [Outline.readFrom]

theorem isBalanced
    (reads : Reads .code parts last) :
    Nesting.isBalanced (write parts) = true := by
  have balanced := reads.balancedFrom 0 []
  rw [List.append_nil] at balanced
  rw [Nesting.isBalanced, balanced]
  rfl

end Reads

/-- A text begins with parts, up to the end if no group is open, and up to the
parenthesis that closes the innermost group if there is one. -/
inductive Begins (scan : Scan) : Nat → Text → Prop where
  | ends {parts : List Part} {last : Scan} :
      Reads scan parts last →
      Begins scan 0 (write parts)
  | closes {parts : List Part} {depth : Nat} {after : Text} :
      Reads scan parts .code →
      Nesting.balancedFrom .code depth after = true →
      Begins scan (depth + 1) (write parts ++ ')' :: after)

theorem Begins.append
    {scan middle : Scan} {parts : List Part}
    (reads : Reads scan parts middle)
    {depth : Nat} {text : Text}
    (begins : Begins middle depth text) :
    Begins scan depth (write parts ++ text) := by
  cases begins with
  | @ends later last readsLater =>
      rw [← write_append]
      exact .ends (reads.append readsLater)
  | @closes later depth after readsLater balanced =>
      rw [← List.append_assoc, ← write_append]
      exact .closes (reads.append readsLater) balanced

theorem Begins.char
    {scan : Scan} {c : Char}
    (allowed : scan.covers c = true ∨ (c ≠ '(' ∧ c ≠ ')'))
    {depth : Nat} {text : Text}
    (begins : Begins (scan.step c) depth text) :
    Begins scan depth (c :: text) := by
  have appended := begins.append (.char allowed (.nil _))
  rwa [write_char] at appended

theorem begins_of_balancedFrom
    {scan : Scan} {depth : Nat} {text : Text}
    (balanced : Nesting.balancedFrom scan depth text = true) :
    Begins scan depth text := by
  -- A group is followed by a text that is not just the rest of the list, but
  -- shorter.
  induction bound : text.length using Nat.strong_induction_on
    generalizing scan depth text with
  | h length ih =>
      cases text with
      | nil =>
          obtain rfl : depth = 0 := by
            simpa [Nesting.balancedFrom] using balanced
          exact .ends (.nil scan)
      | cons c rest =>
          have shorter : rest.length < length := by
            rw [← bound, List.length_cons]
            exact Nat.lt_succ_self _
          simp only [Nesting.balancedFrom] at balanced
          split at balanced
          next covered => exact (ih _ shorter balanced rfl).char (.inl covered)
          next uncovered =>
            split at balanced
            next opening =>
              subst opening
              obtain rfl :=
                Scan.eq_code_of_uncovered (.inl rfl) (by simpa using uncovered)
              cases ih _ shorter balanced rfl with
              | @closes inner _ after readsInner closed =>
                  have behind : after.length < length := by
                    rw [List.length_append, List.length_cons] at shorter
                    omega
                  have group : Reads .code [.group inner] .code :=
                    .group readsInner (.nil .code)
                  have appended := (ih _ behind closed rfl).append group
                  rwa [write_group, List.cons_append, List.append_assoc,
                    List.cons_append] at appended
            next notOpening =>
              split at balanced
              next closing =>
                subst closing
                obtain rfl :=
                  Scan.eq_code_of_uncovered (.inr rfl)
                    (by simpa using uncovered)
                split at balanced
                next => cases balanced
                next depth => exact .closes (.nil .code) balanced
              next notClosing =>
                exact (ih _ shorter balanced rfl).char
                  (.inr ⟨notOpening, notClosing⟩)

theorem exists_reads
    {text : Text}
    (balanced : Nesting.isBalanced text = true) :
    ∃ parts last, Reads .code parts last ∧ write parts = text := by
  cases begins_of_balancedFrom balanced with
  | @ends parts last reads => exact ⟨parts, last, reads, rfl⟩

end Part

end MacroTrace
