import MacroTrace.Definition.LineQueue
import MacroTrace.Definition.TypeName
import MacroTrace.Source.Comment

/-!
# Extraction

The definitions of a source text, in order: its `#define` lines and, on request,
the type names that it declares.
-/

namespace MacroTrace

/-- The definitions of a text and what was logged while reading it. -/
structure Extraction where
  definitions : List Definition
  log : List Log.Entry
  deriving DecidableEq, Repr

namespace Extraction

theorem continuation_length
    {queue rest : LineQueue} {line : QueuedLine}
    (taken : queue.continuation = (some line, rest)) :
    rest.lines.length < queue.lines.length := by
  unfold LineQueue.continuation at taken
  split at taken
  · simp at taken
  · split at taken
    · simp at taken
    · simp only [Prod.mk.injEq] at taken
      obtain ⟨-, rfl⟩ := taken
      simp_all

/-- A declaration with the lines that continue it, what was logged about these,
and the lines behind it. -/
structure Gathered where
  text : Text
  remarks : List Log.Entry
  queue : LineQueue
  deriving DecidableEq, Repr

/-- Add lines to a declaration until it is complete or no line can continue
it. -/
def gather (isComplete : Text → Bool) (text : Text) (remarks : List Log.Entry)
    (queue : LineQueue) : Gathered :=
  if isComplete text then ⟨text, remarks, queue⟩
  else
    match _taken : queue.continuation with
    | (none, rest) => ⟨text, remarks, rest⟩
    | (some line, rest) =>
        gather isComplete (text ++ ' ' :: line.text)
          (remarks ++ line.remarks) rest
termination_by queue.lines.length
decreasing_by exact continuation_length _taken

theorem gather_length
    (isComplete : Text → Bool) (text : Text) (remarks : List Log.Entry)
    (queue : LineQueue) :
    (gather isComplete text remarks queue).queue.lines.length ≤
      queue.lines.length := by
  fun_induction gather isComplete text remarks queue with
  | case1 => simp
  | case2 text remarks queue incomplete rest taken =>
      unfold LineQueue.continuation at taken
      split at taken
      · simp only [Prod.mk.injEq] at taken
        obtain ⟨-, rfl⟩ := taken
        exact Nat.le_refl _
      · split at taken
        · simp only [Prod.mk.injEq] at taken
          obtain ⟨-, rfl⟩ := taken
          simp_all
        · simp at taken
  | case3 text remarks queue incomplete line rest taken ih =>
      exact Nat.le_trans ih (Nat.le_of_lt (continuation_length taken))

/-- A line that declares types: the names declared, with what they are, and
whether lines behind it belong to the declaration. -/
inductive Declaration where
  | typedef
  | tagged (kind : String) (name : Text)
  | enumeration (tag : Option Text)
  deriving DecidableEq, Repr

/-- What a line declares. -/
def declaration? (line : Text) : Option Declaration :=
  if (Definition.afterKeyword? "typedef".toList
    (Text.trimLeft line)).isSome then some .typedef
  else
    match TypeName.tag? "struct".toList line with
    | some name => some (.tagged "struct" name)
    | none =>
        match TypeName.tag? "union".toList line with
        | some name => some (.tagged "union" name)
        | none =>
            match TypeName.tag? "enum".toList line with
            | some name => some (.enumeration (some name))
            | none => if TypeName.isAnonymousEnum line then
                some (.enumeration none) else none

/-- The names that a declaration records, and the lines behind it. -/
def declare (path : String) (line : QueuedLine) (queue : LineQueue) :
    Declaration → List Definition × List Log.Entry × LineQueue
  | .typedef =>
      let whole := gather TypeName.isCompleteTypedef line.text [] queue
      let names := TypeName.typedefNames (whole.text.drop "typedef".length)
      (names.map (TypeName.record path line.number "typedef"), whole.remarks,
        whole.queue)
  | .tagged kind name =>
      ([TypeName.record path line.number kind name], [], queue)
  | .enumeration tag =>
      let whole := gather TypeName.isCompleteEnum line.text [] queue
      let constants := TypeName.enumConstants whole.text
      (tag.toList.map (TypeName.record path line.number "enum") ++
        constants.map (TypeName.record path line.number "enum constant"),
        whole.remarks, whole.queue)

theorem declare_length
    (path : String) (line : QueuedLine) (queue : LineQueue)
    (declaration : Declaration) :
    (declare path line queue declaration).2.2.lines.length ≤
      queue.lines.length := by
  cases declaration with
  | typedef => exact gather_length _ _ _ _
  | tagged kind name => exact Nat.le_refl _
  | enumeration tag => exact gather_length _ _ _ _

/-- Read the lines of a queue; `found` and `log` hold what came before,
reversed. -/
def readFrom (path : String) (detectTypes : Bool) (found : List Definition)
    (log : List Log.Entry) (queue : LineQueue) :
      List Definition × List Log.Entry :=
  match queue with
  | ⟨[], _⟩ => (found.reverse, log.reverse)
  | ⟨line :: rest, _⟩ =>
      let log := line.remarks.reverse ++ log
      match Definition.directive? line.text with
      | some (name, body) =>
          let written := Definition.Written.ofText body
          readFrom path detectTypes
            (Definition.ofWritten path line.number name written :: found)
            ((written.remarks path line.number name).reverse ++ log)
            ⟨rest, false⟩
      | none =>
          match if detectTypes then declaration? line.text else none with
          | none => readFrom path detectTypes found log ⟨rest, false⟩
          | some declaration =>
              let declared := declare path line ⟨rest, false⟩ declaration
              readFrom path detectTypes (declared.1.reverse ++ found)
                (declared.2.1.reverse ++ log) declared.2.2
termination_by queue.lines.length
decreasing_by
  · simp
  · simp
  · have := declare_length path line ⟨rest, false⟩ declaration
    simp at this ⊢
    omega

/-- The definitions of a source text. -/
def ofText (path : String) (detectTypes : Bool) (text : Text) : Extraction :=
  let lines := LogicalLine.all path (Comment.blank text)
  let (definitions, log) :=
    readFrom path detectTypes [] [] (LineQueue.ofLogicalLines lines)
  let count := definitions.length
  ⟨definitions, log ++ [⟨.debug, s!"{path}: found {count} definitions"⟩]⟩

end Extraction

end MacroTrace
