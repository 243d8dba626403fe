import MacroTrace.Definition.Extract
import MacroTrace.Proofs.WellFormed

/-!
# Detection of types

Reading the declarations of types does not touch the macros of a text.  A
declaration takes lines only up to the next directive, and it records nothing
that could be expanded; so the macros found are those of the lines that hold a
directive, with or without detection.
-/

namespace MacroTrace

/-- A line that was just taken can be put back. -/
theorem LineQueue.continuation?_eq (queue : LineQueue) :
    queue.continuation? = .ok queue.continuation := by
  obtain ⟨lines, returned⟩ := queue
  cases lines with
  | nil => rfl
  | cons line rest =>
      simp only [continuation?, next?, continuation, putBack]
      split
      next => rfl
      next => rfl

namespace Extraction

/-- A line without blanks in front. -/
def IsTidy (line : QueuedLine) : Prop :=
  Text.trimLeft line.text = line.text

theorem isTidy_tidy (text : Text) (number : Int) (remarks : List Log.Entry) :
    IsTidy ⟨LineQueue.tidy text, number, remarks⟩ := by
  change Text.trimLeft (Text.trim _) = Text.trim _
  generalize Text.squeeze _ text = squeezed
  obtain ⟨blanks, _, shape⟩ :=
    Text.exists_trimRight_append (Text.trimLeft squeezed)
  cases solid : Text.trim squeezed with
  | nil => rfl
  | cons c rest =>
      rw [Text.trim] at solid
      rw [solid, Text.trimLeft] at shape
      have notBlank : Text.isBlank c = false := by
        have head : (squeezed.dropWhile Text.isBlank).head? = some c := by
          rw [shape]; rfl
        have first := List.head?_dropWhile_not Text.isBlank squeezed
        rw [head] at first
        simpa using first
      rw [Text.trimLeft, List.dropWhile_cons_of_neg (by simp [notBlank])]

/-- A directive is seen by the first character of its line. -/
theorem directive?_eq_none
    {line : QueuedLine}
    (tidy : IsTidy line)
    (continues : line.text.head? ≠ some '#') :
    Definition.directive? line.text = none := by
  rw [Definition.directive?, show Text.trimLeft line.text = line.text from tidy]
  split
  next rest shape =>
    rw [shape] at continues
    exact absurd rfl continues
  next => rfl

/-- Some lines in front, none of which begins a directive, are taken from a
queue. -/
def Skips (before after : LineQueue) : Prop :=
  ∃ taken, before.lines = taken ++ after.lines ∧ ∀ line ∈ taken,
    line.text.head? ≠ some '#'

theorem Skips.refl (queue : LineQueue) : Skips queue queue :=
  ⟨[], rfl, nofun⟩

theorem Skips.trans
    {first second third : LineQueue}
    (earlier : Skips first second)
    (later : Skips second third) :
    Skips first third := by
  obtain ⟨taken, shape, continues⟩ := earlier
  obtain ⟨more, shapeMore, continuesMore⟩ := later
  refine ⟨taken ++ more, ?_, ?_⟩
  · rw [shape, shapeMore, List.append_assoc]
  · intro line member
    rcases List.mem_append.mp member with old | new
    · exact continues line old
    · exact continuesMore line new

theorem Skips.spec
    {before after : LineQueue}
    (skips : Skips before after)
    (tidy : ∀ line ∈ before.lines, IsTidy line) :
    after.lines.length ≤ before.lines.length ∧
      ∀ line ∈ after.lines, IsTidy line := by
  obtain ⟨taken, shape, _⟩ := skips
  constructor
  · simp [shape]
  · intro line member
    apply tidy
    rw [shape]
    exact List.mem_append_right _ member

theorem skips_continuation (queue : LineQueue) :
    Skips queue queue.continuation.2 := by
  obtain ⟨lines, returned⟩ := queue
  cases lines with
  | nil => exact .refl _
  | cons line rest =>
      simp only [LineQueue.continuation]
      split
      next => exact ⟨[], rfl, nofun⟩
      next continues =>
        refine ⟨[line], rfl, ?_⟩
        intro other member
        rw [List.mem_singleton.mp member]
        exact continues

theorem skips_gather
    (isComplete : Text → Bool) (text : Text) (remarks : List Log.Entry)
    (queue : LineQueue) :
    Skips queue (gather isComplete text remarks queue).queue := by
  fun_induction gather isComplete text remarks queue with
  | case1 text remarks queue complete => exact .refl queue
  | case2 text remarks queue incomplete rest taken =>
      have skips := skips_continuation queue
      rw [taken] at skips
      exact skips
  | case3 text remarks queue incomplete line rest taken ih =>
      have skips := skips_continuation queue
      rw [taken] at skips
      exact skips.trans ih

/-- A declaration records names that are no macros, at its first line. -/
theorem declare_spec
    (path : String) (line : QueuedLine) (queue : LineQueue)
    (declaration : Declaration) :
    Skips queue (declare path line queue declaration).2.2 ∧
      ∀ definition ∈ (declare path line queue declaration).1,
        definition.isMacro = false ∧ definition.file = path ∧
          definition.line = line.number := by
  have recorded {kind : String} {names : List Text} {definition : Definition}
      (member : definition ∈
        names.map (TypeName.record path line.number kind)) :
      definition.isMacro = false ∧ definition.file = path ∧
        definition.line = line.number := by
    obtain ⟨name, _, rfl⟩ := List.mem_map.mp member
    exact ⟨rfl, rfl, rfl⟩
  cases declaration with
  | typedef =>
      constructor
      · exact skips_gather _ _ _ _
      · intro definition member
        exact recorded member
  | tagged kind name =>
      constructor
      · exact .refl queue
      · intro definition member
        exact @recorded kind [name] definition member
  | enumeration tag =>
      constructor
      · exact skips_gather _ _ _ _
      · intro definition member
        rcases List.mem_append.mp member with tagged | constant
        · exact recorded tagged
        · exact recorded constant

/-- The macro that a line defines. -/
def macroOf? (path : String) (line : QueuedLine) : Option Definition :=
  (Definition.directive? line.text).map fun directive =>
    Definition.ofWritten path line.number directive.1
      (Definition.Written.ofText directive.2)

/-- A definition that a line adds: the macro that it defines, or a type that it
declares. -/
def Adds (path : String) (line : QueuedLine) (definition : Definition) : Prop :=
  macroOf? path line = some definition ∨
    ∃ queue declaration, declaration? line.text = some declaration ∧
      definition ∈ (declare path line queue declaration).1

theorem Adds.origin
    {path : String} {line : QueuedLine} {definition : Definition}
    (adds : Adds path line definition) :
    definition.file = path ∧ definition.line = line.number := by
  rcases adds with defines | ⟨queue, declaration, _, declared⟩
  · obtain ⟨directive, _, rfl⟩ := Option.map_eq_some_iff.mp defines
    exact ⟨rfl, rfl⟩
  · exact ((declare_spec path line queue declaration).2 definition declared).2

theorem filterMap_macroOf?_of_skips
    {path : String} {before after : LineQueue}
    (tidy : ∀ line ∈ before.lines, IsTidy line)
    (skips : Skips before after) :
    before.lines.filterMap (macroOf? path) =
      after.lines.filterMap (macroOf? path) := by
  obtain ⟨taken, shape, continues⟩ := skips
  have none : taken.filterMap (macroOf? path) = [] := by
    apply List.filterMap_eq_nil_iff.mpr
    intro line member
    have tidyLine : IsTidy line :=
      tidy line (by rw [shape]; exact List.mem_append_left _ member)
    rw [macroOf?, directive?_eq_none tidyLine (continues line member)]
    rfl
  rw [shape, List.filterMap_append, none, List.nil_append]

/-- How the first line of a queue is read. -/
theorem readFrom_cons
    (path : String) (detectTypes : Bool) (found : List Definition)
    (log : List Log.Entry) (line : QueuedLine) (rest : List QueuedLine)
    (returned : Bool) :
    ∃ more log' queue,
      readFrom path detectTypes found log ⟨line :: rest, returned⟩ =
          readFrom path detectTypes (more.reverse ++ found) log' queue ∧
        Skips ⟨rest, false⟩ queue ∧
        (∀ definition ∈ more, Adds path line definition) ∧
        more.filter (·.isMacro) = (macroOf? path line).toList ∧
        (detectTypes = false → more = (macroOf? path line).toList) := by
  rw [readFrom]
  cases directive : Definition.directive? line.text with
  | some named =>
      obtain ⟨name, body⟩ := named
      have defines : macroOf? path line =
          some (Definition.ofWritten path line.number name
            (Definition.Written.ofText body)) := by
        rw [macroOf?, directive]
        rfl
      rw [defines]
      refine ⟨[_], _, _, rfl, .refl _, ?_, rfl, fun _ => rfl⟩
      intro definition member
      rw [List.mem_singleton.mp member]
      exact .inl defines
  | none =>
      have defines : macroOf? path line = none := by
        rw [macroOf?, directive]
        rfl
      rw [defines]
      cases declares : (if detectTypes then
        declaration? line.text else none) with
      | none => exact ⟨[], _, _, rfl, .refl _, by simp, rfl, fun _ => rfl⟩
      | some declaration =>
          obtain ⟨skips, types⟩ :=
            declare_spec path line ⟨rest, false⟩ declaration
          obtain ⟨_, declares⟩ := Option.ite_none_right_eq_some.mp declares
          refine ⟨_, _, _, rfl, skips, ?_, ?_, ?_⟩
          · intro definition member
            exact .inr ⟨_, declaration, declares, member⟩
          · apply List.filter_eq_nil_iff.mpr
            intro definition member
            simp [(types definition member).1]
          · rintro rfl
            contradiction

/-- What is read from a queue comes in blocks, each added by one of its lines,
in their order. -/
theorem exists_blocks
    (path : String) (detectTypes : Bool) (found : List Definition)
    (log : List Log.Entry) (queue : LineQueue) :
    ∃ blocks : List (QueuedLine × List Definition),
      (readFrom path detectTypes found log queue).1 =
        found.reverse ++ blocks.flatMap (·.2) ∧
        (blocks.map (·.1)).Sublist queue.lines ∧
        ∀ block ∈ blocks, ∀ definition ∈ block.2,
          Adds path block.1 definition := by
  -- A declaration may take several lines, so the induction is on their number.
  induction length : queue.lines.length using Nat.strongRecOn
    generalizing found log queue with
  | ind number ih =>
      obtain ⟨lines, returned⟩ := queue
      cases lines with
      | nil => exact ⟨[], by simp [readFrom], List.Sublist.slnil, by simp⟩
      | cons line rest =>
          obtain ⟨more, log', behind, step, ⟨taken, shape, _⟩, adds, _⟩ :=
            readFrom_cons path detectTypes found log line rest returned
          have split : rest = taken ++ behind.lines := shape
          have fewer : behind.lines.length < number := by
            rw [← length, split]
            simp only [List.length_cons, List.length_append]
            omega
          obtain ⟨blocks, read, sublist, addsBehind⟩ :=
            ih _ fewer (more.reverse ++ found) log' behind rfl
          refine ⟨(line, more) :: blocks, ?_, ?_, ?_⟩
          · rw [step, read, List.reverse_append, List.reverse_reverse,
              List.append_assoc, List.flatMap_cons]
          · apply List.Sublist.cons_cons
            rw [split]
            exact sublist.trans (List.sublist_append_right _ _)
          · intro block member
            rcases List.mem_cons.mp member with rfl | later
            · exact adds
            · exact addsBehind block later

theorem exists_blocks_ofText
    (path : String) (detectTypes : Bool) (text : Text) :
    ∃ blocks : List (QueuedLine × List Definition),
      (ofText path detectTypes text).definitions = blocks.flatMap (·.2) ∧
        (blocks.map (·.1)).Sublist
          (LineQueue.ofLogicalLines
            (LogicalLine.all path (Comment.blank text))).lines ∧
        ∀ block ∈ blocks, ∀ definition ∈ block.2,
          Adds path block.1 definition :=
  exists_blocks path detectTypes [] [] _

theorem exists_adds
    {path : String} {detectTypes : Bool} {text : Text}
    {definition : Definition}
    (member : definition ∈ (ofText path detectTypes text).definitions) :
    ∃ line ∈ LogicalLine.all path (Comment.blank text),
      Adds path ⟨LineQueue.tidy line.text, line.first,
        line.remarks⟩ definition := by
  obtain ⟨blocks, read, sublist, adds⟩ :=
    exists_blocks_ofText path detectTypes text
  rw [read] at member
  obtain ⟨block, listed, added⟩ := List.mem_flatMap.mp member
  have queued := sublist.subset (List.mem_map_of_mem listed)
  obtain ⟨line, joined, same⟩ := List.mem_map.mp queued
  refine ⟨line, joined, ?_⟩
  rw [same]
  exact adds block listed definition added

/-- The macros that are read from a queue are those of its lines, and without
detection nothing else is read. -/
theorem readFrom_eq_append
    (path : String) (detectTypes : Bool) (found : List Definition)
    (log : List Log.Entry) (queue : LineQueue)
    (tidy : ∀ line ∈ queue.lines, IsTidy line) :
    ∃ more,
      (readFrom path detectTypes found log queue).1 = found.reverse ++ more ∧
        more.filter (·.isMacro) = queue.lines.filterMap (macroOf? path) ∧
        (detectTypes = false →
          more = queue.lines.filterMap (macroOf? path)) := by
  induction length : queue.lines.length using Nat.strongRecOn
    generalizing found log queue with
  | ind number ih =>
      obtain ⟨lines, returned⟩ := queue
      cases lines with
      | nil => exact ⟨[], by simp [readFrom], rfl, fun _ => rfl⟩
      | cons line rest =>
          obtain ⟨first, log', behind, step, skips, _, macros, all⟩ :=
            readFrom_cons path detectTypes found log line rest returned
          have tidyRest : ∀ other ∈ (LineQueue.mk rest false).lines,
              IsTidy other :=
            fun other member => tidy other (List.mem_cons_of_mem _ member)
          obtain ⟨fewer, tidyBehind⟩ := skips.spec tidyRest
          obtain ⟨others, read, macrosBehind, allBehind⟩ :=
            ih behind.lines.length (by simp at length fewer; omega)
              (first.reverse ++ found) log' behind tidyBehind rfl
          have made : (line :: rest).filterMap (macroOf? path) =
              (macroOf? path line).toList ++ behind.lines.filterMap
                (macroOf? path) := by
            rw [← filterMap_macroOf?_of_skips tidyRest skips]
            cases made : macroOf? path line with
            | none => rw [List.filterMap_cons_none made]; rfl
            | some definition => rw [List.filterMap_cons_some made]; rfl
          refine ⟨first ++ others, ?_, ?_, ?_⟩
          · rw [step, read, List.reverse_append, List.reverse_reverse,
              List.append_assoc]
          · rw [List.filter_append, macros, macrosBehind, made]
          · intro off
            rw [all off, allBehind off, made]

/-- Detecting types neither hides nor changes a macro, and reading a declaration
never puts a line back in front of another that was put back. -/
theorem filter_isMacro_ofText (path : String) (text : Text) :
    (ofText path true text).definitions.filter (·.isMacro) =
        (ofText path false text).definitions ∧
      ∀ queue : LineQueue, queue.continuation? = .ok queue.continuation := by
  refine ⟨?_, LineQueue.continuation?_eq⟩
  have tidy : ∀ line ∈ (LineQueue.ofLogicalLines
      (LogicalLine.all path (Comment.blank text))).lines, IsTidy line := by
    intro line member
    obtain ⟨logical, _, rfl⟩ := List.mem_map.mp member
    exact isTidy_tidy logical.text logical.first logical.remarks
  obtain ⟨detected, readDetected, macros, _⟩ :=
    readFrom_eq_append path true [] [] _ tidy
  obtain ⟨plain, readPlain, _, all⟩ :=
    readFrom_eq_append path false [] [] _ tidy
  calc (readFrom path true [] [] _).1.filter (·.isMacro)
    _ = detected.filter (·.isMacro) := by rw [readDetected]; rfl
    _ = plain := by rw [macros, all rfl]
    _ = (readFrom path false [] [] _).1 := readPlain.symm

end Extraction

end MacroTrace
