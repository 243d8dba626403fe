import MacroTrace.Store.Snapshot

/-!
# Ledgers

A ledger keeps definitions as numbered entries, each under the file that it
names itself.  Numbers increase and are never given twice; what is asked for
comes in the order of numbers.  A row must have all its fields, and its line
number must fit 64 bits; otherwise nothing of the replacement takes place.
-/

namespace MacroTrace

/-- What is to be entered as a row.  A field may be missing. -/
structure Row where
  name : Option Text
  parameters : Option (List Text)
  body : Option Text
  file : Option String
  line : Option Int
  isMacro : Bool
  deriving DecidableEq, Repr

def Row.ofDefinition (definition : Definition) : Row :=
  ⟨some definition.name, definition.parameters, some definition.body,
    some definition.file, some definition.line, definition.isMacro⟩

/-- The definition that a row without missing fields holds. -/
def Row.complete? (row : Row) : Option Definition := do
  return ⟨← row.name, row.parameters, ← row.body, ← row.file, ← row.line,
    row.isMacro⟩

/-- A definition that was entered, and its number. -/
structure Ledger.Entry where
  number : Nat
  definition : Definition
  deriving DecidableEq, Repr

structure Ledger where
  entries : List Ledger.Entry
  /-- The last number that was given. -/
  given : Nat
  ordered : entries.Pairwise fun one other => one.number < other.number
  bounded : ∀ entry ∈ entries, entry.number ≤ given
  deriving DecidableEq, Repr

namespace Ledger

/-- Why a row cannot be entered. -/
inductive Error where
  | missingField
  | lineTooLarge
  deriving DecidableEq, Repr

def Error.message : Error → String
  | missingField => "A field is missing"
  | lineTooLarge => "A line number is too large"

/-- Whether a number fits a signed word of 64 bits. -/
def fits (line : Int) : Bool :=
  -0x8000000000000000 ≤ line && line < 0x8000000000000000

/-- The definition that a row enters.  The range of its line number is looked at
first. -/
def enter (row : Row) : Except Error Definition :=
  if row.line.all fits then
    match row.complete? with
    | some definition => .ok definition
    | none => .error .missingField
  else .error .lineTooLarge

def empty : Ledger :=
  ⟨[], 0, .nil, nofun⟩

/-- Remove all entries.  Their numbers are not given again. -/
def clear (ledger : Ledger) : Ledger :=
  ⟨[], ledger.given, .nil, nofun⟩

def remove (ledger : Ledger) (path : String) : Ledger where
  entries := ledger.entries.filter (·.definition.file != path)
  given := ledger.given
  ordered := ledger.ordered.filter _
  bounded entry member := ledger.bounded entry (List.mem_filter.mp member).1

/-- Definitions with the numbers behind the last one that was given. -/
def numbered (last : Nat) : List Definition → List Entry
  | [] => []
  | definition :: rest => ⟨last + 1, definition⟩ :: numbered (last + 1) rest

theorem number_of_mem_numbered
    {last : Nat} {definitions : List Definition} {entry : Entry}
    (member : entry ∈ numbered last definitions) :
    last < entry.number ∧ entry.number ≤ last + definitions.length := by
  induction definitions generalizing last with
  | nil => cases member
  | cons definition rest ih =>
      simp only [List.length_cons]
      rcases List.mem_cons.mp member with rfl | later
      · constructor <;> simp only <;> omega
      · have bounds := ih later
        omega

theorem ordered_numbered (last : Nat) (definitions : List Definition) :
    (numbered last definitions).Pairwise fun one other =>
      one.number < other.number := by
  induction definitions generalizing last with
  | nil => exact .nil
  | cons definition rest ih =>
      refine List.pairwise_cons.mpr ⟨?_, ih (last + 1)⟩
      intro entry member
      exact (number_of_mem_numbered member).1

def append (ledger : Ledger) (definitions : List Definition) : Ledger where
  entries := ledger.entries ++ numbered ledger.given definitions
  given := ledger.given + definitions.length
  ordered := by
    refine List.pairwise_append.mpr ⟨ledger.ordered, ordered_numbered _ _, ?_⟩
    intro entry member other later
    have old := ledger.bounded entry member
    have new := (number_of_mem_numbered later).1
    omega
  bounded := by
    intro entry member
    rcases List.mem_append.mp member with old | new
    · have bound := ledger.bounded entry old
      omega
    · exact (number_of_mem_numbered new).2

/-- Remove the entries of a file and enter rows. -/
def replace (ledger : Ledger) (path : String) (rows : List Row) :
    Except Error Ledger := do
  let entered ← rows.mapM enter
  return (ledger.remove path).append entered

/-- The definitions that satisfy a condition, in the order of their numbers. -/
def select (ledger : Ledger) (keep : Definition → Bool) : List Definition :=
  ((ledger.entries.filter fun entry => keep entry.definition).mergeSort
    fun one other => one.number ≤ other.number).map (·.definition)

section Groups

variable {κ : Type} [BEq κ]

/-- The least number of the entries with a key. -/
def leastNumber (key : Definition → κ) (entries : List Entry)
    (value : κ) : Nat :=
  ((entries.filter fun entry => key entry.definition == value).map
    (·.number)).min?.getD 0

/-- The keys of the entries, each once, in the order of their least numbers. -/
def groups (ledger : Ledger) (key : Definition → κ) : List κ :=
  let values := (ledger.entries.map fun entry => key entry.definition).eraseDups
  ((values.map fun value => (value,
    leastNumber key ledger.entries value)).mergeSort
    fun one other => one.2 ≤ other.2).map (·.1)

end Groups

def files (ledger : Ledger) : List String :=
  ledger.groups (·.file)

def names (ledger : Ledger) : List Text :=
  ledger.groups (·.name)

def lookup (ledger : Ledger) (name : Text) : List Definition :=
  ledger.select (·.name = name)

def size (ledger : Ledger) : Nat :=
  ledger.entries.length

def snapshot (ledger : Ledger) : Snapshot :=
  ⟨ledger.select fun _ => true⟩

end Ledger

end MacroTrace
