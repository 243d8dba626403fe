import MacroTrace.Source.LogicalLine

/-!
# Line queues

Definitions are read from a queue of logical lines with merged blanks.  A
declaration that runs over several lines takes further lines until it is
complete, but never a line that begins a directive.
-/

namespace MacroTrace

/-- A line with merged blanks and its number. -/
structure QueuedLine where
  text : Text
  number : Int
  remarks : List Log.Entry
  deriving DecidableEq, Repr

/-- Lines in reading order.  `returned` says that the first one was taken before
and put back. -/
structure LineQueue where
  lines : List QueuedLine
  returned : Bool
  deriving DecidableEq, Repr

namespace LineQueue

/-- Merge the spaces and tabs of a line and trim it. -/
def tidy (line : Text) : Text :=
  Text.trim (Text.squeeze (fun c => c = ' ' || c = '\t') line)

def ofLogicalLines (lines : List LogicalLine) : LineQueue :=
  ⟨lines.map fun line => ⟨tidy line.text, line.first, line.remarks⟩, false⟩

/-- Take the first line. -/
def next? (queue : LineQueue) : Option (QueuedLine × LineQueue) :=
  match queue.lines with
  | [] => none
  | line :: rest => some (line, ⟨rest, false⟩)

inductive Fault where
  /-- A line was already put back. -/
  | alreadyReturned
  deriving DecidableEq, Repr

def Fault.message : Fault → String
  | alreadyReturned => "_LineReader can only have one item put back at a time!"

/-- Put a line back in front. -/
def putBack (queue : LineQueue) (line : QueuedLine) : Except Fault LineQueue :=
  if queue.returned then .error .alreadyReturned
  else .ok ⟨line :: queue.lines, true⟩

/-- Take the first line, and put it back if it begins a directive. -/
def continuation? (queue : LineQueue) :
    Except Fault (Option QueuedLine × LineQueue) :=
  match queue.next? with
  | none => .ok (none, queue)
  | some (line, rest) =>
      if line.text.head? = some '#' then (rest.putBack line).map fun restored =>
        (none, restored)
      else .ok (some line, rest)

/-- Take the first line if it can continue a declaration. -/
def continuation (queue : LineQueue) : Option QueuedLine × LineQueue :=
  match queue.lines with
  | [] => (none, queue)
  | line :: rest =>
      if line.text.head? = some '#' then (none, ⟨line :: rest, true⟩)
      else (some line, ⟨rest, false⟩)

end LineQueue

end MacroTrace
