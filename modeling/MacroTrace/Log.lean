/-!
# Log

What an operation reports beside its result.  Operations return their log as a
list, in the order in which things happened.
-/

namespace MacroTrace.Log

inductive Level where
  | debug
  | info
  | warning
  | error
  deriving DecidableEq, Repr

namespace Level

def rank : Level → Nat
  | debug => 10
  | info => 20
  | warning => 30
  | error => 40

def label : Level → String
  | debug => "DEBUG"
  | info => "INFO"
  | warning => "WARNING"
  | error => "ERROR"

end Level

structure Entry where
  level : Level
  message : String
  deriving DecidableEq, Repr

/-- The entries at or above a level. -/
def atLeast (level : Level) (entries : List Entry) : List Entry :=
  entries.filter fun entry => level.rank ≤ entry.level.rank

/-- The line that shows an entry. -/
def Entry.line (entry : Entry) : String :=
  s!"{entry.level.label}: {entry.message}"

end MacroTrace.Log
