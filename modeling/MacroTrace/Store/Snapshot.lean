import MacroTrace.Definition.Basic

/-!
# Snapshots

A snapshot holds the definitions of a project at one time, in order.
-/

namespace MacroTrace

/-- The definitions of a name, in order. -/
abbrev Lookup := Text → List Definition

structure Snapshot where
  definitions : List Definition
  deriving DecidableEq, Repr

namespace Snapshot

def lookup (snapshot : Snapshot) (name : Text) : List Definition :=
  snapshot.definitions.filter (·.name = name)

/-- The defined names, in order of their first definitions. -/
def names (snapshot : Snapshot) : List Text :=
  (snapshot.definitions.map (·.name)).eraseDups

def contains (snapshot : Snapshot) (name : Text) : Bool :=
  snapshot.definitions.any (·.name = name)

def size (snapshot : Snapshot) : Nat :=
  snapshot.definitions.length

end Snapshot

end MacroTrace
