import MacroTrace.Store.Snapshot

/-!
# Shelves

A shelf keeps the definitions of each file together, under the path they were
given with.  Replacing a file moves it to the end; a file without definitions is
not kept.  The snapshot that was taken last is kept as well, until the
definitions change.
-/

namespace MacroTrace

structure Shelf where
  entries : List (String × List Definition)
  /-- The last snapshot, unless something has changed since. -/
  taken : Option Snapshot
  current : ∀ snapshot ∈ taken, snapshot = ⟨entries.flatMap (·.2)⟩
  deriving DecidableEq, Repr

namespace Shelf

/-- A shelf that no snapshot was taken of. -/
def untaken (entries : List (String × List Definition)) : Shelf :=
  ⟨entries, none, nofun⟩

def empty : Shelf :=
  untaken []

def holds (shelf : Shelf) (path : String) : Bool :=
  shelf.entries.any (·.1 == path)

def others (shelf : Shelf) (path : String) : List (String × List Definition) :=
  shelf.entries.filter (·.1 != path)

/-- Remove a file.  Removing one that is not there changes nothing. -/
def remove (shelf : Shelf) (path : String) : Shelf :=
  if shelf.holds path then untaken (shelf.others path) else shelf

def replace (shelf : Shelf) (path : String)
    (definitions : List Definition) : Shelf :=
  if definitions.isEmpty then untaken (shelf.others path)
  else untaken (shelf.others path ++ [(path, definitions)])

def files (shelf : Shelf) : List String :=
  shelf.entries.map (·.1)

/-- The snapshot of a shelf, and the shelf that keeps it. -/
def takeSnapshot (shelf : Shelf) : Snapshot × Shelf :=
  match shelf.taken with
  | some snapshot => (snapshot, shelf)
  | none =>
      let snapshot : Snapshot := ⟨shelf.entries.flatMap (·.2)⟩
      (snapshot, ⟨shelf.entries, some snapshot, by simp [snapshot]⟩)

def snapshot (shelf : Shelf) : Snapshot :=
  shelf.takeSnapshot.1

end Shelf

end MacroTrace
