import MacroTrace.Log
import MacroTrace.Store.Ledger
import MacroTrace.Store.Shelf

/-!
# Stores

A store keeps the definitions of a project, as a shelf or as a ledger.
-/

namespace MacroTrace

inductive Store where
  | shelf (shelf : Shelf)
  | ledger (ledger : Ledger)
  deriving DecidableEq, Repr

namespace Store

/-- The snapshot of a store, and the store after it was taken. -/
def takeSnapshot : Store → Snapshot × Store
  | shelf store => (store.takeSnapshot.1, shelf store.takeSnapshot.2)
  | ledger store => (store.snapshot, ledger store)

def snapshot (store : Store) : Snapshot :=
  store.takeSnapshot.1

def files : Store → List String
  | shelf store => store.files
  | ledger store => store.files

def names : Store → List Text
  | shelf store => store.snapshot.names
  | ledger store => store.names

def lookup (store : Store) (name : Text) : List Definition :=
  match store with
  | shelf store => store.snapshot.lookup name
  | ledger store => store.lookup name

def size : Store → Nat
  | shelf store => store.snapshot.size
  | ledger store => store.size

def clear : Store → Store
  | shelf _ => shelf Shelf.empty
  | ledger store => ledger store.clear

/-- Replace the definitions of a file by rows.  A shelf keeps the rows without
missing fields. -/
def replaceRows (path : String) (rows : List Row) : Store →
    Except Ledger.Error Store
  | shelf store =>
      .ok (shelf (store.replace path (rows.filterMap Row.complete?)))
  | ledger store => do
      let replaced ← store.replace path rows
      return ledger replaced

/-- Replace the definitions of a file. -/
def replace (path : String) (definitions : List Definition) (store : Store) :
    Except Ledger.Error Store :=
  store.replaceRows path (definitions.map Row.ofDefinition)

def remove (path : String) : Store → Store
  | shelf store => shelf (store.remove path)
  | ledger store => ledger (store.remove path)

def replaceRemark (path : String) (count : Nat) : Log.Entry :=
  ⟨.debug, s!"Replaced {path} with {count} records"⟩

/-- What is logged when a file is removed.  A shelf says nothing about a file
that it does not hold. -/
def removeRemarks (path : String) : Store → List Log.Entry
  | shelf store =>
      if store.holds path then [⟨.debug, s!"Removed {path}"⟩] else []
  | ledger _ => [⟨.debug, s!"Removed {path}"⟩]

end Store

end MacroTrace
