import MacroTrace.Toml.Table

/-!
# Documents

A document is a sequence of statements: entries, headers of tables and headers
of lists of tables.
-/

namespace MacroTrace.Toml

/-- A document as far as it has been read. -/
structure Document where
  entries : Entries
  /-- The key of the table that entries belong to. -/
  header : Key
  /-- Keys that cannot be declared as tables again. -/
  declared : List Key
  /-- Keys that are declared when the next header is reached. -/
  pending : List Key
  /-- Keys of values that cannot be changed, nor anything below them. -/
  closed : List Key

namespace Document

def empty : Document :=
  ⟨[], [], [], [], []⟩

/-- The keys of the tables between the header and the last name of a key. -/
def innerKeys (header key : Key) : List Key :=
  (List.range (key.length - 1)).map fun count => header ++ key.take (count + 1)

/-- Enter a value under a key below the header; `rest` is the text behind it. -/
def enter (document : Document) (key : Key) (value : Value) (rest : Text) :
    Except Fault Document :=
  let inner := innerKeys document.header key
  let parent := document.header ++ key.dropLast
  match inner.find? document.declared.contains with
  | some redefined => .error ⟨.redefined redefined, rest⟩
  | none =>
      if isBelow document.closed parent then .error ⟨.immutable parent, rest⟩
      else
        match document.entries.alter true
          (Entries.enter (key.getLast?.getD "") value) parent with
        | none => .error ⟨.overwritten, rest⟩
        | some entries =>
            let closed :=
              if isClosed value then (document.header ++ key) :: document.closed
              else document.closed
            .ok { document with
              entries := entries, closed := closed, pending :=
                inner ++ document.pending }

/-- Reach a header: what was pending is declared. -/
def settle (document : Document) : Document :=
  { document with
    declared := document.pending ++ document.declared, pending := [] }

/-- Open the table at a key. -/
def openTable (document : Document) (key : Key) (rest : Text) :
    Except Fault Document :=
  if document.declared.contains key || isBelow document.closed key then
    .error ⟨.declaredTwice key, rest⟩
  else
    match document.entries.alter true some key with
    | none => .error ⟨.overwritten, rest⟩
    | some entries =>
        .ok { document with
          entries := entries, header := key, declared :=
            key :: document.declared }

/-- Add a table to the list at a key and open it.  What was declared below the
key is free again. -/
def openItem (document : Document) (key : Key) (rest : Text) :
    Except Fault Document :=
  if isBelow document.closed key then .error ⟨.immutable key, rest⟩
  else
    let change := Entries.appendTable (key.getLast?.getD "")
    match document.entries.alter true change key.dropLast with
    | none => .error ⟨.overwritten, rest⟩
    | some entries =>
        .ok { document with
          entries := entries
          header := key
          declared :=
            key :: document.declared.filter fun other => !key.isPrefixOf other
          closed := document.closed.filter fun other => !key.isPrefixOf other }

/-- An entry. -/
def entryStatement (document : Document) (text : Text) :
    Except Fault (Document × Text) := do
  let (key, rest) ← key text
  match rest with
  | '=' :: rest =>
      let start := skipGap rest
      let (value, rest) ← value (start.length + 1) start
      return (← document.enter key value rest, rest)
  | rest => .error ⟨.missingEquals, rest⟩

/-- The header of a table, behind its bracket. -/
def tableStatement (document : Document) (text : Text) :
    Except Fault (Document × Text) := do
  let (key, rest) ← key (skipGap text)
  let document ← document.settle.openTable key rest
  match rest with
  | ']' :: rest => return (document, rest)
  | rest => .error ⟨.unclosedTableHeader, rest⟩

/-- The header of a list of tables, behind its brackets. -/
def itemStatement (document : Document) (text : Text) :
    Except Fault (Document × Text) := do
  let (key, rest) ← key (skipGap text)
  let document ← document.settle.openItem key rest
  match rest with
  | ']' :: ']' :: rest => return (document, rest)
  | rest => .error ⟨.unclosedListHeader, rest⟩

/-- What stands on a line in front of its comment. -/
def statement (document : Document) (text : Text) :
    Except Fault (Document × Text) :=
  match text with
  | '[' :: '[' :: rest => document.itemStatement rest
  | '[' :: rest => document.tableStatement rest
  | '#' :: _ => .ok (document, text)
  | c :: _ =>
      if isKeyStart c then document.entryStatement text
      else .error ⟨.invalidStatement, text⟩
  | [] => .ok (document, [])

/-- Read statements.  Each of them uses up fuel. -/
def readFrom : Nat → Document → Text → Except Fault Document
  | 0, document, _ => .ok document
  | fuel + 1, document, text =>
      match skipGap text with
      | [] => .ok document
      | '\n' :: rest => readFrom fuel document rest
      | start => do
          let (document, rest) ← document.statement start
          let rest ← skipComment (skipGap rest)
          match rest with
          | [] => return document
          | '\n' :: rest => readFrom fuel document rest
          | rest => .error ⟨.missingLineEnd, rest⟩

/-- Drop the carriage return of every line end.  `written` is the reversed text
so far. -/
def unifyLineEnds (written : Text) : Text → Text
  | [] => written.reverse
  | '\r' :: '\n' :: rest => unifyLineEnds ('\n' :: written) rest
  | c :: rest => unifyLineEnds (c :: written) rest

end Document

/-- The entries of a document. -/
def parse (text : Text) : Except Error Entries :=
  let source := Document.unifyLineEnds [] text
  match Document.readFrom (source.length + 1) Document.empty source with
  | .ok document => .ok document.entries
  | .error fault => .error (fault.locate source)

end MacroTrace.Toml
