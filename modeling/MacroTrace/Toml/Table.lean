import MacroTrace.Toml.Scalar

/-!
# Tables of a document

A table is a list of named values in order.  Tables inside tables are reached by
a key, which makes the missing ones on the way.
-/

namespace MacroTrace.Toml

abbrev Entries := List (String × Value)

namespace Entries

def set (entries : Entries) (name : String) (value : Value) : Entries :=
  if entries.any (·.1 == name) then
    entries.map fun entry => if entry.1 == name then (name, value) else entry
  else entries ++ [(name, value)]

/-- Change the table at a key.  With `openLists` a list of tables stands for its
last one.  There is no result if something else than a table is on the way. -/
def alter (openLists : Bool) (change : Entries → Option Entries) :
    Key → Entries → Option Entries
  | [], entries => change entries
  | name :: rest, entries =>
      match entries.lookup name with
      | none => do
          let inner ← alter openLists change rest []
          return set entries name (.table inner)
      | some (.table old) => do
          let inner ← alter openLists change rest old
          return set entries name (.table inner)
      | some (.list items) =>
          if openLists then
            match items.getLast? with
            | some (.table old) => do
                let inner ← alter openLists change rest old
                return set entries name
                  (.list (items.dropLast ++ [.table inner]))
            | _ => none
          else none
      | some _ => none

/-- Enter a value under a new name. -/
def enter (name : String) (value : Value) (entries : Entries) :
    Option Entries :=
  if entries.any (·.1 == name) then none else some (entries ++ [(name, value)])

/-- Add an empty table to the list under a name. -/
def appendTable (name : String) (entries : Entries) : Option Entries :=
  match entries.lookup name with
  | none => some (set entries name (.list [.table []]))
  | some (.list items) => some (set entries name (.list (items ++ [.table []])))
  | some _ => none

end Entries

def isBareKeyChar (c : Char) : Bool :=
  Text.isAsciiLetter c || isDecimal c || c = '-' || c = '_'

def isKeyStart (c : Char) : Bool :=
  isBareKeyChar c || c = '"' || c = '\x27'

/-- One name of a key. -/
def keyName (text : Text) : Except Fault (String × Text) :=
  match text with
  | [] => .error ⟨.invalidKeyStart, []⟩
  | c :: rest =>
      if isBareKeyChar c then
        .ok (String.ofList (text.takeWhile isBareKeyChar),
          text.dropWhile isBareKeyChar)
      else if c = '"' || c = '\x27' then do
        let (name, rest) ← shortString c rest
        return (String.ofList name, rest)
      else .error ⟨.invalidKeyStart, text⟩

/-- Names with dots between them.  Each name uses up fuel. -/
def keyFrom : Nat → Key → Text → Except Fault (Key × Text)
  | 0, _, text => .error ⟨.invalidKeyStart, text⟩
  | fuel + 1, found, text => do
      let (name, rest) ← keyName text
      match skipGap rest with
      | '.' :: rest => keyFrom fuel (name :: found) (skipGap rest)
      | rest => return ((name :: found).reverse, rest)

def key (text : Text) : Except Fault (Key × Text) :=
  keyFrom (text.length + 1) [] text

/-- Whether a value may not be changed once it is written. -/
def isClosed : Value → Bool
  | .list _ => true
  | .table _ => true
  | _ => false

/-- Whether a key lies at or below one of the closed keys. -/
def isBelow (closed : List Key) (key : Key) : Bool :=
  closed.any (·.isPrefixOf key)

/-- Enter a value of an inline table, where `rest` is the text behind it. -/
def enterInline (closed : List Key) (key : Key) (value : Value) (rest : Text)
    (entries : Entries) : Except Fault Entries :=
  let stem := key.getLast?.getD ""
  if isBelow closed key then .error ⟨.immutable key, rest⟩
  else
    match entries.alter false some key.dropLast with
    | none => .error ⟨.overwritten, rest⟩
    | some _ =>
        match entries.alter false (Entries.enter stem value) key.dropLast with
        | none => .error ⟨.duplicateKey stem, rest⟩
        | some entries => .ok entries

mutual

/-- The value at the start of a text.  Each part of a value uses up fuel. -/
def value : Nat → Text → Except Fault (Value × Text)
  | 0, text => .error ⟨.invalidValue, text⟩
  | fuel + 1, text =>
      match text with
      | '"' :: rest => do
          let (content, rest) ← stringBehind '"' rest
          return (.string (String.ofList content), rest)
      | '\x27' :: rest => do
          let (content, rest) ← stringBehind '\x27' rest
          return (.string (String.ofList content), rest)
      | '[' :: rest => do
          let rest ← skipGaps rest.length rest
          match rest with
          | ']' :: rest => return (.list [], rest)
          | rest => items fuel [] rest
      | '\x7b' :: rest =>
          match skipGap rest with
          | '\x7d' :: rest => .ok (.table [], rest)
          | rest => pairs fuel [] [] rest
      | text => scalar text

/-- The items of an array from the next one on; `found` is reversed. -/
def items : Nat → List Value → Text → Except Fault (Value × Text)
  | 0, _, text => .error ⟨.unclosedArray, text⟩
  | fuel + 1, found, text => do
      let (item, rest) ← value fuel text
      let rest ← skipGaps rest.length rest
      match rest with
      | ']' :: rest => return (.list (item :: found).reverse, rest)
      | ',' :: rest =>
          let rest ← skipGaps rest.length rest
          match rest with
          | ']' :: rest => return (.list (item :: found).reverse, rest)
          | rest => items fuel (item :: found) rest
      | rest => .error ⟨.unclosedArray, rest⟩

/-- The entries of an inline table from the next one on. -/
def pairs : Nat → List Key → Entries → Text → Except Fault (Value × Text)
  | 0, _, _, text => .error ⟨.unclosedInlineTable, text⟩
  | fuel + 1, closed, entries, text => do
      let (key, rest) ← key text
      match rest with
      | '=' :: rest =>
          let (entry, rest) ← value fuel (skipGap rest)
          let entries ← enterInline closed key entry rest entries
          match skipGap rest with
          | '\x7d' :: rest => return (.table entries, rest)
          | ',' :: rest =>
              pairs fuel (if isClosed entry then key :: closed else
                closed) entries (skipGap rest)
          | rest => .error ⟨.unclosedInlineTable, rest⟩
      | rest => .error ⟨.missingEquals, rest⟩

end

end MacroTrace.Toml
