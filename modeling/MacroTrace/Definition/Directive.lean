import MacroTrace.Definition.Basic
import MacroTrace.Log
import MacroTrace.Text.Character
import MacroTrace.Text.Nesting

/-!
# Definition directives

Reading a `#define` line.  Only a parenthesis directly behind the name opens a
parameter list, and it is closed without regard to literals.
-/

namespace MacroTrace.Definition

/-- What follows a keyword and at least one blank. -/
def afterKeyword? (keyword text : Text) : Option Text :=
  if keyword.isPrefixOf text then
    match text.drop keyword.length with
    | c :: rest => if Text.isBlank c then some (Text.trimLeft rest) else none
    | [] => none
  else none

/-- The name that a `#define` line defines, and the text behind it. -/
def directive? (line : Text) : Option (Text × Text) :=
  match Text.trimLeft line with
  | '#' :: rest =>
      match afterKeyword? "define".toList (Text.trimLeft rest) with
      | some definition =>
          if definition.head?.any Text.isIdentifierStart then
            some (definition.takeWhile Text.isWordChar,
              definition.dropWhile Text.isWordChar)
          else none
      | none => none
  | _ => none

/-- The parameter list in front of a body: the text up to the closing
parenthesis and the text behind it. -/
def splitParameters (depth : Nat) (inside : Text) : Text → Option (Text × Text)
  | [] => none
  | c :: rest =>
      if c = '(' then splitParameters (depth + 1) (c :: inside) rest
      else if c = ')' then
        match depth with
        | 0 => some (inside.reverse, rest)
        | depth + 1 => splitParameters depth (c :: inside) rest
      else splitParameters depth (c :: inside) rest

/-- The trimmed parameters of a parameter list; empty ones are left out. -/
def parametersOf (list : Text) : List Text :=
  ((Text.splitOn ',' list).map Text.trim).filter (!·.isEmpty)

/-- The parameters and the body in the text behind a name, and whether the
parameter list, if there is one, is closed. -/
def split (rest : Text) : Option (List Text) × Text × Bool :=
  match rest with
  | '(' :: list =>
      match splitParameters 0 [] list with
      | some (inside, body) => (some (parametersOf inside), body, true)
      | none => (none, rest, false)
  | _ => (none, rest, true)

/-- A definition as it is written behind its name. -/
structure Written where
  parameters : Option (List Text)
  body : Text
  isBalanced : Bool
  deriving DecidableEq, Repr

def Written.ofText (rest : Text) : Written :=
  let (parameters, raw, closed) := split rest
  let body := Text.normalizeBlanks raw
  ⟨parameters, body, closed && Nesting.isBalanced body⟩

/-- The definition of `name` as it is written. -/
def ofWritten (path : String) (line : Int) (name : Text)
    (written : Written) : Definition :=
  let marked :=
    if written.isBalanced then written.body else unbalancedMark ++ written.body
  ⟨name, written.parameters, marked, path, line, true⟩

/-- What is logged about a directive.  A body that merely begins with the mark
is not mentioned. -/
def Written.remarks (path : String) (line : Int) (name : Text)
    (written : Written) :
    List Log.Entry :=
  if written.isBalanced then []
  else
    let name := String.ofList name
    [⟨.debug, s!"{path}:{line}: unbalanced definition of {name}"⟩]

end MacroTrace.Definition
