import MacroTrace.Text.Nesting

/-!
# Parenthesised groups

A text read as a sequence of characters and groups.  `strip` keeps one layer of
parentheses around every group: a group whose content is, up to blanks, a single
group is replaced by it.
-/

namespace MacroTrace

/-- A character, or the content of a pair of parentheses. -/
inductive Part where
  | char (c : Char)
  | group (inner : List Part)
  deriving Repr

namespace Part

/-- The text of a part. -/
def render : Part → Text
  | char c => [c]
  | group inner => '(' :: (inner.flatMap render ++ [')'])

def isBlank : Part → Bool
  | char c => Text.isBlank c
  | group _ => false

/-- The only part that is not blank, if it is a group and nothing else stands
beside it. -/
def soleGroup? (parts : List Part) : Option Part :=
  match parts.filter fun part => !part.isBlank with
  | [group inner] => some (group inner)
  | _ => none

/-- Keep one layer of parentheses around the content of every group. -/
def strip : Part → Part
  | char c => char c
  | group inner =>
      let stripped := inner.map strip
      (soleGroup? stripped).getD (group stripped)

end Part

/-- The groups of a text up to the first parenthesis that is never closed, and
the text from that parenthesis on. -/
structure Outline where
  parts : List Part
  unread : Text
  deriving Repr

namespace Outline

open Literal (Scan)

/-- A group under construction: the reversed parts in front of it, and the text
from its opening parenthesis on. -/
structure Pending where
  before : List Part
  text : Text
  deriving Repr

/-- Read a text with the groups in `pending` open, innermost first; `current`
holds the reversed parts of the innermost one. -/
def readFrom (scan : Scan) (pending : List Pending) (current : List Part) :
    Text → Outline
      | [] =>
          match pending.getLast? with
          | none => ⟨current.reverse, []⟩
          | some outermost => ⟨outermost.before.reverse, outermost.text⟩
      | c :: rest =>
          if scan.covers c then
            readFrom (scan.step c) pending (.char c :: current) rest
          else if c = '(' then
            readFrom (scan.step c) (⟨current, c :: rest⟩ :: pending) [] rest
          else if c = ')' then
            match pending with
            | [] => readFrom (scan.step c) [] (.char c :: current) rest
            | innermost :: outer =>
                readFrom (scan.step c) outer
                  (.group current.reverse :: innermost.before) rest
          else readFrom (scan.step c) pending (.char c :: current) rest

def ofText (text : Text) : Outline :=
  readFrom .code [] [] text

end Outline

namespace Group

/-- Keep one layer of parentheses around every group, up to the first
parenthesis that is never closed. -/
def strip (text : Text) : Text :=
  let outline := Outline.ofText text
  (outline.parts.map Part.strip).flatMap Part.render ++ outline.unread

/-- Trim a balanced text and remove its redundant parentheses; leave any other
text alone. -/
def simplify (text : Text) : Text :=
  if Nesting.isBalanced text then strip (Text.trim text) else text

end Group

end MacroTrace
