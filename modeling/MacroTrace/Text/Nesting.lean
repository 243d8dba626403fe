import MacroTrace.Text.Literal

/-!
# Parenthesis nesting

Depths, balance and closing parentheses.  Parentheses inside literals do not
count.
-/

namespace MacroTrace.Nesting

open Literal (Scan)

/-- The depth behind a character outside literals.  It never drops below
zero. -/
def depthAfter (depth : Nat) (c : Char) : Nat :=
  if c = '(' then depth + 1 else if c = ')' then depth - 1 else depth

/-- The reversed depths in front of every character and at the end, behind those
in `seen`. -/
def depthsFrom (scan : Scan) (depth : Nat) (seen : List Nat) : Text → List Nat
  | [] => (depth :: seen).reverse
  | c :: rest =>
      let next := if scan.covers c then depth else depthAfter depth c
      depthsFrom (scan.step c) next (depth :: seen) rest

/-- The depth in front of every character, and at the end. -/
def depths (text : Text) : List Nat :=
  depthsFrom .code 0 [] text

/-- The number of parentheses left open at the end. -/
def unclosed (text : Text) : Nat :=
  (depths text).getLast?.getD 0

def balancedFrom (scan : Scan) (depth : Nat) : Text → Bool
  | [] => depth == 0
  | c :: rest =>
      if scan.covers c then balancedFrom (scan.step c) depth rest
      else if c = '(' then balancedFrom (scan.step c) (depth + 1) rest
      else if c = ')' then
        match depth with
        | 0 => false
        | depth + 1 => balancedFrom (scan.step c) depth rest
      else balancedFrom (scan.step c) depth rest

/-- Every parenthesis is matched, and none is closed before it is opened. -/
def isBalanced (text : Text) : Bool :=
  balancedFrom .code 0 text

/-- The offset of the parenthesis that brings the depth back to zero, in a text
that stands at `offset`. -/
def closingFrom (scan : Scan) (depth : Int) (offset : Nat) : Text → Option Nat
  | [] => none
  | c :: rest =>
      if scan.covers c then closingFrom (scan.step c) depth (offset + 1) rest
      else if c = '(' then
        closingFrom (scan.step c) (depth + 1) (offset + 1) rest
      else if c = ')' then
        if depth = 1 then some offset
        else closingFrom (scan.step c) (depth - 1) (offset + 1) rest
      else closingFrom (scan.step c) depth (offset + 1) rest

/-- The offset of the parenthesis that closes the one at `start`. -/
def closing? (text : Text) (start : Nat) : Option Nat :=
  closingFrom .code 0 start (text.drop start)

/-- Whether the text, trimmed, is a single group: `(a + b)` but not `(a) +
(b)`. -/
def isWrapped (text : Text) : Bool :=
  let inner := Text.trim text
  inner.head? == some '(' && inner.getLast? == some ')' &&
    closing? inner 0 == some (inner.length - 1)

end MacroTrace.Nesting
