import MacroTrace.Text.Character

/-!
# Similar names

Two names are compared by the number of characters that they share in matching
blocks: the longest common run, and recursively the parts to its left and to its
right.  The score is twice that number over the sum of both lengths.  In a long
name the frequent characters open no block.
-/

namespace MacroTrace.Similarity

/-- The length from which on frequent characters of a name are set aside. -/
def longName : Nat := 200

/-- Whether a character is set aside when blocks of `name` are looked for. -/
def isFrequent (name : Text) (c : Char) : Bool :=
  longName ≤ name.length && name.length / 100 + 1 < name.count c

/-- A common run: where it starts in both texts, and its size. -/
structure Block where
  left : Nat
  right : Nat
  size : Nat
  deriving DecidableEq, Repr

/-- The sizes of the common runs that end with `c` at each position of `right`,
given those that end one character earlier. -/
def nextRow (ignored : Char → Bool) (c : Char) (previous : List Nat)
    (right : Text) : List Nat :=
  (right.zip (0 :: previous)).map fun (d, before) =>
    if d = c && !ignored d then before + 1 else 0

/-- The best block after the runs of one row, whose character stands at
`index`. -/
def improve (index : Nat) (best : Block) (row : List Nat) : Block :=
  row.zipIdx.foldl
    (fun best (size, position) =>
      if best.size < size then ⟨index + 1 - size, position + 1 - size, size⟩
      else best)
    best

/-- The first of the longest common runs without ignored characters. -/
def longestRun (ignored : Char → Bool) (left right : Text) : Block :=
  (left.zipIdx.foldl
    (fun (state : Block × List Nat) (entry : Char × Nat) =>
      let row := nextRow ignored entry.1 state.2 right
      (improve entry.2 state.1 row, row))
    (⟨0, 0, 0⟩, List.replicate right.length 0)).1

/-- The length of the longest common beginning. -/
def commonStart : Text → Text → Nat
  | a :: left, b :: right => if a = b then commonStart left right + 1 else 0
  | _, _ => 0

/-- The longest run, extended by equal characters on both sides. -/
def longestBlock (ignored : Char → Bool) (left right : Text) : Block :=
  let run := longestRun ignored left right
  let before :=
    commonStart (left.take run.left).reverse (right.take run.right).reverse
  let after :=
    commonStart (left.drop (run.left + run.size))
      (right.drop (run.right + run.size))
  ⟨run.left - before, run.right - before, before + run.size + after⟩

/-- The number of characters in matching blocks.  The fuel bounds the depth of
the recursion. -/
def matched (ignored : Char → Bool) : Nat → Text → Text → Nat
  | 0, _, _ => 0
  | fuel + 1, left, right =>
      let block := longestBlock ignored left right
      if block.size = 0 then 0
      else
        matched ignored fuel (left.take block.left) (right.take block.right) +
          block.size +
          matched ignored fuel (left.drop (block.left + block.size))
            (right.drop (block.right + block.size))

/-- A candidate with the number of shared characters and the sum of the
lengths. -/
structure Scored where
  candidate : Text
  shared : Nat
  total : Nat
  deriving DecidableEq, Repr

def score (name candidate : Text) : Scored :=
  ⟨candidate, matched (isFrequent name) candidate.length candidate name,
    candidate.length + name.length⟩

/-- Whether the score is at least three fifths. -/
def Scored.isClose (scored : Scored) : Bool :=
  3 * scored.total ≤ 10 * scored.shared

/-- Order by score, greater scores first; of equal scores the greater name goes
first. -/
def Scored.precedes (left right : Scored) : Bool :=
  let a := left.shared * right.total
  let b := right.shared * left.total
  if a = b then Text.le right.candidate left.candidate else b < a

def maxSuggestions : Nat := 3

/-- The macro names among the candidates that are closest to a name. -/
def suggest (name : Text) (candidates : List Text) : List Text :=
  let pool := Text.sortedSet (candidates.filter fun candidate =>
    Text.isMacroName candidate && candidate ≠ name)
  let close := (pool.map (score name)).filter Scored.isClose
  ((close.mergeSort Scored.precedes).take maxSuggestions).map (·.candidate)

end MacroTrace.Similarity
