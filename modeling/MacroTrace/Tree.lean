import MacroTrace.Expansion.Basic

/-!
# Expansion trees

A tree shows an expansion one pass at a time.  Where a pass expands a macro with
several usable definitions, the tree branches, and everything below a branch
keeps its definition.
-/

namespace MacroTrace

/-- A text on the way of an expansion.  `branch` is the macro and the index of
the definition that the node was made for, and `pinned` the definitions chosen
on the way to it. -/
structure TreeNode where
  text : Text
  level : Nat
  branch : Option (Text × Nat)
  pinned : List (Text × Definition)
  deriving DecidableEq, Repr

/-- The text of a node, with the definition that it was made for. -/
def TreeNode.label (node : TreeNode) : Text :=
  match node.branch with
  | none => node.text
  | some (name, index) =>
      node.text ++ " [".toList ++ name ++ s!" def {index + 1}]".toList

/-- The names of the definitions chosen on the way, in increasing order. -/
def TreeNode.pinnedNames (node : TreeNode) : List Text :=
  Text.sortedSet (node.pinned.map (·.1))

/-- A node, what was logged when its children were made, and the trees below.
The failure, if there is one, is where the growth of the tree ended: at the last
of all its nodes. -/
inductive Tree where
  | node (root : TreeNode) (remarks : List Log.Entry) (children : List Tree)
      (failure : Option Failure)

namespace Tree

def root : Tree → TreeNode
  | node root _ _ _ => root

def remarks : Tree → List Log.Entry
  | node _ remarks _ _ => remarks

def children : Tree → List Tree
  | node _ _ children _ => children

def failure : Tree → Option Failure
  | node _ _ _ failure => failure

/-- The definitions of a name that a tree can branch on. -/
def usable (lookup : Lookup) (name : Text) : List Definition :=
  (lookup name).filter fun definition =>
    definition.isMacro && !definition.isUnbalanced

/-- The first of the names that has several usable definitions and is not
pinned. -/
def branching? (lookup : Lookup) (node : TreeNode)
    (names : List Text) : Option Text :=
  names.find? fun name =>
    (node.pinned.lookup name).isNone && 1 < (usable lookup name).length

/-- The child of a node for one of several definitions of a name, if the pass
changes anything. -/
def branchChild? (lookup : Lookup) (settings : Settings) (node : TreeNode)
    (name : Text) (index : Nat) (definition : Definition) :
      Except Failure (Option TreeNode) := do
  let pinned := node.pinned ++ [(name, definition)]
  let pass ← Scope.pass? ⟨lookup, pinned⟩ settings node.text
  return pass.map fun pass => ⟨pass.text, node.level + 1,
    some (name, index), pinned⟩

/-- What the nodes below a node are, and what is logged while they are made. -/
structure Offspring where
  remarks : List Log.Entry
  nodes : Except Failure (List TreeNode)

/-- The nodes for the definitions of a name that a node branches on. -/
def branches (lookup : Lookup) (settings : Settings) (node : TreeNode)
    (name : Text) :
    Offspring :=
  let definitions := usable lookup name
  let count := definitions.length
  let shown := String.ofList name
  ⟨[⟨.debug, s!"Branching on {count} definitions of {shown}"⟩], do
    let children ← definitions.zipIdx.mapM fun (definition, index) =>
      branchChild? lookup settings node name index definition
    return children.filterMap id⟩

/-- The nodes below a node. -/
def offspring (lookup : Lookup) (settings : Settings)
    (node : TreeNode) : Offspring :=
  match Scope.pass? ⟨lookup, node.pinned⟩ settings node.text with
  | .error failure => ⟨[], .error failure⟩
  | .ok none => ⟨[], .ok []⟩
  | .ok (some pass) =>
      match branching? lookup node pass.names with
      | none => ⟨[], .ok [⟨pass.text, node.level + 1, none, node.pinned⟩]⟩
      | some name => branches lookup settings node name

/-- The trees that nodes grow into, up to the first whose growth fails. -/
def growEach (grow : TreeNode → Tree) : List TreeNode → List Tree
  | [] => []
  | root :: rest =>
      let tree := grow root
      if tree.failure.isSome then [tree] else tree :: growEach grow rest

/-- The tree below a node with a number of levels left. -/
def grow (lookup : Lookup) (settings : Settings) : Nat → TreeNode → Tree
  | 0, root => .node root [] [] none
  | levels + 1, root =>
      let below := offspring lookup settings root
      match below.nodes with
      | .error failure => .node root below.remarks [] (some failure)
      | .ok nodes =>
          let children := growEach (grow lookup settings levels) nodes
          .node root below.remarks children (children.getLast?.bind failure)

/-- All subtrees, each in front of those below it. -/
def walk : Tree → List Tree
  | node root remarks children failure =>
      node root remarks children failure :: children.flatMap walk

end Tree

/-- The tree of a use, or the error that stops its expansion and leaves the tree
without children. -/
structure ExpansionTree where
  error : Option ExpansionError
  tree : Tree
  remarks : List Log.Entry

def ExpansionTree.ofUse (lookup : Lookup) (settings : Settings) (use : Use) :
    Except Substitution.PlaceholderError ExpansionTree := do
  let expansion ← Expansion.ofUse lookup settings use
  let root : TreeNode := ⟨use.spelling, 0, none, []⟩
  let levels := if expansion.error.isSome then 0 else settings.maxDepth
  return ⟨expansion.error, Tree.grow lookup settings levels root,
    expansion.remarks⟩

end MacroTrace
