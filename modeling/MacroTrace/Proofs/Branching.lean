import MacroTrace.Proofs.Simultaneous
import MacroTrace.Tree

/-!
# Branching

What a tree of an expansion shows.  `Tree.Child` says what stands directly below
a node: the text after one pass, made with the definitions that are pinned at
the child.  Everything else follows along the paths of the tree: levels are
distances from the root, a definition stays pinned on the whole way down, and no
name is branched on twice on one way.
-/

namespace MacroTrace

namespace Tree

variable {lookup : Lookup} {settings : Settings}

/-- What stands directly below a node.  Where the pass expands no name with
several usable definitions there is one child; where it does, there is one child
for each definition of the first such name with which a pass changes the
text. -/
inductive Child (lookup : Lookup) (settings : Settings) (parent : TreeNode) :
    TreeNode → Prop where
      | onward {pass : Pass} :
          Scope.pass? ⟨lookup, parent.pinned⟩ settings parent.text =
            .ok (some pass) →
          branching? lookup parent pass.names = none →
          Child lookup settings parent ⟨pass.text, parent.level + 1, none,
            parent.pinned⟩
      | branch {first pass : Pass} {name : Text} {index : Nat}
          {definition : Definition} :
          Scope.pass? ⟨lookup, parent.pinned⟩ settings parent.text =
            .ok (some first) →
          branching? lookup parent first.names = some name →
          (usable lookup name)[index]? = some definition →
          Scope.pass? ⟨lookup, parent.pinned ++ [(name, definition)]⟩ settings
              parent.text =
            .ok (some pass) →
          Child lookup settings parent
            ⟨pass.text, parent.level + 1, some (name, index),
              parent.pinned ++ [(name, definition)]⟩

section Branch

variable {node : TreeNode} {name : Text} {index : Nat} {definition : Definition}

theorem branchChild?_eq_ok_iff
    {child : TreeNode} :
    branchChild? lookup settings node name index definition = .ok (some child) ↔
      ∃ pass,
        Scope.pass? ⟨lookup,
          node.pinned ++ [(name, definition)]⟩ settings node.text =
            .ok (some pass) ∧
          child =
            ⟨pass.text, node.level + 1, some (name, index),
              node.pinned ++ [(name, definition)]⟩ := by
  unfold branchChild?
  cases passed : Scope.pass? ⟨lookup,
    node.pinned ++ [(name, definition)]⟩ settings node.text with
  | error failure => simp [passed]
  | ok pass? =>
      cases pass? with
      | none => simp [passed]
      | some pass => simp [passed, eq_comm]

theorem branchChild?_eq_error_iff
    {failure : Failure} :
    branchChild? lookup settings node name index definition = .error failure ↔
      Scope.pass? ⟨lookup, node.pinned ++ [(name, definition)]⟩ settings
          node.text =
        .error failure := by
  unfold branchChild?
  cases passed : Scope.pass? ⟨lookup,
    node.pinned ++ [(name, definition)]⟩ settings node.text with
  | error other => simp [passed]
  | ok pass? => simp [passed]

end Branch

/-- Below a node that branches on a name there are the nodes made for the
definitions of this name. -/
theorem child_iff_of_branching?
    {node child : TreeNode} {first : Pass} {name : Text}
    (passed : Scope.pass? ⟨lookup, node.pinned⟩ settings node.text =
      .ok (some first))
    (branches? : branching? lookup node first.names = some name) :
    Child lookup settings node child ↔
      ∃ index definition,
        (usable lookup name)[index]? = some definition ∧
          branchChild? lookup settings node name index definition =
            .ok (some child) := by
  constructor
  · intro below
    cases below with
    | onward passed' alone =>
        rw [passed, Except.ok.injEq, Option.some.injEq] at passed'
        rw [← passed', branches?] at alone
        cases alone
    | @branch first' pass name' index definition passed' branches'
        found changed =>
        rw [passed, Except.ok.injEq, Option.some.injEq] at passed'
        rw [← passed', branches?, Option.some.injEq] at branches'
        subst branches'
        exact ⟨index, definition, found,
          branchChild?_eq_ok_iff.mpr ⟨pass, changed, rfl⟩⟩
  · rintro ⟨index, definition, found, made⟩
    obtain ⟨pass, changed, rfl⟩ := branchChild?_eq_ok_iff.mp made
    exact .branch passed branches? found changed

/-- The nodes made for the definitions of a name, if they can be made. -/
theorem branches_cases
    {node : TreeNode} {first : Pass} {name : Text}
    (passed : Scope.pass? ⟨lookup, node.pinned⟩ settings node.text =
      .ok (some first))
    (branches? : branching? lookup node first.names = some name) :
    (∃ nodes,
      (branches lookup settings node name).nodes = .ok nodes ∧
        ∀ child, child ∈ nodes ↔ Child lookup settings node child) ∨
    (∃ failure definition,
      (branches lookup settings node name).nodes = .error failure ∧
        definition ∈ usable lookup name ∧
        Scope.pass? ⟨lookup, node.pinned ++ [(name, definition)]⟩ settings
            node.text =
          .error failure) := by
  rcases List.mapM_cases (fun (entry : Definition × Nat) =>
      branchChild? lookup settings node name entry.2 entry.1)
        (usable lookup name).zipIdx with
    ⟨made, traversed, each⟩ |
      ⟨failure, traversed, ⟨definition, index⟩, listed, failed⟩
  · refine .inl ⟨made.filterMap id, ?_, ?_⟩
    · unfold branches
      simp only [traversed]
      rfl
    · intro child
      rw [child_iff_of_branching? passed branches?, List.mem_filterMap]
      constructor
      · rintro ⟨made?, member, rfl⟩
        obtain ⟨⟨definition, index⟩, listed, known⟩ := (each _).mp member
        exact ⟨index, definition, List.mem_zipIdx_iff_getElem?.mp listed, known⟩
      · rintro ⟨index, definition, found, known⟩
        refine ⟨some child, (each _).mpr ⟨(definition, index), ?_, known⟩, rfl⟩
        exact List.mem_zipIdx_iff_getElem?.mpr found
  · refine .inr ⟨failure, definition, ?_, ?_,
      branchChild?_eq_error_iff.mp failed⟩
    · unfold branches
      simp only [traversed]
      rfl
    · exact List.mem_of_getElem? (List.mem_zipIdx_iff_getElem?.mp listed)

/-- The nodes below a node are its children, unless a pass that looks for them
fails. -/
theorem offspring_cases
    (lookup : Lookup) (settings : Settings) (node : TreeNode) :
    (∃ nodes,
      (offspring lookup settings node).nodes = .ok nodes ∧
        ∀ child, child ∈ nodes ↔ Child lookup settings node child) ∨
    (∃ failure pinned,
      (offspring lookup settings node).nodes = .error failure ∧
        (∀ entry ∈ pinned, entry ∈ node.pinned ∨ entry.2 ∈ lookup entry.1) ∧
        Scope.pass? ⟨lookup, pinned⟩ settings node.text = .error failure) := by
  unfold offspring
  cases passed : Scope.pass? ⟨lookup, node.pinned⟩ settings node.text with
  | error failure =>
      exact .inr ⟨failure, node.pinned, rfl,
        fun _ member => .inl member, passed⟩
  | ok pass? =>
      cases pass? with
      | none =>
          refine .inl ⟨[], rfl, ?_⟩
          intro child
          constructor
          · intro member
            cases member
          · intro below
            cases below with
            | onward passed' _ => rw [passed] at passed'; cases passed'
            | branch passed' _ _ _ => rw [passed] at passed'; cases passed'
      | some pass =>
          cases branches? : branching? lookup node pass.names with
          | none =>
              simp only [branches?]
              refine .inl ⟨_, rfl, ?_⟩
              intro child
              rw [List.mem_singleton]
              constructor
              · rintro rfl
                exact .onward passed branches?
              · intro below
                cases below with
                | onward passed' _ =>
                    rw [passed, Except.ok.injEq, Option.some.injEq] at passed'
                    rw [passed']
                | branch passed' branches' _ _ =>
                    rw [passed, Except.ok.injEq, Option.some.injEq] at passed'
                    rw [← passed', branches?] at branches'
                    cases branches'
          | some name =>
              simp only [branches?]
              rcases branches_cases passed branches? with
                made | ⟨failure, definition, stopped, usable, failed⟩
              · exact .inl made
              · refine .inr ⟨failure, _, stopped, ?_, failed⟩
                intro entry member
                rcases List.mem_append.mp member with earlier | last
                · exact .inl earlier
                · rw [List.mem_singleton.mp last]
                  exact .inr (List.mem_of_mem_filter usable)

/-- A tree that lies at a distance below another. -/
inductive Lies : Tree → Nat → Tree → Prop where
  | here (tree : Tree) : Lies tree 0 tree
  | under {tree child lower : Tree} {distance : Nat} :
      child ∈ tree.children → Lies child distance lower →
        Lies tree (distance + 1) lower

theorem Lies.mem_walk
    {tree lower : Tree} {distance : Nat}
    (lies : Lies tree distance lower) :
    lower ∈ tree.walk := by
  induction lies with
  | here tree =>
      cases tree
      rw [walk]
      exact List.mem_cons_self
  | @under tree child lower distance member _ ih =>
      cases tree
      rw [walk]
      exact List.mem_cons_of_mem _ (List.mem_flatMap.mpr ⟨child, member, ih⟩)

theorem lies_of_mem_walk
    {tree lower : Tree}
    (met : lower ∈ tree.walk) :
    ∃ distance, Lies tree distance lower := by
  match tree with
  | .node root remarks children failure =>
      rw [walk] at met
      rcases List.mem_cons.mp met with rfl | later
      · exact ⟨0, .here _⟩
      · obtain ⟨child, member, met⟩ := List.mem_flatMap.mp later
        obtain ⟨distance, lies⟩ := lies_of_mem_walk met
        exact ⟨distance + 1, .under member lies⟩
termination_by sizeOf tree

/-- A walk meets every tree that lies below, and no other. -/
theorem mem_walk_iff (tree lower : Tree) :
    lower ∈ tree.walk ↔ ∃ distance, Lies tree distance lower :=
  ⟨lies_of_mem_walk, fun ⟨_, lies⟩ => lies.mem_walk⟩

@[simp] theorem root_grow (levels : Nat) (start : TreeNode) :
    (grow lookup settings levels start).root = start := by
  cases levels with
  | zero => rfl
  | succ levels =>
      rw [grow]
      dsimp only
      split
      next => rfl
      next => rfl

theorem mem_growEach
    {build : TreeNode → Tree} {nodes : List TreeNode} {tree : Tree}
    (member : tree ∈ growEach build nodes) :
    ∃ node ∈ nodes, tree = build node := by
  induction nodes with
  | nil => cases member
  | cons first nodes ih =>
      rw [growEach] at member
      split at member
      next =>
        rw [List.mem_singleton] at member
        exact ⟨first, List.mem_cons_self, member⟩
      next =>
        rcases List.mem_cons.mp member with rfl | later
        · exact ⟨first, List.mem_cons_self, rfl⟩
        · obtain ⟨node, listed, same⟩ := ih later
          exact ⟨node, List.mem_cons_of_mem _ listed, same⟩

/-- Where the last of the trees has not failed, none has, and each node has
grown. -/
theorem mem_growEach_of_unfailed
    {build : TreeNode → Tree} {nodes : List TreeNode}
    (unfailed : (growEach build nodes).getLast?.bind failure = none)
    {node : TreeNode}
    (listed : node ∈ nodes) :
    build node ∈ growEach build nodes := by
  induction nodes with
  | nil => cases listed
  | cons first nodes ih =>
      rw [growEach] at unfailed ⊢
      split at unfailed
      next failed =>
        rw [List.getLast?_singleton, Option.bind_some] at unfailed
        rw [unfailed] at failed
        cases failed
      next succeeded =>
        rw [if_neg succeeded]
        rcases List.mem_cons.mp listed with rfl | later
        · exact List.mem_cons_self
        · apply List.mem_cons_of_mem
          apply ih _ later
          cases grown : growEach build nodes with
          | nil => rfl
          | cons second rest =>
              rw [grown, List.getLast?_cons_cons] at unfailed
              exact unfailed

/-- A tree with no level left has nothing below; with one left it has what grows
from the children of its root, or the failure of a pass. -/
theorem grow_succ_cases
    (lookup : Lookup) (settings : Settings) (levels : Nat) (start : TreeNode) :
    let tree := grow lookup settings (levels + 1) start
    (∃ nodes,
      (∀ child, child ∈ nodes ↔ Child lookup settings start child) ∧
        tree.children = growEach (grow lookup settings levels) nodes ∧
        tree.failure = tree.children.getLast?.bind failure) ∨
    (∃ failure pinned,
      tree.children = [] ∧
        tree.failure = some failure ∧
        (∀ entry ∈ pinned, entry ∈ start.pinned ∨ entry.2 ∈ lookup entry.1) ∧
        Scope.pass? ⟨lookup, pinned⟩ settings start.text = .error failure) := by
  dsimp only
  rw [grow]
  dsimp only
  rcases offspring_cases lookup settings start with
    ⟨nodes, made, each⟩ | ⟨failure, pinned, stopped, known, failed⟩
  · rw [made]
    exact .inl ⟨nodes, each, rfl, rfl⟩
  · rw [stopped]
    exact .inr ⟨failure, pinned, rfl, rfl, known, failed⟩

theorem grown_of_mem_children
    {levels : Nat} {start : TreeNode} {child : Tree}
    (member : child ∈ (grow lookup settings levels start).children) :
    ∃ left node,
      levels = left + 1 ∧
        Child lookup settings start node ∧
        child = grow lookup settings left node := by
  cases levels with
  | zero => cases member
  | succ left =>
      rcases grow_succ_cases lookup settings left start with
        ⟨nodes, each, children, _⟩ | ⟨_, _, none, _⟩
      · rw [children] at member
        obtain ⟨node, listed, rfl⟩ := mem_growEach member
        exact ⟨left, node, rfl, (each node).mp listed, rfl⟩
      · rw [none] at member
        cases member

/-- All that lies below a grown tree has grown itself, with as many levels less
as it is away. -/
theorem Lies.grown
    {tree lower : Tree} {distance : Nat}
    (lies : Lies tree distance lower)
    {levels : Nat} {start : TreeNode}
    (grown : tree = grow lookup settings levels start) :
    ∃ left node, levels = left + distance ∧
      lower = grow lookup settings left node := by
  induction lies generalizing levels start with
  | here tree => exact ⟨levels, start, rfl, grown⟩
  | @under tree child lower distance member _ ih =>
      rw [grown] at member
      obtain ⟨left, node, rfl, _, rfl⟩ := grown_of_mem_children member
      obtain ⟨left', node', rfl, rfl⟩ := ih rfl
      exact ⟨left', node', rfl, rfl⟩

/-- What holds of the root of a grown tree, and is handed down to the children
of a node, holds wherever something lies below. -/
theorem Lies.inherit
    {P : TreeNode → Nat → Prop}
    (step : ∀ parent distance child,
      Child lookup settings parent child → P parent distance →
        P child (distance + 1))
    {tree lower : Tree} {distance : Nat}
    (lies : Lies tree distance lower)
    {levels : Nat} {start : TreeNode}
    (grown : tree = grow lookup settings levels start)
    {before : Nat}
    (initial : P start before) :
    P lower.root (before + distance) := by
  induction lies generalizing levels start before with
  | here tree =>
      rw [grown, root_grow]
      exact initial
  | @under tree child lower distance member _ ih =>
      rw [grown] at member
      obtain ⟨left, node, rfl, below, rfl⟩ := grown_of_mem_children member
      rw [← Nat.add_assoc, Nat.add_right_comm]
      exact ih rfl (step _ _ _ below initial)

section Step

variable {parent child : TreeNode}

theorem Child.level_eq
    (below : Child lookup settings parent child) :
    child.level = parent.level + 1 := by
  cases below with
  | onward => rfl
  | branch => rfl

theorem Child.text_eq
    (below : Child lookup settings parent child) :
    ∃ pass,
      Scope.pass? ⟨lookup, child.pinned⟩ settings parent.text =
        .ok (some pass) ∧
        child.text = pass.text := by
  cases below with
  | @onward pass passed _ => exact ⟨pass, passed, rfl⟩
  | @branch _ pass _ _ _ _ _ _ passed => exact ⟨pass, passed, rfl⟩

theorem unpinned_of_branching?
    {names : List Text} {name : Text}
    (branches? : branching? lookup parent names = some name) :
    parent.pinned.lookup name = none := by
  have chosen := List.find?_some branches?
  rw [Bool.and_eq_true, Option.isNone_iff_eq_none] at chosen
  exact chosen.1

/-- A child has the definitions of its parent, and at most that of one more
name. -/
theorem Child.pinned_eq
    (below : Child lookup settings parent child) :
    (child.branch = none ∧ child.pinned = parent.pinned) ∨
    (∃ name index definition,
      child.branch = some (name, index) ∧
        parent.pinned.lookup name = none ∧
        (usable lookup name)[index]? = some definition ∧
        child.pinned = parent.pinned ++ [(name, definition)]) := by
  cases below with
  | onward => exact .inl ⟨rfl, rfl⟩
  | @branch _ _ name index definition _ branches? found _ =>
      exact .inr ⟨name, index, definition, rfl,
        unpinned_of_branching? branches?, found, rfl⟩

theorem Child.keep
    (below : Child lookup settings parent child)
    {name : Text} {definition : Definition}
    (pinned : parent.pinned.lookup name = some definition) :
    child.pinned.lookup name = some definition ∧ ∀ index, child.branch ≠
      some (name, index) := by
  rcases below.pinned_eq with
    ⟨alone, same⟩ | ⟨other, index, chosen, branches, free, _, same⟩
  · rw [same, alone]
    exact ⟨pinned, fun _ equal => nomatch equal⟩
  · constructor
    · rw [same, List.lookup_append, pinned]
      rfl
    · intro index' equal
      rw [branches] at equal
      cases equal
      rw [free] at pinned
      cases pinned

/-- The definitions pinned at a node are usable ones of their names. -/
def Pinnable (lookup : Lookup) (node : TreeNode) : Prop :=
  ∀ entry ∈ node.pinned, entry.2 ∈ usable lookup entry.1

theorem Child.pinnable
    (below : Child lookup settings parent child)
    (pinnable : Pinnable lookup parent) :
    Pinnable lookup child := by
  rcases below.pinned_eq with
    ⟨_, same⟩ | ⟨name, index, definition, _, _, found, same⟩
  · intro entry member
    rw [same] at member
    exact pinnable entry member
  · intro entry member
    rw [same] at member
    rcases List.mem_append.mp member with earlier | last
    · exact pinnable entry earlier
    · rw [List.mem_singleton.mp last]
      exact List.mem_of_getElem? found

end Step

/-- A growth that fails has failed in a pass, made with definitions from the
lookup. -/
theorem failure_grow
    {levels : Nat} {start : TreeNode}
    (pinnable : Pinnable lookup start)
    {failure : Failure}
    (failed : (grow lookup settings levels start).failure = some failure) :
    ∃ pinned text,
      (∀ entry ∈ pinned, entry.2 ∈ lookup entry.1) ∧
        Scope.pass? ⟨lookup, pinned⟩ settings text = .error failure := by
  induction levels generalizing start with
  | zero => cases failed
  | succ levels ih =>
      rcases grow_succ_cases lookup settings levels start with
        ⟨nodes, each, children, same⟩ | ⟨other, pinned, _, same, known, stopped⟩
      · rw [same, children] at failed
        obtain ⟨last, isLast, failed⟩ := Option.bind_eq_some_iff.mp failed
        obtain ⟨node, listed, rfl⟩ := mem_growEach (List.mem_of_getLast? isLast)
        exact ih (((each node).mp listed).pinnable pinnable) failed
      · rw [same] at failed
        cases failed
        refine ⟨pinned, start.text, ?_, stopped⟩
        intro entry member
        rcases known entry member with earlier | found
        · exact List.mem_of_mem_filter (pinnable entry earlier)
        · exact found

theorem failure_grow_of_clean
    (clean : ∀ name, ∀ definition ∈ lookup name, '\x00' ∉ definition.body)
    {levels : Nat} {start : TreeNode}
    (pinnable : Pinnable lookup start) :
    (grow lookup settings levels start).failure = none := by
  cases failed : (grow lookup settings levels start).failure with
  | none => rfl
  | some failure =>
      obtain ⟨pinned, text, known, stopped⟩ := failure_grow pinnable failed
      have cleanScope : Scope.Clean ⟨lookup, pinned⟩ :=
        Scope.clean_of_pinned clean fun entry member =>
          clean _ _ (known entry member)
      rw [Scope.pass?_eq_afterPass cleanScope] at stopped
      cases stopped

/-- What holds along the ways of a tree. -/
structure Sound (lookup : Lookup) (settings : Settings)
    (tree : Tree) : Prop where
  level : ∀ distance lower, Lies tree distance lower →
    lower.root.level = distance ∧ distance ≤ settings.maxDepth
  text : ∀ upper ∈ tree.walk, ∀ child ∈ upper.children, ∃ pass,
    Scope.pass? ⟨lookup, child.root.pinned⟩ settings upper.root.text =
      .ok (some pass) ∧
      child.root.text = pass.text
  context : ∀ upper ∈ tree.walk, ∀ child ∈ upper.children,
    (child.root.branch = none ∧ child.root.pinned = upper.root.pinned) ∨
    (∃ name index definition,
      child.root.branch = some (name, index) ∧
        upper.root.pinned.lookup name = none ∧
        (usable lookup name)[index]? = some definition ∧
        child.root.pinned = upper.root.pinned ++ [(name, definition)])
  kept : ∀ upper ∈ tree.walk, ∀ distance lower, Lies upper distance lower →
    ∀ name definition, upper.root.pinned.lookup name = some definition →
      lower.root.pinned.lookup name = some definition ∧
        (0 < distance → ∀ index, lower.root.branch ≠ some (name, index))
  pinned : ∀ lower ∈ tree.walk, ∀ name definition, (name, definition) ∈
    lower.root.pinned →
    definition ∈ lookup name ∧ definition.isMacro = true ∧
      definition.isUnbalanced = false
  safe : ∀ lower ∈ tree.walk, ∀ error, lower.failure ≠ some (.expansion error)

/-- A tree in which nothing is missing below a node above the last level. -/
def Complete (lookup : Lookup) (settings : Settings) (tree : Tree) : Prop :=
  ∀ upper ∈ tree.walk, upper.failure = none →
    upper.root.level < settings.maxDepth →
    ∀ node, Child lookup settings upper.root node → ∃ child ∈ upper.children,
      child.root = node

section Grown

variable {start : TreeNode} {levels : Nat}

/-- A tree that a walk meets has grown from what the root hands down. -/
theorem grown_of_mem_walk
    {lower : Tree}
    (origin : start.level = 0 ∧ start.pinned = [])
    (met : lower ∈ (grow lookup settings levels start).walk) :
    ∃ left node,
      lower = grow lookup settings left node ∧
        levels = left + node.level ∧
        Pinnable lookup node := by
  obtain ⟨distance, lies⟩ := (mem_walk_iff _ _).mp met
  obtain ⟨left, node, depth, rfl⟩ := lies.grown rfl
  have handed := lies.inherit
    (P := fun node distance => node.level = distance ∧ Pinnable lookup node)
    (fun parent distance child below ⟨level, pinnable⟩ =>
      ⟨by rw [below.level_eq, level], below.pinnable pinnable⟩)
    rfl ⟨origin.1, by simp [Pinnable, origin.2]⟩
  rw [root_grow, Nat.zero_add] at handed
  exact ⟨left, node, rfl, by rw [depth, handed.1], handed.2⟩

theorem level_of_lies
    {lower : Tree} {distance : Nat}
    (origin : start.level = 0 ∧ start.pinned = [])
    (lies : Lies (grow lookup settings levels start) distance lower) :
    lower.root.level = distance ∧ distance ≤ levels := by
  constructor
  · have handed := lies.inherit
      (P := fun node distance => node.level = distance)
      (fun parent distance child below level => by rw [below.level_eq, level])
      rfl origin.1
    rw [handed, Nat.zero_add]
  · obtain ⟨left, node, depth, _⟩ := lies.grown rfl
    omega

/-- A pinned definition stays, and its name has no branch on the way further
down. -/
theorem kept_of_lies
    {lower : Tree} {distance : Nat} {name : Text} {definition : Definition}
    (lies : Lies (grow lookup settings levels start) distance lower)
    (pinned : start.pinned.lookup name = some definition) :
    lower.root.pinned.lookup name = some definition ∧
      (0 < distance → ∀ index, lower.root.branch ≠ some (name, index)) := by
  have handed := lies.inherit
    (P := fun node distance =>
      node.pinned.lookup name = some definition ∧
        (0 < distance → ∀ index, node.branch ≠ some (name, index)))
    (fun parent distance child below ⟨kept, _⟩ =>
      ⟨(below.keep kept).1, fun _ => (below.keep kept).2⟩)
    rfl ⟨pinned, fun impossible => absurd impossible (Nat.lt_irrefl 0)⟩
  rw [Nat.zero_add] at handed
  exact handed

theorem sound_grow
    (origin : start.level = 0 ∧ start.pinned = [])
    (bounded : levels ≤ settings.maxDepth) :
    Sound lookup settings (grow lookup settings levels start) where
  level := by
    intro distance lower lies
    obtain ⟨level, within⟩ := level_of_lies origin lies
    exact ⟨level, within.trans bounded⟩
  text := by
    intro upper met child member
    obtain ⟨left, node, rfl, _⟩ := grown_of_mem_walk origin met
    obtain ⟨_, below, _, step, rfl⟩ := grown_of_mem_children member
    simpa only [root_grow] using step.text_eq
  context := by
    intro upper met child member
    obtain ⟨left, node, rfl, _⟩ := grown_of_mem_walk origin met
    obtain ⟨_, below, _, step, rfl⟩ := grown_of_mem_children member
    simpa only [root_grow] using step.pinned_eq
  kept := by
    intro upper met distance lower lies name definition pinned
    obtain ⟨left, node, rfl, _⟩ := grown_of_mem_walk origin met
    rw [root_grow] at pinned
    exact kept_of_lies lies pinned
  pinned := by
    intro lower met name definition member
    obtain ⟨left, node, rfl, _, pinnable⟩ := grown_of_mem_walk origin met
    rw [root_grow] at member
    obtain ⟨found, fit⟩ := List.mem_filter.mp (pinnable _ member)
    rw [Bool.and_eq_true, Bool.not_eq_true'] at fit
    exact ⟨found, fit⟩
  safe := by
    intro lower met error failed
    obtain ⟨left, node, rfl, _, pinnable⟩ := grown_of_mem_walk origin met
    obtain ⟨pinned, text, _, stopped⟩ := failure_grow pinnable failed
    obtain ⟨other, same⟩ := Scope.pass?_error stopped
    cases same

theorem complete_grow
    (origin : start.level = 0 ∧ start.pinned = []) :
    Complete lookup settings
      (grow lookup settings settings.maxDepth start) := by
  intro upper met unfailed above node below
  obtain ⟨left, parent, rfl, depth, _⟩ := grown_of_mem_walk origin met
  rw [root_grow] at above below
  cases left with
  | zero => omega
  | succ left =>
      rcases grow_succ_cases lookup settings left parent with
        ⟨nodes, each, children, same⟩ | ⟨failure, _, _, failed, _⟩
      · rw [children] at same ⊢
        rw [same] at unfailed
        exact ⟨_, mem_growEach_of_unfailed unfailed ((each node).mpr below),
          root_grow _ _⟩
      · rw [failed] at unfailed
        cases unfailed

end Grown

end Tree

namespace ExpansionTree

open MacroTrace.Tree

/-- The tree of a use shows its expansion.  It can be made, and is walked
without a failure, for all definitions with no null character; and whatever the
definitions are, it is sound, no expansion fails on the way, and nothing that a
pass can reach is missing. -/
theorem ofUse_sound (lookup : Lookup) (settings : Settings) (use : Use) :
    ((∀ name, ∀ definition ∈ lookup name, '\x00' ∉ definition.body) →
      ∃ expansion,
        ExpansionTree.ofUse lookup settings use = .ok expansion ∧
          ∀ lower ∈ expansion.tree.walk, lower.failure = none) ∧
    ∀ expansion, ExpansionTree.ofUse lookup settings use = .ok expansion →
      expansion.tree.root = ⟨use.spelling, 0, none, []⟩ ∧
        Sound lookup settings expansion.tree ∧
        (expansion.error.isSome → expansion.tree.children = []) ∧
        (expansion.error = none → Complete lookup settings expansion.tree) := by
  have origin : (⟨use.spelling, 0, none, []⟩ : TreeNode).level = 0 ∧
      (⟨use.spelling, 0, none, []⟩ : TreeNode).pinned = [] := ⟨rfl, rfl⟩
  constructor
  · intro clean
    obtain ⟨expansion, expanded⟩ := Expansion.ofUse_isOk
      (Scope.clean_of_pinned clean (fun _ member => nomatch member))
      settings use
    refine ⟨_, by rw [ExpansionTree.ofUse, expanded]; rfl, ?_⟩
    intro lower met
    obtain ⟨left, node, rfl, _, pinnable⟩ := grown_of_mem_walk origin met
    exact failure_grow_of_clean clean pinnable
  · intro expansion made
    cases expanded : Expansion.ofUse lookup settings use with
    | error error =>
        rw [ExpansionTree.ofUse, expanded] at made
        cases made
    | ok result =>
        rw [ExpansionTree.ofUse, expanded] at made
        cases made
        refine ⟨root_grow _ _, sound_grow origin ?_, ?_, ?_⟩
        · split <;> simp
        · intro failed
          dsimp only at failed ⊢
          rw [if_pos failed]
          rfl
        · intro succeeded
          dsimp only at succeeded ⊢
          rw [succeeded]
          exact complete_grow origin

/-- A macro with two definitions that comes up again below the branch. -/
def picking : Snapshot where
  definitions := [
    ⟨"PICK".toList, some ["x".toList], "V + x".toList, "a.h", 1, true⟩,
    ⟨"USE".toList, none, "PICK(V)".toList, "a.h", 2, true⟩,
    ⟨"V".toList, none, "1".toList, "a.h", 3, true⟩,
    ⟨"V".toList, none, "2".toList, "b.h", 1, true⟩]

theorem ofUse_sound_picking :
    (∀ name, ∀ definition ∈ picking.lookup name, '\x00' ∉ definition.body) ∧
    ∃ expansion,
      ExpansionTree.ofUse picking.lookup .default ⟨"USE".toList, none⟩ =
        .ok expansion ∧
        (let second := expansion.tree.children.flatMap children
        second.map (·.root.label) =
            ["PICK(1) [V def 1]".toList, "PICK(2) [V def 2]".toList] ∧
          ((second.flatMap children).flatMap children).map (·.root.label) =
            ["1 + 1".toList, "2 + 2".toList]) ∧
        Sound picking.lookup .default expansion.tree ∧
        Complete picking.lookup .default expansion.tree := by
  have clean : ∀ name, ∀ definition ∈ picking.lookup name,
      '\x00' ∉ definition.body := by
    intro name definition member
    have all : ∀ definition ∈ picking.definitions,
        '\x00' ∉ definition.body := by decide
    exact all definition (List.mem_of_mem_filter member)
  have labels :
      (ExpansionTree.ofUse picking.lookup .default ⟨"USE".toList, none⟩).map
        (fun expansion =>
          let second := expansion.tree.children.flatMap children
        (expansion.error, second.map (·.root.label),
          ((second.flatMap children).flatMap children).map (·.root.label))) =
        .ok (none, ["PICK(1) [V def 1]".toList, "PICK(2) [V def 2]".toList],
          ["1 + 1".toList, "2 + 2".toList]) := by
    decide +kernel
  obtain ⟨made, every⟩ :=
    ofUse_sound picking.lookup .default ⟨"USE".toList, none⟩
  obtain ⟨expansion, found, _⟩ := made clean
  obtain ⟨_, sound, _, complete⟩ := every expansion found
  rw [found] at labels
  obtain ⟨unfailed, shown⟩ := Prod.mk.inj (Except.ok.inj labels)
  obtain ⟨second, last⟩ := Prod.mk.inj shown
  exact ⟨clean, expansion, found, ⟨second, last⟩, sound, complete unfailed⟩

end ExpansionTree

end MacroTrace
