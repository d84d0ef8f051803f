-- SUMMARY: The node table of an octree: all nodes by level and key, with their parents, children and leaves, and the look-up of a node.
import CurvePartition.Leaves.Basic

/-!
# Node tables

`Octree.ofLeaves` lists every node of an octree, coarsest level first and by key within a level. A node is on the
list if it is a leaf or if a finer leaf starts with it. Equal levels are adjacent, so a node is found by binary
search within its level, and so are its parent and its first child; the eight children of a node stand next
to each other.
-/

namespace CurvePartition

/-- An octree with all its nodes. -/
structure Octree (depth : Nat) where
  /-- Nodes by level, then by key. -/
  nodes : Array Node
  /-- Position of the first node of each level, and one past the last node. -/
  levelStarts : Array Nat
  /-- Leaf of each node that is a leaf. -/
  leafOf : Array (Option Nat)
  /-- Position of the node of each leaf. -/
  nodeOf : Array Nat
  parents : Array (Option Nat)
  firstChildren : Array (Option Nat)
  deriving Repr

namespace Octree

variable {depth : Nat}

/-- Nodes of a level, each with its leaf if it is one. -/
def levelNodes (t : Leaves depth) (level : Nat) : List (Node × Option Nat) :=
  (List.range t.count).filterMap fun i =>
    if t.level i = level then some (t.node i, some i)
    else if level < t.level i ∧ Key.isAligned depth level (t.start i) then some (⟨t.start i, level⟩, none)
    else none

/-- Position of the first node of `level` that starts at or after a key. -/
def slot (nodes : Array Node) (levelStarts : Array Nat) (level key : Nat) : Nat :=
  Sorted.boundary (fun i => (nodes.getD i Node.root).first < key)
    (levelStarts.getD level 0) (levelStarts.getD (level + 1) 0)

/-- The node table of the tree with the given leaves. -/
def ofLeaves (t : Leaves depth) : Octree depth :=
  let byLevel := (List.range (depth + 1)).map (levelNodes t)
  let entries := byLevel.flatten.toArray
  let nodes := entries.map (·.1)
  let levelStarts := Sorted.runningSums (byLevel.map List.length).toArray
  let slot := slot nodes levelStarts
  { nodes
    levelStarts
    leafOf := entries.map (·.2)
    nodeOf := (Array.range t.count).map fun i => slot (t.level i) (t.start i)
    parents := nodes.map fun n =>
      if n.level = 0 then none else some (slot (n.level - 1) (Key.anchor depth (n.level - 1) n.first))
    firstChildren := entries.map fun (n, leaf) =>
      if leaf.isSome then none else some (slot (n.level + 1) n.first) }

/-- Number of nodes. -/
def size (o : Octree depth) : Nat := o.nodes.size

/-- Number of leaves. -/
def leafCount (o : Octree depth) : Nat := o.nodeOf.size

/-- Number of nodes with children. -/
def innerCount (o : Octree depth) : Nat := o.size - o.leafCount

/-- A node by its position. -/
def node (o : Octree depth) (i : Nat) : Node := o.nodes.getD i Node.root

/-- Keys of a node. -/
def range (o : Octree depth) (i : Nat) : KeyRange := (o.node i).range depth

/-- Parent of a node, none for the root. -/
def parent? (o : Octree depth) (i : Nat) : Option Nat := o.parents.getD i none

/-- First child of a node, none for a leaf. -/
def firstChild? (o : Octree depth) (i : Nat) : Option Nat := o.firstChildren.getD i none

/-- Children of a node in key order, none for a leaf. -/
def children (o : Octree depth) (i : Nat) : List Nat :=
  match o.firstChild? i with
  | none => []
  | some first => (List.range 8).map (first + ·)

/-- Whether a node is a leaf. -/
def isLeaf (o : Octree depth) (i : Nat) : Bool := (o.firstChild? i).isNone

/-- Leaf of a node, if it is one. -/
def leaf? (o : Octree depth) (i : Nat) : Option Nat := o.leafOf.getD i none

/-- Node of a leaf. -/
def leafNode (o : Octree depth) (leaf : Nat) : Nat := o.nodeOf.getD leaf 0

/-- Positions of the nodes of a level: the first one and one past the last one. -/
def levelRange (o : Octree depth) (level : Nat) : Nat × Nat :=
  (o.levelStarts.getD level 0, o.levelStarts.getD (level + 1) 0)

/-- Position of a node. -/
def locate (o : Octree depth) (n : Node) : Option Nat :=
  if depth < n.level then none
  else
    let i := slot o.nodes o.levelStarts n.level n.first
    if i < (o.levelRange n.level).2 ∧ (o.node i).first = n.first then some i else none

end Octree

end CurvePartition
