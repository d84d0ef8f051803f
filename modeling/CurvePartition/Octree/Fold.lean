-- SUMMARY: Values carried up an octree from its leaves, and searches that descend only into nodes that pass a test.
import CurvePartition.Octree.Basic

/-!
# Folds and searches over an octree

`Octree.upsweep` gives each inner node the combination of its eight children's values in key order. Children stand
behind their parent in the table, so one pass from the end meets them first.

A search starts at the root and descends into the nodes that pass a test. `Octree.leavesWhere` lists the leaves it
arrives at in key order, and `Octree.anyLeaf` says whether there is one. A path from the root has at most
`depth + 1` nodes, which bounds the recursion.
-/

namespace CurvePartition

namespace Octree

variable {depth : Nat} {τ : Type}

/-- The value of an inner node, from the values of its children. -/
def combineChildren (combine : τ → τ → τ) (blank : τ) (values : Array τ) (firstChild : Nat) : τ :=
  (List.range 7).foldl (fun acc k => combine acc (values.getD (firstChild + 1 + k) blank))
    (values.getD firstChild blank)

/-- One value per node: that of its leaf, or else the combination of its children's values. -/
def upsweep (o : Octree depth) (combine : τ → τ → τ) (blank : τ) (leafValues : Array τ) : Array τ :=
  let atLeaves := (Array.range o.size).map fun i => ((o.leaf? i).map (leafValues.getD · blank)).getD blank
  (List.range o.size).foldr (fun i values =>
    match o.firstChild? i with
    | none => values
    | some first => values.setIfInBounds i (combineChildren combine blank values first)) atLeaves

/-- Leaves below a node that a search arrives at, in key order. -/
def leavesBelow (o : Octree depth) (enter : Nat → Bool) : Nat → Nat → List Nat
  | 0, _ => []
  | fuel + 1, i =>
    if enter i then
      if o.isLeaf i then [i] else (o.children i).flatMap (leavesBelow o enter fuel)
    else []

/-- Nodes of the leaves that a search arrives at, in key order. -/
def leavesWhere (o : Octree depth) (enter : Nat → Bool) : List Nat := o.leavesBelow enter (depth + 1) 0

/-- Whether a search arrives at a leaf below a node. -/
def anyBelow (o : Octree depth) (enter : Nat → Bool) : Nat → Nat → Bool
  | 0, _ => false
  | fuel + 1, i => enter i && (o.isLeaf i || (o.children i).any (anyBelow o enter fuel))

/-- Whether a search arrives at a leaf. -/
def anyLeaf (o : Octree depth) (enter : Nat → Bool) : Bool := o.anyBelow enter (depth + 1) 0

theorem anyBelow_eq (o : Octree depth) (enter : Nat → Bool) (fuel i : Nat) :
    o.anyBelow enter fuel i = !(o.leavesBelow enter fuel i).isEmpty := by
  induction fuel generalizing i with
  | zero => rfl
  | succ fuel ih =>
    simp only [anyBelow, leavesBelow]
    cases enter i with
    | false => simp
    | true =>
      cases o.isLeaf i with
      | true => simp
      | false =>
        simp only [Bool.true_and, Bool.false_or, if_true, Bool.false_eq_true, if_false]
        induction o.children i with
        | nil => rfl
        | cons c rest ihc =>
          simp only [List.any_cons, List.flatMap_cons, ihc, ih c]
          cases o.leavesBelow enter fuel c <;> simp

theorem anyLeaf_eq (o : Octree depth) (enter : Nat → Bool) :
    o.anyLeaf enter = !(o.leavesWhere enter).isEmpty :=
  o.anyBelow_eq enter (depth + 1) 0

end Octree

end CurvePartition
