-- SUMMARY: Which leaves are halos: search radii on the leaves of the global tree, the test whether a leaf reaches a key range, and the searches for received and for sent leaves.
import CurvePartition.Focus.Basic
import CurvePartition.Octree.Fold

/-!
# Halo search

Each leaf of the global tree has a search radius. A leaf *reaches* a key range if some leaf inside the range is as
close as the larger of the two radii. The leaves of other ranks that reach the keys of a rank are its halos.

The receiving rank looks for halos among the leaves of its focus tree, the sending rank among its own leaves of
the global tree. Both skip a node that is farther from the keys of the receiver than the largest radius,
and both ask `HaloSearch.reaches` about each leaf that is left, so they find the same leaves.
-/

namespace CurvePartition

/-- The global tree with the search radii of its leaves. -/
structure HaloSearch (depth : Nat) (α : Type) where
  octree : Octree depth
  box : Box α
  curve : Curve
  /-- Radius of each leaf. -/
  radii : Array α
  /-- Largest radius of a leaf below each node. -/
  nodeRadii : Array α

namespace HaloSearch

variable {depth : Nat} {α : Type} [Scalar α]

/-- The search with the given radii. -/
def make (octree : Octree depth) (radii : Array α) (box : Box α) (curve : Curve) : HaloSearch depth α :=
  ⟨octree, box, curve, radii, octree.upsweep Scalar.max 0 radii⟩

/-- Largest radius of all leaves. -/
def maxRadius (s : HaloSearch depth α) : α := s.nodeRadii.getD 0 0

/-- Radius of a leaf. -/
def radius (s : HaloSearch depth α) (leaf : Nat) : α := s.radii.getD leaf 0

/-- The leaf that is a given node, if it is one. -/
def globalLeaf (s : HaloSearch depth α) (n : Node) : Option Nat := do
  s.octree.leaf? (← s.octree.locate n)

/-- The region of a node. -/
def bounds (s : HaloSearch depth α) (n : Node) : Bounds α := s.box.nodeBounds depth s.curve n

/-- Whether a leaf lies within the larger of two radii, its own and that of the other leaf, of a leaf inside
`target`, a key range that starts and ends on boundaries. -/
def reaches (s : HaloSearch depth α) (leaf : Nat) (target : KeyRange) : Bool :=
  let bounds := s.bounds (s.octree.node (s.octree.leafNode leaf))
  let own := s.radius leaf
  s.octree.anyLeaf fun i =>
    (s.octree.range i).overlaps target &&
      !(Scalar.max own (s.nodeRadii.getD i 0) < s.box.distance bounds (s.bounds (s.octree.node i)))

/-- Whether a node may hold halos of a region: it is not farther away than the largest radius. -/
def mayHoldHalos (s : HaloSearch depth α) (region : List (Bounds α)) (n : Node) : Bool :=
  !(s.maxRadius < s.box.distanceToAny (s.bounds n) region)

/-- Leaves of a focus tree that its rank receives as halos, in key order. -/
def received (s : HaloSearch depth α) (focus : Focus depth α) : List Nat :=
  let region := s.box.rangeBounds depth s.curve focus.own
  let nodes := focus.octree.leavesWhere fun i =>
    !(focus.octree.range i).within focus.own && s.mayHoldHalos region (focus.octree.node i)
  nodes.filterMap fun i => do
    let leaf ← s.globalLeaf (focus.octree.node i)
    if s.reaches leaf focus.own then focus.octree.leaf? i else none

/-- Leaves of the global tree inside `own` that are halos of the rank with the keys `peer`, in key order. -/
def sent (s : HaloSearch depth α) (own peer : KeyRange) : List Nat :=
  let region := s.box.rangeBounds depth s.curve peer
  let nodes := s.octree.leavesWhere fun i =>
    (s.octree.range i).overlaps own && s.mayHoldHalos region (s.octree.node i)
  (nodes.filterMap s.octree.leaf?).filter fun leaf => s.reaches leaf peer

end HaloSearch

end CurvePartition
