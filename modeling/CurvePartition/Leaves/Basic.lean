-- SUMMARY: Octrees as the ascending boundaries of their leaves: access to leaves, the validity check, look-up of keys and counts per leaf.
import CurvePartition.Backend
import CurvePartition.Key.Basic
import CurvePartition.Sorted.Bins

/-!
# Leaves of an octree

The leaves of an octree, in key order, tile the keys from zero up to the bound. `Leaves` holds their starts and,
as last entry, the bound. Leaf `i` is the key range from boundary `i` to boundary `i + 1`; its length
tells its level. `Leaves.isValid` checks that the array belongs to an octree: it starts at zero, ends at the
bound, and each range in between is a node.
-/

namespace CurvePartition

/-- The boundaries of the leaves of an octree. -/
structure Leaves (depth : Nat) where
  bounds : Array Nat
  deriving DecidableEq, Repr

namespace Leaves

variable {depth : Nat}

/-- The tree whose only leaf is the root. -/
def root : Leaves depth := ⟨#[0, Key.bound depth]⟩

/-- The tree whose leaves are all the nodes of a level. -/
def uniform (level : Nat) : Leaves depth :=
  ⟨(Array.range (8 ^ level + 1)).map (· * Key.extent depth level)⟩

/-- Number of leaves. -/
def count (t : Leaves depth) : Nat := t.bounds.size - 1

/-- First key of a leaf, or the bound behind the last leaf. -/
def start (t : Leaves depth) (i : Nat) : Nat := t.bounds.getD i 0

/-- The keys of a leaf. -/
def range (t : Leaves depth) (i : Nat) : KeyRange := ⟨t.start i, t.start (i + 1)⟩

/-- Level of a leaf. -/
def level (t : Leaves depth) (i : Nat) : Nat := Key.levelOf depth (t.start (i + 1) - t.start i)

/-- Levels of all leaves. -/
def levels (t : Leaves depth) : List Nat := (List.range t.count).map t.level

/-- A leaf as a node. -/
def node (t : Leaves depth) (i : Nat) : Node := ⟨t.start i, t.level i⟩

/-- Whether the keys from `first` up to `last` are a node. -/
def isNodeRange (depth first last : Nat) : Bool :=
  let level := Key.levelOf depth (last - first)
  first < last && Key.extent depth level == last - first && Key.isAligned depth level first

/-- Whether the boundaries are those of an octree. -/
def isValid (t : Leaves depth) : Bool :=
  2 ≤ t.bounds.size && t.start 0 == 0 && t.start t.count == Key.bound depth &&
    (List.range t.count).all fun i => isNodeRange depth (t.start i) (t.start (i + 1))

/-- The leaf that holds a key. -/
def find (t : Leaves depth) (key : Nat) : Nat := Sorted.upperBound t.bounds key - 1

/-- The first leaf that starts at or after a key. -/
def firstFrom (t : Leaves depth) (key : Nat) : Nat := Sorted.lowerBound t.bounds key

/-- Positions of the ascending `keys` that lie in a leaf. -/
def slice (t : Leaves depth) (keys : Array Nat) (i : Nat) : Nat × Nat :=
  (Sorted.lowerBound keys (t.start i), Sorted.lowerBound keys (t.start (i + 1)))

/-- Number of ascending `keys` in each leaf. -/
def counts (backend : Backend) (t : Leaves depth) (keys : Array Nat) : Array Nat :=
  backend.mapIndices t.count fun i =>
    let (first, last) := t.slice keys i
    last - first

/-- Index of the first leaf and one past the last leaf inside a key range that starts and ends on boundaries. -/
def leavesIn (t : Leaves depth) (r : KeyRange) : Nat × Nat := (t.firstFrom r.first, t.firstFrom r.last)

@[simp] theorem count_root : (root : Leaves depth).count = 1 := rfl

@[simp] theorem size_counts (backend : Backend) (t : Leaves depth) (keys : Array Nat) :
    (t.counts backend keys).size = t.count := by
  simp [counts, Backend.mapIndices]

end Leaves

end CurvePartition
