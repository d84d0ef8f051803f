-- SUMMARY: Contiguous ranges of leaves and keys for each rank, cut where the particle counts come closest to equal shares.
import CurvePartition.Leaves.Basic
import CurvePartition.Error.Basic

/-!
# Assignment of leaves to ranks

Ranks receive contiguous ranges of leaves in key order. The ideal cut before rank `r` of `R` has
`total * r / R` particles to its left. `Assignment.cutNear` takes the leaf boundary that comes closest to it, the
earlier one of two that are equally close; the cut is then moved as far as needed to leave every rank a leaf.
-/

namespace CurvePartition

/-- The leaves and keys of each rank. -/
structure Assignment (depth : Nat) where
  /-- First leaf of each rank, and the number of leaves. -/
  leafOffsets : Array Nat
  /-- First key of each rank, and the bound. -/
  keys : Array Nat
  /-- Particles of each rank. -/
  counts : Array Nat
  deriving DecidableEq, Repr

namespace Assignment

variable {depth : Nat}

/-- The boundary whose sum of counts to the left is closest to `target`. -/
def cutNear (sums : Array Nat) (target : Nat) : Nat :=
  let after := Sorted.lowerBound sums target
  if 0 < after ∧ target - sums.getD (after - 1) 0 ≤ sums.getD after 0 - target then after - 1 else after

/-- Cuts before the ranks `rank`, `rank + 1`, …, the previous cut being `previous`; `left` of them remain. -/
def cutsFrom (sums : Array Nat) (total leaves ranks : Nat) : Nat → Nat → Nat → List Nat
  | 0, _, _ => []
  | left + 1, rank, previous =>
    let ideal := cutNear sums (total * rank / ranks)
    let cut := min (max ideal (previous + 1)) (leaves - (ranks - rank))
    cut :: cutsFrom sums total leaves ranks left (rank + 1) cut

/-- First leaf of each rank, and the number of leaves. -/
def cuts (sums : Array Nat) (leaves ranks : Nat) : List Nat :=
  0 :: cutsFrom sums (sums.getD leaves 0) leaves ranks (ranks - 1) 1 0 ++ [leaves]

/-- The assignment of the leaves of a tree with the given counts. -/
def compute {α : Type} (t : Leaves depth) (counts : Array Nat) (ranks : Nat) :
    Except (Error α) (Assignment depth) :=
  if ranks = 0 ∨ t.count < ranks then .error (.tooFewLeaves ranks t.count)
  else
    let sums := Sorted.runningSums counts
    let offsets := (cuts sums t.count ranks).toArray
    .ok {
      leafOffsets := offsets
      keys := offsets.map t.start
      counts := (Array.range ranks).map fun r =>
        sums.getD (offsets.getD (r + 1) 0) 0 - sums.getD (offsets.getD r 0) 0 }

/-- Number of ranks. -/
def ranks (a : Assignment depth) : Nat := a.counts.size

/-- First leaf of a rank and one past its last leaf. -/
def leafRange (a : Assignment depth) (rank : Nat) : Nat × Nat :=
  (a.leafOffsets.getD rank 0, a.leafOffsets.getD (rank + 1) 0)

/-- Number of leaves of a rank. -/
def leafCount (a : Assignment depth) (rank : Nat) : Nat := (a.leafRange rank).2 - (a.leafRange rank).1

/-- Keys of a rank. -/
def keyRange (a : Assignment depth) (rank : Nat) : KeyRange :=
  ⟨a.keys.getD rank 0, a.keys.getD (rank + 1) 0⟩

/-- Particles of a rank. -/
def particles (a : Assignment depth) (rank : Nat) : Nat := a.counts.getD rank 0

/-- Particles of all ranks. -/
def total (a : Assignment depth) : Nat := a.counts.toList.sum

/-- First key of each rank. -/
def startKeys (a : Assignment depth) : List Nat := a.keys.toList.take a.ranks

/-- The rank that holds a key. -/
def rankOf (a : Assignment depth) (key : Nat) : Nat :=
  min (Sorted.upperBound a.keys key - 1) (a.ranks - 1)

end Assignment

end CurvePartition
