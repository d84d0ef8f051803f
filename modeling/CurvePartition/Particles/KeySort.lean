-- SUMMARY: Stable sorting of particles by key, with every column moved by the same permutation.
import CurvePartition.Particles.Basic

/-!
# Sorting by key

`KeySort.order` is the permutation that sorts keys and keeps the order of equal ones. Columns of another length than
the keys are found before anything is moved.
-/

namespace CurvePartition

namespace KeySort

variable {α : Type} [Scalar α]

/-- Whether keys ascend. -/
def isSorted (keys : Array Nat) : Bool :=
  (List.range (keys.size - 1)).all fun i => keys.getD i 0 ≤ keys.getD (i + 1) 0

/-- The positions of the keys in ascending order of the keys, equal ones in ascending order. -/
def order (keys : Array Nat) : Array Nat :=
  ((List.range keys.size).mergeSort fun i j => keys.getD i 0 ≤ keys.getD j 0).toArray

/-- The first column whose length is not that of the keys, with its position. -/
def misfit (size : Nat) (columns : List (Column α)) : Option (Nat × Nat) :=
  (columns.zipIdx.find? fun (c, _) => c.size ≠ size).map fun (c, i) => (i, c.size)

/-- Sorted keys, columns moved along, and the permutation that was applied. -/
def byKeys (backend : Backend) (keys : Array Nat) (columns : List (Column α)) :
    Except (Error α) (Array Nat × List (Column α) × Array Nat) :=
  match misfit keys.size columns with
  | some (i, found) => .error (.lengthMismatch s!"array {i}" keys.size found)
  | none =>
    let order := order keys
    .ok (backend.gather 0 keys order, columns.map (Column.reorder backend order), order)

end KeySort

namespace ParticleSet

variable {width : KeyWidth} {α : Type} [Scalar α]

/-- The rows sorted by key. -/
def sort (backend : Backend) (p : ParticleSet width α) : Except (Error α) (ParticleSet width α) := do
  let (keys, columns, _) ← KeySort.byKeys backend p.keys p.dataColumns
  return { p with keys }.withDataColumns columns

end ParticleSet

end CurvePartition
