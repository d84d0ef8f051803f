-- SUMMARY: Half open ranges of array indices.
import CurvePartition.Naturals

/-!
# Index ranges

Rows of particles are selected by ranges of indices. `IndexRange.toList` is the selection that a range stands for.
-/

namespace CurvePartition

/-- The indices from `start` up to but not including `stop`. -/
structure IndexRange where
  start : Nat
  stop : Nat
  deriving DecidableEq, Repr

namespace IndexRange

/-- Number of indices. -/
def length (r : IndexRange) : Nat := r.stop - r.start

/-- The indices in order. -/
def toList (r : IndexRange) : List Nat := (List.range r.length).map (r.start + ·)

@[simp] theorem length_toList (r : IndexRange) : r.toList.length = r.length := by simp [toList]

end IndexRange

end CurvePartition
