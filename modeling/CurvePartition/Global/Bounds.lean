-- SUMMARY: The box that holds the particles of all ranks: bounds of open axes from one reduction over all ranks.
import CurvePartition.Cluster.Attempt
import CurvePartition.Space.Box

/-!
# The global box

Bounds of open axes follow the particles of all ranks. A rank contributes its largest coordinates and its smallest ones
with the sign changed, so that one maximum reduction finds both. A rank without particles contributes the
smallest number there is: if it comes back, no rank has a particle, and the axis keeps its bounds. An axis on which
all particles share a coordinate is widened, so that it keeps a length.
-/

namespace CurvePartition

namespace Global

variable {α β : Type} [Scalar α]

/-- What a rank contributes: negated smallest, then largest coordinates of the axes. -/
def extrema (backend : Backend) (coordinates : Triple (Array α)) : List α :=
  let extents := (coordinates.map backend.extent).toList
  extents.map (fun e => (e.map fun (lo, _) => -lo).getD Scalar.lowest) ++
    extents.map (fun e => (e.map fun (_, hi) => hi).getD Scalar.lowest)

/-- Upper bound of an axis whose coordinates lie between `lo` and `hi`. -/
def widened (lo hi : α) : α :=
  if lo < hi then hi else lo + Scalar.max (Scalar.abs lo) 1 * Scalar.decimal 9

/-- The box with the bounds of one axis taken from what all ranks contributed. -/
def fitAxis (old : Box α) (all : List α) (box : Box α) (a : Axis) : Except (Error α) (Box α) :=
  match old.boundaries.get a with
  | .unbounded =>
    let lo := -(all.getD a.index 0)
    let hi := all.getD (3 + a.index) 0
    if hi < lo then .ok box else box.withBounds a lo (widened lo hi)
  | .periodic | .fixed => .ok box

/-- The box of the particles of all ranks. -/
def boundingBox (backend : Backend) (coordinates : Triple (Array α)) (old : Box α) : Attempt α β (Box α) := do
  let all ← Attempt.exchange (Exchange.reduceScalars .max (extrema backend coordinates))
  Attempt.ofExcept (Axis.all.foldlM (fitAxis old all) old)

end Global

end CurvePartition
