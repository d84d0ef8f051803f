-- SUMMARY: Where a rank needs the full resolution of the global tree: near its own region, and where a node appears under a large angle.
import CurvePartition.Space.Distance

/-!
# The resolution criterion

A rank needs the leaves of the global tree within the halo radius of its own region. Farther away a node may stay
unresolved as long as it appears small: its distance times the opening angle exceeds its longest edge. The
distance grows and the edge shrinks from a node to its descendants, so a node that needs no resolution has no
descendant that does.
-/

namespace CurvePartition

/-- What decides where a rank needs resolution. -/
structure Criterion (α : Type) where
  box : Box α
  curve : Curve
  /-- Regions of the nodes that cover the rank's own keys. -/
  region : List (Bounds α)
  /-- Halo radius. -/
  radius : α
  /-- Opening angle. -/
  theta : α

namespace Criterion

variable {α : Type} [Scalar α]

/-- Whether a node has to be resolved down to the leaves of the global tree. -/
def needsResolution (c : Criterion α) (depth : Nat) (n : Node) : Bool :=
  let bounds := c.box.nodeBounds depth c.curve n
  let distance := c.box.distanceToAny bounds c.region
  distance ≤ c.radius || distance * c.theta ≤ bounds.edgeLength

end Criterion

end CurvePartition
