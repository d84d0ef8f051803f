-- SUMMARY: Distances in a box: the short way between two points around periodic axes, and the least distance of two regions.
import CurvePartition.Space.Box
import CurvePartition.Key.Cover

/-!
# Distances

Around a periodic axis the difference of two points is reduced by whole lengths to the nearest one. For two
regions `Box.gap` is the room between their projections on one axis, and around a periodic axis the least room to
one of three images of the second region. The distance of regions never grows when a region grows.
-/

namespace CurvePartition

variable {α : Type} [Scalar α]

namespace Box

/-- Shortest difference `q - p` on one axis. -/
def difference (b : Box α) (a : Axis) (p q : α) : α :=
  let d := q - p
  match b.boundaries.get a with
  | .periodic =>
    let length := b.length a
    d - length * Scalar.round (d / length)
  | .unbounded | .fixed => d

/-- Shortest difference `q - p` of two positions. -/
def differences (b : Box α) (p q : Triple α) : Triple α :=
  .ofFn fun a => b.difference a (p.get a) (q.get a)

/-- Distance of two positions. -/
def pointDistance (b : Box α) (p q : Triple α) : α :=
  let d := b.differences p q
  Scalar.sqrt (0 + d.x * d.x + d.y * d.y + d.z * d.z)

/-- Room between two intervals, zero if they meet. -/
@[inline] def room (lo hi lo' hi' : α) : α :=
  Scalar.max (Scalar.max (lo - hi') (lo' - hi)) 0

/-- Room between the projections of two regions on one axis, also to the images of the second one. -/
def gap (b : Box α) (r s : Bounds α) (a : Axis) : α :=
  let lo := r.lo.get a
  let hi := r.hi.get a
  let lo' := s.lo.get a
  let hi' := s.hi.get a
  let direct := room lo hi lo' hi'
  match b.boundaries.get a with
  | .periodic =>
    let length := b.length a
    Scalar.min (Scalar.min direct (room lo hi (lo' - length) (hi' - length)))
      (room lo hi (lo' + length) (hi' + length))
  | .unbounded | .fixed => direct

/-- Least distance of two regions. -/
def distance (b : Box α) (r s : Bounds α) : α :=
  let gx := b.gap r s .x
  let gy := b.gap r s .y
  let gz := b.gap r s .z
  Scalar.sqrt (0 + gx * gx + gy * gy + gz * gz)

/-- Least distance of a region to one of several. -/
def distanceToAny (b : Box α) (r : Bounds α) (region : List (Bounds α)) : α :=
  region.foldl (fun least s => Scalar.min least (b.distance r s)) Scalar.infinity

/-- The regions of the nodes that cover a key range. -/
def rangeBounds (b : Box α) (depth : Nat) (curve : Curve) (r : KeyRange) : List (Bounds α) :=
  (Key.cover depth r.first r.last).map (b.nodeBounds depth curve)

end Box

end CurvePartition
