-- SUMMARY: The box that particles live in: boundary kinds per axis, wrapping and checking of positions, grid coordinates and the physical bounds of grid boxes.
import CurvePartition.Curve.Basic
import CurvePartition.Error.Basic

/-!
# Boxes

A box has bounds and a boundary kind on each axis. An open axis follows the particles, a periodic axis repeats
with its length, a fixed axis may not be left. `Box.normalize` maps a position into the box,
`Box.gridCoordinates` finds its cell of the finest grid, and `Box.bounds` goes back from cells to space.
-/

namespace CurvePartition

/-- What happens at the two ends of an axis. -/
inductive Boundary where
  /-- The bounds follow the particles. -/
  | unbounded
  /-- Positions repeat with the length of the axis. -/
  | periodic
  /-- Positions stay between the bounds. -/
  | fixed
  deriving DecidableEq, Repr, Inhabited

/-- An axis aligned region of space. -/
structure Bounds (α : Type) where
  lo : Triple α
  hi : Triple α
  deriving Repr

/-- The box of a simulation. -/
structure Box (α : Type) where
  lo : Triple α
  hi : Triple α
  boundaries : Triple Boundary
  deriving Repr

variable {α : Type} [Scalar α]

/-- Longest edge. -/
def Bounds.edgeLength (b : Bounds α) : α :=
  Scalar.max (Scalar.max (Scalar.max 0 (b.hi.x - b.lo.x)) (b.hi.y - b.lo.y)) (b.hi.z - b.lo.z)

namespace Box

/-- The open unit cube. -/
def unit : Box α := ⟨.replicate 0, .replicate 1, .replicate .unbounded⟩

/-- Whether an axis has finite bounds in order. -/
def isValidAxis (b : Box α) (a : Axis) : Bool :=
  Scalar.isFinite (b.lo.get a) && Scalar.isFinite (b.hi.get a) && b.lo.get a < b.hi.get a

/-- Every axis has finite bounds in order. -/
def Valid (b : Box α) : Prop := ∀ a, b.isValidAxis a = true

/-- The first axis that is not valid is the cause of failure. -/
def check (b : Box α) : Except (Error α) Unit :=
  match Axis.all.find? fun a => !b.isValidAxis a with
  | some a => .error (.invalidBox a.index (b.lo.get a) (b.hi.get a))
  | none => .ok ()

/-- A box with valid bounds. -/
def make (lo hi : Triple α) (boundaries : Triple Boundary) : Except (Error α) (Box α) := do
  let b : Box α := ⟨lo, hi, boundaries⟩
  b.check
  return b

/-- The same bounds and boundary kind on every axis. -/
def cube (lo hi : α) (boundary : Boundary) : Except (Error α) (Box α) :=
  make (.replicate lo) (.replicate hi) (.replicate boundary)

/-- Length of an axis. -/
@[inline] def length (b : Box α) (a : Axis) : α := b.hi.get a - b.lo.get a

/-- Lengths of the axes. -/
def lengths (b : Box α) : Triple α := .ofFn b.length

/-- Other bounds on one axis. -/
def withBounds (b : Box α) (a : Axis) (lo hi : α) : Except (Error α) (Box α) :=
  make (b.lo.set a lo) (b.hi.set a hi) b.boundaries

theorem check_eq_ok_iff (b : Box α) : b.check = .ok () ↔ b.Valid := by
  unfold check Valid
  cases h : Axis.all.find? fun a => !b.isValidAxis a with
  | none =>
    simp only [true_iff]
    intro a
    simpa using List.find?_eq_none.1 h a a.mem_all
  | some a =>
    have := List.find?_some h
    simp only [reduceCtorEq, false_iff]
    intro hv
    simp [hv a] at this

/-! ## Positions -/

/-- A coordinate moved into a periodic axis by whole lengths. -/
def wrapPeriodic (lo hi value : α) : α :=
  let length := hi - lo
  let wrapped := value - length * Scalar.floor ((value - lo) / length)
  if hi ≤ wrapped then lo else wrapped

/-- A coordinate mapped into its axis: wrapped, checked or left alone as the boundary demands. -/
def normalizeAxis (b : Box α) (a : Axis) (value : α) : Except (Error α) α :=
  let lo := b.lo.get a
  let hi := b.hi.get a
  if !Scalar.isFinite value then .error (.outOfBounds a.index value lo hi)
  else match b.boundaries.get a with
    | .unbounded => .ok value
    | .periodic => .ok (wrapPeriodic lo hi value)
    | .fixed => if lo ≤ value ∧ value ≤ hi then .ok value else .error (.outOfBounds a.index value lo hi)

/-- A position mapped into the box. -/
def normalize (b : Box α) (p : Triple α) : Except (Error α) (Triple α) := do
  let x ← b.normalizeAxis .x p.x
  let y ← b.normalizeAxis .y p.y
  let z ← b.normalizeAxis .z p.z
  return ⟨x, y, z⟩

/-! ## The finest grid -/

/-- Cells of the finest grid along an axis. -/
def cells (depth : Nat) : α := Scalar.ofNat (2 ^ depth)

/-- Cell of a coordinate along an axis. Coordinates beyond the bounds fall into the first or last cell. -/
def gridCoordinate (depth : Nat) (lo hi value : α) : Nat :=
  let scaled := (value - lo) / (hi - lo) * cells depth
  if scaled ≤ 0 then 0 else min (Scalar.wholePart scaled) (2 ^ depth - 1)

/-- Cell of the finest grid that holds a position. -/
def gridCoordinates (b : Box α) (depth : Nat) (p : Triple α) : Triple Nat :=
  .ofFn fun a => gridCoordinate depth (b.lo.get a) (b.hi.get a) (p.get a)

/-- Key of a position. -/
def encode (b : Box α) (depth : Nat) (curve : Curve) (p : Triple α) : Nat :=
  curve.encode depth (b.gridCoordinates depth p)

/-- The region that a box of grid cells fills. -/
def bounds (b : Box α) (depth : Nat) (g : GridBox) : Bounds α :=
  let unit (a : Axis) : α := b.length a / cells depth
  ⟨.ofFn fun a => b.lo.get a + Scalar.ofNat (g.lo.get a) * unit a,
   .ofFn fun a => b.lo.get a + Scalar.ofNat (g.hi.get a) * unit a⟩

/-- The region of an octree node. -/
def nodeBounds (b : Box α) (depth : Nat) (curve : Curve) (n : Node) : Bounds α :=
  b.bounds depth (curve.box depth n)

theorem gridCoordinate_lt (depth : Nat) (lo hi value : α) : gridCoordinate depth lo hi value < 2 ^ depth := by
  have := Nat.two_pow_pos depth
  simp only [gridCoordinate]
  split <;> omega

end Box

end CurvePartition
