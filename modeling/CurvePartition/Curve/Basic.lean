-- SUMMARY: The two space-filling curves: keys of grid coordinates, coordinates of keys, and the grid box of an octree node.
import CurvePartition.Key.Basic
import CurvePartition.Curve.Hilbert

/-!
# Curves

A curve numbers the cells of the finest grid so that the cells of an octree node are one aligned range of
keys. `Curve.encode` gives the number of a cell, `Curve.decode` the cell with a number and `Curve.box` the
box of cells that a node fills.
-/

namespace CurvePartition

/-- A half open box of grid cells. -/
structure GridBox where
  lo : Triple Nat
  hi : Triple Nat
  deriving DecidableEq, Repr

namespace GridBox

/-- Whether a cell lies in the box. -/
def Holds (b : GridBox) (c : Triple Nat) : Prop := ∀ a, b.lo.get a ≤ c.get a ∧ c.get a < b.hi.get a

end GridBox

/-- A space-filling curve. -/
inductive Curve where
  /-- Octants in the order of their interleaved bits. -/
  | morton
  /-- Neighbouring keys are neighbouring cells. -/
  | hilbert
  deriving DecidableEq, Repr, Inhabited

namespace Curve

/-- Bits that a key holds for each axis, on every depth. -/
def coordinateBits : Nat := 21

/-- Key of a cell of the finest grid. -/
def encode (curve : Curve) (depth : Nat) (c : Triple Nat) : Nat :=
  match curve with
  | morton => c.interleave coordinateBits
  | hilbert => (Hilbert.straighten depth c).interleave coordinateBits

/-- Cell of the finest grid with a key. -/
def decode (curve : Curve) (depth key : Nat) : Triple Nat :=
  match curve with
  | morton => Triple.deinterleave coordinateBits key
  | hilbert => Hilbert.curl depth (Triple.deinterleave coordinateBits key)

/-- The cells of a node. -/
def box (curve : Curve) (depth : Nat) (n : Node) : GridBox :=
  let size := 2 ^ (depth - n.level)
  let lo := (curve.decode depth n.first).map fun c => c / size * size
  ⟨lo, lo.map (· + size)⟩

end Curve

end CurvePartition
