-- SUMMARY: How words and scalars are spelled as symbols of a message, with bytes as the symbols when the program runs.
import CurvePartition.Scalar

/-!
# Messages and their symbols

A message is a list of symbols and carries no header: reader and writer agree on what it holds. An unsigned word of
a given width is spelled with as many symbols as its width, a scalar always with `Wire.scalarWidth` symbols. The
program runs with bytes, least significant first. Exact numbers do not fit into bytes, which is why
the symbols are a parameter.
-/

namespace CurvePartition

/-- A message between two ranks. -/
abbrev Message (β : Type) := List β

/-- Spelling of words and of scalars of type `α` with symbols of type `β`. -/
class Wire (α : Type) (β : outParam Type) where
  /-- An unsigned word of the given width. -/
  spellWord : Nat → Nat → List β
  readWord : List β → Nat
  spellScalar : α → List β
  readScalar : List β → α

namespace Wire

variable {α β : Type} [Wire α β]

/-- Symbols of a scalar. -/
def scalarWidth : Nat := 8

/-- Symbols of a count or another 64 bit word. -/
def wordWidth : Nat := 8

/-- The first `count` pieces of `width` symbols. -/
def chunks (width : Nat) : Nat → List β → List (List β)
  | 0, _ => []
  | count + 1, symbols => symbols.take width :: chunks width count (symbols.drop width)

end Wire

/-! ## Bytes -/

namespace Bytes

/-- The lowest `width` bytes of a number, least significant first. -/
def ofNat : Nat → Nat → List UInt8
  | 0, _ => []
  | width + 1, n => UInt8.ofNat (n % 256) :: ofNat width (n / 256)

/-- The number with the given bytes, least significant first. -/
def toNat : List UInt8 → Nat
  | [] => 0
  | b :: rest => b.toNat + 256 * toNat rest

@[simp] theorem length_ofNat (width n : Nat) : (ofNat width n).length = width := by
  induction width generalizing n with
  | zero => rfl
  | succ w ih => simp [ofNat, ih]

theorem toNat_ofNat {width n : Nat} (h : n < 256 ^ width) : toNat (ofNat width n) = n := by
  induction width generalizing n with
  | zero => simp only [Nat.pow_zero] at h; simp only [ofNat, toNat]; omega
  | succ w ih =>
    have hlt : n / 256 < 256 ^ w := by rw [Nat.pow_succ] at h; omega
    simp only [ofNat, toNat, ih hlt, UInt8.toNat_ofNat']
    omega

end Bytes

instance : Wire Float UInt8 where
  spellWord := Bytes.ofNat
  readWord := Bytes.toNat
  spellScalar x := Bytes.ofNat Wire.scalarWidth x.toBits.toNat
  readScalar bytes := Float.ofBits (UInt64.ofNat (Bytes.toNat bytes))

end CurvePartition
