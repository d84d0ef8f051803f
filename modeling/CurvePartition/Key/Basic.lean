-- SUMMARY: Keys along a space-filling curve: their widths, the aligned key ranges of octree nodes, levels, octants and key ranges.
import CurvePartition.Naturals

/-!
# Keys

A key numbers a cell of the finest grid along a curve. A grid of depth `d` has `8 ^ d` cells; the octal
digits of a key, most significant first, choose one of eight octants on each level from the root down.

A node of level `l` is the range of `extent d l` keys that share their first `l` digits. It starts at a
multiple of its length, which is what `isAligned` tests.
-/

namespace CurvePartition

/-- How many bits a key has: three for each level. -/
inductive KeyWidth where
  /-- Keys of 32 bits. -/
  | narrow
  /-- Keys of 64 bits. -/
  | wide
  deriving DecidableEq, Repr

namespace KeyWidth

/-- Deepest level that keys of this width resolve. -/
def depth : KeyWidth → Nat
  | narrow => 10
  | wide => 21

/-- Bytes of a key in a message. -/
def bytes : KeyWidth → Nat
  | narrow => 4
  | wide => 8

end KeyWidth

namespace Key

/-- Number of keys in a node of `level`. -/
def extent (depth level : Nat) : Nat := 8 ^ (depth - level)

/-- One past the largest key. -/
def bound (depth : Nat) : Nat := extent depth 0

/-- Level of the node with `range` keys. -/
def levelOf (depth range : Nat) : Nat := depth - Nat.log2 range / 3

/-- The digit of a key that chooses its octant on `level`, counted from one. -/
def octant (depth level key : Nat) : Nat := key / extent depth level % 8

/-- Whether a key is the first of a node on `level`. -/
def isAligned (depth level key : Nat) : Bool := key % extent depth level == 0

/-- First key of the node on `level` that holds `key`. -/
def anchor (depth level key : Nat) : Nat := key / extent depth level * extent depth level

theorem extent_pos (depth level : Nat) : 0 < extent depth level :=
  Nat.pow_pos (by decide)

theorem bound_pos (depth : Nat) : 0 < bound depth := extent_pos depth 0

@[simp] theorem extent_self (depth : Nat) : extent depth depth = 1 := by
  simp [extent]

/-- A node holds eight nodes of the next level. -/
theorem extent_eq_mul {depth level : Nat} (h : level < depth) :
    extent depth level = 8 * extent depth (level + 1) := by
  have : depth - level = depth - (level + 1) + 1 := by omega
  simp only [extent, this, Nat.pow_succ]
  exact Nat.mul_comm _ _

/-- Finer nodes divide coarser ones. -/
theorem extent_dvd {depth l m : Nat} (h : l ≤ m) : extent depth m ∣ extent depth l :=
  Nat.pow_dvd_pow 8 (by omega)

theorem levelOf_extent {depth level : Nat} (h : level ≤ depth) :
    levelOf depth (extent depth level) = level := by
  have hpow : extent depth level = 2 ^ (3 * (depth - level)) := by
    rw [extent, Nat.pow_mul]
  rw [levelOf, hpow, Nat.log2_two_pow]
  omega

theorem anchor_le (depth level key : Nat) : anchor depth level key ≤ key :=
  Nat.div_mul_le_self _ _

theorem lt_anchor_add_extent (depth level key : Nat) :
    key < anchor depth level key + extent depth level := by
  have := Nat.lt_div_mul_add (a := key) (extent_pos depth level)
  simpa [anchor] using this

end Key

/-- The keys from `first` up to but not including `last`. -/
structure KeyRange where
  first : Nat
  last : Nat
  deriving DecidableEq, Repr

namespace KeyRange

/-- Whether every key of `r` could lie in `s`: neither end of `r` is outside. -/
def within (r s : KeyRange) : Bool := s.first ≤ r.first && r.last ≤ s.last

/-- Whether two ranges overlap. -/
def overlaps (r s : KeyRange) : Bool := r.first < s.last && s.first < r.last

instance : Membership Nat KeyRange := ⟨fun r k => r.first ≤ k ∧ k < r.last⟩

instance (k : Nat) (r : KeyRange) : Decidable (k ∈ r) := inferInstanceAs (Decidable (r.first ≤ k ∧ k < r.last))

theorem mem_iff {k : Nat} {r : KeyRange} : k ∈ r ↔ r.first ≤ k ∧ k < r.last := Iff.rfl

theorem mem_of_within {r s : KeyRange} (h : r.within s = true) {k : Nat} (hk : k ∈ r) : k ∈ s := by
  simp only [within, Bool.and_eq_true, decide_eq_true_eq] at h
  simp only [mem_iff] at hk ⊢
  omega

end KeyRange

/-- An octree node, named by its first key and its level. -/
structure Node where
  first : Nat
  level : Nat
  deriving DecidableEq, Repr

namespace Node

/-- The keys of a node. -/
def range (depth : Nat) (n : Node) : KeyRange := ⟨n.first, n.first + Key.extent depth n.level⟩

/-- The node of the whole grid. -/
def root : Node := ⟨0, 0⟩

/-- The child in an octant. -/
def child (depth : Nat) (n : Node) (octant : Nat) : Node :=
  ⟨n.first + octant * Key.extent depth (n.level + 1), n.level + 1⟩

end Node

end CurvePartition
