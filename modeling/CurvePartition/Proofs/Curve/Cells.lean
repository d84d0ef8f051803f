-- SUMMARY: Cells of a curve: coordinates and keys are inverse, keys of one node have coordinates in one grid box, and nodes inside each other have grid boxes inside each other.
import CurvePartition.Curve.Basic
import CurvePartition.Proofs.Curve.Hilbert
import CurvePartition.Proofs.Key.Cells

/-!
# Cells of a curve

The higher bits of coordinates depend only on the higher digits of the key, on both curves. So keys of one octree node
are cells of one grid box, and a node inside another one has its grid box inside that of the other.
-/

namespace CurvePartition

open Key

/-! ## Interleaved bits -/

namespace Triple

/-- The place of an axis in a digit. -/
def place : Axis → Nat
  | .x => 2
  | .y => 1
  | .z => 0

theorem testBit_deinterleave (n k : Nat) (a : Axis) (i : Nat) :
    ((deinterleave n k).get a).testBit i = (decide (i < n) && k.testBit (3 * i + place a)) := by
  induction n generalizing k i with
  | zero => cases a <;> simp [deinterleave, get]
  | succ n ih =>
    cases i with
    | zero =>
      have hodd : ∀ c d : Nat, (2 * c + d % 2) % 2 = d % 2 := by omega
      cases a <;>
        simp only [deinterleave, get, place, Nat.testBit_eq_decide_div_mod_eq, Nat.pow_zero, Nat.div_one, hodd,
          Nat.zero_lt_succ, decide_true, Bool.true_and, Nat.mul_zero, Nat.zero_add, Nat.reducePow]
    | succ i =>
      have hnext : ((deinterleave (n + 1) k).get a).testBit (i + 1) = ((deinterleave n (k / 8)).get a).testBit i := by
        rw [Nat.testBit_succ]
        congr 1
        cases a <;> simp only [deinterleave, get] <;> omega
      rw [hnext, ih, show 3 * (i + 1) + place a = 3 * i + place a + 3 by omega, show (8 : Nat) = 2 ^ 3 by rfl,
        Nat.testBit_div_two_pow]
      simp

/-- Keys of a coarser grid have its coordinates. -/
theorem deinterleave_lt_of_lt {n d k : Nat} (h : k < 8 ^ d) (a : Axis) : (deinterleave n k).get a < 2 ^ d := by
  refine Nat.lt_pow_two_of_testBit _ fun i hi => ?_
  have hk : k < 2 ^ (3 * i + place a) := by
    refine Nat.lt_of_lt_of_le h ?_
    rw [show (8 : Nat) = 2 ^ 3 by rfl, ← Nat.pow_mul]
    exact Nat.pow_le_pow_right (by decide) (by omega)
  rw [testBit_deinterleave, Nat.testBit_lt_two_pow hk, Bool.and_false]

/-- Keys with the same higher digits have coordinates with the same higher bits. -/
theorem agree_deinterleave {m k k' : Nat} (h : k / 8 ^ m = k' / 8 ^ m) (n : Nat) :
    (deinterleave n k).Agree m (deinterleave n k') := by
  intro a i hi
  have hbit : ∀ key : Nat, key.testBit (3 * i + place a) = (key / 8 ^ m).testBit (3 * (i - m) + place a) := by
    intro key
    rw [show (8 : Nat) ^ m = 2 ^ (3 * m) by rw [Nat.pow_mul], Nat.testBit_div_two_pow]
    congr 1
    omega
  rw [testBit_deinterleave, testBit_deinterleave, hbit k, hbit k', h]

theorem interleave_lt_of_lt {n d : Nat} {c : Triple Nat} (h : ∀ a, c.get a < 2 ^ d) : interleave n c < 8 ^ d := by
  induction d generalizing n c with
  | zero =>
    have hzero : ∀ n, interleave n ⟨0, 0, 0⟩ = 0 := by
      intro n
      induction n with
      | zero => rfl
      | succ n ih => simp [interleave, lowDigit, map, ih]
    have hc : c = ⟨0, 0, 0⟩ := ext_get fun a => (Nat.lt_one_iff.1 (h a)).trans (by cases a <;> rfl)
    simp [hc, hzero]
  | succ d ih =>
    cases n with
    | zero => exact Nat.pow_pos (by decide)
    | succ n =>
      have hhalf : ∀ a, (c.map (· / 2)).get a < 2 ^ d := by
        intro a
        have := h a
        rw [Nat.pow_succ] at this
        rw [get_map]
        omega
      have hlow := c.lowDigit_lt
      have hrest := ih (n := n) hhalf
      rw [interleave, Nat.pow_succ]
      omega

end Triple

/-! ## Keys and cells -/

/-- Keys of each width can number the cells of their grid. -/
theorem KeyWidth.depth_le (width : KeyWidth) : width.depth ≤ Curve.coordinateBits := by
  cases width <;> decide

namespace Curve

open Triple

variable {depth : Nat} (curve : Curve)

/-- Decoding undoes encoding on a grid that keys can number. -/
theorem decode_encode (hdepth : depth ≤ coordinateBits) {c : Triple Nat} (h : ∀ a, c.get a < 2 ^ depth) :
    curve.decode depth (curve.encode depth c) = c := by
  have hbits : ∀ {c : Triple Nat}, (∀ a, c.get a < 2 ^ depth) → ∀ a, c.get a < 2 ^ coordinateBits := fun hc a =>
    Nat.lt_of_lt_of_le (hc a) (Nat.pow_le_pow_right (by decide) hdepth)
  cases curve with
  | morton => exact deinterleave_interleave (hbits h)
  | hilbert =>
    rw [decode, encode, deinterleave_interleave (hbits (Hilbert.straighten_lt h)), Hilbert.curl_straighten h]

theorem encode_lt {c : Triple Nat} (h : ∀ a, c.get a < 2 ^ depth) : curve.encode depth c < bound depth := by
  cases curve with
  | morton => exact interleave_lt_of_lt h
  | hilbert => exact interleave_lt_of_lt (Hilbert.straighten_lt h)

/-- Encoding undoes decoding of the keys of a grid that keys can number. -/
theorem encode_decode (hdepth : depth ≤ coordinateBits) {k : Nat} (h : k < Key.bound depth) :
    curve.encode depth (curve.decode depth k) = k := by
  have hk : k < 8 ^ coordinateBits := Nat.lt_of_lt_of_le h (Nat.pow_le_pow_right (by decide) hdepth)
  cases curve with
  | morton => exact interleave_deinterleave hk
  | hilbert =>
    have hgrid : ∀ a, (deinterleave coordinateBits k).get a < 2 ^ depth := deinterleave_lt_of_lt h
    rw [decode, encode, Hilbert.straighten_curl hgrid, interleave_deinterleave hk]

theorem decode_lt {k : Nat} (h : k < Key.bound depth) (a : Axis) : (curve.decode depth k).get a < 2 ^ depth := by
  cases curve with
  | morton => exact deinterleave_lt_of_lt h a
  | hilbert => exact Hilbert.curl_lt (fun a => deinterleave_lt_of_lt h a) a

/-- Keys with the same higher digits are cells with the same higher bits. -/
theorem agree_decode {m k k' : Nat} (h : k / 8 ^ m = k' / 8 ^ m) :
    (curve.decode depth k).Agree m (curve.decode depth k') := by
  cases curve with
  | morton => exact agree_deinterleave h _
  | hilbert => exact Hilbert.agree_curl (agree_deinterleave h _)

/-- The grid box of a node inside another one lies in the grid box of the other. -/
theorem box_inside {m n : Node} (hn : n.IsCell depth) (h : m.Inside depth n) (a : Axis) :
    (curve.box depth n).lo.get a ≤ (curve.box depth m).lo.get a ∧
      (curve.box depth m).hi.get a ≤ (curve.box depth n).hi.get a := by
  have hdigits : m.first / 8 ^ (depth - n.level) = n.first / 8 ^ (depth - n.level) := by
    have hanchor : anchor depth n.level m.first = n.first := anchor_eq hn.aligned h.2.1 h.2.2
    rw [← hanchor]
    exact (Nat.mul_div_cancel _ (extent_pos depth n.level)).symm
  have hcell : (curve.decode depth m.first).get a / _ = (curve.decode depth n.first).get a / _ :=
    (curve.agree_decode hdigits).div_eq a
  obtain ⟨t, ht⟩ : 2 ^ (depth - m.level) ∣ 2 ^ (depth - n.level) := Nat.pow_dvd_pow 2 (Nat.sub_le_sub_left h.1 depth)
  have hpos : 0 < t := Nat.pos_of_ne_zero fun hzero => by
    have := Nat.two_pow_pos (depth - n.level)
    rw [ht, hzero] at this
    exact Nat.lt_irrefl 0 this
  simp only [box, get_map]
  generalize (curve.decode depth m.first).get a = c at hcell ⊢
  rw [← hcell, ht, ← Nat.div_div_eq_div_mul]
  generalize 2 ^ (depth - m.level) = s
  generalize c / s = q
  -- In units of the inner size the outer box starts at the multiple of `t` below `q`.
  have hlo : q / t * (s * t) = q / t * t * s := by rw [Nat.mul_comm s t, Nat.mul_assoc]
  have hstep : q + 1 ≤ q / t * t + t := Nat.lt_div_mul_add hpos
  refine ⟨hlo ▸ Nat.mul_le_mul_right s (Nat.div_mul_le_self q t), ?_⟩
  calc q * s + s = (q + 1) * s := (Nat.succ_mul q s).symm
    _ ≤ (q / t * t + t) * s := Nat.mul_le_mul_right s hstep
    _ = q / t * (s * t) + s * t := by rw [Nat.add_mul, hlo, Nat.mul_comm t s]

/-- The box of a node ends behind its start. -/
theorem box_lo_le_hi (depth : Nat) (n : Node) (a : Axis) :
    (curve.box depth n).lo.get a ≤ (curve.box depth n).hi.get a := by
  simp only [box, Triple.get_map]
  exact Nat.le_add_right _ _

/-- A cell is in the grid box of the nodes that hold its key. -/
theorem holds_box {n : Node} (hn : n.IsCell depth) {k : Nat} (hk : k ∈ n.range depth) :
    (curve.box depth n).Holds (curve.decode depth k) := by
  intro a
  have hin := curve.box_inside (m := ⟨k, depth⟩) hn ⟨hn.level_le, hk⟩ a
  simp only [box, Nat.sub_self, Nat.pow_zero, Nat.div_one, Nat.mul_one, get_map] at hin ⊢
  exact hin

end Curve

end CurvePartition
