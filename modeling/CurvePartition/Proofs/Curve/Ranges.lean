-- SUMMARY: The grid box of an aligned node holds the cells with keys in the node's range, so boxes are subdivided, nested and kept apart as key ranges are.
import CurvePartition.Proofs.Curve.Codecs

/-!
# Key ranges and grid boxes

A grid box of an octree node is an interval of length `2 ^ m` on each axis, and the node's key range an interval of length
`8 ^ m`. Both start at multiples of their lengths, so a cell is in the box if its higher bits are those of the node's first
cell, and in the range if the higher digits of its key are those of the node's first key. Both codecs keep the higher bits apart
from the lower ones, so the two come to the same (`Curve.holds_box_iff`), and what is true of key ranges is true of boxes
(`Curve.boxes_are_ranges`).
-/

namespace CurvePartition

open Key Node

/-! ## Ranges and the keys in them -/

namespace KeyRange

variable {r s : KeyRange}

/-- A range that holds a key lies in another one if all its keys do. -/
theorem within_iff (h : r.first < r.last) : r.within s = true ↔ ∀ k ∈ r, k ∈ s := by
  constructor
  · exact fun hwithin k hk => mem_of_within hwithin hk
  · intro hall
    have hfirst := hall r.first ⟨Nat.le_refl _, h⟩
    have hlast := hall (r.last - 1) ⟨Nat.le_sub_one_of_lt h, Nat.sub_one_lt_of_lt h⟩
    simp only [mem_iff] at hfirst hlast
    simp only [within, Bool.and_eq_true, decide_eq_true_eq]
    omega

/-- Two ranges that hold keys overlap if they share one. -/
theorem overlaps_iff (hr : r.first < r.last) (hs : s.first < s.last) :
    r.overlaps s = true ↔ ∃ k, k ∈ r ∧ k ∈ s := by
  simp only [overlaps, Bool.and_eq_true, decide_eq_true_eq, mem_iff]
  constructor
  · exact fun hover => ⟨max r.first s.first, by omega, by omega⟩
  · rintro ⟨k, hkr, hks⟩
    omega

end KeyRange

namespace Node

variable {depth k : Nat} {n : Node}

/-- A key is in the range of an aligned node if its higher digits are those of the first key. -/
theorem mem_range_iff_div (h : extent depth n.level ∣ n.first) :
    k ∈ n.range depth ↔ k / extent depth n.level = n.first / extent depth n.level := by
  constructor
  · rintro ⟨hle, hlt⟩
    have hanchor : anchor depth n.level k = n.first := anchor_eq h hle hlt
    rw [← hanchor, anchor, Nat.mul_div_cancel _ (extent_pos depth n.level)]
  · intro hdiv
    have hanchor : anchor depth n.level k = n.first := by rw [anchor, hdiv, Nat.div_mul_cancel h]
    have hmem : anchor depth n.level k ≤ k ∧ k < anchor depth n.level k + extent depth n.level :=
      ⟨anchor_le depth n.level k, lt_anchor_add_extent depth n.level k⟩
    rwa [hanchor] at hmem

/-- The keys of a cell that has octants are those of its octants. -/
theorem mem_range_iff_child (hlt : n.level < depth) :
    k ∈ n.range depth ↔ ∃ octant < 8, k ∈ (n.child depth octant).range depth := by
  constructor
  · exact fun hk => exists_child_of_mem hlt hk
  · rintro ⟨octant, ho, hfirst, hstop⟩
    have hin := child_inside hlt ho
    refine ⟨Nat.le_trans hin.2.1 hfirst, Nat.lt_of_lt_of_le hstop ?_⟩
    rw [range_last, range_last, child_stop, stop, extent_eq_mul hlt]
    exact Nat.add_le_add_left (Nat.mul_le_mul_right _ ho) _

/-- Different octants share no key. -/
theorem child_inj_of_mem (hn : n.IsCell depth) (hlt : n.level < depth) {o o' : Nat} (ho : o < 8) (ho' : o' < 8)
    (hk : k ∈ (n.child depth o).range depth) (hk' : k ∈ (n.child depth o').range depth) : o = o' := by
  have hc := hn.child hlt ho
  have hc' := hn.child hlt ho'
  have heq : n.child depth o = n.child depth o' :=
    (inside_of_mem hc hc' (Nat.le_refl _) hk hk').eq_of_level hc hc' rfl
  have hfirst : n.first + o * extent depth (n.level + 1) = n.first + o' * extent depth (n.level + 1) :=
    congrArg Node.first heq
  exact Nat.eq_of_mul_eq_mul_right (extent_pos depth _) (Nat.add_left_cancel hfirst)

end Node

/-! ## Boxes and higher bits -/

namespace Triple

variable {m : Nat} {c c' : Triple Nat}

theorem agree_iff_div_eq : c.Agree m c' ↔ ∀ a, c.get a / 2 ^ m = c'.get a / 2 ^ m := by
  refine ⟨Agree.div_eq, fun h a i hi => ?_⟩
  have hbit : ∀ v : Nat, v.testBit i = (v / 2 ^ m).testBit (i - m) := by
    intro v
    rw [Nat.testBit_div_two_pow, Nat.sub_add_cancel hi]
  rw [hbit, hbit (c'.get a), h a]

/-- Coordinates with the same higher bits have keys with the same higher digits. -/
theorem interleave_div_eq (h : c.Agree m c') (n : Nat) : interleave n c / 8 ^ m = interleave n c' / 8 ^ m := by
  refine Nat.eq_of_testBit_eq fun j => ?_
  obtain ⟨a, ha⟩ := exists_place j
  have hbit : ∀ c : Triple Nat, (interleave n c / 8 ^ m).testBit j =
      (decide (j / 3 + m < n) && (c.get a).testBit (j / 3 + m)) := by
    intro c
    rw [← testBit_interleave, show (8 : Nat) ^ m = 2 ^ (3 * m) by rw [Nat.pow_mul], Nat.testBit_div_two_pow]
    congr 1
    omega
  rw [hbit, hbit, h a _ (Nat.le_add_left m _)]

end Triple

namespace Curve

open Triple

variable {depth : Nat} (curve : Curve) {n : Node} {c c' : Triple Nat}

/-- Cells with the same higher bits have keys with the same higher digits. -/
theorem encode_div_eq {m : Nat} (h : c.Agree m c') :
    curve.encode depth c / 8 ^ m = curve.encode depth c' / 8 ^ m := by
  cases curve with
  | morton => exact interleave_div_eq h _
  | hilbert => exact interleave_div_eq (Hilbert.agree_straighten h) _

/-- A cell is in the box of a node if its higher bits are those of the node's first cell. -/
theorem holds_box_iff_agree (n : Node) (c : Triple Nat) :
    (curve.box depth n).Holds c ↔ c.Agree (depth - n.level) (curve.decode depth n.first) := by
  rw [agree_iff_div_eq]
  refine forall_congr' fun a => ?_
  simp only [box, get_map]
  rw [Nat.div_eq_iff (Nat.two_pow_pos _), Nat.le_sub_one_iff_lt (Nat.add_pos_right _ (Nat.two_pow_pos _))]

/-- The box of a node lies in the grid. -/
theorem lt_of_holds_box (hn : n.IsCell depth) (h : (curve.box depth n).Holds c) (a : Axis) : c.get a < 2 ^ depth := by
  refine Nat.lt_pow_two_of_testBit _ fun i hi => ?_
  rw [(curve.holds_box_iff_agree n c).1 h a i (Nat.le_trans (Nat.sub_le _ _) hi)]
  exact testBit_of_le (curve.decode_lt hn.first_lt) hi a

/-- A cell of the grid is in the box of a node if its key is in the node's range. -/
theorem holds_box_iff (hdepth : depth ≤ coordinateBits) (hn : n.IsCell depth) (hc : ∀ a, c.get a < 2 ^ depth) :
    (curve.box depth n).Holds c ↔ curve.encode depth c ∈ n.range depth := by
  constructor
  · intro h
    rw [mem_range_iff_div hn.aligned]
    have hdigits : curve.encode depth c / 8 ^ (depth - n.level) = _ :=
      curve.encode_div_eq ((curve.holds_box_iff_agree n c).1 h)
    rwa [curve.encode_decode hdepth hn.first_lt] at hdigits
  · intro hk
    have h := curve.holds_box hn hk
    rwa [curve.decode_encode hdepth hc] at h

/-- A node's range holds the keys of the cells in its box. -/
theorem mem_range_iff_holds_box (hdepth : depth ≤ coordinateBits) (hn : n.IsCell depth) {k : Nat}
    (hk : k < Key.bound depth) : k ∈ n.range depth ↔ (curve.box depth n).Holds (curve.decode depth k) := by
  rw [curve.holds_box_iff hdepth hn (curve.decode_lt hk), curve.encode_decode hdepth hk]

/-! ## Subdivision and nesting -/

section Grid

variable (hdepth : depth ≤ coordinateBits)
include hdepth

/-- The box of a node is made of the boxes of its octants. -/
theorem holds_box_iff_child (hn : n.IsCell depth) (hlt : n.level < depth) (c : Triple Nat) :
    (curve.box depth n).Holds c ↔ ∃ octant < 8, (curve.box depth (n.child depth octant)).Holds c := by
  constructor
  · intro h
    have hc := curve.lt_of_holds_box hn h
    obtain ⟨octant, ho, hk⟩ := (mem_range_iff_child hlt).1 ((curve.holds_box_iff hdepth hn hc).1 h)
    exact ⟨octant, ho, (curve.holds_box_iff hdepth (hn.child hlt ho) hc).2 hk⟩
  · rintro ⟨octant, ho, h⟩
    have hc := curve.lt_of_holds_box (hn.child hlt ho) h
    have hk := (curve.holds_box_iff hdepth (hn.child hlt ho) hc).1 h
    exact (curve.holds_box_iff hdepth hn hc).2 ((mem_range_iff_child hlt).2 ⟨octant, ho, hk⟩)

/-- The boxes of different octants share no cell. -/
theorem child_inj_of_holds_box (hn : n.IsCell depth) (hlt : n.level < depth) {o o' : Nat} (ho : o < 8) (ho' : o' < 8)
    (h : (curve.box depth (n.child depth o)).Holds c) (h' : (curve.box depth (n.child depth o')).Holds c) : o = o' := by
  have hc := curve.lt_of_holds_box (hn.child hlt ho) h
  exact child_inj_of_mem hn hlt ho ho' ((curve.holds_box_iff hdepth (hn.child hlt ho) hc).1 h)
    ((curve.holds_box_iff hdepth (hn.child hlt ho') hc).1 h')

variable {m : Node}

/-- The box of one node lies in that of another one if its key range does. -/
theorem holds_box_imp_iff (hm : m.IsCell depth) (hn : n.IsCell depth) :
    (∀ c, (curve.box depth m).Holds c → (curve.box depth n).Holds c) ↔
      (m.range depth).within (n.range depth) = true := by
  rw [KeyRange.within_iff m.first_lt_stop]
  constructor
  · intro hall k hk
    have hlt : k < Key.bound depth := Nat.lt_of_lt_of_le hk.2 hm.stop_le
    rw [curve.mem_range_iff_holds_box hdepth hn hlt]
    exact hall _ ((curve.mem_range_iff_holds_box hdepth hm hlt).1 hk)
  · intro hall c h
    have hc := curve.lt_of_holds_box hm h
    rw [curve.holds_box_iff hdepth hn hc]
    exact hall _ ((curve.holds_box_iff hdepth hm hc).1 h)

/-- The boxes of two nodes share no cell if their key ranges do not overlap. -/
theorem not_holds_boxes_iff (hm : m.IsCell depth) (hn : n.IsCell depth) :
    (∀ c, ¬ ((curve.box depth m).Holds c ∧ (curve.box depth n).Holds c)) ↔
      (m.range depth).overlaps (n.range depth) = false := by
  rw [← Bool.not_eq_true, KeyRange.overlaps_iff m.first_lt_stop n.first_lt_stop, ← not_exists]
  refine not_congr ⟨?_, ?_⟩
  · rintro ⟨c, h, h'⟩
    have hc := curve.lt_of_holds_box hm h
    exact ⟨_, (curve.holds_box_iff hdepth hm hc).1 h, (curve.holds_box_iff hdepth hn hc).1 h'⟩
  · rintro ⟨k, hk, hk'⟩
    exact ⟨_, curve.holds_box hm hk, curve.holds_box hn hk'⟩

end Grid

/-- On both curves and for both key widths, the grid box of an aligned node holds the cells whose keys are in its range. So the
boxes of its eight octants are a partition of it, and two boxes are nested, or apart, if the key ranges are. -/
theorem boxes_are_ranges (curve : Curve) (width : KeyWidth) :
    (∀ n : Node, n.IsCell width.depth → ∀ c : Triple Nat, (∀ a, c.get a < 2 ^ width.depth) →
      ((curve.box width.depth n).Holds c ↔ curve.encode width.depth c ∈ n.range width.depth)) ∧
    (∀ n : Node, n.IsCell width.depth → n.level < width.depth → ∀ c : Triple Nat,
      ((curve.box width.depth n).Holds c ↔
        ∃ octant < 8, (curve.box width.depth (n.child width.depth octant)).Holds c) ∧
      ∀ o < 8, ∀ o' < 8, (curve.box width.depth (n.child width.depth o)).Holds c →
        (curve.box width.depth (n.child width.depth o')).Holds c → o = o') ∧
    ∀ m n : Node, m.IsCell width.depth → n.IsCell width.depth →
      ((∀ c, (curve.box width.depth m).Holds c → (curve.box width.depth n).Holds c) ↔
        (m.range width.depth).within (n.range width.depth) = true) ∧
      ((∀ c, ¬ ((curve.box width.depth m).Holds c ∧ (curve.box width.depth n).Holds c)) ↔
        (m.range width.depth).overlaps (n.range width.depth) = false) :=
  ⟨fun _ hn _ hc => curve.holds_box_iff width.depth_le hn hc,
    fun _ hn hlt c => ⟨curve.holds_box_iff_child width.depth_le hn hlt c,
      fun _ ho _ ho' => curve.child_inj_of_holds_box width.depth_le hn hlt ho ho'⟩,
    fun _ _ hm hn => ⟨curve.holds_box_imp_iff width.depth_le hm hn, curve.not_holds_boxes_iff width.depth_le hm hn⟩⟩

/-- Two octants of the grid that follow each other on the curve, and a cell in a corner of the first one. -/
theorem boxes_are_ranges_octants :
    let m : Node := ⟨3 * 8 ^ 20, 1⟩
    let n : Node := ⟨4 * 8 ^ 20, 1⟩
    let corner : Triple Nat := ⟨2 ^ 20 - 1, 2 ^ 21 - 1, 2 ^ 20 - 1⟩
    m.IsCell 21 ∧ n.IsCell 21 ∧ m.level < 21 ∧ (∀ a, corner.get a < 2 ^ 21) ∧ (hilbert.box 21 m).Holds corner ∧
      hilbert.encode 21 corner ∈ m.range 21 ∧ (∃ octant < 8, (hilbert.box 21 (m.child 21 octant)).Holds corner) ∧
      (m.range 21).overlaps (n.range 21) = false ∧
      ∀ c, ¬ ((hilbert.box 21 m).Holds c ∧ (hilbert.box 21 n).Holds c) := by
  intro m n corner
  have hm : m.IsCell KeyWidth.wide.depth := ⟨by decide, by decide, by decide⟩
  have hn : n.IsCell KeyWidth.wide.depth := ⟨by decide, by decide, by decide⟩
  have hlt : m.level < KeyWidth.wide.depth := by decide
  have hcorner : ∀ a, corner.get a < 2 ^ KeyWidth.wide.depth := fun a => by cases a <;> decide
  have hbox : (hilbert.box KeyWidth.wide.depth m).Holds corner := fun a => by cases a <;> decide +kernel
  have hapart : (m.range KeyWidth.wide.depth).overlaps (n.range KeyWidth.wide.depth) = false := by decide
  have h := boxes_are_ranges hilbert .wide
  exact ⟨hm, hn, hlt, hcorner, hbox, (h.1 m hm corner hcorner).1 hbox, (h.2.1 m hm hlt corner).1.1 hbox, hapart,
    (h.2.2 m n hm hn).2.2 hapart⟩

end Curve

end CurvePartition
