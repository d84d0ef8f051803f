-- SUMMARY: Exact positions: wrapped positions lie in the box, the cell of a position contains it, and the region of a node contains the positions whose keys the node holds.
import CurvePartition.Proofs.Results
import CurvePartition.Proofs.Space.Regions

/-!
# Exact positions

A position that was mapped into the box lies between its bounds, and the cell of the finest grid that
`Box.gridCoordinates` finds contains it, also at the upper bounds. So the region of a node contains each position whose key
is one of the node's, on both curves (`Box.Valid.within_nodeBounds`), and such regions do not leave the box. No distance in the
box exceeds that of its corners (`Box.Valid.pointDistance_le`).
-/

namespace CurvePartition

open Exact

variable {depth : Nat} {b : Box EReal} {curve : Curve}

namespace Exact

theorem roundAway_neg (x : ℝ) : roundAway (-x) = -roundAway x := by
  unfold roundAway
  rcases lt_trichotomy x 0 with h | rfl | h
  · rw [if_pos (by linarith), if_neg (not_le.2 h), ← Int.floor_neg]
    congr 1
    ring
  · norm_num
  · rw [if_neg (by linarith), if_pos h.le, ← Int.ceil_neg]
    congr 1
    ring

/-- The shortest differences of two coordinates are opposite. -/
theorem difference_swap (boundary : Boundary) (length x y : ℝ) :
    difference boundary length y x = -difference boundary length x y := by
  cases boundary with
  | periodic =>
    have hswap : (x - y) / length = -((y - x) / length) := by ring
    simp only [difference, hswap, roundAway_neg]
    push_cast
    ring
  | unbounded => exact (neg_sub y x).symm
  | fixed => exact (neg_sub y x).symm

/-- No difference exceeds the length of the axis. -/
theorem abs_difference_le (boundary : Boundary) {length x y : ℝ} (hlength : 0 < length) (hxy : |y - x| ≤ length) :
    |difference boundary length x y| ≤ length := by
  cases boundary with
  | unbounded => exact hxy
  | fixed => exact hxy
  | periodic =>
    have hscaled : y - x - length * (roundAway ((y - x) / length) : ℝ) =
        length * ((y - x) / length - (roundAway ((y - x) / length) : ℝ)) := by
      rw [mul_sub, mul_div_cancel₀ _ hlength.ne']
    have hround := abs_sub_roundAway ((y - x) / length)
    show |y - x - length * (roundAway ((y - x) / length) : ℝ)| ≤ length
    rw [hscaled, abs_mul, abs_of_pos hlength]
    exact mul_le_of_le_one_right hlength.le (hround.trans (by norm_num))

end Exact

namespace Box

/-- Whether a position lies between the bounds of a box. -/
def InBox (b : Box EReal) (p : Triple EReal) : Prop := Within p ⟨b.lo, b.hi⟩

theorem Valid.spans (hb : b.Valid) : Spans ⟨b.lo, b.hi⟩ b.low b.high := ⟨hb.lo_eq, hb.hi_eq⟩

/-- The distance of two positions in the box does not depend on their order. -/
theorem Valid.pointDistance_comm (hb : b.Valid) {p q : Triple EReal} (hp : b.InBox p) (hq : b.InBox q) :
    b.pointDistance p q = b.pointDistance q p := by
  choose x hpx _ using hp.exists_real hb.spans
  choose y hqy _ using hq.exists_real hb.spans
  rw [hb.pointDistance_eq hpx hqy, hb.pointDistance_eq hqy hpx]
  have hle : ∀ x y : Axis → ℝ, norm (fun a => Exact.difference (b.boundaries.get a) (b.high a - b.low a) (x a) (y a)) ≤
      norm fun a => Exact.difference (b.boundaries.get a) (b.high a - b.low a) (y a) (x a) := fun x y =>
    norm_le_norm fun a => by rw [difference_swap, abs_neg]
  exact congrArg _ (le_antisymm (hle x y) (hle y x))

/-- Positions in the box are not further apart than its opposite corners. -/
theorem Valid.pointDistance_le (hb : b.Valid) {p q : Triple EReal} (hp : b.InBox p) (hq : b.InBox q) :
    b.pointDistance p q ≤ (norm fun a => b.high a - b.low a : ℝ) := by
  choose x hpx hlo hhi using hp.exists_real hb.spans
  choose y hqy hlo' hhi' using hq.exists_real hb.spans
  rw [hb.pointDistance_eq hpx hqy, EReal.coe_le_coe_iff]
  refine norm_le_norm fun a => ?_
  have hlength := sub_pos.2 (hb.low_lt_high a)
  rw [abs_of_pos hlength]
  exact abs_difference_le _ hlength (abs_sub_le_of_le_of_le (hlo' a) (hhi' a) (hlo a) (hhi a))

/-! ## Wrapping -/

theorem wrapPeriodic_within {lo hi : ℝ} (h : lo < hi) (x : ℝ) :
    (lo : EReal) ≤ wrapPeriodic (lo : EReal) hi x ∧ wrapPeriodic (lo : EReal) hi x ≤ hi := by
  have hwrapped : (x : EReal) - ((hi : EReal) - lo) * Scalar.floor (((x : EReal) - lo) / ((hi : EReal) - lo)) =
      ((x - (hi - lo) * ⌊(x - lo) / (hi - lo)⌋ : ℝ) : EReal) := by
    rw [← EReal.coe_sub, ← EReal.coe_sub, coe_div, floor_coe, ← EReal.coe_mul, ← EReal.coe_sub]
  have hfloor := Int.floor_le ((x - lo) / (hi - lo))
  rw [le_div_iff₀ (sub_pos.2 h), mul_comm] at hfloor
  unfold wrapPeriodic
  simp only [hwrapped]
  split
  · exact ⟨le_refl _, EReal.coe_le_coe_iff.2 h.le⟩
  · rename_i hless
    exact ⟨EReal.coe_le_coe_iff.2 (by linarith), (not_le.1 hless).le⟩

/-- A coordinate that was mapped into its axis lies between the bounds, if an open axis has it between them. -/
theorem Valid.normalizeAxis_within (hb : b.Valid) {a : Axis} {x y : EReal} (h : b.normalizeAxis a x = .ok y)
    (hopen : b.boundaries.get a = .unbounded → b.lo.get a ≤ x ∧ x ≤ b.hi.get a) :
    b.lo.get a ≤ y ∧ y ≤ b.hi.get a := by
  unfold normalizeAxis at h
  dsimp only at h
  split at h
  · cases h
  rename_i hfinite
  obtain ⟨r, rfl⟩ := isFinite_iff.1 (by simpa using hfinite)
  split at h
  · rename_i hboundary
    cases h
    exact hopen hboundary
  · cases h
    rw [hb.lo_eq, hb.hi_eq]
    exact wrapPeriodic_within (hb.low_lt_high a) r
  · split at h
    · rename_i hin
      cases h
      exact hin
    · cases h

/-- A position that was mapped into the box lies in it, if the open axes have it between their bounds. -/
theorem Valid.inBox_normalize (hb : b.Valid) {p q : Triple EReal} (h : b.normalize p = .ok q)
    (hopen : ∀ a, b.boundaries.get a = .unbounded → b.lo.get a ≤ p.get a ∧ p.get a ≤ b.hi.get a) : b.InBox q := by
  obtain ⟨x, hx, h⟩ := bind_eq_ok.1 h
  obtain ⟨y, hy, h⟩ := bind_eq_ok.1 h
  obtain ⟨z, hz, h⟩ := bind_eq_ok.1 h
  cases h
  intro a
  cases a with
  | x => exact hb.normalizeAxis_within hx (hopen .x)
  | y => exact hb.normalizeAxis_within hy (hopen .y)
  | z => exact hb.normalizeAxis_within hz (hopen .z)

/-! ## Cells of positions -/

/-- A coordinate in units of the cell edge, counted from the lower bound. -/
theorem Valid.scaled_eq (hb : b.Valid) (depth : Nat) (a : Axis) (x : ℝ) :
    ((x : EReal) - b.lo.get a) / (b.hi.get a - b.lo.get a) * cells depth =
      (((x - b.low a) / (b.high a - b.low a) * 2 ^ depth : ℝ) : EReal) := by
  rw [hb.lo_eq, hb.hi_eq, cells, ofNat_eq, ← EReal.coe_sub, ← EReal.coe_sub, coe_div, ← EReal.coe_mul]
  push_cast
  rfl

/-- The last cell is closed at its end, so it holds the number of cells as well. -/
theorem min_floor_spec {t : ℝ} {cells : ℕ} (hpos : 1 ≤ cells) (hzero : 0 ≤ t) (htop : t ≤ cells) :
    ((min ⌊t⌋₊ (cells - 1) : ℕ) : ℝ) ≤ t ∧ t ≤ (min ⌊t⌋₊ (cells - 1) : ℕ) + 1 := by
  rcases Nat.lt_or_ge ⌊t⌋₊ cells with hlt | hge
  · rw [Nat.min_eq_left (by omega)]
    exact ⟨Nat.floor_le hzero, (Nat.lt_floor_add_one t).le⟩
  · have hge' : (cells : ℝ) ≤ t := (Nat.le_floor_iff hzero).1 hge
    rw [Nat.min_eq_right (by omega), Nat.cast_sub hpos, Nat.cast_one]
    constructor <;> linarith

/-- A coordinate between the bounds lies in the cell that is found for it. -/
theorem Valid.gridLine_gridCoordinate (hb : b.Valid) (depth : Nat) (a : Axis) {x : ℝ} (hlo : b.low a ≤ x) (hhi : x ≤ b.high a) :
    b.gridLine depth a (gridCoordinate depth (b.lo.get a) (b.hi.get a) x) ≤ x ∧
      x ≤ b.gridLine depth a (gridCoordinate depth (b.lo.get a) (b.hi.get a) x + 1) := by
  have hlength := sub_pos.2 (hb.low_lt_high a)
  have hpow : (0 : ℝ) < 2 ^ depth := by positivity
  have hedge := hb.cellEdge_pos depth a
  have hscaled := hb.scaled_eq depth a x
  obtain ⟨t, ht⟩ : ∃ t, t = (x - b.low a) / (b.high a - b.low a) * 2 ^ depth := ⟨_, rfl⟩
  rw [← ht] at hscaled
  have hx : x = b.low a + t * b.cellEdge depth a := by
    rw [ht, cellEdge_eq]
    field_simp
    ring
  have htop : t ≤ 2 ^ depth :=
    ht ▸ mul_le_of_le_one_left hpow.le ((div_le_one hlength).2 (by linarith))
  have hzero : 0 ≤ t := by
    rw [ht]
    exact mul_nonneg (div_nonneg (by linarith) hlength.le) hpow.le
  -- In units of the cell edge, the coordinate lies between its cell and the next one.
  have hcell : ∀ c : ℕ, (c : ℝ) ≤ t → t ≤ c + 1 → b.gridLine depth a c ≤ x ∧ x ≤ b.gridLine depth a (c + 1) := by
    intro c hle hle'
    rw [gridLine, gridLine, hx]
    push_cast
    constructor <;> gcongr
  unfold gridCoordinate
  simp only [hscaled]
  split
  case isTrue hless =>
    have hless : t ≤ 0 := EReal.coe_nonpos.1 hless
    exact hcell 0 (by simpa using hzero) (by push_cast; linarith)
  case isFalse =>
    rw [wholePart_coe]
    obtain ⟨hle, hle'⟩ := min_floor_spec Nat.one_le_two_pow hzero (by exact_mod_cast htop)
    exact hcell _ hle hle'

/-- The bounds of an axis lie in its first and its last cell. -/
theorem Valid.gridCoordinate_lo (hb : b.Valid) (depth : Nat) (a : Axis) :
    gridCoordinate depth (b.lo.get a) (b.hi.get a) (b.lo.get a) = 0 := by
  unfold gridCoordinate
  dsimp only
  rw [hb.lo_eq, EReal.sub_self (EReal.coe_ne_top _) (EReal.coe_ne_bot _), EReal.zero_div, zero_mul]
  exact if_pos (le_refl _)

theorem Valid.gridCoordinate_hi (hb : b.Valid) (depth : Nat) (a : Axis) :
    gridCoordinate depth (b.lo.get a) (b.hi.get a) (b.hi.get a) = 2 ^ depth - 1 := by
  have hlength := sub_pos.2 (hb.low_lt_high a)
  have hscaled : (b.hi.get a - b.lo.get a) / (b.hi.get a - b.lo.get a) * cells depth = (((2 ^ depth : ℕ) : ℝ) : EReal) := by
    rw [hb.lo_eq, hb.hi_eq, cells, ofNat_eq, ← EReal.coe_sub, coe_div, div_self hlength.ne', EReal.coe_one, one_mul]
  unfold gridCoordinate
  simp only [hscaled]
  rw [if_neg, wholePart_coe, Nat.floor_natCast]
  · exact Nat.min_eq_right (Nat.sub_le _ _)
  · exact not_le.2 (EReal.coe_pos.2 (Nat.cast_pos.2 (Nat.two_pow_pos depth)))

/-- The region of a node contains the positions in the box whose keys the node holds, and stays inside the box. -/
theorem Valid.within_nodeBounds (hb : b.Valid) (hdepth : depth ≤ Curve.coordinateBits) {n : Node} (hn : n.IsCell depth)
    {p : Triple EReal} (hp : b.InBox p) (hkey : b.encode depth curve p ∈ n.range depth) :
    Within p (b.nodeBounds depth curve n) ∧ ∀ a, b.low a ≤ b.gridLine depth a ((curve.box depth n).lo.get a) ∧
      b.gridLine depth a ((curve.box depth n).hi.get a) ≤ b.high a := by
  have hlt : ∀ a, (b.gridCoordinates depth p).get a < 2 ^ depth := fun a => by
    rw [gridCoordinates, Triple.get_ofFn]
    exact gridCoordinate_lt ..
  have hholds : (curve.box depth n).Holds (b.gridCoordinates depth p) := by
    have h := curve.holds_box hn hkey
    rwa [encode, curve.decode_encode hdepth hlt] at h
  refine ⟨fun a => ?_, fun a => ?_⟩
  · obtain ⟨x, hx, hlo, hhi⟩ := hp.exists_real hb.spans a
    have hcell := hb.gridLine_gridCoordinate depth a hlo hhi
    have hbox := hholds a
    rw [gridCoordinates, Triple.get_ofFn, hx] at hbox
    rw [hb.nodeBounds_lo, hb.nodeBounds_hi, hx, EReal.coe_le_coe_iff, EReal.coe_le_coe_iff]
    exact ⟨(hb.gridLine_le a hbox.1).trans hcell.1, hcell.2.trans (hb.gridLine_le a hbox.2)⟩
  · -- The grid box ends at a multiple of its size, and not behind the grid.
    have hend : (curve.box depth n).hi.get a ≤ 2 ^ depth := by
      obtain ⟨hlo, _⟩ := hholds a
      have hlo := Nat.lt_of_le_of_lt hlo (hlt a)
      simp only [Curve.box, Triple.get_map] at hlo ⊢
      have hsplit : 2 ^ depth = 2 ^ n.level * 2 ^ (depth - n.level) := by
        rw [← Nat.pow_add, Nat.add_sub_cancel' hn.level_le]
      rw [hsplit] at hlo ⊢
      have := Nat.lt_of_mul_lt_mul_right hlo
      rw [← Nat.succ_mul]
      exact Nat.mul_le_mul_right _ this
    refine ⟨?_, ?_⟩
    · have hstart : b.gridLine depth a 0 ≤ b.gridLine depth a ((curve.box depth n).lo.get a) :=
        hb.gridLine_le a (Nat.zero_le _)
      simpa [gridLine] using hstart
    · refine (hb.gridLine_le a hend).trans (le_of_eq ?_)
      rw [gridLine, cellEdge_eq]
      push_cast
      field_simp
      ring

end Box

end CurvePartition
