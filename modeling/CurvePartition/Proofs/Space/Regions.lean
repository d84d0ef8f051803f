-- SUMMARY: Exact regions of cells: their bounds, rooms and distances as reals, nested regions, and the distance of points against that of regions around them.
import Mathlib.Tactic.Positivity
import CurvePartition.Proofs.Curve.Cells
import CurvePartition.Proofs.Space.Exact
import CurvePartition.Proofs.Space.Nesting

/-!
# Exact regions of cells

In a box with finite bounds every region of a cell has real bounds, and rooms and distances of regions are reals. Nested
cells have nested regions, so exact distances and edges are monotone under nesting (`Box.Valid.nests`). The
distance of two points in two regions, also around periodic axes, is at least that of the regions
(`Box.Valid.distance_le_pointDistance`).
-/

namespace CurvePartition

open Exact

variable {depth : Nat} {b : Box EReal} {curve : Curve}

/-! ## Intervals -/

/-- Room between two intervals of reals. -/
noncomputable def Exact.room (lo hi lo' hi' : ℝ) : ℝ := (lo - hi') ⊔ (lo' - hi) ⊔ 0

namespace Exact

variable {lo hi lo' hi' x y : ℝ}

theorem room_coe (lo hi lo' hi' : ℝ) : Box.room (lo : EReal) hi lo' hi' = (room lo hi lo' hi' : ℝ) := by
  rw [Box.room, max_eq, max_eq, ← EReal.coe_sub, ← EReal.coe_sub, coe_sup, ← EReal.coe_zero, coe_sup, room]

theorem room_nonneg (lo hi lo' hi' : ℝ) : 0 ≤ room lo hi lo' hi' := le_sup_right

/-- Points in two intervals are at least the room apart. -/
theorem room_le_abs (hx : lo ≤ x ∧ x ≤ hi) (hy : lo' ≤ y ∧ y ≤ hi') : room lo hi lo' hi' ≤ |y - x| :=
  Interval.room_le_abs hx hy

/-- Larger intervals have less room between them. -/
theorem room_anti {l h l' h' : ℝ} (hl : lo ≤ l) (hh : h ≤ hi) (hl' : lo' ≤ l') (hh' : h' ≤ hi') :
    room lo hi lo' hi' ≤ room l h l' h' :=
  sup_le_sup_right (sup_le_sup (by linarith) (by linarith)) 0

end Exact

/-- Room between two intervals of an axis, also to the images of the second one around a periodic axis. -/
noncomputable def Exact.gap (boundary : Boundary) (length lo hi lo' hi' : ℝ) : ℝ :=
  match boundary with
  | .periodic => room lo hi lo' hi' ⊓ room lo hi (lo' - length) (hi' - length) ⊓ room lo hi (lo' + length) (hi' + length)
  | .unbounded | .fixed => room lo hi lo' hi'

/-- Shortest difference of two coordinates of an axis. -/
noncomputable def Exact.difference (boundary : Boundary) (length x y : ℝ) : ℝ :=
  match boundary with
  | .periodic => y - x - length * roundAway ((y - x) / length)
  | .unbounded | .fixed => y - x

namespace Exact

variable {boundary : Boundary} {length lo hi lo' hi' x y : ℝ}

theorem gap_nonneg : 0 ≤ gap boundary length lo hi lo' hi' := by
  cases boundary with
  | periodic => exact le_inf (le_inf (room_nonneg _ _ _ _) (room_nonneg _ _ _ _)) (room_nonneg _ _ _ _)
  | unbounded => exact room_nonneg _ _ _ _
  | fixed => exact room_nonneg _ _ _ _

theorem gap_anti {l h l' h' : ℝ} (hl : lo ≤ l) (hh : h ≤ hi) (hl' : lo' ≤ l') (hh' : h' ≤ hi') :
    gap boundary length lo hi lo' hi' ≤ gap boundary length l h l' h' := by
  cases boundary with
  | periodic =>
    refine inf_le_inf (inf_le_inf (room_anti hl hh hl' hh') (room_anti hl hh ?_ ?_)) (room_anti hl hh ?_ ?_)
    all_goals linarith
  | unbounded => exact room_anti hl hh hl' hh'
  | fixed => exact room_anti hl hh hl' hh'

/-- Within one length the shortest difference is that to the point or to one of its two images. -/
theorem roundAway_of_abs_le {t : ℝ} (h : |t| ≤ 1) : roundAway t = 0 ∨ roundAway t = 1 ∨ roundAway t = -1 := by
  have hdist := abs_le.1 (abs_sub_roundAway t)
  have ht := abs_le.1 h
  have hlt : roundAway t < 2 := by
    have : (roundAway t : ℝ) < 2 := by linarith [hdist.1, ht.2]
    exact_mod_cast this
  have hgt : -2 < roundAway t := by
    have : (-2 : ℝ) < roundAway t := by linarith [hdist.2, ht.1]
    exact_mod_cast this
  omega

/-- Points of two intervals are at least the gap apart. -/
theorem gap_le_abs_difference (hx : lo ≤ x ∧ x ≤ hi) (hy : lo' ≤ y ∧ y ≤ hi') (hlength : 0 < length)
    (hxy : |y - x| ≤ length) : gap boundary length lo hi lo' hi' ≤ |difference boundary length x y| := by
  cases boundary with
  | unbounded => exact room_le_abs hx hy
  | fixed => exact room_le_abs hx hy
  | periodic =>
    have hunit : |(y - x) / length| ≤ 1 := by
      rw [abs_div, abs_of_pos hlength]
      exact (div_le_one hlength).2 hxy
    unfold gap difference
    rcases roundAway_of_abs_le hunit with h | h | h
    · have hd : y - x - length * (roundAway ((y - x) / length) : ℝ) = y - x := by rw [h]; simp
      simp only [hd]
      exact inf_le_left.trans (inf_le_left.trans (room_le_abs hx hy))
    · have hd : y - x - length * (roundAway ((y - x) / length) : ℝ) = y - length - x := by rw [h]; push_cast; ring
      simp only [hd]
      exact inf_le_left.trans (inf_le_right.trans (room_le_abs hx ⟨by linarith [hy.1], by linarith [hy.2]⟩))
    · have hd : y - x - length * (roundAway ((y - x) / length) : ℝ) = y + length - x := by rw [h]; push_cast; ring
      simp only [hd]
      exact inf_le_right.trans (room_le_abs hx ⟨by linarith [hy.1], by linarith [hy.2]⟩)

/-- Distance with given differences on the axes. -/
noncomputable def norm (d : Axis → ℝ) : ℝ := Real.sqrt (d .x * d .x + d .y * d .y + d .z * d .z)

theorem norm_le_norm {d e : Axis → ℝ} (h : ∀ a, |d a| ≤ |e a|) : norm d ≤ norm e := by
  have hsquare : ∀ a, d a * d a ≤ e a * e a := fun a => by
    rw [← abs_mul_abs_self (d a), ← abs_mul_abs_self (e a)]
    exact mul_self_le_mul_self (abs_nonneg _) (h a)
  exact Real.sqrt_le_sqrt (add_le_add (add_le_add (hsquare .x) (hsquare .y)) (hsquare .z))

theorem norm_coe (d : Axis → ℝ) : Scalar.sqrt (0 + (d .x : EReal) * d .x + (d .y : EReal) * d .y + (d .z : EReal) * d .z) =
    (norm d : ℝ) := by
  rw [zero_add, ← EReal.coe_mul, ← EReal.coe_mul, ← EReal.coe_mul, ← EReal.coe_add, ← EReal.coe_add, sqrt_coe, norm]

end Exact

/-! ## Bounds of cells -/

namespace Box

/-- Lower bound of an axis. -/
noncomputable def low (b : Box EReal) (a : Axis) : ℝ := (b.lo.get a).toReal

/-- Upper bound of an axis. -/
noncomputable def high (b : Box EReal) (a : Axis) : ℝ := (b.hi.get a).toReal

/-- Edge of a cell of the finest grid. -/
noncomputable def cellEdge (b : Box EReal) (depth : Nat) (a : Axis) : ℝ := (b.high a - b.low a) / (2 ^ depth : ℕ)

theorem cellEdge_eq (b : Box EReal) (depth : Nat) (a : Axis) : b.cellEdge depth a = (b.high a - b.low a) / 2 ^ depth := by
  rw [cellEdge, Nat.cast_pow, Nat.cast_ofNat]

/-- Where a line of the finest grid crosses an axis. -/
noncomputable def gridLine (b : Box EReal) (depth : Nat) (a : Axis) (c : Nat) : ℝ := b.low a + c * b.cellEdge depth a

theorem Valid.lo_eq (hb : b.Valid) (a : Axis) : b.lo.get a = b.low a := by
  have h := hb a
  simp only [isValidAxis, Bool.and_eq_true] at h
  exact (coe_toReal h.1.1).symm

theorem Valid.hi_eq (hb : b.Valid) (a : Axis) : b.hi.get a = b.high a := by
  have h := hb a
  simp only [isValidAxis, Bool.and_eq_true] at h
  exact (coe_toReal h.1.2).symm

theorem Valid.low_lt_high (hb : b.Valid) (a : Axis) : b.low a < b.high a := by
  have h := hb a
  simp only [isValidAxis, Bool.and_eq_true, decide_eq_true_eq] at h
  have hlt := h.2
  rw [hb.lo_eq, hb.hi_eq] at hlt
  exact EReal.coe_lt_coe_iff.1 hlt

theorem valid_unit : (unit : Box EReal).Valid := by
  intro a
  have hzero : Scalar.isFinite (0 : EReal) = true := isFinite_iff.2 ⟨0, EReal.coe_zero.symm⟩
  have hone : Scalar.isFinite (1 : EReal) = true := isFinite_iff.2 ⟨1, EReal.coe_one.symm⟩
  have hlt : (0 : EReal) < 1 := zero_lt_one
  simp only [isValidAxis, unit, Triple.get_replicate, hzero, hone, Bool.true_and, decide_eq_true_eq]
  exact hlt

theorem Valid.length_eq (hb : b.Valid) (a : Axis) : b.length a = ((b.high a - b.low a : ℝ) : EReal) := by
  rw [length, hb.lo_eq, hb.hi_eq, EReal.coe_sub]

theorem Valid.cellEdge_pos (hb : b.Valid) (depth : Nat) (a : Axis) : 0 < b.cellEdge depth a :=
  div_pos (sub_pos.2 (hb.low_lt_high a)) (Nat.cast_pos.2 (Nat.two_pow_pos depth))

theorem Valid.gridLine_le (hb : b.Valid) (a : Axis) {c c' : Nat} (h : c ≤ c') :
    b.gridLine depth a c ≤ b.gridLine depth a c' := by
  have hpos := hb.cellEdge_pos depth a
  have hcast : (c : ℝ) ≤ c' := by exact_mod_cast h
  unfold gridLine
  gcongr

theorem Valid.gridLine_coe (hb : b.Valid) (depth : Nat) (a : Axis) (c : Nat) :
    b.lo.get a + Scalar.ofNat c * (b.length a / cells depth) = (b.gridLine depth a c : EReal) := by
  rw [hb.lo_eq, hb.length_eq, cells, ofNat_eq, ofNat_eq, coe_div, ← EReal.coe_mul, ← EReal.coe_add, gridLine, cellEdge]

theorem Valid.nodeBounds_lo (hb : b.Valid) (n : Node) (a : Axis) :
    (b.nodeBounds depth curve n).lo.get a = (b.gridLine depth a ((curve.box depth n).lo.get a) : EReal) := by
  rw [nodeBounds, bounds, Triple.get_ofFn, hb.gridLine_coe]

theorem Valid.nodeBounds_hi (hb : b.Valid) (n : Node) (a : Axis) :
    (b.nodeBounds depth curve n).hi.get a = (b.gridLine depth a ((curve.box depth n).hi.get a) : EReal) := by
  rw [nodeBounds, bounds, Triple.get_ofFn, hb.gridLine_coe]

/-! ## Distances of cells -/

/-- The bounds of a region as reals. -/
structure Spans (r : Bounds EReal) (lo hi : Axis → ℝ) : Prop where
  lo_eq : ∀ a, r.lo.get a = lo a
  hi_eq : ∀ a, r.hi.get a = hi a

variable {r s : Bounds EReal} {lo hi lo' hi' : Axis → ℝ}

theorem Valid.spans_nodeBounds (hb : b.Valid) (n : Node) : Spans (b.nodeBounds depth curve n)
    (fun a => b.gridLine depth a ((curve.box depth n).lo.get a))
    (fun a => b.gridLine depth a ((curve.box depth n).hi.get a)) :=
  ⟨hb.nodeBounds_lo n, hb.nodeBounds_hi n⟩

theorem Valid.gap_eq (hb : b.Valid) (hr : Spans r lo hi) (hs : Spans s lo' hi') (a : Axis) :
    b.gap r s a = (Exact.gap (b.boundaries.get a) (b.high a - b.low a) (lo a) (hi a) (lo' a) (hi' a) : ℝ) := by
  simp only [gap, Exact.gap, hr.lo_eq, hr.hi_eq, hs.lo_eq, hs.hi_eq, hb.length_eq]
  cases b.boundaries.get a with
  | periodic =>
    simp only [← EReal.coe_sub, ← EReal.coe_add, room_coe, min_eq, coe_inf]
  | unbounded => exact room_coe _ _ _ _
  | fixed => exact room_coe _ _ _ _

/-- The distance of regions is a real. -/
theorem Valid.distance_eq (hb : b.Valid) (hr : Spans r lo hi) (hs : Spans s lo' hi') : b.distance r s =
    (norm fun a => Exact.gap (b.boundaries.get a) (b.high a - b.low a) (lo a) (hi a) (lo' a) (hi' a) : ℝ) := by
  simp only [distance, hb.gap_eq hr hs]
  exact norm_coe fun a => Exact.gap (b.boundaries.get a) (b.high a - b.low a) (lo a) (hi a) (lo' a) (hi' a)

/-- Larger regions are closer. -/
theorem Valid.distance_anti (hb : b.Valid) {l h l' h' : Axis → ℝ} {t u : Bounds EReal} (hr : Spans r lo hi)
    (hs : Spans s lo' hi') (ht : Spans t l h) (hu : Spans u l' h') (hin : ∀ a, lo a ≤ l a ∧ h a ≤ hi a)
    (hin' : ∀ a, lo' a ≤ l' a ∧ h' a ≤ hi' a) : b.distance r s ≤ b.distance t u := by
  rw [hb.distance_eq hr hs, hb.distance_eq ht hu, EReal.coe_le_coe_iff]
  refine norm_le_norm fun a => ?_
  rw [abs_of_nonneg gap_nonneg, abs_of_nonneg gap_nonneg]
  exact gap_anti (hin a).1 (hin a).2 (hin' a).1 (hin' a).2

theorem Valid.nested (hb : b.Valid) (curve : Curve) {m n : Node} (hn : n.IsCell depth) (h : m.Inside depth n) (a : Axis) :
    b.gridLine depth a ((curve.box depth n).lo.get a) ≤ b.gridLine depth a ((curve.box depth m).lo.get a) ∧
      b.gridLine depth a ((curve.box depth m).hi.get a) ≤ b.gridLine depth a ((curve.box depth n).hi.get a) :=
  ⟨hb.gridLine_le a (curve.box_inside hn h a).1, hb.gridLine_le a (curve.box_inside hn h a).2⟩

theorem edgeLength_eq (hr : Spans r lo hi) : r.edgeLength =
    (0 ⊔ (hi .x - lo .x) ⊔ (hi .y - lo .y) ⊔ (hi .z - lo .z) : ℝ) := by
  have hx : r.hi.x - r.lo.x = ((hi .x - lo .x : ℝ) : EReal) := by
    rw [EReal.coe_sub, ← hr.lo_eq .x, ← hr.hi_eq .x]; rfl
  have hy : r.hi.y - r.lo.y = ((hi .y - lo .y : ℝ) : EReal) := by
    rw [EReal.coe_sub, ← hr.lo_eq .y, ← hr.hi_eq .y]; rfl
  have hz : r.hi.z - r.lo.z = ((hi .z - lo .z : ℝ) : EReal) := by
    rw [EReal.coe_sub, ← hr.lo_eq .z, ← hr.hi_eq .z]; rfl
  rw [Bounds.edgeLength, hx, hy, hz, max_eq, max_eq, max_eq, ← EReal.coe_zero, coe_sup, coe_sup, coe_sup]

/-- Exact distances and edges are monotone under nesting of cells. -/
theorem Valid.nests (hb : b.Valid) : b.Nests depth curve where
  distance_le _ hn _ hn' hin hin' :=
    hb.distance_anti (hb.spans_nodeBounds _) (hb.spans_nodeBounds _) (hb.spans_nodeBounds _) (hb.spans_nodeBounds _)
      (hb.nested curve hn hin) (hb.nested curve hn' hin')
  edgeLength_le {m n} _ hn hin := by
    rw [edgeLength_eq (hb.spans_nodeBounds m), edgeLength_eq (hb.spans_nodeBounds n), EReal.coe_le_coe_iff]
    have hedge := fun a => sub_le_sub (hb.nested curve hn hin a).2 (hb.nested curve hn hin a).1
    exact sup_le_sup (sup_le_sup (sup_le_sup_left (hedge .x) 0) (hedge .y)) (hedge .z)

/-- Exact bounds of cells are real, and in order. -/
theorem Valid.bounded (hb : b.Valid) : b.Bounded depth curve where
  finite {n} a _ := by
    rw [hb.nodeBounds_lo, hb.nodeBounds_hi]
    exact ⟨isFinite_iff.2 ⟨_, rfl⟩, isFinite_iff.2 ⟨_, rfl⟩⟩
  lo_le_hi {n} a _ := by
    rw [hb.nodeBounds_lo, hb.nodeBounds_hi, EReal.coe_le_coe_iff]
    exact hb.gridLine_le a (curve.box_lo_le_hi depth n a)

/-! ## Points in cells -/

/-- Whether a position lies in a region, its faces included. -/
def Within (p : Triple EReal) (r : Bounds EReal) : Prop := ∀ a, r.lo.get a ≤ p.get a ∧ p.get a ≤ r.hi.get a

theorem Within.exists_real {p : Triple EReal} (h : Within p r) (hr : Spans r lo hi) (a : Axis) :
    ∃ x : ℝ, p.get a = x ∧ lo a ≤ x ∧ x ≤ hi a := by
  obtain ⟨hlo, hhi⟩ := h a
  rw [hr.lo_eq] at hlo
  rw [hr.hi_eq] at hhi
  have hbot : p.get a ≠ ⊥ := fun heq => absurd (heq ▸ hlo) (not_le.2 (EReal.bot_lt_coe _))
  have htop : p.get a ≠ ⊤ := fun heq => absurd (heq ▸ hhi) (not_le.2 (EReal.coe_lt_top _))
  obtain ⟨x, hx⟩ := isFinite_iff.1 (decide_eq_true (And.intro hbot htop))
  rw [hx] at hlo hhi
  exact ⟨x, hx, EReal.coe_le_coe_iff.1 hlo, EReal.coe_le_coe_iff.1 hhi⟩

theorem Valid.difference_eq (hb : b.Valid) (a : Axis) (x y : ℝ) : b.difference a (x : EReal) y =
    (Exact.difference (b.boundaries.get a) (b.high a - b.low a) x y : ℝ) := by
  unfold difference Exact.difference
  cases b.boundaries.get a with
  | periodic =>
    dsimp only
    rw [hb.length_eq, ← EReal.coe_sub, coe_div, round_coe, ← EReal.coe_mul, ← EReal.coe_sub]
  | unbounded => exact (EReal.coe_sub y x).symm
  | fixed => exact (EReal.coe_sub y x).symm

theorem Valid.pointDistance_eq (hb : b.Valid) {p q : Triple EReal} {x y : Axis → ℝ} (hp : ∀ a, p.get a = x a)
    (hq : ∀ a, q.get a = y a) : b.pointDistance p q =
      (norm fun a => Exact.difference (b.boundaries.get a) (b.high a - b.low a) (x a) (y a) : ℝ) := by
  have hd : ∀ a, (b.differences p q).get a =
      (Exact.difference (b.boundaries.get a) (b.high a - b.low a) (x a) (y a) : ℝ) := by
    intro a
    rw [differences, Triple.get_ofFn, hp, hq, hb.difference_eq]
  have hx : (b.differences p q).x = _ := hd .x
  have hy : (b.differences p q).y = _ := hd .y
  have hz : (b.differences p q).z = _ := hd .z
  simp only [pointDistance, hx, hy, hz]
  exact norm_coe fun a => Exact.difference (b.boundaries.get a) (b.high a - b.low a) (x a) (y a)

/-- The distance of two positions is at least that of regions around them. -/
theorem Valid.distance_le_pointDistance (hb : b.Valid) (hr : Spans r lo hi) (hs : Spans s lo' hi') {p q : Triple EReal}
    (hp : Within p r) (hq : Within q s) (hbox : ∀ a, b.low a ≤ lo a ∧ hi a ≤ b.high a)
    (hbox' : ∀ a, b.low a ≤ lo' a ∧ hi' a ≤ b.high a) : b.distance r s ≤ b.pointDistance p q := by
  choose x hpx hx using hp.exists_real hr
  choose y hqy hy using hq.exists_real hs
  rw [hb.distance_eq hr hs, hb.pointDistance_eq hpx hqy, EReal.coe_le_coe_iff]
  refine norm_le_norm fun a => ?_
  rw [abs_of_nonneg gap_nonneg]
  refine gap_le_abs_difference (hx a) (hy a) (sub_pos.2 (hb.low_lt_high a)) ?_
  have h := hx a
  have h' := hy a
  have hin := hbox a
  have hin' := hbox' a
  rw [abs_le]
  constructor <;> linarith

end Box

end CurvePartition
