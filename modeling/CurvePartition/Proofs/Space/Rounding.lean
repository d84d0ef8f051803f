-- SUMMARY: With rounding that keeps the order, distances of regions do not grow and edges do not shrink when regions grow, so a node around one that needs resolution needs it as well.
import CurvePartition.Focus.Criterion
import CurvePartition.Proofs.Curve.Cells
import CurvePartition.Proofs.Space.Nesting
import CurvePartition.Proofs.Space.Rational

/-!
# Rounded distances of nested cells

The room between two intervals, the least room to an image of one of them, the sum of squares and its root are monotone
operations one after the other, so larger regions are not farther apart, whatever is rounded on the way
(`Box.distance_le_distance`). Lines of the grid are crossed in their order, so a cell inside another one has its region inside the
other's, and a shorter edge. Hence a node around one that needs resolution needs it as well
(`Criterion.resolution_monotone`).

Machine numbers have unordered values, to which no order applies. `Box.Computes` and its like say that none is met on the
way to a result.
-/

namespace CurvePartition

open Scalar

variable {depth : Nat} {α : Type} [Scalar α]

/-! ## Regions -/

/-- Whether a region lies inside another one. -/
def Bounds.Inside (r r' : Bounds α) : Prop := ∀ a, r'.lo.get a ≤ r.lo.get a ∧ r.hi.get a ≤ r'.hi.get a

namespace Box

/-- Whether the second of two intervals is in order, and what tells the room between them. -/
structure RoomInOrder (lo hi lo' hi' : α) : Prop where
  start : InOrder lo'
  stop : InOrder hi'
  below : InOrder (lo - hi')
  above : InOrder (lo' - hi)

/-- Whether no value on the way to the distance of two regions is unordered. -/
structure Computes (b : Box α) (r s : Bounds α) : Prop where
  length : ∀ a, InOrder (b.length a)
  direct : ∀ a, RoomInOrder (r.lo.get a) (r.hi.get a) (s.lo.get a) (s.hi.get a)
  image_below : ∀ a, b.boundaries.get a = .periodic →
    RoomInOrder (r.lo.get a) (r.hi.get a) (s.lo.get a - b.length a) (s.hi.get a - b.length a)
  image_above : ∀ a, b.boundaries.get a = .periodic →
    RoomInOrder (r.lo.get a) (r.hi.get a) (s.lo.get a + b.length a) (s.hi.get a + b.length a)
  square : ∀ a, InOrder (b.gap r s a * b.gap r s a)
  sum_x : InOrder (0 + b.gap r s .x * b.gap r s .x)
  sum_xy : InOrder (0 + b.gap r s .x * b.gap r s .x + b.gap r s .y * b.gap r s .y)
  sum : InOrder (0 + b.gap r s .x * b.gap r s .x + b.gap r s .y * b.gap r s .y + b.gap r s .z * b.gap r s .z)
  root : InOrder (b.distance r s)

/-- Where all values are in order, none that is met is unordered. -/
theorem computes_of_inOrder (h : ∀ v : α, InOrder v) (b : Box α) (r s : Bounds α) : b.Computes r s where
  length _ := h _
  direct _ := ⟨h _, h _, h _, h _⟩
  image_below _ _ := ⟨h _, h _, h _, h _⟩
  image_above _ _ := ⟨h _, h _, h _, h _⟩
  square _ := h _
  sum_x := h _
  sum_xy := h _
  sum := h _
  root := h _

variable {b : Box α} {r r' s s' : Bounds α} {a : Axis}

section Regions

variable (hlaw : LawfulRounding α)
include hlaw

theorem zero_self : InOrder (0 : α) := hlaw.left (hlaw.zero_le_ofNat 0)

/-- Larger intervals have less room between them. -/
theorem room_le_room {lo hi lo' hi' l h l' h' : α} (hl : lo ≤ l) (hh : h ≤ hi) (hl' : lo' ≤ l') (hh' : h' ≤ hi')
    (houter : RoomInOrder lo hi lo' hi') (hinner : RoomInOrder l h l' h') : room lo hi lo' hi' ≤ room l h l' h' := by
  refine hlaw.max_le_max (hlaw.max_le_max ?_ ?_) (zero_self hlaw)
  · exact hlaw.sub_le_sub hl hh' houter.below hinner.below
  · exact hlaw.sub_le_sub hl' hh houter.above hinner.above

theorem zero_le_room (lo hi lo' hi' : α) : 0 ≤ room lo hi lo' hi' := hlaw.zero_le_max (zero_self hlaw) _

theorem zero_le_gap : 0 ≤ b.gap r s a := by
  unfold gap
  cases b.boundaries.get a with
  | periodic => exact hlaw.le_min (hlaw.le_min (zero_le_room hlaw ..) (zero_le_room hlaw ..)) (zero_le_room hlaw ..)
  | unbounded => exact zero_le_room hlaw ..
  | fixed => exact zero_le_room hlaw ..

variable (hr : r.Inside r') (hs : s.Inside s') (hinner : b.Computes r s) (houter : b.Computes r' s')
include hr hs hinner houter

theorem gap_le_gap (a : Axis) : b.gap r' s' a ≤ b.gap r s a := by
  have hdirect := room_le_room hlaw (hr a).1 (hr a).2 (hs a).1 (hs a).2 (houter.direct a) (hinner.direct a)
  have hlength := hinner.length a
  unfold gap
  cases hboundary : b.boundaries.get a with
  | unbounded => exact hdirect
  | fixed => exact hdirect
  | periodic =>
    -- Both regions are moved by the same length.
    have hbelow' := houter.image_below a hboundary
    have hbelow := hinner.image_below a hboundary
    have habove' := houter.image_above a hboundary
    have habove := hinner.image_above a hboundary
    refine hlaw.min_le_min (hlaw.min_le_min hdirect ?_) ?_
    · refine room_le_room hlaw (hr a).1 (hr a).2 ?_ ?_ hbelow' hbelow
      · exact hlaw.sub_le_sub (hs a).1 hlength hbelow'.start hbelow.start
      · exact hlaw.sub_le_sub (hs a).2 hlength hbelow.stop hbelow'.stop
    · refine room_le_room hlaw (hr a).1 (hr a).2 ?_ ?_ habove' habove
      · exact hlaw.add_le_add (hs a).1 hlength habove'.start habove.start
      · exact hlaw.add_le_add (hs a).2 hlength habove.stop habove'.stop

/-- Larger regions are not farther apart. -/
theorem distance_le_distance : b.distance r' s' ≤ b.distance r s := by
  have hsquare : ∀ a, b.gap r' s' a * b.gap r' s' a ≤ b.gap r s a * b.gap r s a := fun a => by
    have hgap := gap_le_gap hlaw hr hs hinner houter a
    exact hlaw.mul_le_mul (zero_le_gap hlaw) hgap (zero_le_gap hlaw) hgap (houter.square a) (hinner.square a)
  have hx := hlaw.add_le_add (zero_self hlaw) (hsquare .x) houter.sum_x hinner.sum_x
  have hxy := hlaw.add_le_add hx (hsquare .y) houter.sum_xy hinner.sum_xy
  have hxyz := hlaw.add_le_add hxy (hsquare .z) houter.sum hinner.sum
  exact hlaw.sqrt_le_sqrt hxyz houter.root hinner.root

end Regions

/-! ## Regions of cells -/

/-- Whether no value on the way to the region of a node and to its edges is unordered. -/
structure ComputesCell (b : Box α) (depth : Nat) (curve : Curve) (n : Node) : Prop where
  length : ∀ a, InOrder (b.length a)
  unit : ∀ a, InOrder (b.length a / cells depth)
  steps_lo : ∀ a, InOrder (Scalar.ofNat ((curve.box depth n).lo.get a) * (b.length a / cells depth))
  steps_hi : ∀ a, InOrder (Scalar.ofNat ((curve.box depth n).hi.get a) * (b.length a / cells depth))
  lo : ∀ a, InOrder ((b.nodeBounds depth curve n).lo.get a)
  hi : ∀ a, InOrder ((b.nodeBounds depth curve n).hi.get a)
  edge : ∀ a, InOrder ((b.nodeBounds depth curve n).hi.get a - (b.nodeBounds depth curve n).lo.get a)

theorem computesCell_of_inOrder (h : ∀ v : α, InOrder v) (b : Box α) (depth : Nat) (curve : Curve) (n : Node) :
    b.ComputesCell depth curve n :=
  ⟨fun _ => h _, fun _ => h _, fun _ => h _, fun _ => h _, fun _ => h _, fun _ => h _, fun _ => h _⟩

variable {curve : Curve} {m n : Node} (hlaw : LawfulRounding α)
include hlaw

/-- Lines of the grid are crossed in their order. -/
theorem line_le (hb : b.Valid) (a : Axis) {c c' : Nat} (hle : c ≤ c') (hlength : InOrder (b.length a))
    (hunit : InOrder (b.length a / cells depth : α)) (hsteps : InOrder (Scalar.ofNat c * (b.length a / cells depth)))
    (hsteps' : InOrder (Scalar.ofNat c' * (b.length a / cells depth)))
    (hline : InOrder (b.lo.get a + Scalar.ofNat c * (b.length a / cells depth)))
    (hline' : InOrder (b.lo.get a + Scalar.ofNat c' * (b.length a / cells depth))) :
    b.lo.get a + Scalar.ofNat c * (b.length a / cells depth) ≤ b.lo.get a + Scalar.ofNat c' * (b.length a / cells depth) := by
  have hvalid := hb a
  simp only [isValidAxis, Bool.and_eq_true, decide_eq_true_eq] at hvalid
  have hlohi : b.lo.get a ≤ b.hi.get a := (hlaw.lt_iff.1 hvalid.2).1
  have hpos : (0 : α) ≤ b.length a / cells depth := hlaw.div_nonneg (hlaw.sub_nonneg hlohi hlength) hunit
  have hmul := hlaw.mul_le_mul (hlaw.zero_le_ofNat c) (hlaw.ofNat_le_ofNat hle) hpos hunit hsteps hsteps'
  exact hlaw.add_le_add (hlaw.left hlohi) hmul hline hline'

variable (hb : b.Valid) (hn : n.IsCell depth) (hin : m.Inside depth n) (hm' : b.ComputesCell depth curve m)
  (hn' : b.ComputesCell depth curve n)
include hb hn hin hm' hn'

/-- The region of a cell lies in the region of a cell around it. -/
theorem nodeBounds_inside : (b.nodeBounds depth curve m).Inside (b.nodeBounds depth curve n) := by
  intro a
  obtain ⟨hlo, hhi⟩ := curve.box_inside hn hin a
  have hmlo := hm'.lo a
  have hmhi := hm'.hi a
  have hnlo := hn'.lo a
  have hnhi := hn'.hi a
  simp only [nodeBounds, bounds, Triple.get_ofFn] at hmlo hmhi hnlo hnhi ⊢
  exact ⟨line_le hlaw hb a hlo (hm'.length a) (hm'.unit a) (hn'.steps_lo a) (hm'.steps_lo a) hnlo hmlo,
    line_le hlaw hb a hhi (hm'.length a) (hm'.unit a) (hm'.steps_hi a) (hn'.steps_hi a) hmhi hnhi⟩

/-- The longest edge of a cell is not longer than that of a cell around it. -/
theorem edgeLength_mono : (b.nodeBounds depth curve m).edgeLength ≤ (b.nodeBounds depth curve n).edgeLength := by
  have hinside := nodeBounds_inside hlaw hb hn hin hm' hn'
  have hedge : ∀ a, (b.nodeBounds depth curve m).hi.get a - (b.nodeBounds depth curve m).lo.get a ≤
      (b.nodeBounds depth curve n).hi.get a - (b.nodeBounds depth curve n).lo.get a := fun a =>
    hlaw.sub_le_sub (hinside a).2 (hinside a).1 (hm'.edge a) (hn'.edge a)
  exact hlaw.max_le_max (hlaw.max_le_max (hlaw.max_le_max (zero_self hlaw) (hedge .x)) (hedge .y)) (hedge .z)

omit hn hin hm' hn' in
/-- If no value of any cell is unordered, distances and edges are those of nested cells. -/
theorem nests_of_computes (hcell : ∀ n : Node, n.IsCell depth → b.ComputesCell depth curve n)
    (hcells : ∀ m n : Node, m.IsCell depth → n.IsCell depth →
      b.Computes (b.nodeBounds depth curve m) (b.nodeBounds depth curve n)) : b.Nests depth curve where
  distance_le hm hn hm' hn' hin hin' :=
    distance_le_distance hlaw (nodeBounds_inside hlaw hb hn hin (hcell _ hm) (hcell _ hn))
      (nodeBounds_inside hlaw hb hn' hin' (hcell _ hm') (hcell _ hn')) (hcells _ _ hm hm') (hcells _ _ hn hn')
  edgeLength_le hm hn hin := edgeLength_mono hlaw hb hn hin (hcell _ hm) (hcell _ hn)

end Box

/-! ## The criterion -/

/-- Whether no value on the way to the decision about a node is unordered. -/
structure Criterion.Computes (c : Criterion α) (depth : Nat) (n : Node) : Prop where
  cell : c.box.ComputesCell depth c.curve n
  distance : ∀ s ∈ c.region, c.box.Computes (c.box.nodeBounds depth c.curve n) s
  /-- Within the radius the angle is not asked for. -/
  angle : c.radius < c.box.distanceToAny (c.box.nodeBounds depth c.curve n) c.region →
    InOrder (c.box.distanceToAny (c.box.nodeBounds depth c.curve n) c.region * c.theta)

namespace Criterion

theorem computes_of_inOrder (h : ∀ v : α, InOrder v) (c : Criterion α) (depth : Nat) (n : Node) : c.Computes depth n :=
  ⟨Box.computesCell_of_inOrder h c.box depth c.curve n, fun s _ => Box.computes_of_inOrder h c.box _ s, fun _ => h _⟩

/-- A node around one that needs resolution needs it as well, and larger regions are not farther apart. -/
theorem resolution_monotone (hlaw : LawfulRounding α) (c : Criterion α) (hb : c.box.Valid) (hradius : 0 ≤ c.radius)
    (htheta : 0 < c.theta) :
    (∀ m n : Node, m.IsCell depth → n.IsCell depth → (m.range depth).within (n.range depth) = true →
      c.Computes depth m → c.Computes depth n → c.needsResolution depth m = true → c.needsResolution depth n = true) ∧
    ∀ r r' s s' : Bounds α, r.Inside r' → s.Inside s' → c.box.Computes r s → c.box.Computes r' s' →
      c.box.distance r' s' ≤ c.box.distance r s := by
  refine ⟨fun m n hm hn hwithin hcm hcn h => ?_, fun r r' s s' hr hs => Box.distance_le_distance hlaw hr hs⟩
  have hin := Node.inside_of_within hm hn hwithin
  have hinside := Box.nodeBounds_inside hlaw hb hn hin hcm.cell hcn.cell
  have hdistance : c.box.distanceToAny (c.box.nodeBounds depth c.curve n) c.region ≤
      c.box.distanceToAny (c.box.nodeBounds depth c.curve m) c.region := by
    refine hlaw.foldl_min_le_foldl_min c.region hlaw.infinity fun s hs => ?_
    have hself : s.Inside s := fun a => ⟨((hcm.distance s hs).direct a).start, ((hcm.distance s hs).direct a).stop⟩
    exact Box.distance_le_distance hlaw hinside hself (hcm.distance s hs) (hcn.distance s hs)
  have hedge := Box.edgeLength_mono hlaw hb hn hin hcm.cell hcn.cell
  have htheta' : 0 ≤ c.theta := (hlaw.lt_iff.1 htheta).1
  refine needsResolution_of_closer hlaw.toLawfulComparison (hlaw.right hradius) hdistance hedge (fun hbeyond => ?_) h
  -- Beyond the radius the distance is not negative, and its product with the angle keeps the order.
  have hpos := hlaw.trans hradius (hlaw.lt_iff.1 hbeyond).1
  have hbeyond' : c.radius < c.box.distanceToAny (c.box.nodeBounds depth c.curve m) c.region :=
    hlaw.lt_of_lt_of_le hbeyond hdistance
  exact hlaw.mul_le_mul hpos hdistance htheta' (hlaw.right htheta') (hcn.angle hbeyond) (hcm.angle hbeyond')

/-- The surroundings of the first cell of the second level, in a cube that repeats along its first axis. -/
def aroundFirst : Criterion Rational where
  box := ⟨.replicate 0, .replicate 1, ⟨.periodic, .unbounded, .fixed⟩⟩
  curve := .hilbert
  region := [Box.nodeBounds ⟨.replicate 0, .replicate 1, ⟨.periodic, .unbounded, .fixed⟩⟩ 10 .hilbert ⟨0, 2⟩]
  radius := ⟨1 / 64⟩
  theta := ⟨1 / 2⟩

theorem valid_aroundFirst : aroundFirst.box.Valid := by
  intro a
  cases a <;> decide +kernel

/-- The last cell of the second level touches an image of the first one, so the octant around it needs resolution as well. -/
theorem resolution_monotone_periodic : aroundFirst.box.Valid ∧ 0 ≤ aroundFirst.radius ∧ 0 < aroundFirst.theta ∧
    aroundFirst.needsResolution 10 ⟨63 * 8 ^ 8, 2⟩ = true ∧ aroundFirst.needsResolution 10 ⟨7 * 8 ^ 9, 1⟩ = true := by
  have hradius : 0 ≤ aroundFirst.radius := by decide +kernel
  have htheta : 0 < aroundFirst.theta := by decide +kernel
  have hm : aroundFirst.needsResolution 10 ⟨63 * 8 ^ 8, 2⟩ = true := by decide +kernel
  have hcomputes := computes_of_inOrder Rational.le_self aroundFirst 10
  exact ⟨valid_aroundFirst, hradius, htheta, hm,
    (resolution_monotone Rational.lawfulRounding aroundFirst valid_aroundFirst hradius htheta).1
    ⟨63 * 8 ^ 8, 2⟩ ⟨7 * 8 ^ 9, 1⟩ ⟨by decide, by decide, by decide⟩ ⟨by decide, by decide, by decide⟩ (by decide)
    (hcomputes _) (hcomputes _) hm⟩

end Criterion

end CurvePartition
