-- SUMMARY: Distances and edges of nested cells: regions that grow come closer, also to the cells of a region.
import CurvePartition.Focus.Criterion
import CurvePartition.Proofs.Key.Cells
import CurvePartition.Proofs.Space.Ordering

/-!
# Nested cells in space

The region of a cell lies in the region of a cell around it, so the distance of two cells does not grow when one of them
grows, and its edges do not shrink. `Box.Nests` states this of computed distances and edges, which need not be exact.
-/

namespace CurvePartition

variable {depth : Nat} {α : Type} [Scalar α]

/-- Whether computed distances do not grow from a cell to one around it. -/
structure Box.NestsDistances (b : Box α) (depth : Nat) (curve : Curve) : Prop where
  distance_le : ∀ {m n m' n' : Node}, m.IsCell depth → n.IsCell depth → m'.IsCell depth → n'.IsCell depth →
    m.Inside depth n → m'.Inside depth n' →
    b.distance (b.nodeBounds depth curve n) (b.nodeBounds depth curve n') ≤
      b.distance (b.nodeBounds depth curve m) (b.nodeBounds depth curve m')

/-- Whether computed distances do not grow and edges do not shrink from a cell to one around it. -/
structure Box.Nests (b : Box α) (depth : Nat) (curve : Curve) : Prop where
  distance_le : ∀ {m n m' n' : Node}, m.IsCell depth → n.IsCell depth → m'.IsCell depth → n'.IsCell depth →
    m.Inside depth n → m'.Inside depth n' →
    b.distance (b.nodeBounds depth curve n) (b.nodeBounds depth curve n') ≤
      b.distance (b.nodeBounds depth curve m) (b.nodeBounds depth curve m')
  edgeLength_le : ∀ {m n : Node}, m.IsCell depth → n.IsCell depth → m.Inside depth n →
    (b.nodeBounds depth curve m).edgeLength ≤ (b.nodeBounds depth curve n).edgeLength

namespace Box

variable {b : Box α} {curve : Curve} {cells : List Node} {m n c : Node}

theorem Nests.distances (hnest : b.Nests depth curve) : b.NestsDistances depth curve := ⟨hnest.distance_le⟩

/-- Distances of cells are in order. -/
theorem NestsDistances.distance_self (hnest : b.NestsDistances depth curve) (hm : m.IsCell depth) (hn : n.IsCell depth) :
    b.distance (b.nodeBounds depth curve m) (b.nodeBounds depth curve n) ≤
      b.distance (b.nodeBounds depth curve m) (b.nodeBounds depth curve n) :=
  hnest.distance_le hm hm hn hn (Node.Inside.refl m) (Node.Inside.refl n)

variable (horder : Scalar.LawfulOrder α) (hnest : b.Nests depth curve) (hcells : ∀ c ∈ cells, c.IsCell depth)
include horder hnest hcells

/-- The distance to some cells is the least of the distances to them, or infinite. -/
theorem distanceToAny_spec (hn : n.IsCell depth) :
    (∀ c ∈ cells, b.distanceToAny (b.nodeBounds depth curve n) (cells.map (b.nodeBounds depth curve)) ≤
      b.distance (b.nodeBounds depth curve n) (b.nodeBounds depth curve c)) ∧
    (b.distanceToAny (b.nodeBounds depth curve n) (cells.map (b.nodeBounds depth curve)) = Scalar.infinity ∨
      ∃ c ∈ cells, b.distanceToAny (b.nodeBounds depth curve n) (cells.map (b.nodeBounds depth curve)) =
        b.distance (b.nodeBounds depth curve n) (b.nodeBounds depth curve c)) ∧
    b.distanceToAny (b.nodeBounds depth curve n) (cells.map (b.nodeBounds depth curve)) ≤ Scalar.infinity := by
  have hinf : (Scalar.infinity : α) ≤ Scalar.infinity := horder.infinity_le (hnest.distances.distance_self hn hn)
  obtain ⟨hle, hall, hone⟩ := horder.comparison.foldl_min
    (fun c => b.distance (b.nodeBounds depth curve n) (b.nodeBounds depth curve c)) cells hinf
    fun c hc => hnest.distances.distance_self hn (hcells c hc)
  unfold distanceToAny
  rw [List.foldl_map]
  exact ⟨hall, hone, hle⟩

/-- A cell is not farther from some cells than a cell inside it. -/
theorem distanceToAny_le (hm : m.IsCell depth) (hn : n.IsCell depth) (hin : m.Inside depth n) :
    b.distanceToAny (b.nodeBounds depth curve n) (cells.map (b.nodeBounds depth curve)) ≤
      b.distanceToAny (b.nodeBounds depth curve m) (cells.map (b.nodeBounds depth curve)) := by
  obtain ⟨hall, _, hinf⟩ := distanceToAny_spec horder hnest hcells hn
  obtain ⟨_, hone, _⟩ := distanceToAny_spec horder hnest hcells hm
  rcases hone with heq | ⟨c, hc, heq⟩
  · rw [heq]
    exact hinf
  · rw [heq]
    have hcell := hcells c hc
    exact horder.trans (hall c hc) (hnest.distance_le hm hn hcell hcell hin (Node.Inside.refl c))

/-! ## Cells touch themselves -/

/-- Whether the computed bounds of every cell are finite and in order. -/
structure Bounded (b : Box α) (depth : Nat) (curve : Curve) : Prop where
  finite : ∀ {n : Node} (a : Axis), n.IsCell depth → Scalar.isFinite ((b.nodeBounds depth curve n).lo.get a) = true ∧
    Scalar.isFinite ((b.nodeBounds depth curve n).hi.get a) = true
  lo_le_hi : ∀ {n : Node} (a : Axis), n.IsCell depth →
    (b.nodeBounds depth curve n).lo.get a ≤ (b.nodeBounds depth curve n).hi.get a

section Touching

omit horder hnest hcells

variable (horder : Scalar.LawfulOrder α) (hlaws : Scalar.LawfulZero α)
include horder hlaws

/-- There is no room between an interval and itself. -/
theorem isZero_room {lo hi : α} (hlo : Scalar.isFinite lo = true) (hhi : Scalar.isFinite hi = true) (hle : lo ≤ hi) :
    Scalar.IsZero (room lo hi lo hi) := by
  have hd := hlaws.sub_nonpos hlo hhi hle
  have hself : Scalar.max (lo - hi) (lo - hi) = lo - hi := by
    unfold Scalar.max
    split <;> rfl
  rw [room, hself]
  exact ⟨horder.comparison.max_le hd (horder.right hd), horder.comparison.zero_le_max (horder.right hd) _⟩

/-- The gap between a region and itself is zero, as no image is closer than the region. -/
theorem isZero_gap (b : Box α) {r : Bounds α} {a : Axis} (hlo : Scalar.isFinite (r.lo.get a) = true)
    (hhi : Scalar.isFinite (r.hi.get a) = true) (hle : r.lo.get a ≤ r.hi.get a) : Scalar.IsZero (b.gap r r a) := by
  have hdirect := isZero_room horder hlaws hlo hhi hle
  have hzero := horder.left hdirect.2
  have image : ∀ {g h : α}, Scalar.IsZero g → 0 ≤ h → Scalar.IsZero (Scalar.min g h) := by
    intro g h hg hh
    rcases horder.comparison.min_cases (horder.left hg.1) (horder.right hh) with ⟨heq, hmin⟩ | ⟨heq, _⟩
    · rw [heq]
      exact ⟨horder.trans hmin hg.1, hh⟩
    · rwa [heq]
  unfold gap
  cases b.boundaries.get a with
  | periodic => exact image (image hdirect (horder.comparison.zero_le_max hzero _)) (horder.comparison.zero_le_max hzero _)
  | unbounded => exact hdirect
  | fixed => exact hdirect

/-- A cell touches itself. -/
theorem Bounded.distance_self_le (hb : b.Bounded depth curve) (hn : n.IsCell depth) :
    b.distance (b.nodeBounds depth curve n) (b.nodeBounds depth curve n) ≤ 0 := by
  have hgap : ∀ a, Scalar.IsZero (b.gap (b.nodeBounds depth curve n) (b.nodeBounds depth curve n) a) := fun a =>
    isZero_gap horder hlaws b (hb.finite a hn).1 (hb.finite a hn).2 (hb.lo_le_hi a hn)
  have hsquare := fun a => hlaws.mul (hgap a) (hgap a)
  have hzero : Scalar.IsZero (0 : α) := ⟨horder.left (hgap .x).2, horder.left (hgap .x).2⟩
  exact (hlaws.sqrt (hlaws.add (hlaws.add (hlaws.add hzero (hsquare .x)) (hsquare .y)) (hsquare .z))).1

/-- Every cell inside one of some cells is at no distance of them. -/
theorem distanceToAny_le_zero (hnest : b.Nests depth curve) (hb : b.Bounded depth curve)
    (hcells : ∀ c ∈ cells, c.IsCell depth) (hn : n.IsCell depth) (hc : c ∈ cells) (hin : n.Inside depth c) :
    b.distanceToAny (b.nodeBounds depth curve n) (cells.map (b.nodeBounds depth curve)) ≤ 0 := by
  have hleast := (distanceToAny_spec horder hnest hcells hn).1 c hc
  have hnested := hnest.distance_le hn hn hn (hcells c hc) (Node.Inside.refl n) hin
  exact horder.trans hleast (horder.trans hnested (hb.distance_self_le horder hlaws hn))

end Touching

end Box

/-! ## The criterion -/

/-- A node needs resolution if one does that is not closer and whose edges are not longer, provided that beyond the radius a
product with the angle keeps the order of their distances. -/
theorem Criterion.needsResolution_of_closer {c : Criterion α} (hlaw : Scalar.LawfulComparison α) {m n : Node}
    (hradius : c.radius ≤ c.radius)
    (hdistance : c.box.distanceToAny (c.box.nodeBounds depth c.curve n) c.region ≤
      c.box.distanceToAny (c.box.nodeBounds depth c.curve m) c.region)
    (hedge : (c.box.nodeBounds depth c.curve m).edgeLength ≤ (c.box.nodeBounds depth c.curve n).edgeLength)
    (hangle : c.radius < c.box.distanceToAny (c.box.nodeBounds depth c.curve n) c.region →
      c.box.distanceToAny (c.box.nodeBounds depth c.curve n) c.region * c.theta ≤
        c.box.distanceToAny (c.box.nodeBounds depth c.curve m) c.region * c.theta)
    (h : c.needsResolution depth m = true) : c.needsResolution depth n = true := by
  simp only [needsResolution, Bool.or_eq_true, decide_eq_true_eq] at h ⊢
  rcases h with hnear | hwide
  · exact .inl (hlaw.trans hdistance hnear)
  · by_cases hnear : c.box.distanceToAny (c.box.nodeBounds depth c.curve n) c.region ≤ c.radius
    · exact .inl hnear
    · have hbeyond := hlaw.lt_of_not_le hradius (hlaw.left hdistance) hnear
      exact .inr (hlaw.trans (hangle hbeyond) (hlaw.trans hwide hedge))

end CurvePartition
