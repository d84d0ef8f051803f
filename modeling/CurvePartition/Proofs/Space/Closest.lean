-- SUMMARY: With exact rationals the distance of two regions is the least distance of their points, and that of two points the least over their images.
import Mathlib.Tactic.Linarith
import Mathlib.Tactic.Ring
import CurvePartition.Proofs.Space.Intervals
import CurvePartition.Proofs.Space.Rational
import CurvePartition.Proofs.Space.Rounding

/-!
# Closest points

On a periodic axis a coordinate stands for its images, one for each whole number of lengths. `Box.difference` leads to the
nearest of all images (`Box.abs_difference_le_turned`), while `Box.gap` looks at three images of a region only. For regions
inside the box these are enough: two points of it are at most a length apart, so an image that is two lengths away is no
closer than the point itself (`Box.gap_le_image`). Distances are squared.
-/

namespace CurvePartition

namespace Rational

variable {a b : Rational}

@[simp] theorem value_zero : (0 : Rational).value = 0 := rfl

@[simp] theorem value_add (a b : Rational) : (a + b).value = a.value + b.value := rfl

@[simp] theorem value_sub (a b : Rational) : (a - b).value = a.value - b.value := rfl

@[simp] theorem value_mul (a b : Rational) : (a * b).value = a.value * b.value := rfl

@[simp] theorem value_div (a b : Rational) : (a / b).value = a.value / b.value := rfl

@[simp] theorem value_sqrt (a : Rational) : (Scalar.sqrt a).value = a.value := rfl

theorem eq_of_value (h : a.value = b.value) : a = b := by
  cases a
  cases b
  exact congrArg mk h

@[simp] theorem value_max (a b : Rational) : (Scalar.max a b).value = max a.value b.value := by
  rcases lawfulRounding.max_cases (le_self a) (le_self b) with ⟨heq, hle⟩ | ⟨heq, hle⟩
  · rw [heq, max_eq_right (le_iff.1 hle)]
  · rw [heq, max_eq_left (le_iff.1 hle)]

@[simp] theorem value_min (a b : Rational) : (Scalar.min a b).value = min a.value b.value := by
  rcases lawfulRounding.min_cases (le_self a) (le_self b) with ⟨heq, hle⟩ | ⟨heq, hle⟩
  · rw [heq, min_eq_right (le_iff.1 hle)]
  · rw [heq, min_eq_left (le_iff.1 hle)]

theorem value_round (a : Rational) : (Scalar.round a).value = Interval.nearest a.value := by
  change (if 0 ≤ a.value then (⌊a.value + 1 / 2⌋ : ℚ) else ⌈a.value - 1 / 2⌉) = _
  rw [Interval.nearest_eq]
  split <;> rfl

theorem value_room (lo hi lo' hi' : Rational) :
    (Box.room lo hi lo' hi').value = Interval.room lo.value hi.value lo'.value hi'.value := by
  simp [Box.room, Interval.room]

/-! ## Sums of squares -/

/-- Sum of the squares of three differences. -/
def squares (d : Axis → ℚ) : ℚ := d .x ^ 2 + d .y ^ 2 + d .z ^ 2

theorem squares_le {d e : Axis → ℚ} (h : ∀ a, |d a| ≤ |e a|) : squares d ≤ squares e :=
  add_le_add (add_le_add (sq_le_sq.2 (h .x)) (sq_le_sq.2 (h .y))) (sq_le_sq.2 (h .z))

theorem squares_congr {d e : Axis → ℚ} (h : ∀ a, |d a| = |e a|) : squares d = squares e :=
  le_antisymm (squares_le fun a => (h a).le) (squares_le fun a => (h a).ge)

end Rational

/-- Whether a coordinate lies between the faces of a region, or on one of them. -/
def Bounds.Between {α : Type} [Scalar α] (r : Bounds α) (a : Axis) (x : α) : Prop := r.lo.get a ≤ x ∧ x ≤ r.hi.get a

/-- Whether a position lies in a region, its faces included. -/
def Bounds.Holds {α : Type} [Scalar α] (r : Bounds α) (p : Triple α) : Prop := ∀ a, r.Between a (p.get a)

namespace Box

open Rational

variable {b : Box Rational} {r s : Bounds Rational} {a : Axis} {x y : Rational}

/-- A region between the bounds of a box. -/
structure HasRegion (b : Box Rational) (r : Bounds Rational) : Prop where
  lo_le_hi : ∀ a, r.lo.get a ≤ r.hi.get a
  inside : r.Inside ⟨b.lo, b.hi⟩

theorem HasRegion.between (h : b.HasRegion r) (hx : r.Between a x) : Bounds.Between ⟨b.lo, b.hi⟩ a x :=
  ⟨lawfulRounding.trans (h.inside a).1 hx.1, lawfulRounding.trans hx.2 (h.inside a).2⟩

/-- Whether a coordinate may be moved by a number of lengths without leaving its images. -/
def MayTurn (b : Box Rational) (a : Axis) (k : ℤ) : Prop := b.boundaries.get a ≠ .periodic → k = 0

/-- A coordinate moved by a number of lengths. -/
def turnedAxis (b : Box Rational) (a : Axis) (k : ℤ) (y : Rational) : Rational := ⟨y.value + k * (b.length a).value⟩

theorem turnedAxis_le_iff {k : ℤ} {z : Rational} : b.turnedAxis a k y ≤ b.turnedAxis a k z ↔ y ≤ z :=
  add_le_add_iff_right (k * (b.length a).value)

/-- An image of a position. -/
def turned (b : Box Rational) (turns : Axis → ℤ) (q : Triple Rational) : Triple Rational :=
  .ofFn fun a => b.turnedAxis a (turns a) (q.get a)

/-- The box without periodic axes. -/
def flat (b : Box Rational) : Box Rational := { b with boundaries := .replicate .unbounded }

/-! ## One axis -/

/-- The difference leads to one of the images. -/
theorem exists_difference_eq (b : Box Rational) (a : Axis) (x y : Rational) :
    ∃ k, b.MayTurn a k ∧ (b.difference a x y).value = (b.turnedAxis a k y).value - x.value := by
  cases hboundary : b.boundaries.get a with
  | periodic =>
    refine ⟨-Interval.nearest ((y.value - x.value) / (b.length a).value), fun hne => absurd hboundary hne, ?_⟩
    simp only [difference, turnedAxis, hboundary, value_sub, value_mul, value_round, value_div]
    push_cast
    ring
  | unbounded | fixed =>
    refine ⟨0, fun _ => rfl, ?_⟩
    simp [difference, turnedAxis, hboundary]

/-- No image is nearer. -/
theorem abs_difference_le_turned (hlength : 0 < (b.length a).value) {k : ℤ} (hk : b.MayTurn a k) :
    |(b.difference a x y).value| ≤ |(b.turnedAxis a k y).value - x.value| := by
  cases hboundary : b.boundaries.get a with
  | periodic =>
    obtain ⟨t, ht⟩ : ∃ t, t = (y.value - x.value) / (b.length a).value := ⟨_, rfl⟩
    have hdifference : (b.difference a x y).value = (b.length a).value * (t - Interval.nearest t) := by
      simp only [difference, hboundary, value_sub, value_mul, value_round, value_div, ← ht]
      rw [ht]
      field_simp
    have hturned : (b.turnedAxis a k y).value - x.value = (b.length a).value * (t + k) := by
      rw [turnedAxis, ht]
      field_simp
      ring
    rw [hdifference, hturned, abs_mul, abs_mul]
    exact mul_le_mul_of_nonneg_left (Interval.abs_sub_nearest_le t k) (abs_nonneg _)
  | unbounded | fixed =>
    rw [hk (by rw [hboundary]; decide)]
    simp [difference, turnedAxis, hboundary]

theorem abs_difference_comm (hlength : 0 < (b.length a).value) :
    |(b.difference a x y).value| = |(b.difference a y x).value| := by
  have hle : ∀ x y, |(b.difference a x y).value| ≤ |(b.difference a y x).value| := by
    intro x y
    obtain ⟨k, hk, heq⟩ := b.exists_difference_eq a y x
    have hback : b.MayTurn a (-k) := fun hne => by rw [hk hne, neg_zero]
    refine (abs_difference_le_turned hlength hback).trans (le_of_eq ?_)
    rw [heq, ← abs_neg, turnedAxis, turnedAxis]
    push_cast
    ring_nf
  exact le_antisymm (hle x y) (hle y x)

/-- Room between the projection of a region and an image of that of another one. -/
def imageRoom (b : Box Rational) (r s : Bounds Rational) (a : Axis) (k : ℤ) : ℚ :=
  Interval.room (r.lo.get a).value (r.hi.get a).value
    (b.turnedAxis a k (s.lo.get a)).value (b.turnedAxis a k (s.hi.get a)).value

theorem value_gap_periodic (h : b.boundaries.get a = .periodic) :
    (b.gap r s a).value = min (min (b.imageRoom r s a 0) (b.imageRoom r s a (-1))) (b.imageRoom r s a 1) := by
  simp [gap, h, imageRoom, turnedAxis, value_room, sub_eq_add_neg]

theorem value_gap_of_ne (h : b.boundaries.get a ≠ .periodic) : (b.gap r s a).value = b.imageRoom r s a 0 := by
  cases hboundary : b.boundaries.get a with
  | periodic => exact absurd hboundary h
  | unbounded | fixed => simp [gap, hboundary, imageRoom, turnedAxis, value_room]

theorem exists_gap_eq (b : Box Rational) (r s : Bounds Rational) (a : Axis) :
    ∃ k, b.MayTurn a k ∧ (b.gap r s a).value = b.imageRoom r s a k := by
  by_cases hboundary : b.boundaries.get a = .periodic
  · have hturn : ∀ k, b.MayTurn a k := fun k hne => absurd hboundary hne
    rw [value_gap_periodic hboundary]
    rcases min_choice (min (b.imageRoom r s a 0) (b.imageRoom r s a (-1))) (b.imageRoom r s a 1) with h | h
    · rcases min_choice (b.imageRoom r s a 0) (b.imageRoom r s a (-1)) with h' | h'
      · exact ⟨0, hturn 0, h.trans h'⟩
      · exact ⟨-1, hturn (-1), h.trans h'⟩
    · exact ⟨1, hturn 1, h⟩
  · exact ⟨0, fun _ => rfl, value_gap_of_ne hboundary⟩

theorem value_gap_nonneg (b : Box Rational) (r s : Bounds Rational) (a : Axis) : 0 ≤ (b.gap r s a).value := by
  obtain ⟨k, _, hgap⟩ := b.exists_gap_eq r s a
  exact hgap ▸ Interval.room_nonneg _ _ _ _

theorem imageRoom_le_abs (hx : r.Between a x) (hy : s.Between a y) (k : ℤ) :
    b.imageRoom r s a k ≤ |(b.turnedAxis a k y).value - x.value| :=
  Interval.room_le_abs hx ⟨turnedAxis_le_iff.2 hy.1, turnedAxis_le_iff.2 hy.2⟩

/-- Two points of the box are at most one length apart, so two lengths lead at least as far away as none. -/
theorem abs_sub_le_turned (hx : Bounds.Between ⟨b.lo, b.hi⟩ a x) (hy : Bounds.Between ⟨b.lo, b.hi⟩ a y) {k : ℤ}
    (hk : 2 ≤ |k|) : |y.value - x.value| ≤ |(b.turnedAxis a k y).value - x.value| := by
  have hnear : |y.value - x.value| ≤ (b.length a).value := abs_sub_le_of_le_of_le hy.1 hy.2 hx.1 hx.2
  have hturns : 2 * (b.length a).value ≤ |k * (b.length a).value| := by
    rw [abs_mul, abs_of_nonneg ((abs_nonneg _).trans hnear)]
    exact mul_le_mul_of_nonneg_right (by exact_mod_cast hk) ((abs_nonneg _).trans hnear)
  have hsplit : (k * (b.length a).value : ℚ) = ((b.turnedAxis a k y).value - x.value) - (y.value - x.value) := by
    rw [turnedAxis]
    ring
  have htriangle := abs_sub ((b.turnedAxis a k y).value - x.value) (y.value - x.value)
  rw [← hsplit] at htriangle
  linarith

/-- For regions inside the box, no image of a point is closer than the three images that the gap looks at. -/
theorem gap_le_image (hr : b.HasRegion r) (hs : b.HasRegion s) (hx : r.Between a x) (hy : s.Between a y) {k : ℤ}
    (hk : b.MayTurn a k) : (b.gap r s a).value ≤ |(b.turnedAxis a k y).value - x.value| := by
  have himage := b.imageRoom_le_abs hx hy
  by_cases hboundary : b.boundaries.get a = .periodic
  · rw [value_gap_periodic hboundary]
    obtain rfl | rfl | rfl | hfar : k = 0 ∨ k = -1 ∨ k = 1 ∨ 2 ≤ |k| := by
      rcases abs_cases k with ⟨habs, _⟩ | ⟨habs, _⟩ <;> omega
    · exact ((min_le_left _ _).trans (min_le_left _ _)).trans (himage 0)
    · exact ((min_le_left _ _).trans (min_le_right _ _)).trans (himage (-1))
    · exact (min_le_right _ _).trans (himage 1)
    · refine ((min_le_left _ _).trans (min_le_left _ _)).trans ((himage 0).trans ?_)
      have hfar := abs_sub_le_turned (hr.between hx) (hs.between hy) hfar
      rwa [turnedAxis, Int.cast_zero, zero_mul, add_zero]
  · rw [value_gap_of_ne hboundary, hk hboundary]
    exact himage 0

/-- The gap is the least difference of two points, one from each region. -/
theorem isLeast_gap (hb : b.lo.get a < b.hi.get a) (hr : b.HasRegion r) (hs : b.HasRegion s) :
    IsLeast {d | ∃ x y, r.Between a x ∧ s.Between a y ∧ d = |(b.difference a x y).value|} (b.gap r s a).value := by
  have hlower : ∀ x y, r.Between a x → s.Between a y → (b.gap r s a).value ≤ |(b.difference a x y).value| := by
    intro x y hx hy
    obtain ⟨k, hk, heq⟩ := b.exists_difference_eq a x y
    rw [heq]
    exact gap_le_image hr hs hx hy hk
  constructor
  · obtain ⟨k, hk, hgap⟩ := b.exists_gap_eq r s a
    obtain ⟨x, y, hx, hy, hroom⟩ := Interval.exists_abs_eq_room (le_iff.1 (hr.lo_le_hi a))
      (le_iff.1 (turnedAxis_le_iff.2 (hs.lo_le_hi a)))
    -- The point of the image region is the image of a point.
    obtain ⟨z, rfl⟩ : ∃ z, y = (b.turnedAxis a k z).value := ⟨⟨y - k * (b.length a).value⟩, by rw [turnedAxis]; ring⟩
    have hz : s.Between a z := ⟨turnedAxis_le_iff.1 hy.1, turnedAxis_le_iff.1 hy.2⟩
    refine ⟨⟨x⟩, z, hx, hz, le_antisymm (hlower ⟨x⟩ z hx hz) ?_⟩
    rw [hgap]
    exact (abs_difference_le_turned (sub_pos.2 hb) hk).trans hroom.ge
  · rintro d ⟨x, y, hx, hy, rfl⟩
    exact hlower x y hx hy

/-! ## Positions and regions -/

theorem value_pointDistance (b : Box Rational) (p q : Triple Rational) :
    (b.pointDistance p q).value = squares fun a => (b.difference a (p.get a) (q.get a)).value := by
  simp only [pointDistance, differences, Triple.ofFn, squares, value_sqrt, value_add, value_mul, value_zero, zero_add, sq]

theorem value_distance (b : Box Rational) (r s : Bounds Rational) :
    (b.distance r s).value = squares fun a => (b.gap r s a).value := by
  simp only [distance, squares, value_sqrt, value_add, value_mul, value_zero, zero_add, sq]

theorem value_flat_pointDistance (b : Box Rational) (p q : Triple Rational) :
    (b.flat.pointDistance p q).value = squares fun a => (q.get a).value - (p.get a).value := by
  rw [value_pointDistance]
  refine congrArg squares (funext fun a => ?_)
  simp [difference, flat]

section Ordered

variable (hb : ∀ a, b.lo.get a < b.hi.get a)
include hb

/-- The distance of two positions is the least distance to an image. -/
theorem isLeast_pointDistance (p q : Triple Rational) :
    IsLeast {d | ∃ turns, (∀ a, b.MayTurn a (turns a)) ∧ d = b.flat.pointDistance p (b.turned turns q)}
      (b.pointDistance p q) := by
  have hflat : ∀ turns, (b.flat.pointDistance p (b.turned turns q)).value =
      squares fun a => (b.turnedAxis a (turns a) (q.get a)).value - (p.get a).value := by
    intro turns
    rw [value_flat_pointDistance]
    simp only [turned, Triple.get_ofFn]
  constructor
  · choose turns hturns heq using fun a => b.exists_difference_eq a (p.get a) (q.get a)
    refine ⟨turns, hturns, eq_of_value ?_⟩
    rw [hflat, value_pointDistance]
    simp only [heq]
  · rintro d ⟨turns, hturns, rfl⟩
    rw [le_iff, hflat, value_pointDistance]
    exact squares_le fun a => abs_difference_le_turned (sub_pos.2 (hb a)) (hturns a)

theorem pointDistance_comm (p q : Triple Rational) : b.pointDistance p q = b.pointDistance q p := by
  refine eq_of_value ?_
  rw [value_pointDistance, value_pointDistance]
  exact squares_congr fun a => abs_difference_comm (sub_pos.2 (hb a))

/-- The distance of two regions is the least distance of two points, one from each. -/
theorem isLeast_distance (hr : b.HasRegion r) (hs : b.HasRegion s) :
    IsLeast {d | ∃ p q, r.Holds p ∧ s.Holds q ∧ d = b.pointDistance p q} (b.distance r s) := by
  constructor
  · choose x hx using fun a => (isLeast_gap (hb a) hr hs).1
    choose y hx hy hgap using hx
    refine ⟨.ofFn x, .ofFn y, fun a => ?_, fun a => ?_, eq_of_value ?_⟩
    · rw [Triple.get_ofFn]
      exact hx a
    · rw [Triple.get_ofFn]
      exact hy a
    · rw [value_distance, value_pointDistance]
      refine squares_congr fun a => ?_
      rw [Triple.get_ofFn, Triple.get_ofFn, hgap, abs_abs]
  · rintro d ⟨p, q, hp, hq, rfl⟩
    rw [le_iff, value_distance, value_pointDistance]
    refine squares_le fun a => ?_
    rw [abs_of_nonneg (b.value_gap_nonneg r s a)]
    exact (isLeast_gap (hb a) hr hs).2 ⟨p.get a, q.get a, hp a, hq a, rfl⟩

/-- Between regions inside a box whose bounds are in order, the distance is the least that two points can have, one from
each region, where that of two points is the least over all images. It does not depend on the order of the regions. -/
theorem distance_closest (hr : b.HasRegion r) (hs : b.HasRegion s) :
    IsLeast {d | ∃ p q, r.Holds p ∧ s.Holds q ∧ d = b.pointDistance p q} (b.distance r s) ∧
      (∀ p q, IsLeast {d | ∃ turns, (∀ a, b.MayTurn a (turns a)) ∧ d = b.flat.pointDistance p (b.turned turns q)}
        (b.pointDistance p q)) ∧
      b.distance s r = b.distance r s := by
  have hleast := isLeast_distance hb hr hs
  refine ⟨hleast, isLeast_pointDistance hb, ?_⟩
  have hle : ∀ {r s : Bounds Rational}, b.HasRegion r → b.HasRegion s → b.distance s r ≤ b.distance r s := by
    intro r s hr hs
    obtain ⟨p, q, hp, hq, heq⟩ := (isLeast_distance hb hr hs).1
    rw [heq, pointDistance_comm hb]
    exact (isLeast_distance hb hs hr).2 ⟨q, p, hq, hp, rfl⟩
  exact eq_of_value (le_antisymm (hle hr hs) (hle hs hr))

end Ordered

/-- On the first axis the regions are closest through a face, on the third one, where the first of them is longer than half
the box, they touch there. -/
theorem distance_closest_mixed :
    let b : Box Rational := ⟨⟨⟨0⟩, ⟨0⟩, ⟨-1⟩⟩, ⟨⟨1⟩, ⟨2⟩, ⟨1⟩⟩, ⟨.periodic, .fixed, .periodic⟩⟩
    let r : Bounds Rational := ⟨⟨⟨1 / 8⟩, ⟨0⟩, ⟨-1⟩⟩, ⟨⟨1 / 4⟩, ⟨1 / 2⟩, ⟨1 / 2⟩⟩⟩
    let s : Bounds Rational := ⟨⟨⟨3 / 4⟩, ⟨1⟩, ⟨3 / 4⟩⟩, ⟨⟨1⟩, ⟨2⟩, ⟨1⟩⟩⟩
    (∀ a, b.lo.get a < b.hi.get a) ∧ b.HasRegion r ∧ b.HasRegion s ∧ b.distance s r = ⟨17 / 64⟩ ∧
      IsLeast {d | ∃ p q, r.Holds p ∧ s.Holds q ∧ d = b.pointDistance p q} ⟨17 / 64⟩ := by
  intro b r s
  have hb : ∀ a, b.lo.get a < b.hi.get a := fun a => by cases a <;> decide +kernel
  have hr : b.HasRegion r := ⟨fun a => by cases a <;> decide +kernel, fun a => by cases a <;> decide +kernel⟩
  have hs : b.HasRegion s := ⟨fun a => by cases a <;> decide +kernel, fun a => by cases a <;> decide +kernel⟩
  have hdistance : b.distance r s = ⟨17 / 64⟩ := by decide +kernel
  obtain ⟨hleast, _, hcomm⟩ := distance_closest hb hr hs
  exact ⟨hb, hr, hs, hcomm.trans hdistance, hdistance ▸ hleast⟩

end Box

end CurvePartition
