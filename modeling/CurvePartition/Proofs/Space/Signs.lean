-- SUMMARY: Boxes that differ in signs of zeros only: cells, keys, distances and the criterion of resolution are the same in them.
import CurvePartition.Focus.Criterion
import CurvePartition.Proofs.Space.Mapping
import CurvePartition.Proofs.Space.Ordering

/-!
# Signs of zeros

Bounds of an open axis come from a maximum over all ranks, and which of two zeros is kept depends on the order of the ranks.
So boxes of the same particles may differ in the signs of zeros (`Box.Alike`). Whatever is computed from the bounds differs in
signs of zeros as well, or not at all: a position has the same key in both boxes (`Box.Alike.encode_eq`), and the same cells
need resolution (`Box.Alike.needsResolution_eq`).
-/

namespace CurvePartition

open Scalar

variable {α : Type} [Scalar α]

/-- Regions whose bounds differ in signs of zeros only. -/
structure Bounds.Alike (r r' : Bounds α) : Prop where
  lo : ∀ a, Scalar.Alike (r.lo.get a) (r'.lo.get a)
  hi : ∀ a, Scalar.Alike (r.hi.get a) (r'.hi.get a)

/-- Boxes with the same closed axes, whose open ones differ in signs of zeros only. -/
structure Box.Alike (b b' : Box α) : Prop extends b.SameClosed b' where
  lo : ∀ a, Scalar.Alike (b.lo.get a) (b'.lo.get a)
  hi : ∀ a, Scalar.Alike (b.hi.get a) (b'.hi.get a)

/-- Causes that differ in signs of zeros only. -/
inductive Error.Alike : Error α → Error α → Prop where
  | same (e : Error α) : Alike e e
  | invalidBox (axis : Nat) {lo hi lo' hi' : α} (hlo : Scalar.Alike lo lo') (hhi : Scalar.Alike hi hi') :
      Alike (.invalidBox axis lo hi) (.invalidBox axis lo' hi')

theorem Error.Alike.symm {e e' : Error α} (h : e.Alike e') : e'.Alike e := by
  cases h with
  | same => exact .same e
  | invalidBox axis hlo hhi => exact .invalidBox axis hlo.symm hhi.symm

namespace Box

variable {b b' : Box α} {depth : Nat} {curve : Curve} {r s r' s' : Bounds α} {p : Triple α} {n : Node}

theorem Alike.symm (h : b.Alike b') : b'.Alike b := ⟨h.toSameClosed.symm, fun a => (h.lo a).symm, fun a => (h.hi a).symm⟩

variable (hlaw : LawfulSigns α) (h : b.Alike b')

/-! ## Positions -/

section Positions

include h

/-- Positions are mapped alike. -/
theorem Alike.moved_eq (p : Triple α) : b'.moved p = b.moved p := by
  unfold moved
  cases hp : b.normalize p with
  | ok q => rw [h.toSameClosed.normalize_eq hp]
  | error e =>
    cases hp' : b'.normalize p with
    | ok q => cases hp.symm.trans (h.symm.toSameClosed.normalize_eq hp')
    | error e' => rfl

include hlaw

/-- Positions have the same cells. A length is no zero, so none is divided by. -/
theorem Alike.gridCoordinates_eq (hb : b.Valid) (p : Triple α) : b'.gridCoordinates depth p = b.gridCoordinates depth p := by
  have haxis : ∀ a, gridCoordinate depth (b'.lo.get a) (b'.hi.get a) (p.get a) =
      gridCoordinate depth (b.lo.get a) (b.hi.get a) (p.get a) := by
    intro a
    have hvalid := hb a
    simp only [isValidAxis, Bool.and_eq_true, decide_eq_true_eq] at hvalid
    obtain ⟨⟨hlo, hhi⟩, hlt⟩ := hvalid
    have hlength : b'.hi.get a - b'.lo.get a = b.hi.get a - b.lo.get a :=
      (hlaw.sub (h.hi a).symm (h.lo a).symm).eq (hlaw.not_isZero_sub hlo hhi hlt)
    have hscaled : Scalar.Alike ((p.get a - b'.lo.get a) / (b.hi.get a - b.lo.get a) * cells depth)
        ((p.get a - b.lo.get a) / (b.hi.get a - b.lo.get a) * cells depth) :=
      hlaw.mul (hlaw.div (hlaw.sub (.refl _) (h.lo a).symm)) (.refl _)
    unfold gridCoordinate
    simp only [hlength]
    by_cases hle : (p.get a - b.lo.get a) / (b.hi.get a - b.lo.get a) * cells depth ≤ 0
    · rw [if_pos hle, if_pos ((hlaw.le_alike_iff hscaled (.refl 0)).2 hle)]
    · rw [hscaled.eq fun hzero => hle hzero.1]
  unfold gridCoordinates
  simp only [haxis]

/-- Positions have the same keys. -/
theorem Alike.encode_eq (hb : b.Valid) (p : Triple α) : b'.encode depth curve p = b.encode depth curve p := by
  rw [encode, encode, h.gridCoordinates_eq hlaw hb]

end Positions

/-! ## Regions -/

include hlaw

omit h in
theorem room_alike {lo hi lo' hi' lo₁ hi₁ lo₁' hi₁' : α} (hlo : Scalar.Alike lo lo₁) (hhi : Scalar.Alike hi hi₁)
    (hlo' : Scalar.Alike lo' lo₁') (hhi' : Scalar.Alike hi' hi₁') :
    Scalar.Alike (room lo hi lo' hi') (room lo₁ hi₁ lo₁' hi₁') :=
  hlaw.max_alike (hlaw.max_alike (hlaw.sub hlo hhi') (hlaw.sub hlo' hhi)) (.refl 0)

omit h in
theorem edgeLength_alike (hr : r.Alike r') : Scalar.Alike r.edgeLength r'.edgeLength :=
  hlaw.max_alike (hlaw.max_alike (hlaw.max_alike (.refl 0) (hlaw.sub (hr.hi .x) (hr.lo .x))) (hlaw.sub (hr.hi .y) (hr.lo .y)))
    (hlaw.sub (hr.hi .z) (hr.lo .z))

include h

theorem Alike.length (a : Axis) : Scalar.Alike (b.length a) (b'.length a) := hlaw.sub (h.hi a) (h.lo a)

theorem Alike.nodeBounds (depth : Nat) (curve : Curve) (n : Node) :
    (b.nodeBounds depth curve n).Alike (b'.nodeBounds depth curve n) where
  lo a := by
    simp only [Box.nodeBounds, bounds, Triple.get_ofFn]
    exact hlaw.add (h.lo a) (hlaw.mul (.refl _) (hlaw.div (h.length hlaw a)))
  hi a := by
    simp only [Box.nodeBounds, bounds, Triple.get_ofFn]
    exact hlaw.add (h.lo a) (hlaw.mul (.refl _) (hlaw.div (h.length hlaw a)))

theorem Alike.gap (hr : r.Alike r') (hs : s.Alike s') (a : Axis) : Scalar.Alike (b.gap r s a) (b'.gap r' s' a) := by
  have hdirect := room_alike hlaw (hr.lo a) (hr.hi a) (hs.lo a) (hs.hi a)
  have hlength := h.length hlaw a
  unfold Box.gap
  rw [h.boundaries]
  cases b.boundaries.get a with
  | periodic =>
    exact hlaw.min_alike (hlaw.min_alike hdirect
      (room_alike hlaw (hr.lo a) (hr.hi a) (hlaw.sub (hs.lo a) hlength) (hlaw.sub (hs.hi a) hlength)))
      (room_alike hlaw (hr.lo a) (hr.hi a) (hlaw.add (hs.lo a) hlength) (hlaw.add (hs.hi a) hlength))
  | unbounded => exact hdirect
  | fixed => exact hdirect

theorem Alike.distance (hr : r.Alike r') (hs : s.Alike s') : Scalar.Alike (b.distance r s) (b'.distance r' s') := by
  have hgap := h.gap hlaw hr hs
  exact hlaw.sqrt (hlaw.add (hlaw.add (hlaw.add (.refl 0) (hlaw.mul (hgap .x) (hgap .x))) (hlaw.mul (hgap .y) (hgap .y)))
    (hlaw.mul (hgap .z) (hgap .z)))

/-- Distances to the cells that cover a range. -/
theorem Alike.distanceToAny (depth : Nat) (curve : Curve) (hr : r.Alike r') (range : KeyRange) :
    Scalar.Alike (b.distanceToAny r (b.rangeBounds depth curve range))
      (b'.distanceToAny r' (b'.rangeBounds depth curve range)) := by
  have hfold : ∀ (cells : List Node) {x x' : α}, Scalar.Alike x x' →
      Scalar.Alike (cells.foldl (fun least n => Scalar.min least (b.distance r (b.nodeBounds depth curve n))) x)
        (cells.foldl (fun least n => Scalar.min least (b'.distance r' (b'.nodeBounds depth curve n))) x') := by
    intro cells
    induction cells with
    | nil => exact fun hx => hx
    | cons n rest ih => exact fun hx => ih (hlaw.min_alike hx (h.distance hlaw hr (h.nodeBounds hlaw depth curve n)))
  rw [Box.distanceToAny, Box.distanceToAny, rangeBounds, rangeBounds, List.foldl_map, List.foldl_map]
  exact hfold _ (.refl _)

/-- The same cells need resolution. -/
theorem Alike.needsResolution_eq {radius radius' : α} (hradius : Scalar.Alike radius radius') (range : KeyRange) (theta : α)
    (n : Node) : (⟨b', curve, b'.rangeBounds depth curve range, radius', theta⟩ : Criterion α).needsResolution depth n =
      (⟨b, curve, b.rangeBounds depth curve range, radius, theta⟩ : Criterion α).needsResolution depth n := by
  have hbounds := h.nodeBounds hlaw depth curve n
  have hdistance := h.distanceToAny hlaw depth curve hbounds range
  simp only [Criterion.needsResolution, ← hlaw.le_alike_iff hdistance hradius,
    ← hlaw.le_alike_iff (hlaw.mul hdistance (.refl theta)) (edgeLength_alike hlaw hbounds)]

end Box

end CurvePartition
