-- SUMMARY: The global box: all ranks find the same one, it depends on the coordinates of all ranks together only, and its open axes reach around them.
import CurvePartition.Proofs.Space.Points
import CurvePartition.Proofs.Space.Signs
import CurvePartition.Proofs.Global.Extremes

/-!
# Bounds of all particles

The box takes the bounds of its open axes from the extreme coordinates and keeps those of the other axes. It is found axis
by axis, and the first one with invalid bounds is the failure (`Global.foldlM_fitAxis`). So, but for the signs of zeros, it is
determined by the coordinates (`Global.fitted_alike`), and with exact numbers it encloses them (`Global.fitted_spec`).
-/

namespace CurvePartition

open Program

namespace Global

variable {α β : Type} [Scalar α] [Wire α β] {size : Nat} {backend backend' : Nat → Backend}
  {coordinates coordinates' : Nat → Triple (Array α)} {old old' box : Box α} {all : List α} {a : Axis}

/-! ## Axis by axis -/

/-- The bounds of an axis after it was fitted. -/
def fittedAxis (old : Box α) (all : List α) (a : Axis) : α × α :=
  match old.boundaries.get a with
  | .unbounded =>
    let lo := -(all.getD a.index 0)
    let hi := all.getD (3 + a.index) 0
    if hi < lo then (old.lo.get a, old.hi.get a) else (lo, widened lo hi)
  | .periodic | .fixed => (old.lo.get a, old.hi.get a)

omit [Wire α β] in
theorem fittedAxis_of_closed (h : old.boundaries.get a ≠ .unbounded) :
    fittedAxis old all a = (old.lo.get a, old.hi.get a) := by
  unfold fittedAxis
  cases hkind : old.boundaries.get a with
  | unbounded => exact absurd hkind h
  | periodic => rfl
  | fixed => rfl

/-- Whether an axis with given bounds is valid. -/
def isValidAxis (e : α × α) : Bool := Scalar.isFinite e.1 && Scalar.isFinite e.2 && e.1 < e.2

omit [Wire α β] in
/-- Other bounds on one axis of a valid box can only be invalid themselves. -/
theorem withBounds_eq {b : Box α} (hb : b.Valid) (a : Axis) (lo hi : α) : b.withBounds a lo hi =
    if isValidAxis (lo, hi) then .ok ⟨b.lo.set a lo, b.hi.set a hi, b.boundaries⟩
    else .error (.invalidBox a.index lo hi) := by
  have hself : Box.isValidAxis ⟨b.lo.set a lo, b.hi.set a hi, b.boundaries⟩ a = isValidAxis (lo, hi) := by
    simp only [Box.isValidAxis, Triple.get_set_self, isValidAxis]
  have hother : ∀ c, c ≠ a → Box.isValidAxis ⟨b.lo.set a lo, b.hi.set a hi, b.boundaries⟩ c = true := by
    intro c hc
    have hvalid := hb c
    unfold Box.isValidAxis at hvalid ⊢
    rwa [Triple.get_set_of_ne _ _ hc, Triple.get_set_of_ne _ _ hc]
  rw [Box.withBounds, Box.make]
  by_cases hvalid : isValidAxis (lo, hi) = true
  · have hcheck : Box.check ⟨b.lo.set a lo, b.hi.set a hi, b.boundaries⟩ = (.ok () : Except (Error α) Unit) :=
      (Box.check_eq_ok_iff _).2 fun c => by
        by_cases hc : c = a
        · rw [hc, hself, hvalid]
        · exact hother c hc
    rw [hcheck, if_pos hvalid]
    rfl
  · have hfind : Axis.all.find? (fun c => !Box.isValidAxis ⟨b.lo.set a lo, b.hi.set a hi, b.boundaries⟩ c) = some a := by
      have hfail : (!Box.isValidAxis ⟨b.lo.set a lo, b.hi.set a hi, b.boundaries⟩ a) = true := by
        rw [hself]
        simpa using hvalid
      cases a <;> simp [Axis.all, List.find?, hother, hfail]
    rw [Box.check, hfind, if_neg hvalid]
    simp only [Triple.get_set_self]
    rfl

omit [Wire α β] in
/-- Fitting an axis of a valid box changes its bounds, or finds them invalid. -/
theorem fitAxis_eq {b : Box α} (hb : b.Valid) (hlo : b.lo.get a = old.lo.get a) (hhi : b.hi.get a = old.hi.get a) :
    fitAxis old all b a = if isValidAxis (fittedAxis old all a) then
      .ok ⟨b.lo.set a (fittedAxis old all a).1, b.hi.set a (fittedAxis old all a).2, b.boundaries⟩
    else .error (.invalidBox a.index (fittedAxis old all a).1 (fittedAxis old all a).2) := by
  have hkept : (.ok b : Except (Error α) (Box α)) = if isValidAxis (old.lo.get a, old.hi.get a) then
      .ok ⟨b.lo.set a (old.lo.get a), b.hi.set a (old.hi.get a), b.boundaries⟩
      else .error (.invalidBox a.index (old.lo.get a) (old.hi.get a)) := by
    have hvalid : isValidAxis (old.lo.get a, old.hi.get a) = true := by
      rw [← hlo, ← hhi]
      exact hb a
    have hset : ∀ t : Triple α, t.set a (t.get a) = t := fun t => Triple.ext_get fun c => by
      by_cases hc : c = a
      · rw [hc, Triple.get_set_self]
      · rw [Triple.get_set_of_ne _ _ hc]
    rw [if_pos hvalid, ← hlo, ← hhi, hset, hset]
  unfold fitAxis fittedAxis
  cases old.boundaries.get a with
  | unbounded =>
    dsimp only
    split
    · exact hkept
    · exact withBounds_eq hb a _ _
  | periodic => exact hkept
  | fixed => exact hkept

/-- The box of all ranks, or the first axis whose bounds are not in order. -/
def fitted (size : Nat) (backend : Nat → Backend) (coordinates : Nat → Triple (Array α)) (old : Box α) :
    Except (Error α) (Box α) := Axis.all.foldlM (fitAxis old (extremes size backend coordinates)) old

omit [Wire α β] in
/-- The box is found axis by axis. -/
theorem foldlM_fitAxis (hold : old.Valid) : Axis.all.foldlM (fitAxis old all) old =
    match Axis.all.find? fun a => !isValidAxis (fittedAxis old all a) with
    | some a => .error (.invalidBox a.index (fittedAxis old all a).1 (fittedAxis old all a).2)
    | none => .ok ⟨.ofFn fun a => (fittedAxis old all a).1, .ofFn fun a => (fittedAxis old all a).2, old.boundaries⟩ := by
  have hvalid : ∀ {b : Box α} (a : Axis), b.Valid → isValidAxis (fittedAxis old all a) = true →
      Box.Valid ⟨b.lo.set a (fittedAxis old all a).1, b.hi.set a (fittedAxis old all a).2, b.boundaries⟩ := by
    intro b a hb hnew c
    by_cases hc : c = a
    · subst hc
      simpa [Box.isValidAxis, isValidAxis] using hnew
    · have hother := hb c
      unfold Box.isValidAxis at hother ⊢
      rwa [Triple.get_set_of_ne _ _ hc, Triple.get_set_of_ne _ _ hc]
  have hok : ∀ {σ τ : Type} (a : σ) (f : σ → Except (Error α) τ), (Except.ok a >>= f) = f a := fun _ _ => rfl
  simp only [Axis.all, List.foldlM_cons, List.foldlM_nil, List.find?]
  rw [fitAxis_eq hold rfl rfl]
  by_cases hx : isValidAxis (fittedAxis old all .x) = true
  swap
  · simp only [hx]
    rfl
  have hx' := hvalid .x hold hx
  have hfit := @fitAxis_eq α _ old all .y _ hx' rfl rfl
  simp only [hx, if_true, Bool.not_true, hok, hfit]
  by_cases hy : isValidAxis (fittedAxis old all .y) = true
  swap
  · simp only [hy]
    rfl
  have hy' := hvalid .y hx' hy
  have hfit := @fitAxis_eq α _ old all .z _ hy' rfl rfl
  simp only [hy, if_true, Bool.not_true, hok, hfit]
  by_cases hz : isValidAxis (fittedAxis old all .z) = true
  · simp only [hz, if_true, Bool.not_true]
    rfl
  · simp only [hz]
    rfl

/-! ## The box -/

theorem collects_boundingBox [Wire.LawfulScalars α β] (old : Box α) : Collects size (fun i =>
    (boundingBox (backend i) (coordinates i) old : Attempt α β (Box α)).run)
      fun _ => fitted size backend coordinates old := by
  have hlength : ∀ i < size, (extrema (backend i) (coordinates i)).length = 6 := fun _ _ => rfl
  exact (Exchange.collects_reduceScalars .max hlength).attempt.ok_bind (Collects.done _)

omit [Wire α β] in
/-- What is known of the box of all ranks: it is valid and keeps the closed axes. -/
theorem fitted_valid (hold : old.Valid) (h : fitted size backend coordinates old = .ok box) :
    box.Valid ∧ old.SameClosed box ∧ ∀ a, (box.lo.get a, box.hi.get a) = fittedAxis old (extremes size backend coordinates) a := by
  rw [fitted, foldlM_fitAxis hold] at h
  split at h
  · cases h
  · rename_i hnone
    cases h
    have hbounds : ∀ a : Axis, fittedAxis old (extremes size backend coordinates) a =
        (((Triple.ofFn fun a => (fittedAxis old (extremes size backend coordinates) a).1).get a),
          ((Triple.ofFn fun a => (fittedAxis old (extremes size backend coordinates) a).2).get a)) := fun a => by
      rw [Triple.get_ofFn, Triple.get_ofFn]
    refine ⟨fun a => ?_, ⟨rfl, fun a ha => ?_⟩, fun a => (hbounds a).symm⟩
    · have hvalid := List.find?_eq_none.1 hnone a a.mem_all
      simpa [Box.isValidAxis, isValidAxis] using hvalid
    · have hkind : old.boundaries.get a ≠ .unbounded := ha
      simp only [Triple.get_ofFn, fittedAxis_of_closed hkind, and_self]

omit [Wire α β] in
/-- A box without open axis stays as it is. -/
theorem fitted_of_closed (hold : old.Valid) (hclosed : ∀ a, old.boundaries.get a ≠ .unbounded) :
    fitted size backend coordinates old = .ok old := by
  have hvalid : Axis.all.find? (fun a => !isValidAxis (fittedAxis old (extremes size backend coordinates) a)) = none := by
    refine List.find?_eq_none.2 fun a _ => ?_
    have haxis : isValidAxis (fittedAxis old (extremes size backend coordinates) a) = true :=
      fittedAxis_of_closed (hclosed a) ▸ hold a
    simp [haxis]
  rw [fitted, foldlM_fitAxis hold, hvalid]
  simp only [fittedAxis_of_closed (hclosed _)]
  rfl

/-- Boxes, or failures to find one, that differ in signs of zeros only. -/
inductive Alike : Except (Error α) (Box α) → Except (Error α) (Box α) → Prop where
  | ok {b b' : Box α} (h : b.Alike b') : Alike (.ok b) (.ok b')
  | error {e e' : Error α} (h : e.Alike e') : Alike (.error e) (.error e')

omit [Wire α β] in
theorem Alike.symm {r r' : Except (Error α) (Box α)} (h : Alike r r') : Alike r' r := by
  cases h with
  | ok h => exact .ok h.symm
  | error h => exact .error h.symm

section Alike

variable (hlaw : Scalar.LawfulSigns α) (hclosed : old.SameClosed old')
include hlaw

omit [Wire α β] in
theorem widened_alike {lo hi lo' hi' : α} (hlo : Scalar.Alike lo lo') (hhi : Scalar.Alike hi hi') :
    Scalar.Alike (widened lo hi) (widened lo' hi') := by
  unfold widened
  by_cases hlt : lo < hi
  · rwa [if_pos hlt, if_pos ((hlaw.lt_alike_iff hlo hhi).1 hlt)]
  · rw [if_neg hlt, if_neg fun hlt' => hlt ((hlaw.lt_alike_iff hlo hhi).2 hlt')]
    exact hlaw.add hlo (hlaw.mul (hlaw.max_alike (hlaw.abs_alike hlo) (.refl 1)) (.refl _))

include hclosed

omit [Wire α β] in
/-- An axis is fitted alike to alike extremes, unless there are none and the axis has other bounds. -/
theorem fittedAxis_alike {all' : List α} (hmin : Scalar.Alike (all.getD a.index 0) (all'.getD a.index 0))
    (hmax : Scalar.Alike (all.getD (3 + a.index) 0) (all'.getD (3 + a.index) 0))
    (hkept : old.boundaries.get a = .unbounded → all.getD (3 + a.index) 0 < -(all.getD a.index 0) →
      old'.lo.get a = old.lo.get a ∧ old'.hi.get a = old.hi.get a) :
    Scalar.Alike (fittedAxis old all a).1 (fittedAxis old' all' a).1 ∧
      Scalar.Alike (fittedAxis old all a).2 (fittedAxis old' all' a).2 := by
  have hlo := hlaw.neg_alike hmin
  unfold fittedAxis
  rw [hclosed.boundaries]
  cases hkind : old.boundaries.get a with
  | unbounded =>
    by_cases hlt : all.getD (3 + a.index) 0 < -(all.getD a.index 0)
    · obtain ⟨hlo', hhi'⟩ := hkept hkind hlt
      simp only [if_pos hlt, if_pos ((hlaw.lt_alike_iff hmax hlo).1 hlt), hlo', hhi']
      exact ⟨.refl _, .refl _⟩
    · simp only [if_neg hlt, if_neg fun hlt' => hlt ((hlaw.lt_alike_iff hmax hlo).2 hlt')]
      exact ⟨hlo, widened_alike hlaw hlo hmax⟩
  | periodic =>
    simp only [hclosed.bounds a (by simp [hkind])]
    exact ⟨.refl _, .refl _⟩
  | fixed =>
    simp only [hclosed.bounds a (by simp [hkind])]
    exact ⟨.refl _, .refl _⟩

omit [Wire α β] in
/-- Boxes with the same closed axes are fitted alike to coordinates with alike extremes. -/
theorem fitted_alike (hold : old.Valid) (hold' : old'.Valid)
    (hextremes : ∀ a : Axis, Scalar.Alike ((extremes size backend coordinates).getD a.index 0)
        ((extremes size backend' coordinates').getD a.index 0) ∧
      Scalar.Alike ((extremes size backend coordinates).getD (3 + a.index) 0)
        ((extremes size backend' coordinates').getD (3 + a.index) 0))
    (hkept : ∀ a : Axis, old.boundaries.get a = .unbounded → (extremes size backend coordinates).getD (3 + a.index) 0 <
      -(extremes size backend coordinates).getD a.index 0 → old'.lo.get a = old.lo.get a ∧ old'.hi.get a = old.hi.get a) :
    Alike (fitted size backend coordinates old) (fitted size backend' coordinates' old') := by
  have haxis := fun a => fittedAxis_alike hlaw hclosed (hextremes a).1 (hextremes a).2 (hkept a)
  have hvalid : ∀ a, isValidAxis (fittedAxis old' (extremes size backend' coordinates') a) =
      isValidAxis (fittedAxis old (extremes size backend coordinates) a) := fun a => by
    simp only [isValidAxis, hlaw.isFinite_eq (haxis a).1, hlaw.isFinite_eq (haxis a).2,
      hlaw.lt_alike_iff (haxis a).1 (haxis a).2]
  rw [fitted, fitted, foldlM_fitAxis hold, foldlM_fitAxis hold']
  simp only [hvalid]
  split
  · exact .error (.invalidBox _ (haxis _).1 (haxis _).2)
  · refine .ok ⟨⟨hclosed.boundaries, fun a ha => ?_⟩, fun a => ?_, fun a => ?_⟩
    · have hkind : old.boundaries.get a ≠ .unbounded := ha
      have hkind' : old'.boundaries.get a ≠ .unbounded := by rwa [hclosed.boundaries]
      simp only [Triple.get_ofFn, fittedAxis_of_closed hkind, fittedAxis_of_closed hkind']
      exact hclosed.bounds a ha
    · simp only [Triple.get_ofFn]
      exact (haxis a).1
    · simp only [Triple.get_ofFn]
      exact (haxis a).2

omit [Wire α β] hclosed in
/-- A box that was fitted to coordinates is found again from them, but for the signs of zeros. -/
theorem fitted_again (hold : old.Valid) (h : fitted size backend coordinates old = .ok box)
    (hextremes : ∀ a : Axis, Scalar.Alike ((extremes size backend coordinates).getD a.index 0)
        ((extremes size backend' coordinates').getD a.index 0) ∧
      Scalar.Alike ((extremes size backend coordinates).getD (3 + a.index) 0)
        ((extremes size backend' coordinates').getD (3 + a.index) 0)) :
    ∃ box', fitted size backend' coordinates' box = .ok box' ∧ box.Alike box' := by
  obtain ⟨hvalid, hclosed, hbounds⟩ := fitted_valid hold h
  have halike := fitted_alike hlaw hclosed hold hvalid hextremes fun a hopen hnone => by
    have haxis := hbounds a
    unfold fittedAxis at haxis
    rw [hopen] at haxis
    dsimp only at haxis
    rw [if_pos hnone] at haxis
    exact Prod.mk.inj haxis
  rw [h] at halike
  cases hagain : fitted size backend' coordinates' box with
  | ok box' =>
    rw [hagain] at halike
    cases halike with
    | ok h => exact ⟨box', rfl, h⟩
  | error e =>
    rw [hagain] at halike
    cases halike

end Alike

end Global

/-! ## Exact boxes -/

namespace Global

open Exact

variable {size : Nat} {backend : Nat → Backend} {coordinates : Nat → Triple (Array EReal)} {old box : Box EReal}

theorem le_widened (lo : EReal) {v hi : EReal} (hhi : v ≤ hi) : v ≤ widened lo hi := by
  unfold widened
  split
  · exact hhi
  · rename_i hle
    refine (hhi.trans (not_lt.1 hle)).trans (le_add_of_nonneg_right ?_)
    have hdecimal : (0 : EReal) ≤ Scalar.decimal 9 := by
      rw [Scalar.decimal, ofNat_eq, ← EReal.coe_one, coe_div]
      exact EReal.coe_nonneg.2 (by positivity)
    rw [max_eq]
    exact mul_nonneg (le_sup_of_le_right zero_le_one) hdecimal

/-- The open axes of the box reach around all coordinates. -/
theorem fitted_spec (hpos : 0 < size) (hfinite : ∀ i < size, ∀ a, ∀ v ∈ ((coordinates i).get a).toList,
      Scalar.isFinite v = true) (hold : old.Valid) (h : fitted size backend coordinates old = .ok box) {i : Nat}
    (hi : i < size) (a : Axis) (hopen : old.boundaries.get a = .unbounded) {v : EReal}
    (hv : v ∈ ((coordinates i).get a).toList) : box.lo.get a ≤ v ∧ v ≤ box.hi.get a := by
  obtain ⟨_, _, hbounds⟩ := fitted_valid hold h
  obtain ⟨lo, hi', hn, hp, _, _, hle⟩ := extremes_spec lawfulSigns hpos hfinite backend a
  have hlo := (hle v ⟨i, hi, hv⟩).1
  have hhi := (hle v ⟨i, hi, hv⟩).2
  have hb := hbounds a
  simp only [fittedAxis, hopen, List.getD_eq_getElem?_getD, hn, hp, Option.getD_some, neg_neg] at hb
  rw [if_neg (not_lt.2 (hlo.trans hhi))] at hb
  obtain ⟨hbl, hbh⟩ := Prod.mk.inj hb
  rw [hbl, hbh]
  exact ⟨hlo, le_widened lo hhi⟩

end Global

end CurvePartition
