-- SUMMARY: The box of all particles in exact numbers: on each open axis the smallest and the largest coordinate of all ranks, whichever rank has them.
import CurvePartition.Proofs.Global.Bounds

/-!
# The box around all particles

In exact numbers the box is always found. Its open axes reach from the smallest coordinate of all ranks to the largest, and
an axis without room or without particles is still one with bounds in order (`Global.Encloses`). There is one such box, so it does not
matter how many ranks hold the particles and which of them.
-/

namespace CurvePartition

namespace Global

open Exact

variable {size : Nat} {backend : Nat → Backend} {coordinates : Nat → Triple (Array EReal)} {old box box' : Box EReal} {a : Axis}

/-- The coordinates that some rank has on an axis. -/
def onAxis (size : Nat) (coordinates : Nat → Triple (Array EReal)) (a : Axis) : Set EReal :=
  {v | OnAxis size coordinates a v}

/-- Whether a box encloses given coordinates, with the bounds of another one where there are none or the axis is closed. -/
structure Encloses (points : Axis → Set EReal) (old box : Box EReal) : Prop where
  valid : box.Valid
  sameClosed : old.SameClosed box
  /-- An open axis without coordinates keeps its bounds. -/
  vacant : ∀ a, old.boundaries.get a = .unbounded → points a = ∅ →
    box.lo.get a = old.lo.get a ∧ box.hi.get a = old.hi.get a
  isLeast : ∀ a, old.boundaries.get a = .unbounded → (points a).Nonempty → IsLeast (points a) (box.lo.get a)
  isGreatest : ∀ a, old.boundaries.get a = .unbounded → (points a).Nontrivial → IsGreatest (points a) (box.hi.get a)
  /-- An axis with a single coordinate is given a length. -/
  widened : ∀ a v, old.boundaries.get a = .unbounded → points a = {v} →
    box.hi.get a = v + Scalar.max (Scalar.abs v) 1 * Scalar.decimal 9 ∧ v < box.hi.get a

/-- No two boxes enclose the same coordinates. -/
theorem Encloses.unique {points : Axis → Set EReal} (h : Encloses points old box) (h' : Encloses points old box') : box = box' := by
  have haxis : ∀ a, box.lo.get a = box'.lo.get a ∧ box.hi.get a = box'.hi.get a := fun a => by
    by_cases hopen : old.boundaries.get a = .unbounded
    · rcases (points a).eq_empty_or_nonempty with hnone | hsome
      · obtain ⟨hlo, hhi⟩ := h.vacant a hopen hnone
        obtain ⟨hlo', hhi'⟩ := h'.vacant a hopen hnone
        exact ⟨hlo.trans hlo'.symm, hhi.trans hhi'.symm⟩
      · refine ⟨(h.isLeast a hopen hsome).unique (h'.isLeast a hopen hsome), ?_⟩
        rcases hsome.exists_eq_singleton_or_nontrivial with ⟨v, hv⟩ | htwo
        · exact (h.widened a v hopen hv).1.trans (h'.widened a v hopen hv).1.symm
        · exact (h.isGreatest a hopen htwo).unique (h'.isGreatest a hopen htwo)
    · obtain ⟨hlo, hhi⟩ := h.sameClosed.bounds a hopen
      obtain ⟨hlo', hhi'⟩ := h'.sameClosed.bounds a hopen
      exact ⟨hlo.trans hlo'.symm, hhi.trans hhi'.symm⟩
  have hboundaries := h.sameClosed.boundaries.trans h'.sameClosed.boundaries.symm
  obtain ⟨lo, hi, boundaries⟩ := box
  obtain ⟨lo', hi', boundaries'⟩ := box'
  obtain rfl : lo = lo' := Triple.ext_get fun a => (haxis a).1
  obtain rfl : hi = hi' := Triple.ext_get fun a => (haxis a).2
  obtain rfl : boundaries = boundaries' := hboundaries
  rfl

/-- A coordinate has finite room above it. -/
theorem widened_self {v : EReal} (hv : Scalar.isFinite v = true) :
    Global.widened v v = v + Scalar.max (Scalar.abs v) 1 * Scalar.decimal 9 ∧ v < Global.widened v v ∧
      Scalar.isFinite (Global.widened v v) = true := by
  obtain ⟨r, rfl⟩ := isFinite_iff.1 hv
  have heq : Global.widened (r : EReal) r = r + Scalar.max (Scalar.abs (r : EReal)) 1 * Scalar.decimal 9 :=
    if_neg (lt_irrefl _)
  obtain ⟨s, hs⟩ : ∃ s : ℝ, Scalar.abs (r : EReal) = s := by
    unfold Scalar.abs
    split
    · exact ⟨-r, rfl⟩
    · exact ⟨r, rfl⟩
  have hdecimal : (Scalar.decimal 9 : EReal) = ((1 / ((10 ^ 9 : ℕ) : ℝ) : ℝ) : EReal) := by
    rw [Scalar.decimal, ofNat_eq, ← EReal.coe_one, coe_div]
  have hreal : Global.widened (r : EReal) r = ((r + max s 1 * (1 / ((10 ^ 9 : ℕ) : ℝ)) : ℝ) : EReal) := by
    rw [heq, hs, hdecimal, max_eq, ← EReal.coe_one, coe_sup]
    rfl
  refine ⟨heq, ?_, ?_⟩
  · rw [hreal, EReal.coe_lt_coe_iff]
    exact lt_add_of_pos_right _ (mul_pos (lt_max_of_lt_right one_pos) (by positivity))
  · exact isFinite_iff.2 ⟨_, hreal⟩

/-! ## One axis -/

section Fitting

variable (backend) (hpos : 0 < size) (hfinite : ∀ i < size, ∀ a, ∀ v ∈ ((coordinates i).get a).toList, Scalar.isFinite v = true)
  (hopen : old.boundaries.get a = .unbounded)
include hpos hfinite hopen

theorem fittedAxis_of_vacant (hnone : onAxis size coordinates a = ∅) :
    fittedAxis old (extremes size backend coordinates) a = (old.lo.get a, old.hi.get a) := by
  obtain ⟨lo, hi, hn, hp, hlowest, _, _⟩ := extremes_spec lawfulSigns hpos hfinite backend a
  obtain ⟨hlo, rfl⟩ := hlowest fun ⟨v, hv⟩ => Set.eq_empty_iff_forall_notMem.1 hnone v hv
  have hlt : (Scalar.lowest : EReal) < -Scalar.lowest := (bot_lt_top : (⊥ : EReal) < ⊤)
  simp only [fittedAxis, hopen, List.getD_eq_getElem?_getD, hn, hp, hlo, Option.getD_some]
  rw [if_pos hlt]

theorem fittedAxis_of_nonempty (hsome : (onAxis size coordinates a).Nonempty) : ∃ lo hi, IsLeast (onAxis size coordinates a) lo ∧
    IsGreatest (onAxis size coordinates a) hi ∧
    fittedAxis old (extremes size backend coordinates) a = (lo, Global.widened lo hi) := by
  obtain ⟨lo, hi, hn, hp, _, hmem, hle⟩ := extremes_spec lawfulSigns hpos hfinite backend a
  obtain ⟨hlo, hhi⟩ := hmem hsome
  refine ⟨lo, hi, ⟨hlo, fun v hv => (hle v hv).1⟩, ⟨hhi, fun v hv => (hle v hv).2⟩, ?_⟩
  simp only [fittedAxis, hopen, List.getD_eq_getElem?_getD, hn, hp, Option.getD_some, neg_neg]
  rw [if_neg (not_lt.2 (hle lo hlo).2)]

omit hopen in
/-- The bounds of an axis are finite and in order. -/
theorem isValidAxis_fittedAxis (hold : old.Valid) (a : Axis) :
    isValidAxis (fittedAxis old (extremes size backend coordinates) a) = true := by
  by_cases hopen : old.boundaries.get a = .unbounded
  · rcases (onAxis size coordinates a).eq_empty_or_nonempty with hnone | hsome
    · rw [fittedAxis_of_vacant backend hpos hfinite hopen hnone]
      exact hold a
    · obtain ⟨lo, hi, ⟨hlo, hle⟩, ⟨⟨j, hj, hhi⟩, _⟩, heq⟩ := fittedAxis_of_nonempty backend hpos hfinite hopen hsome
      have hbounds : Scalar.isFinite lo = true ∧ Scalar.isFinite (Global.widened lo hi) = true ∧ lo < Global.widened lo hi := by
        obtain ⟨i, hi, hlo'⟩ := hlo
        have hfin := hfinite i hi a lo hlo'
        rcases (hle ⟨j, hj, hhi⟩).lt_or_eq with hlt | rfl
        · rw [Global.widened, if_pos hlt]
          exact ⟨hfin, hfinite j hj a _ hhi, hlt⟩
        · exact ⟨hfin, (widened_self hfin).2.2, (widened_self hfin).2.1⟩
      rw [heq, isValidAxis, hbounds.1, hbounds.2.1]
      exact decide_eq_true hbounds.2.2
  · rw [fittedAxis_of_closed hopen]
    exact hold a

end Fitting

/-! ## The box -/

/-- The box is found, and it encloses the coordinates of all ranks. -/
theorem exists_encloses (hpos : 0 < size) (hfinite : ∀ i < size, ∀ a, ∀ v ∈ ((coordinates i).get a).toList,
      Scalar.isFinite v = true) (hold : old.Valid) (backend : Nat → Backend) :
    ∃ box, fitted size backend coordinates old = .ok box ∧ Encloses (onAxis size coordinates) old box := by
  obtain ⟨box, hbox⟩ : ∃ box, fitted size backend coordinates old = .ok box := by
    have hnone : Axis.all.find? (fun a => !isValidAxis (fittedAxis old (extremes size backend coordinates) a)) = none :=
      List.find?_eq_none.2 fun a _ => by simp [isValidAxis_fittedAxis backend hpos hfinite hold a]
    rw [fitted, foldlM_fitAxis hold, hnone]
    exact ⟨_, rfl⟩
  obtain ⟨hvalid, hclosed, hbounds⟩ := fitted_valid hold hbox
  have hsome : ∀ a, old.boundaries.get a = .unbounded → (onAxis size coordinates a).Nonempty → ∃ hi,
      IsLeast (onAxis size coordinates a) (box.lo.get a) ∧ IsGreatest (onAxis size coordinates a) hi ∧
      box.hi.get a = Global.widened (box.lo.get a) hi := fun a hopen hne => by
    obtain ⟨lo, hi, hlo, hhi, heq⟩ := fittedAxis_of_nonempty backend hpos hfinite hopen hne
    obtain ⟨rfl, hwide⟩ := Prod.mk.inj ((hbounds a).trans heq)
    exact ⟨hi, hlo, hhi, hwide⟩
  refine ⟨box, hbox, hvalid, hclosed, fun a hopen hnone => ?_, fun a hopen hne => ?_, fun a hopen htwo => ?_, fun a v hopen hv => ?_⟩
  · exact Prod.mk.inj ((hbounds a).trans (fittedAxis_of_vacant backend hpos hfinite hopen hnone))
  · obtain ⟨_, hlo, _⟩ := hsome a hopen hne
    exact hlo
  · obtain ⟨hi, hlo, hhi, hwide⟩ := hsome a hopen htwo.nonempty
    obtain ⟨v, hv, hne⟩ := htwo.exists_ne (box.lo.get a)
    have hlt : box.lo.get a < hi := (lt_of_le_of_ne (hlo.2 hv) hne.symm).trans_le (hhi.2 hv)
    rwa [hwide, Global.widened, if_pos hlt]
  · obtain ⟨hi, ⟨hlo, _⟩, ⟨hhi, _⟩, hwide⟩ := hsome a hopen (hv ▸ Set.singleton_nonempty v)
    have hfin : Scalar.isFinite (box.lo.get a) = true := by
      obtain ⟨i, hi, hmem⟩ := hlo
      exact hfinite i hi a _ hmem
    rw [hv] at hlo hhi
    rw [Set.mem_singleton_iff.1 hhi, Set.mem_singleton_iff.1 hlo] at hwide
    rw [Set.mem_singleton_iff.1 hlo] at hfin
    rw [hwide]
    exact ⟨(widened_self hfin).1, (widened_self hfin).2.1⟩

/-- All ranks find the one box that encloses all coordinates. -/
theorem boundingBox_encloses {β : Type} [Wire EReal β] [Wire.LawfulScalars EReal β] (hpos : 0 < size)
    (hfinite : ∀ i < size, ∀ a, ∀ v ∈ ((coordinates i).get a).toList, Scalar.isFinite v = true) (hold : old.Valid) :
    ∃ box, Encloses (onAxis size coordinates) old box ∧
      ∀ size' (coordinates' : Nat → Triple (Array EReal)) (backend : Nat → Backend), 0 < size' →
        (∀ a, onAxis size' coordinates' a = onAxis size coordinates a) →
          Attempt.ComesTo (β := β) size' (fun place => boundingBox (backend place.rank) (coordinates' place.rank) old)
            fun _ => .ok box := by
  obtain ⟨box, -, hbox⟩ := exists_encloses hpos hfinite hold fun _ => .host
  refine ⟨box, hbox, fun size' coordinates' backend hpos' hsame => ?_⟩
  have hfinite' : ∀ i < size', ∀ a, ∀ v ∈ ((coordinates' i).get a).toList, Scalar.isFinite v = true := by
    intro i hi a v hv
    have hv' : v ∈ onAxis size' coordinates' a := ⟨i, hi, hv⟩
    rw [hsame] at hv'
    obtain ⟨j, hj, hv'⟩ := hv'
    exact hfinite j hj a v hv'
  obtain ⟨box', hfitted, hbox'⟩ := exists_encloses hpos' hfinite' hold backend
  rw [funext hsame] at hbox'
  rw [hbox.unique hbox', ← hfitted]
  exact (collects_boundingBox old).comesTo fun _ => throws_boundingBox _ _ _

/-- Coordinates of three ranks, one of them without any: two places on the first axis and one on the others. -/
noncomputable def scattered (rank : Nat) : Triple (Array EReal) :=
  if rank = 1 then .replicate #[] else ⟨#[if rank = 0 then 0 else -1], #[0], #[0]⟩

theorem mem_scattered {v : EReal} : v ∈ onAxis 3 scattered a ↔ v = 0 ∨ a = .x ∧ v = -1 := by
  constructor
  · rintro ⟨i, hi, hv⟩
    obtain rfl | rfl | rfl : i = 0 ∨ i = 1 ∨ i = 2 := by omega
    all_goals cases a <;> simp_all [scattered, Triple.get, Triple.replicate]
  · rintro (rfl | ⟨rfl, rfl⟩)
    · exact ⟨0, by decide, by cases a <;> simp [scattered, Triple.get]⟩
    · exact ⟨2, by decide, by simp [scattered, Triple.get]⟩

theorem boundingBox_encloses_scattered : ∃ box : Box EReal,
    box.lo = ⟨-1, 0, 0⟩ ∧ box.hi.x = 0 ∧ 0 < box.hi.y ∧ box.hi.z = 1 ∧
      Attempt.ComesTo (β := Exact.Symbol) 3 (fun place => boundingBox .threadPool (scattered place.rank)
        ⟨.replicate 0, .replicate 1, ⟨.unbounded, .unbounded, .periodic⟩⟩) fun _ => .ok box := by
  have hfinite : ∀ i < 3, ∀ a, ∀ v ∈ ((scattered i).get a).toList, Scalar.isFinite v = true := by
    intro i hi a v hv
    rcases mem_scattered.1 ⟨i, hi, hv⟩ with rfl | ⟨-, rfl⟩
    · exact isFinite_iff.2 ⟨0, rfl⟩
    · exact isFinite_iff.2 ⟨-1, rfl⟩
  have hold : (⟨.replicate 0, .replicate 1, ⟨.unbounded, .unbounded, .periodic⟩⟩ : Box EReal).Valid := Box.valid_unit
  obtain ⟨box, hbox, hcomes⟩ := boundingBox_encloses (β := Exact.Symbol) (by decide) hfinite hold
  have hneg : (-1 : EReal) < 0 := EReal.coe_lt_coe_iff.2 neg_one_lt_zero
  have hx : (-1 : EReal) ∈ onAxis 3 scattered .x ∧ (0 : EReal) ∈ onAxis 3 scattered .x :=
    ⟨mem_scattered.2 (.inr ⟨rfl, rfl⟩), mem_scattered.2 (.inl rfl)⟩
  have hlo : IsLeast (onAxis 3 scattered .x) (-1) := ⟨hx.1, fun v hv => by
    rcases mem_scattered.1 hv with rfl | ⟨-, rfl⟩
    · exact hneg.le
    · exact le_rfl⟩
  have hhi : IsGreatest (onAxis 3 scattered .x) 0 := ⟨hx.2, fun v hv => by
    rcases mem_scattered.1 hv with rfl | ⟨-, rfl⟩
    · exact le_rfl
    · exact hneg.le⟩
  have hy : onAxis 3 scattered .y = {0} := Set.ext fun v => mem_scattered.trans (by simp)
  have hlo' : IsLeast (onAxis 3 scattered .y) 0 := hy ▸ isLeast_singleton
  have hz := hbox.sameClosed.bounds .z (by decide)
  refine ⟨box, Triple.ext_get fun a => ?_, (hbox.isGreatest .x rfl ⟨_, hx.1, _, hx.2, hneg.ne⟩).unique hhi,
    (hbox.widened .y 0 rfl hy).2, hz.2, hcomes 3 scattered (fun _ => .threadPool) (by decide) fun _ => rfl⟩
  cases a with
  | x => exact (hbox.isLeast .x rfl ⟨_, hx.1⟩).unique hlo
  | y => exact (hbox.isLeast .y rfl hlo'.nonempty).unique hlo'
  | z => exact hz.1

end Global

end CurvePartition
