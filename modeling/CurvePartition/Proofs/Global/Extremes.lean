-- SUMMARY: The extreme coordinates of all ranks: the smallest and the largest one on each axis, in whatever way the particles are spread over the ranks.
import CurvePartition.Global.Bounds
import CurvePartition.Proofs.Cluster.Exchanges

/-!
# Extreme coordinates

The largest contributions of all ranks are the negated smallest and the largest coordinate of all particles
(`Global.extremes_spec`). So, but for the signs of zeros, they depend on the coordinates of all ranks together only
(`Global.extremes_alike`).
-/

namespace CurvePartition

open Program

/-! ## Extents -/

section Extents

variable {α : Type} [Scalar α] (h : Scalar.LawfulSigns α)

theorem Backend.foldl_widen (values : List α) (e : α × α) :
    values.foldl (fun e v => (Scalar.min e.1 v, Scalar.max e.2 v)) e =
      (values.foldl Scalar.min e.1, values.foldl Scalar.max e.2) := by
  induction values generalizing e with
  | nil => rfl
  | cons v rest ih => exact ih _

include h

/-- A smallest value is found from the largest number on, which is the result only if a value equals it. -/
theorem Scalar.LawfulSigns.foldl_min_highest_mem {l : List α} (hfinite : ∀ v ∈ l, Scalar.isFinite v = true) {v : α}
    (hv : v ∈ l) : l.foldl Scalar.min Scalar.highest ∈ l := by
  have hhighest : (Scalar.highest : α) ≤ Scalar.highest := h.right (h.le_highest (hfinite v hv))
  obtain ⟨_, hle, hmem⟩ := h.comparison.foldl_min (fun v : α => v) l hhighest fun w hw => h.le_self (hfinite w hw)
  rcases hmem with heq | ⟨x, hx, heq⟩
  · have hle := hle v hv
    rw [show l.foldl Scalar.min Scalar.highest = Scalar.highest from heq] at hle ⊢
    exact h.eq_highest hle (hfinite v hv) ▸ hv
  · exact heq ▸ hx

theorem Scalar.LawfulSigns.foldl_max_lowest_mem {l : List α} (hfinite : ∀ v ∈ l, Scalar.isFinite v = true) {v : α}
    (hv : v ∈ l) : l.foldl Scalar.max Scalar.lowest ∈ l := by
  have hlowest : (Scalar.lowest : α) ≤ Scalar.lowest := h.left (h.lowest_le (hfinite v hv))
  obtain ⟨_, hle⟩ := h.comparison.le_foldl_max (fun v : α => v) l hlowest fun w hw => h.le_self (hfinite w hw)
  rcases List.mem_cons.1 (Scalar.foldl_max_mem l Scalar.lowest) with heq | hmem
  · have hle := hle v hv
    rw [heq]
    rw [show l.foldl Scalar.max Scalar.lowest = Scalar.lowest from heq] at hle
    exact h.eq_lowest hle (hfinite v hv) ▸ hv
  · exact hmem

/-- The extent is the smallest and the largest of the values. -/
theorem Backend.extent_spec (backend : Backend) {values : Array α}
    (hfinite : ∀ v ∈ values.toList, Scalar.isFinite v = true) {v : α} (hv : v ∈ values.toList) :
    ∃ e, backend.extent values = some e ∧ e.1 ∈ values.toList ∧ e.2 ∈ values.toList ∧
      ∀ w ∈ values.toList, e.1 ≤ w ∧ w ≤ e.2 := by
  have hself : ∀ w ∈ values.toList, w ≤ w := fun w hw => h.le_self (hfinite w hw)
  cases backend with
  | host =>
    obtain ⟨w, rest, hlist⟩ := List.exists_cons_of_ne_nil (List.ne_nil_of_mem hv)
    rw [hlist] at hself ⊢
    have hw := hself w List.mem_cons_self
    have hrest : ∀ x ∈ rest, x ≤ x := fun x hx => hself x (List.mem_cons_of_mem w hx)
    obtain ⟨hleast, hleast', hleastMem⟩ := h.comparison.foldl_min (fun v : α => v) rest hw hrest
    obtain ⟨hmost, hmost'⟩ := h.comparison.le_foldl_max (fun v : α => v) rest hw hrest
    refine ⟨(rest.foldl Scalar.min w, rest.foldl Scalar.max w), ?_, ?_, Scalar.foldl_max_mem rest w, fun x hx => ?_⟩
    · rw [extent]
      simp only [hlist, foldl_widen]
    · rcases hleastMem with heq | ⟨x, hx, heq⟩
      · exact List.mem_cons.2 (.inl heq)
      · exact List.mem_cons_of_mem w (heq ▸ hx)
    · rcases List.mem_cons.1 hx with rfl | hx
      · exact ⟨hleast, hmost⟩
      · exact ⟨hleast' x hx, hmost' x hx⟩
  | threadPool =>
    have hne : values.isEmpty = false := by
      cases hempty : values.isEmpty with
      | false => rfl
      | true =>
        rw [Array.isEmpty_iff.1 hempty] at hv
        cases hv
    obtain ⟨_, hleast, _⟩ := h.comparison.foldl_min (fun v : α => v) values.toList
      (h.right (h.le_highest (hfinite v hv))) hself
    obtain ⟨_, hmost⟩ := h.comparison.le_foldl_max (fun v : α => v) values.toList
      (h.left (h.lowest_le (hfinite v hv))) hself
    refine ⟨(values.toList.foldl Scalar.min Scalar.highest, values.toList.foldl Scalar.max Scalar.lowest), ?_,
      h.foldl_min_highest_mem hfinite hv, h.foldl_max_lowest_mem hfinite hv, fun x hx => ⟨hleast x hx, hmost x hx⟩⟩
    rw [extent]
    simp only [hne, Bool.false_eq_true, if_false, ← Array.foldl_toList, foldl_widen]

end Extents

namespace Global

variable {α : Type} [Scalar α] {size : Nat} {backend backend' : Nat → Backend}
  {coordinates coordinates' : Nat → Triple (Array α)}

/-! ## Coordinates of all ranks -/

/-- Whether some rank has a coordinate on an axis. -/
def OnAxis (size : Nat) (coordinates : Nat → Triple (Array α)) (a : Axis) (v : α) : Prop :=
  ∃ i < size, v ∈ ((coordinates i).get a).toList

/-- The largest contributions of all ranks. -/
def extremes (size : Nat) (backend : Nat → Backend) (coordinates : Nat → Triple (Array α)) : List α :=
  Delivery.combineAll Reduction.max.scalars ((List.range size).map fun i => extrema (backend i) (coordinates i))

/-- What a rank contributes for an axis. -/
theorem getElem?_extrema (backend : Backend) (coordinates : Triple (Array α)) (a : Axis) :
    (extrema backend coordinates)[a.index]? =
        some (((backend.extent (coordinates.get a)).map fun (lo, _) => -lo).getD Scalar.lowest) ∧
      (extrema backend coordinates)[3 + a.index]? =
        some (((backend.extent (coordinates.get a)).map fun (_, hi) => hi).getD Scalar.lowest) := by
  cases a <;> exact ⟨rfl, rfl⟩

theorem throws_boundingBox {β : Type} (backend : Backend) (coordinates : Triple (Array α)) (old : Box α) :
    Throws Call.failure Error.communication (boundingBox backend coordinates old : Attempt α β _) :=
  (Attempt.throws_exchange (Exchange.throws_reduceScalars _ _)).bind fun _ => Attempt.throws_ofExcept _

section Extremes

variable (h : Scalar.LawfulSigns α)
include h

/-- A rank with coordinates on an axis contributes its negated smallest and its largest one, a rank without any the smallest
number. -/
theorem extrema_cases (backend : Backend) {coordinates : Triple (Array α)} {a : Axis}
    (hfinite : ∀ v ∈ (coordinates.get a).toList, Scalar.isFinite v = true) :
    ((coordinates.get a).toList = [] ∧ (extrema backend coordinates)[a.index]? = some Scalar.lowest ∧
      (extrema backend coordinates)[3 + a.index]? = some Scalar.lowest) ∨
    ∃ lo ∈ (coordinates.get a).toList, ∃ hi ∈ (coordinates.get a).toList,
      (extrema backend coordinates)[a.index]? = some (-lo) ∧ (extrema backend coordinates)[3 + a.index]? = some hi ∧
      ∀ v ∈ (coordinates.get a).toList, lo ≤ v ∧ v ≤ hi := by
  obtain ⟨hlo, hhi⟩ := getElem?_extrema backend coordinates a
  cases hlist : (coordinates.get a).toList with
  | nil =>
    have hnone : backend.extent (coordinates.get a) = none := by
      rw [Array.toList_eq_nil_iff.1 hlist]
      cases backend <;> rfl
    rw [hnone] at hlo hhi
    exact .inl ⟨rfl, hlo, hhi⟩
  | cons v rest =>
    have hv : v ∈ (coordinates.get a).toList := hlist ▸ List.mem_cons_self
    obtain ⟨e, he, hlo', hhi', hle⟩ := Backend.extent_spec h backend hfinite hv
    rw [he] at hlo hhi
    exact .inr (hlist ▸ ⟨e.1, hlo', e.2, hhi', hlo, hhi, hle⟩)

variable (hpos : 0 < size)
  (hfinite : ∀ i < size, ∀ a, ∀ v ∈ ((coordinates i).get a).toList, Scalar.isFinite v = true)
include hpos hfinite

/-- Without coordinates on an axis the largest contributions are the smallest number. -/
theorem extremes_of_vacant (backend : Nat → Backend) {a : Axis} (hnone : ¬ ∃ v, OnAxis size coordinates a v) :
    (extremes size backend coordinates)[a.index]? = some Scalar.lowest ∧
      (extremes size backend coordinates)[3 + a.index]? = some Scalar.lowest := by
  have hlength : ∀ i < size, (extrema (backend i) (coordinates i)).length = 6 := fun _ _ => rfl
  have hrank : ∀ i < size, (extrema (backend i) (coordinates i))[a.index]? = some Scalar.lowest ∧
      (extrema (backend i) (coordinates i))[3 + a.index]? = some Scalar.lowest := by
    intro i hi
    rcases extrema_cases h (backend i) (hfinite i hi a) with ⟨_, hlowest⟩ | ⟨lo, hlo, _⟩
    · exact hlowest
    · exact absurd ⟨lo, i, hi, hlo⟩ hnone
  obtain ⟨n, hn, ⟨i, hi, hni⟩, _⟩ := h.combineAll_most (j := a.index) hpos hlength (by cases a <;> decide)
  obtain ⟨p, hp, ⟨k, hk, hpk⟩, _⟩ := h.combineAll_most (j := 3 + a.index) hpos hlength (by cases a <;> decide)
  exact ⟨hn.trans (hni.symm.trans (hrank i hi).1), hp.trans (hpk.symm.trans (hrank k hk).2)⟩

/-- With coordinates on an axis the largest contributions are the negated smallest and the largest one of all ranks. -/
theorem extremes_of_onAxis (backend : Nat → Backend) {a : Axis} {v : α} (hv : OnAxis size coordinates a v) :
    ∃ lo hi, (extremes size backend coordinates)[a.index]? = some (-lo) ∧
      (extremes size backend coordinates)[3 + a.index]? = some hi ∧
      OnAxis size coordinates a lo ∧ OnAxis size coordinates a hi ∧ ∀ v, OnAxis size coordinates a v → lo ≤ v ∧ v ≤ hi := by
  have hlength : ∀ i < size, (extrema (backend i) (coordinates i)).length = 6 := fun _ _ => rfl
  have hrank := fun i hi => extrema_cases h (backend i) (hfinite i hi a)
  obtain ⟨n, hn, ⟨i, hi, hni⟩, hnall⟩ := h.combineAll_most (j := a.index) hpos hlength (by cases a <;> decide)
  obtain ⟨p, hp, ⟨k, hk, hpk⟩, hpall⟩ := h.combineAll_most (j := 3 + a.index) hpos hlength (by cases a <;> decide)
  have hbounds : ∀ v, OnAxis size coordinates a v → -v ≤ n ∧ v ≤ p := by
    rintro v ⟨j, hj, hv⟩
    rcases hrank j hj with ⟨hnil, _⟩ | ⟨lo, _, hi, _, hlo, hhi, hle⟩
    · rw [hnil] at hv
      cases hv
    · have hneg := h.neg_le_neg (hle v hv).1
      have hpos := (hle v hv).2
      exact ⟨h.trans hneg (hnall j hj _ hlo (h.right hneg)), h.trans hpos (hpall j hj _ hhi (h.right hpos))⟩
  have hfin : ∀ w, OnAxis size coordinates a w → Scalar.isFinite w = true := by
    rintro w ⟨i, hi, hw⟩
    exact hfinite i hi a w hw
  have hneg_neg : ∀ w, OnAxis size coordinates a w → - -w = w := fun w hw => h.neg_neg (h.le_self (hfin w hw))
  -- If the smallest number comes back, some coordinate equals it.
  obtain ⟨lo, hlo, rfl⟩ : ∃ lo, OnAxis size coordinates a lo ∧ n = -lo := by
    rcases hrank i hi with ⟨_, hlowest, _⟩ | ⟨lo, hlo, _, _, hlo', _⟩
    · obtain rfl : n = Scalar.lowest := Option.some.inj (hni.symm.trans hlowest)
      have hle : - -Scalar.highest ≤ - -v := h.neg_le_neg (hbounds v hv).1
      rw [h.neg_neg (h.right (h.le_highest (hfin v hv))), hneg_neg v hv] at hle
      exact ⟨v, hv, by rw [h.eq_highest hle (hfin v hv)]; rfl⟩
    · exact ⟨lo, ⟨i, hi, hlo⟩, Option.some.inj (hni.symm.trans hlo')⟩
  have hhi : OnAxis size coordinates a p := by
    rcases hrank k hk with ⟨_, _, hlowest⟩ | ⟨_, _, hi', hhi, _, hhi', _⟩
    · obtain rfl : p = Scalar.lowest := Option.some.inj (hpk.symm.trans hlowest)
      exact h.eq_lowest (hbounds v hv).2 (hfin v hv) ▸ hv
    · exact Option.some.inj (hpk.symm.trans hhi') ▸ ⟨k, hk, hhi⟩
  refine ⟨lo, p, hn, hp, hlo, hhi, fun w hw => ⟨?_, (hbounds w hw).2⟩⟩
  have hneg := h.neg_le_neg (hbounds w hw).1
  rwa [hneg_neg w hw, hneg_neg lo hlo] at hneg

/-- The largest contributions for an axis: the negated smallest and the largest coordinate of all ranks, and the smallest
number if there is none. -/
theorem extremes_spec (backend : Nat → Backend) (a : Axis) : ∃ lo hi, (extremes size backend coordinates)[a.index]? = some (-lo) ∧
    (extremes size backend coordinates)[3 + a.index]? = some hi ∧
    (¬ (∃ v, OnAxis size coordinates a v) → -lo = Scalar.lowest ∧ hi = Scalar.lowest) ∧
    ((∃ v, OnAxis size coordinates a v) → OnAxis size coordinates a lo ∧ OnAxis size coordinates a hi) ∧
    ∀ v, OnAxis size coordinates a v → lo ≤ v ∧ v ≤ hi := by
  by_cases hany : ∃ v, OnAxis size coordinates a v
  · obtain ⟨v, hv⟩ := hany
    obtain ⟨lo, hi, hn, hp, hlo, hhi, hbounds⟩ := extremes_of_onAxis h hpos hfinite backend hv
    exact ⟨lo, hi, hn, hp, fun hnone => absurd ⟨v, hv⟩ hnone, fun _ => ⟨hlo, hhi⟩, hbounds⟩
  · obtain ⟨hn, hp⟩ := extremes_of_vacant h hpos hfinite backend hany
    exact ⟨Scalar.highest, Scalar.lowest, hn, hp, fun _ => ⟨rfl, rfl⟩, fun hsome => absurd hsome hany,
      fun v hv => absurd ⟨v, hv⟩ hany⟩

/-- But for the signs of zeros, the largest contributions depend on the coordinates of all ranks together only. -/
theorem extremes_alike
    (hfinite' : ∀ i < size, ∀ a, ∀ v ∈ ((coordinates' i).get a).toList, Scalar.isFinite v = true)
    (hsame : ∀ a v, OnAxis size coordinates a v ↔ OnAxis size coordinates' a v) (a : Axis) :
    Scalar.Alike ((extremes size backend coordinates).getD a.index 0) ((extremes size backend' coordinates').getD a.index 0) ∧
      Scalar.Alike ((extremes size backend coordinates).getD (3 + a.index) 0)
        ((extremes size backend' coordinates').getD (3 + a.index) 0) := by
  obtain ⟨lo, hi, hn, hp, hnone, hmem, hle⟩ := extremes_spec h hpos hfinite backend a
  obtain ⟨lo', hi', hn', hp', hnone', hmem', hle'⟩ := extremes_spec h hpos hfinite' backend' a
  simp only [List.getD_eq_getElem?_getD, hn, hn', hp, hp', Option.getD_some]
  by_cases hany : ∃ v, OnAxis size coordinates a v
  · have hany' : ∃ v, OnAxis size coordinates' a v := hany.imp fun v => (hsame a v).1
    obtain ⟨hlo, hhi⟩ := hmem hany
    obtain ⟨hlo', hhi'⟩ := hmem' hany'
    have hleast := h.antisymm (hle lo' ((hsame a lo').2 hlo')).1 (hle' lo ((hsame a lo).1 hlo)).1
    exact ⟨h.neg_alike hleast, h.antisymm (hle' hi ((hsame a hi).1 hhi)).2 (hle hi' ((hsame a hi').2 hhi')).2⟩
  · have hany' : ¬ ∃ v, OnAxis size coordinates' a v := fun ⟨v, hv⟩ => hany ⟨v, (hsame a v).2 hv⟩
    rw [(hnone hany).1, (hnone hany).2, (hnone' hany').1, (hnone' hany').2]
    exact ⟨.refl _, .refl _⟩

end Extremes

end Global

end CurvePartition
