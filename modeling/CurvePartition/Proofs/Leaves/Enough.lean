-- SUMMARY: Refinement ends with a leaf for every rank: passes over the coarsest leaves keep all boundaries and stop at the first tree with enough leaves.
import CurvePartition.Proofs.Assignment.Partition
import CurvePartition.Proofs.Leaves.Refining
import CurvePartition.Proofs.Leaves.Replacing

/-!
# Enough leaves

A pass splits all leaves of the coarsest level once. After it the tree splits what it split before and these leaves
(`Leaves.splits_splitCoarsest_iff`), so every leaf is finer than they were, and there are at most eight times as many. Passes
are repeated without a bound until there are enough leaves or none can be split (`Leaves.Passes`). As each of them makes the
coarsest level finer, the bound of `Leaves.refine` is never what ends them (`Leaves.exists_passes`), and what a tree is
refined to is told by induction on the passes.
-/

namespace CurvePartition

namespace Leaves

open Key Node

variable {depth : Nat} {t t' : Leaves depth} {minLeaves i : Nat}

/-! ## The coarsest leaves -/

theorem coarsestLevel_le_level (hi : i < t.count) : t.coarsestLevel ≤ t.level i :=
  List.min?_getD_le_of_mem (List.mem_map.2 ⟨i, List.mem_range.2 hi, rfl⟩)

theorem exists_coarsest (ht : t.isValid = true) : ∃ i < t.count, t.level i = t.coarsestLevel := by
  have hlevel : t.level 0 ∈ t.levels :=
    List.mem_map.2 ⟨0, List.mem_range.2 (ascends_of_isValid ht).count_pos, rfl⟩
  cases hmin : t.levels.min? with
  | none => exact absurd (List.min?_eq_none_iff.1 hmin) (List.ne_nil_of_mem hlevel)
  | some l =>
    obtain ⟨i, hi, heq⟩ := List.mem_map.1 (List.min?_mem hmin)
    exact ⟨i, List.mem_range.1 hi, by rw [coarsestLevel, hmin, Option.getD_some, heq]⟩

/-- A tree with leaves of the deepest level only has one for each key. -/
theorem count_of_deepest (ht : t.isValid = true) (hdeep : t.coarsestLevel = depth) :
    (∀ i < t.count, t.level i = depth) ∧ t.count = bound depth := by
  have hlevel : ∀ i < t.count, t.level i = depth := fun i hi =>
    Nat.le_antisymm (isCell_node ht hi).level_le (Nat.le_trans (Nat.le_of_eq hdeep.symm) (coarsestLevel_le_level hi))
  have hstart : ∀ i ≤ t.count, t.start i = i := by
    intro i hi
    induction i with
    | zero => exact (ascends_of_isValid ht).start_zero
    | succ i ih =>
      rw [← stop_node ht hi, stop]
      simp only [node, hlevel i hi, extent_self, ih (Nat.le_of_succ_le hi)]
  exact ⟨hlevel, by rw [← hstart t.count (Nat.le_refl _), (ascends_of_isValid ht).start_count]⟩

/-! ## One pass -/

/-- Splitting one level splits one leaf into eight. -/
theorem count_splitCoarsest (t : Leaves depth) :
    t.splitCoarsest.count = t.count + 7 * t.levels.count t.coarsestLevel := by
  have hsum : ∀ (l : List Nat) (level : Nat),
      ((l.map fun l => if l = level then LeafChange.split 1 else .keep).map LeafChange.leaves).sum =
        l.length + 7 * l.count level := by
    intro l level
    induction l with
    | nil => rfl
    | cons l rest ih =>
      rw [List.map_cons, List.map_cons, List.sum_cons, ih, List.count_cons, List.length_cons]
      by_cases hl : l = level
      · simp only [if_pos hl, beq_iff_eq, LeafChange.leaves]
        omega
      · simp only [if_neg hl, beq_iff_eq, LeafChange.keep, LeafChange.leaves]
        omega
  rw [splitCoarsest, count_apply, hsum]
  simp only [levels, List.length_map, List.length_range]

theorem count_splitCoarsest_le (t : Leaves depth) : t.splitCoarsest.count ≤ 8 * t.count := by
  have hle : t.levels.count t.coarsestLevel ≤ t.levels.length := List.count_le_length
  simp only [levels, List.length_map, List.length_range] at hle
  rw [count_splitCoarsest]
  simp only [levels]
  omega

section Pass

variable (ht : t.isValid = true) (hcoarse : t.coarsestLevel < depth)
include ht hcoarse

theorem isValid_splitCoarsest : t.splitCoarsest.isValid = true := isValid_apply ht (adapts_splitCoarsest ht hcoarse)

/-- After a pass the coarsest leaves are split too. -/
theorem splits_splitCoarsest_iff {n : Node} (hn : n.IsCell depth) :
    t.splitCoarsest.Splits n ↔ t.SplitsOrAt t.coarsestLevel n := by
  have hadapts := adapts_splitCoarsest ht hcoarse
  have hchange : ∀ i < t.count, (t.levels.map fun l => if l = t.coarsestLevel then LeafChange.split 1 else .keep)[i]? =
      some (if t.level i = t.coarsestLevel then .split 1 else .keep) := by
    intro i hi
    rw [levels, List.map_map, List.getElem?_map, List.getElem?_range hi, Option.map_some, Function.comp_apply]
  refine (splits_apply_iff ht hadapts hn).trans ⟨?_, ?_⟩
  · rintro (⟨hs, _⟩ | ⟨i, levels, hc, hin, hlevel⟩)
    · exact .inl hs
    · have hi := hadapts.lt_count hc
      rw [hchange i hi, Option.some.injEq] at hc
      split at hc
      · rename_i hat
        cases hc
        have hfar : n.level = t.level i := Nat.le_antisymm (Nat.le_of_lt_succ hlevel) hin.1
        exact .inr ⟨i, hi, hat, (hin.eq_of_level hn (isCell_node ht hi) hfar).symm⟩
      · cases hc
        exact absurd hin.1 (Nat.not_le.2 hlevel)
  · rintro (hs | ⟨i, hi, hat, rfl⟩)
    · exact .inl ⟨hs, .inl (.inl hs)⟩
    · refine .inr ⟨i, 1, ?_, Inside.refl _, Nat.lt_succ_self _⟩
      rw [hchange i hi, if_pos hat]

/-- A pass leaves no leaf of the level that it splits. -/
theorem coarsestLevel_lt_level (hi : i < t.splitCoarsest.count) : t.coarsestLevel < t.splitCoarsest.level i := by
  have ht' := isValid_splitCoarsest ht hcoarse
  have hn := isCell_node ht' hi
  refine Nat.not_le.1 fun hle => not_splits_node ht' hi ((splits_splitCoarsest_iff ht hcoarse hn).2 ?_)
  rcases splits_or_inside ht hn with hs | ⟨j, hj, hin⟩
  · exact .inl hs
  · have hat : t.level j = t.coarsestLevel :=
      Nat.le_antisymm (Nat.le_trans hin.1 hle) (coarsestLevel_le_level hj)
    have hlevel : (t.splitCoarsest.node i).level = (t.node j).level :=
      Nat.le_antisymm (Nat.le_trans hle (Nat.le_of_eq hat.symm)) hin.1
    exact .inr ⟨j, hj, hat, (hin.eq_of_level hn (isCell_node ht hj) hlevel).symm⟩

/-- A pass makes the coarsest level finer. -/
theorem coarsestLevel_lt : t.coarsestLevel < t.splitCoarsest.coarsestLevel := by
  obtain ⟨i, hi, hlevel⟩ := exists_coarsest (isValid_splitCoarsest ht hcoarse)
  exact hlevel ▸ coarsestLevel_lt_level ht hcoarse hi

theorem isBoundary_splitCoarsest {key : Nat} (h : t.IsBoundary key) : t.splitCoarsest.IsBoundary key := by
  have hadapts := adapts_splitCoarsest ht hcoarse
  have ha := ascends_of_isValid ht
  obtain ⟨i, hi, rfl⟩ := h
  refine (isBoundary_apply_iff ht hadapts).2 ?_
  rcases Nat.lt_or_eq_of_le hi with hlt | rfl
  · obtain ⟨levels, hc, _⟩ := hadapts.split i hlt fun slot hslot =>
      .inl (splits_parent_node ht hlt ((siblingSlot_eq_some_iff ht hlt).1 hslot).1)
    exact .inr ⟨i, levels, hc, Nat.le_refl _, ha.lt_succ i hlt,
      Nat.dvd_trans (extent_dvd (Nat.le_add_right _ _)) (isCell_node ht hlt).aligned⟩
  · exact .inl ha.start_count

end Pass

/-! ## Passes -/

/-- A number of passes over the coarsest leaves, which end at enough leaves or at leaves that cannot be split. -/
inductive Passes (minLeaves : Nat) : Nat → Leaves depth → Leaves depth → Prop
  | done {t : Leaves depth} (stop : minLeaves ≤ t.count ∨ t.coarsestLevel = depth) : Passes minLeaves 0 t t
  | pass {n : Nat} {t t' : Leaves depth} (few : t.count < minLeaves) (coarse : t.coarsestLevel ≠ depth)
    (rest : Passes minLeaves n t.splitCoarsest t') : Passes minLeaves (n + 1) t t'

/-- Each pass makes the coarsest level finer, so passes end within the bound on their number. -/
theorem exists_passes (minLeaves : Nat) {fuel : Nat} (ht : t.isValid = true) (hfuel : depth ≤ t.coarsestLevel + fuel) :
    ∃ n ≤ fuel, Passes minLeaves n t (refineFrom minLeaves fuel t) := by
  induction fuel generalizing t with
  | zero => exact ⟨0, Nat.le_refl 0, .done (.inr (Nat.le_antisymm (coarsestLevel_le ht) hfuel))⟩
  | succ fuel ih =>
    rw [refineFrom]
    by_cases hstop : minLeaves ≤ t.count ∨ t.coarsestLevel = depth
    · rw [if_pos hstop]
      exact ⟨0, Nat.zero_le _, .done hstop⟩
    · rw [if_neg hstop]
      rw [not_or, Nat.not_le] at hstop
      have hcoarse := Nat.lt_of_le_of_ne (coarsestLevel_le ht) hstop.2
      have hfiner := coarsestLevel_lt ht hcoarse
      obtain ⟨n, hn, hpasses⟩ := ih (isValid_splitCoarsest ht hcoarse) (by omega)
      exact ⟨n + 1, Nat.succ_le_succ hn, .pass hstop.1 hstop.2 hpasses⟩

namespace Passes

variable {n : Nat} (h : Passes minLeaves n t t') (ht : t.isValid = true)
include h ht

theorem isValid : t'.isValid = true := by
  induction h with
  | done => exact ht
  | pass _ coarse _ ih => exact ih (isValid_splitCoarsest ht (Nat.lt_of_le_of_ne (coarsestLevel_le ht) coarse))

theorem isBoundary {key : Nat} (hkey : t.IsBoundary key) : t'.IsBoundary key := by
  induction h with
  | done => exact hkey
  | pass _ coarse _ ih =>
    have hcoarse := Nat.lt_of_le_of_ne (coarsestLevel_le ht) coarse
    exact ih (isValid_splitCoarsest ht hcoarse) (isBoundary_splitCoarsest ht hcoarse hkey)

/-- Passes make no leaf coarser. -/
theorem coarsestLevel_le_level (hi : i < t'.count) : t.coarsestLevel ≤ t'.level i := by
  induction h with
  | done => exact Leaves.coarsestLevel_le_level hi
  | pass _ coarse _ ih =>
    have hcoarse := Nat.lt_of_le_of_ne (coarsestLevel_le ht) coarse
    exact Nat.le_trans (Nat.le_of_lt (coarsestLevel_lt ht hcoarse)) (ih (isValid_splitCoarsest ht hcoarse) hi)

/-- A leaf is split only with all leaves that are not finer. -/
theorem level_lt_level {m : Node} (hm : m.IsCell depth) (hleaf : ¬ t.Splits m) (hsplit : t'.Splits m) (hi : i < t'.count) :
    m.level < t'.level i := by
  induction h with
  | done => exact absurd hsplit hleaf
  | @pass n t t' _ coarse rest ih =>
    have hcoarse := Nat.lt_of_le_of_ne (coarsestLevel_le ht) coarse
    have ht' := isValid_splitCoarsest ht hcoarse
    by_cases hs : t.splitCoarsest.Splits m
    · rcases (splits_splitCoarsest_iff ht hcoarse hm).1 hs with hs | ⟨j, _, hat, rfl⟩
      · exact absurd hs hleaf
      · calc t.level j
            = t.coarsestLevel := hat
          _ < t.splitCoarsest.coarsestLevel := coarsestLevel_lt ht hcoarse
          _ ≤ t'.level i := rest.coarsestLevel_le_level ht' hi
    · exact ih ht' hs hsplit hi

/-- Passes end with enough leaves, but not with eight times as many, or with all leaves on the deepest level. -/
theorem enough (hfew : t.count < minLeaves) : minLeaves ≤ t'.count ∧ t'.count < 8 * minLeaves ∨
    (∀ i < t'.count, t'.level i = depth) ∧ 8 ^ depth < minLeaves := by
  induction h with
  | done stop =>
    have hdeep := stop.resolve_left (Nat.not_le.2 hfew)
    obtain ⟨hlevel, hcount⟩ := count_of_deepest ht hdeep
    exact .inr ⟨hlevel, Nat.lt_of_le_of_lt (Nat.le_of_eq hcount.symm) hfew⟩
  | @pass n t t' _ coarse rest ih =>
    have ht' := isValid_splitCoarsest ht (Nat.lt_of_le_of_ne (coarsestLevel_le ht) coarse)
    rcases Nat.lt_or_ge t.splitCoarsest.count minLeaves with hless | hmany
    · exact ih ht' hless
    · cases rest with
      | done =>
        have hle := count_splitCoarsest_le t
        exact .inl ⟨hmany, by omega⟩
      | pass few => exact absurd hmany (Nat.not_le.2 few)

end Passes

/-! ## Refined trees -/

/-- What a tree becomes when it is refined to a number of leaves. -/
structure RefinesTo (t : Leaves depth) (minLeaves : Nat) (t' : Leaves depth) : Prop where
  /-- The passes come to an end, after as many of them as there are levels or fewer. -/
  ends : ∃ n ≤ depth, Passes minLeaves n t t'
  isValid : t'.isValid = true
  isBoundary : ∀ key, t.IsBoundary key → t'.IsBoundary key
  unchanged : minLeaves ≤ t.count → t' = t
  /-- There are enough leaves, or one for each key and still too few. -/
  enough : t.count < minLeaves → minLeaves ≤ t'.count ∧ t'.count < 8 * minLeaves ∨
    (∀ i < t'.count, t'.level i = depth) ∧ 8 ^ depth < minLeaves
  /-- Where a leaf was split, the leaf of the tree or one that another pass made, all leaves are finer than it. -/
  coarsest_first : ∀ n : Node, n.IsCell depth → ¬ t.Splits n → t'.Splits n → ∀ i < t'.count, n.level < t'.level i

/-- Refinement ends with enough leaves, unless there are more of them to make than keys. So a refined tree can be assigned to as
many ranks. -/
theorem refine_enough {α : Type} (ht : t.isValid = true) (minLeaves : Nat) : t.RefinesTo minLeaves (t.refine minLeaves) ∧
    (0 < minLeaves → minLeaves ≤ 8 ^ depth → ∀ counts,
      ∃ a, Assignment.compute (α := α) (t.refine minLeaves) counts minLeaves = .ok a ∧ a.ranks = minLeaves) := by
  obtain ⟨n, hn, hpasses⟩ := exists_passes minLeaves ht (Nat.le_add_left depth t.coarsestLevel)
  have hrefines : t.RefinesTo minLeaves (t.refine minLeaves) := {
    ends := ⟨n, hn, hpasses⟩
    isValid := hpasses.isValid ht
    isBoundary := fun _ => hpasses.isBoundary ht
    unchanged := refine_of_le
    enough := hpasses.enough ht
    coarsest_first := fun _ hm hleaf hsplit _ => hpasses.level_lt_level ht hm hleaf hsplit }
  refine ⟨hrefines, fun hpos hle counts => ?_⟩
  have hmany : minLeaves ≤ (t.refine minLeaves).count := by
    rcases Nat.lt_or_ge t.count minLeaves with hfew | hmany
    · rcases hrefines.enough hfew with ⟨hmany, _⟩ | ⟨_, htoo⟩
      · exact hmany
      · exact absurd hle (Nat.not_le.2 htoo)
    · rwa [hrefines.unchanged hmany]
  obtain ⟨a, hcompute, hcut⟩ := Assignment.exists_compute (α := α) counts hpos hmany
  exact ⟨a, hcompute, hcut.ranks_eq⟩

/-- The octants of the root, of which the first one is split again, are refined for sixteen ranks: the seven others are split. -/
theorem refine_enough_unbalanced :
    let starts := (List.range 8).map (· * 8 ^ 8) ++ (List.range 7).map fun k => (k + 1) * 8 ^ 9
    let t : Leaves KeyWidth.narrow.depth := ⟨(starts ++ [8 ^ 10]).toArray⟩
    t.isValid = true ∧ t.count = 15 ∧ t.RefinesTo 16 (t.refine 16) ∧ (t.refine 16).count = 64 ∧
      ∃ a, Assignment.compute (α := Float) (t.refine 16) (Array.replicate 64 1) 16 = .ok a ∧ a.ranks = 16 := by
  intro starts t
  have ht : t.isValid = true := by decide +kernel
  obtain ⟨hrefines, hassigned⟩ := refine_enough (α := Float) ht 16
  exact ⟨ht, by decide, hrefines, by decide +kernel, hassigned (by decide) (by decide) _⟩

end Leaves

end CurvePartition
