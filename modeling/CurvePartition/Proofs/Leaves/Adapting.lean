-- SUMMARY: Rounds that adapt a tree to a shape, a set of cells it should split: the tree after a round, and why it is valid.
import Mathlib.Data.List.Basic
import CurvePartition.Proofs.Leaves.Siblings

/-!
# Adapting a tree to a shape

Global trees and focus trees are adapted in the same way. There is a set of cells that the tree should split, its
*shape*: with a cell it holds all cells around it. A round merges eight sibling leaves whose parent is not in the
shape, and splits a leaf that is in the shape by one level or more (`Leaves.Adapts`).

`Leaves.splits_apply_iff` says which cells are split after a round, from the cells that were split before: an inner node
stays if it is in the shape or has an inner child, and a leaf in the shape becomes a uniform subtree.
-/

namespace CurvePartition

open Key Node

/-- A set of cells that the leaves of a tree can leave split. -/
structure IsShape (depth : Nat) (wanted : Node → Prop) : Prop where
  level_lt : ∀ n, n.IsCell depth → wanted n → n.level < depth
  around : ∀ m n, m.IsCell depth → n.IsCell depth → m.Inside depth n → wanted m → wanted n

namespace Leaves

variable {depth : Nat} {t : Leaves depth} {wanted : Node → Prop} {changes : List LeafChange}

/-- Whether a tree splits the cells of a shape and no others. -/
def HasShape (t : Leaves depth) (wanted : Node → Prop) : Prop := ∀ n, n.IsCell depth → (t.Splits n ↔ wanted n)

/-- Whether the changes of a round adapt a tree to a shape. -/
structure Adapts (t : Leaves depth) (wanted : Node → Prop) (changes : List LeafChange) : Prop where
  length_eq : changes.length = t.count
  /-- Siblings below a parent outside of the shape are merged. -/
  merge : ∀ i < t.count, ∀ slot, t.siblingSlot i = some slot → ¬ wanted ((t.node i).parent depth) →
    changes[i]? = some (if slot = 0 then .keep else .drop)
  /-- Other leaves are split if they are in the shape. -/
  split : ∀ i < t.count, (∀ slot, t.siblingSlot i = some slot → wanted ((t.node i).parent depth)) →
    ∃ levels, changes[i]? = some (.split levels) ∧ t.level i + levels ≤ depth ∧ (0 < levels ↔ wanted (t.node i))

namespace Adapts

variable {i : Nat}

theorem lt_count (h : t.Adapts wanted changes) {c : LeafChange} (hc : changes[i]? = some c) : i < t.count := by
  obtain ⟨hlt, _⟩ := List.getElem?_eq_some_iff.1 hc
  exact h.length_eq ▸ hlt

/-- A leaf in the shape is split, by one level at least. -/
theorem exists_split (h : t.Adapts wanted changes) (hshape : IsShape depth wanted) (ht : t.isValid = true)
    (hi : i < t.count) (hw : wanted (t.node i)) :
    ∃ levels, changes[i]? = some (.split levels) ∧ t.level i + levels ≤ depth ∧ 0 < levels := by
  have hm := isCell_node ht hi
  have hparent : wanted ((t.node i).parent depth) :=
    hshape.around _ _ hm hm.parent ((t.node i).inside_ancestor (Nat.sub_le _ _)) hw
  obtain ⟨levels, hc, hle, hiff⟩ := h.split i hi fun _ _ => hparent
  exact ⟨levels, hc, hle, hiff.2 hw⟩

/-- A leaf goes only if it is a later one of eight siblings below a parent outside of the shape. -/
theorem drop (h : t.Adapts wanted changes) (hc : changes[i]? = some .drop) :
    ∃ slot, t.siblingSlot i = some slot ∧ slot ≠ 0 ∧ ¬ wanted ((t.node i).parent depth) := by
  have hi := h.lt_count hc
  by_cases hall : ∀ slot, t.siblingSlot i = some slot → wanted ((t.node i).parent depth)
  · obtain ⟨levels, hc', _⟩ := h.split i hi hall
    rw [hc] at hc'
    cases hc'
  · simp only [not_forall] at hall
    obtain ⟨slot, hslot, hnot⟩ := hall
    have hc' := h.merge i hi slot hslot hnot
    rw [hc] at hc'
    refine ⟨slot, hslot, fun hzero => ?_, hnot⟩
    rw [if_pos hzero] at hc'
    cases hc'

theorem level_add_le (h : t.Adapts wanted changes) (ht : t.isValid = true) {levels : Nat}
    (hc : changes[i]? = some (.split levels)) : t.level i + levels ≤ depth := by
  have hi := h.lt_count hc
  by_cases hall : ∀ slot, t.siblingSlot i = some slot → wanted ((t.node i).parent depth)
  · obtain ⟨levels', hc', hle, _⟩ := h.split i hi hall
    rw [hc] at hc'
    cases hc'
    exact hle
  · simp only [not_forall] at hall
    obtain ⟨slot, hslot, hnot⟩ := hall
    have hc' := h.merge i hi slot hslot hnot
    rw [hc] at hc'
    split at hc'
    · cases hc'
      exact (isCell_node ht hi).level_le
    · cases hc'

theorem wanted_of_pos (h : t.Adapts wanted changes) {levels : Nat} (hc : changes[i]? = some (.split levels))
    (hpos : 0 < levels) : wanted (t.node i) := by
  have hi := h.lt_count hc
  by_cases hall : ∀ slot, t.siblingSlot i = some slot → wanted ((t.node i).parent depth)
  · obtain ⟨levels', hc', _, hiff⟩ := h.split i hi hall
    rw [hc] at hc'
    cases hc'
    exact hiff.1 hpos
  · simp only [not_forall] at hall
    obtain ⟨slot, hslot, hnot⟩ := hall
    have hc' := h.merge i hi slot hslot hnot
    rw [hc] at hc'
    split at hc'
    · cases hc'
      exact absurd hpos (Nat.lt_irrefl 0)
    · cases hc'

end Adapts

/-! ## The boundaries after a round -/

theorem extent_eq_pow_mul {level levels : Nat} (h : level + levels ≤ depth) :
    extent depth level = 8 ^ levels * extent depth (level + levels) := by
  rw [extent, extent, ← Nat.pow_add]
  congr 1
  omega

theorem pieces_pow (t : Leaves depth) (i levels : Nat) : t.pieces i (8 ^ levels) =
    (List.range (8 ^ levels)).map fun k => t.start i + k * extent depth (t.level i + levels) := by
  simp only [pieces, factorsOfEight_pow]

/-- The pieces of a leaf start at the keys of the leaf that are aligned to them. -/
theorem mem_pieces_iff (ht : t.isValid = true) {i levels k : Nat} (hi : i < t.count)
    (hle : t.level i + levels ≤ depth) :
    k ∈ t.pieces i (8 ^ levels) ↔
      t.start i ≤ k ∧ k < t.start (i + 1) ∧ extent depth (t.level i + levels) ∣ k := by
  have hpos := extent_pos depth (t.level i + levels)
  have hdvd : extent depth (t.level i + levels) ∣ t.start i :=
    Nat.dvd_trans (extent_dvd (Nat.le_add_right _ _)) (isCell_node ht hi).aligned
  have hstop : t.start (i + 1) = t.start i + 8 ^ levels * extent depth (t.level i + levels) := by
    rw [← stop_node ht hi, ← extent_eq_pow_mul hle]
    rfl
  simp only [pieces_pow, List.mem_map, List.mem_range, hstop]
  constructor
  · rintro ⟨j, hj, rfl⟩
    refine ⟨Nat.le_add_right _ _, Nat.add_lt_add_left ?_ _, (Nat.dvd_add_right hdvd).2 (Nat.dvd_mul_left _ _)⟩
    exact Nat.mul_lt_mul_of_pos_right hj hpos
  · rintro ⟨hle', hlt, hk⟩
    obtain ⟨j, hj⟩ := (Nat.dvd_sub hk hdvd : _ ∣ k - t.start i)
    refine ⟨j, ?_, ?_⟩
    · refine Nat.lt_of_mul_lt_mul_right (a := extent depth (t.level i + levels)) ?_
      rw [Nat.mul_comm j, ← hj]
      omega
    · rw [Nat.mul_comm j, ← hj]
      omega

theorem pairwise_pieces (t : Leaves depth) (i levels : Nat) : (t.pieces i (8 ^ levels)).Pairwise (· < ·) := by
  rw [pieces_pow, List.pairwise_map]
  refine List.pairwise_lt_range.imp fun {a b} hab => ?_
  exact Nat.add_lt_add_left (Nat.mul_lt_mul_of_pos_right hab (extent_pos _ _)) _

@[simp] theorem pieces_zero (t : Leaves depth) (i : Nat) : t.pieces i 0 = [] := rfl

theorem toList_bounds_apply (t : Leaves depth) (changes : List LeafChange) : (t.apply changes).bounds.toList =
    ((changes.map LeafChange.leaves).zipIdx.flatMap fun (count, i) => t.pieces i count) ++ [bound depth] := rfl

theorem mem_zipIdx_leaves_iff {changes : List LeafChange} {count i : Nat} :
    (count, i) ∈ (changes.map LeafChange.leaves).zipIdx ↔ ∃ c, changes[i]? = some c ∧ c.leaves = count := by
  rw [List.mk_mem_zipIdx_iff_getElem?, List.getElem?_map, Option.map_eq_some_iff]

theorem isBoundary_iff_mem {k : Nat} (h : 0 < t.bounds.size) : t.IsBoundary k ↔ k ∈ t.bounds := by
  simp only [IsBoundary, count, start, Array.mem_iff_getElem]
  constructor
  · rintro ⟨i, hi, hk⟩
    have hlt : i < t.bounds.size := by omega
    exact ⟨i, hlt, by simpa [Array.getD, hlt] using hk⟩
  · rintro ⟨i, hlt, hk⟩
    exact ⟨i, by omega, by simpa [Array.getD, hlt] using hk⟩

theorem isBoundary_apply_iff_mem {k : Nat} : (t.apply changes).IsBoundary k ↔
    k = bound depth ∨ ∃ i c, changes[i]? = some c ∧ k ∈ t.pieces i c.leaves := by
  rw [isBoundary_iff_mem (by simp [apply, replace]), ← Array.mem_toList_iff, toList_bounds_apply, List.mem_append,
    List.mem_singleton, Or.comm]
  refine or_congr Iff.rfl ?_
  simp only [List.mem_flatMap, Prod.exists, mem_zipIdx_leaves_iff]
  constructor
  · rintro ⟨_, i, ⟨c, hc, rfl⟩, hk⟩
    exact ⟨i, c, hc, hk⟩
  · rintro ⟨i, c, hc, hk⟩
    exact ⟨_, i, ⟨c, hc, rfl⟩, hk⟩

/-- After a round the keys of a leaf hold the boundaries of its pieces. -/
theorem isBoundary_apply_iff (ht : t.isValid = true) (h : t.Adapts wanted changes) {k : Nat} :
    (t.apply changes).IsBoundary k ↔ k = bound depth ∨ ∃ i levels, changes[i]? = some (.split levels) ∧
      t.start i ≤ k ∧ k < t.start (i + 1) ∧ extent depth (t.level i + levels) ∣ k := by
  rw [isBoundary_apply_iff_mem]
  refine or_congr Iff.rfl ⟨?_, ?_⟩
  · rintro ⟨i, c, hc, hk⟩
    cases c with
    | drop => simp [LeafChange.leaves] at hk
    | split levels =>
      exact ⟨i, levels, hc, (mem_pieces_iff ht (h.lt_count hc) (h.level_add_le ht hc)).1 hk⟩
  · rintro ⟨i, levels, hc, hk⟩
    exact ⟨i, .split levels, hc, (mem_pieces_iff ht (h.lt_count hc) (h.level_add_le ht hc)).2 hk⟩

/-- Ascending keys between zero and the bound, both included, have the shape of a boundary array. -/
theorem ascends_of_pairwise (hsorted : t.bounds.toList.Pairwise (· < ·)) (hzero : 0 ∈ t.bounds)
    (hbound : bound depth ∈ t.bounds) (hle : ∀ k ∈ t.bounds, k ≤ bound depth) : t.Ascends := by
  have lt : ∀ i j, i < j → j < t.bounds.size → t.start i < t.start j := by
    intro i j hij hj
    have := List.pairwise_iff_getElem.1 hsorted i j (by simp; omega) (by simpa using hj) hij
    simpa [start, Array.getD, hj, Nat.lt_trans hij hj] using this
  obtain ⟨i, hi, hstart⟩ := Array.mem_iff_getElem.1 hzero
  obtain ⟨j, hj, hstop⟩ := Array.mem_iff_getElem.1 hbound
  have hstart' : t.start i = 0 := by simpa [start, Array.getD, hi] using hstart
  have hstop' : t.start j = bound depth := by simpa [start, Array.getD, hj] using hstop
  have hi0 : i = 0 := by
    by_contra hne
    have := lt 0 i (by omega) hi
    omega
  have hjlast : j = t.count := by
    by_contra hne
    have hlt : t.count < t.bounds.size := by simp only [count]; omega
    have := lt j t.count (by simp only [count] at hne hlt ⊢; omega) hlt
    have hmem : t.start t.count ∈ t.bounds := by simp [start, Array.getD, hlt]
    have := hle _ hmem
    omega
  subst hi0
  subst hjlast
  have hne : t.count ≠ 0 := by
    intro hzero
    have := bound_pos depth
    rw [hzero, hstart'] at hstop'
    omega
  exact ⟨by simp only [count] at hne; omega, hstart', hstop', fun i hi => lt i (i + 1) (by omega) (by
    simp only [count] at hi; omega)⟩

namespace Adapts

/-- The pieces of a leaf begin between its ends. -/
theorem mem_pieces (h : t.Adapts wanted changes) (ht : t.isValid = true) {c : LeafChange} (hc : changes[i]? = some c)
    {k : Nat} (hk : k ∈ t.pieces i c.leaves) : t.start i ≤ k ∧ k < t.start (i + 1) := by
  cases c with
  | drop => simp [LeafChange.leaves] at hk
  | split levels =>
    obtain ⟨hle, hlt, _⟩ := (mem_pieces_iff ht (h.lt_count hc) (h.level_add_le ht hc)).1 hk
    exact ⟨hle, hlt⟩

/-- The boundaries after a round ascend. -/
theorem pairwise_bounds (h : t.Adapts wanted changes) (ht : t.isValid = true) :
    (t.apply changes).bounds.toList.Pairwise (· < ·) := by
  have ha := ascends_of_isValid ht
  rw [toList_bounds_apply, List.pairwise_append]
  refine ⟨List.pairwise_flatMap.2 ⟨?_, ?_⟩, List.pairwise_singleton _ _, ?_⟩
  · rintro ⟨count, i⟩ hci
    obtain ⟨c, _, rfl⟩ := mem_zipIdx_leaves_iff.1 hci
    cases c with
    | drop => exact List.Pairwise.nil
    | split levels => exact pairwise_pieces t i levels
  -- The pieces of one leaf end before those of the next begin.
  · have hidx : (changes.map LeafChange.leaves).zipIdx.Pairwise fun a b => a.2 < b.2 := by
      refine List.pairwise_iff_getElem.2 fun i j hi hj hij => ?_
      simpa using hij
    refine hidx.imp_of_mem fun {a b} hma hmb hlt x hx y hy => ?_
    obtain ⟨count, i⟩ := a
    obtain ⟨count', j⟩ := b
    obtain ⟨c, hc, rfl⟩ := mem_zipIdx_leaves_iff.1 hma
    obtain ⟨c', hc', rfl⟩ := mem_zipIdx_leaves_iff.1 hmb
    have h₁ := h.mem_pieces ht hc hx
    have h₂ := h.mem_pieces ht hc' hy
    have := ha.start_le (i := i + 1) (j := j) hlt (Nat.le_of_lt (h.lt_count hc'))
    omega
  · intro x hx y hy
    obtain rfl := List.mem_singleton.1 hy
    obtain ⟨⟨count, i⟩, hci, hx⟩ := List.mem_flatMap.1 hx
    obtain ⟨c, hc, rfl⟩ := mem_zipIdx_leaves_iff.1 hci
    have h₁ := h.mem_pieces ht hc hx
    have := ha.start_le_bound (i := i + 1) (h.lt_count hc)
    omega

/-- The first leaf is no younger sibling, so it is not dropped. -/
theorem exists_split_zero (h : t.Adapts wanted changes) (ht : t.isValid = true) :
    ∃ levels, changes[0]? = some (.split levels) := by
  have hi := (ascends_of_isValid ht).count_pos
  cases hc : changes[0]? with
  | none =>
    rw [List.getElem?_eq_none_iff, h.length_eq] at hc
    omega
  | some c =>
    cases c with
    | split levels => exact ⟨levels, rfl⟩
    | drop =>
      obtain ⟨slot, hslot, hne, _⟩ := h.drop hc
      have := ((siblingSlot_eq_some_iff ht hi).1 hslot).2.1
      omega

end Adapts

theorem ascends_apply (ht : t.isValid = true) (h : t.Adapts wanted changes) : (t.apply changes).Ascends := by
  have ha := ascends_of_isValid ht
  have hmem : ∀ k, k ∈ (t.apply changes).bounds ↔ (t.apply changes).IsBoundary k := fun k =>
    (isBoundary_iff_mem (by simp [apply, replace])).symm
  refine ascends_of_pairwise (h.pairwise_bounds ht) ?_ ((hmem _).2 ((isBoundary_apply_iff ht h).2 (.inl rfl))) ?_
  · rw [hmem, isBoundary_apply_iff ht h]
    obtain ⟨levels, hc⟩ := h.exists_split_zero ht
    refine .inr ⟨0, levels, hc, Nat.le_of_eq ha.start_zero, ?_, Nat.dvd_zero _⟩
    have := ha.lt_succ 0 ha.count_pos
    omega
  · intro k hk
    rcases (isBoundary_apply_iff ht h).1 ((hmem k).1 hk) with rfl | ⟨i, levels, hc, _, hlt, _⟩
    · exact Nat.le_refl _
    · have := ha.start_le_bound (i := i + 1) (h.lt_count hc)
      omega

end Leaves

end CurvePartition
