-- SUMMARY: Splitting the coarsest leaves keeps a tree valid, and with a bucket that is too large no round leaves a tree as it is.
import CurvePartition.Proofs.Leaves.Settling
import CurvePartition.Proofs.Results

/-!
# Refinement, and buckets that are too large

Splitting all leaves of the coarsest level adapts a tree to its inner nodes together with these leaves, so the tree stays
valid (`Leaves.isValid_refine`). When a bucket is too large to be compared with, a round either fails or merges every
leaf with its siblings, and the tree changes (`Leaves.round_of_too_large`).
-/

namespace CurvePartition

namespace Leaves

open Key Node

variable {depth : Nat} {t : Leaves depth}

/-! ## Refinement -/

/-- The inner nodes of a tree and its leaves of a level. -/
def SplitsOrAt (t : Leaves depth) (level : Nat) (n : Node) : Prop :=
  t.Splits n ∨ ∃ i < t.count, t.level i = level ∧ t.node i = n

theorem coarsestLevel_le (ht : t.isValid = true) : t.coarsestLevel ≤ depth := by
  unfold coarsestLevel
  cases h : t.levels.min? with
  | none => exact Nat.le_refl _
  | some l =>
    obtain ⟨i, hi, rfl⟩ := List.mem_map.1 (List.min?_mem h)
    exact (isCell_node ht (List.mem_range.1 hi)).level_le

/-- Splitting the leaves of a level adapts a tree to its inner nodes and these leaves. -/
theorem adapts_splitCoarsest (ht : t.isValid = true) {level : Nat} (hlevel : level < depth) :
    t.Adapts (t.SplitsOrAt level) (t.levels.map fun l => if l = level then .split 1 else .keep) where
  length_eq := by simp [levels]
  merge i hi slot hslot hnot :=
    absurd (.inl (splits_parent_node ht hi ((siblingSlot_eq_some_iff ht hi).1 hslot).1)) hnot
  split i hi _ := by
    have hwanted : t.SplitsOrAt level (t.node i) ↔ t.level i = level := by
      refine ⟨fun h => ?_, fun h => .inr ⟨i, hi, h, rfl⟩⟩
      rcases h with hs | ⟨j, _, hj, heq⟩
      · exact absurd hs (not_splits_node ht hi)
      · exact (congrArg Node.level heq).symm.trans hj
    rw [levels, List.map_map, List.getElem?_map, List.getElem?_range hi, Option.map_some, hwanted]
    by_cases hl : t.level i = level
    · exact ⟨1, by simp [hl], by omega, by simp [hl]⟩
    · exact ⟨0, by simp [hl, LeafChange.keep], (isCell_node ht hi).level_le, by simp [hl]⟩

theorem isValid_refineFrom (minLeaves fuel : Nat) (ht : t.isValid = true) :
    (refineFrom minLeaves fuel t).isValid = true := by
  induction fuel generalizing t with
  | zero => exact ht
  | succ fuel ih =>
    rw [refineFrom]
    split
    · exact ht
    · rename_i hmore
      have hlt := Nat.lt_of_le_of_ne (coarsestLevel_le ht) fun heq => hmore (.inr heq)
      exact ih (isValid_apply ht (adapts_splitCoarsest ht hlt))

/-- Refinement keeps a tree valid. -/
theorem isValid_refine (minLeaves : Nat) (ht : t.isValid = true) : (t.refine minLeaves).isValid = true :=
  isValid_refineFrom minLeaves depth ht

/-- A tree with enough leaves is not refined. -/
theorem refine_of_le {minLeaves : Nat} (h : minLeaves ≤ t.count) : t.refine minLeaves = t := by
  unfold refine
  cases depth with
  | zero => rfl
  | succ depth => rw [refineFrom, if_pos (.inl h)]

/-! ## Buckets that are too large -/

variable {counts : Array Nat} {bucketSize : Nat}

/-- When a bucket is too large, only leaves that are merged with their siblings have a change. -/
theorem adapts_of_too_large (hlarge : 2 ^ 64 ≤ bucketSize * 512) {changes : List LeafChange}
    (h : t.changes counts bucketSize = .ok changes) : t.Adapts (fun _ => False) changes ∧
      ∀ i < t.count, ∃ slot, t.siblingSlot i = some slot := by
  obtain ⟨hlength, hget⟩ := mapM_eq_ok h
  have hmerged : ∀ i < t.count, ∃ slot, t.siblingSlot i = some slot ∧
      changes[i]? = some (if slot = 0 then .keep else .drop) := by
    intro i hi
    obtain ⟨c, hc, hchange⟩ := hget i i (List.getElem?_range hi)
    unfold change at hchange
    cases hslot : t.siblingSlot i with
    | none =>
      simp only [hslot, if_pos hlarge] at hchange
      cases hchange
    | some slot =>
      simp only [hslot, if_pos hlarge] at hchange
      split at hchange
      · cases hchange
        exact ⟨slot, rfl, hc⟩
      · cases hchange
  refine ⟨⟨hlength.trans (List.length_range ..), fun i hi slot hslot _ => ?_, fun i hi hnone => ?_⟩, fun i hi => ?_⟩
  · obtain ⟨slot', hslot', hc⟩ := hmerged i hi
    rw [hslot] at hslot'
    cases hslot'
    exact hc
  · obtain ⟨slot, hslot, _⟩ := hmerged i hi
    exact absurd (hnone slot hslot) id
  · obtain ⟨slot, hslot, _⟩ := hmerged i hi
    exact ⟨slot, hslot⟩

/-- When a bucket is too large, a round fails or changes the tree, and keeps it valid. -/
theorem round_of_too_large (t : Leaves depth) (counts : Array Nat) (ht : t.isValid = true) (hlarge : 2 ^ 64 ≤ bucketSize * 512) :
    (∃ e, t.round counts bucketSize = .error e) ∨
      ∃ t', t.round counts bucketSize = .ok (some t') ∧ t'.isValid = true := by
  cases hchanges : t.changes counts bucketSize with
  | error e => exact .inl ⟨e, by rw [round, hchanges]; rfl⟩
  | ok changes =>
    obtain ⟨hadapts, hslots⟩ := adapts_of_too_large hlarge hchanges
    have hshape : IsShape depth fun _ => False := ⟨fun _ _ h => h.elim, fun _ _ _ _ _ h => h⟩
    have hpos := (ascends_of_isValid ht).count_pos
    obtain ⟨slot, hslot⟩ := hslots 0 hpos
    have hunstable : ¬ isStable changes = true := fun hstable =>
      ((isStable_iff_hasShape hshape ht hadapts).1 hstable _ (isCell_node ht hpos).parent).1
        (splits_parent_node ht hpos ((siblingSlot_eq_some_iff ht hpos).1 hslot).1)
    refine .inr ⟨t.apply changes, ?_, isValid_apply ht hadapts⟩
    rw [round, hchanges]
    exact congrArg Except.ok (if_neg hunstable)

end Leaves

end CurvePartition
