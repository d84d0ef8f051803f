-- SUMMARY: Values carried up an octree are folds: of the children at every inner node, and of the leaves in a node's keys if the combination is associative.
import CurvePartition.Proofs.Leaves.Counting
import CurvePartition.Proofs.Octree.Search

/-!
# Folds of the leaves below a node

`Octree.upsweep` folds the values of eight children at each inner node. The leaves in the keys of a split cell are
those in its octants, one octant after the other (`Leaves.leavesWithin_of_splits`), so an associative combination may
be taken over the leaves at once (`Octree.fold_leavesWithin`). With the numbers of keys in the leaves, every node gets
the number of keys in its range.
-/

namespace CurvePartition

open Key Node Leaves

/-! ## Folds from the first value on -/

section Fold

variable {τ ι : Type} {combine : τ → τ → τ}

/-- A list combined from the left, if it is not empty. -/
def foldLeft? (combine : τ → τ → τ) : List τ → Option τ
  | [] => none
  | v :: rest => some (rest.foldl combine v)

theorem foldLeft?_append [Std.Associative combine] (l l' : List τ) :
    foldLeft? combine (l ++ l') = (foldLeft? combine l).merge combine (foldLeft? combine l') := by
  cases l with
  | nil => cases l' <;> rfl
  | cons v rest =>
    cases l' with
    | nil => rw [List.append_nil]; rfl
    | cons v' rest' =>
      simp only [foldLeft?, List.cons_append, List.foldl_append, List.foldl_cons, Option.merge_some_some]
      rw [List.foldl_assoc]

/-- The folds of parts, folded, are the fold of the whole. -/
theorem foldLeft?_flatMap [Std.Associative combine] {parts : List ι} {part : ι → List τ} {value : ι → τ}
    (h : ∀ k ∈ parts, foldLeft? combine (part k) = some (value k)) :
    foldLeft? combine (parts.flatMap part) = foldLeft? combine (parts.map value) := by
  induction parts with
  | nil => rfl
  | cons k rest ih =>
    have hrest := ih fun k' hk' => h k' (List.mem_cons_of_mem k hk')
    calc foldLeft? combine ((k :: rest).flatMap part)
        = (foldLeft? combine (part k)).merge combine (foldLeft? combine (rest.flatMap part)) := by
          rw [List.flatMap_cons, foldLeft?_append]
      _ = (foldLeft? combine [value k]).merge combine (foldLeft? combine (rest.map value)) := by
          rw [h k List.mem_cons_self, hrest]
          rfl
      _ = foldLeft? combine ((k :: rest).map value) := by
          rw [← foldLeft?_append]
          rfl

theorem foldLeft?_add (v : Nat) (l : List Nat) : foldLeft? (· + ·) (v :: l) = some (v :: l).sum := by
  rw [foldLeft?, List.sum_eq_foldl, List.foldl_cons, Nat.zero_add]

end Fold

/-! ## Leaves in the keys of a cell -/

namespace Leaves

variable {depth : Nat} {t : Leaves depth} {n : Node} {l : Nat}

/-- The leaves inside a key range, in key order. -/
def leavesWithin (t : Leaves depth) (r : KeyRange) : List Nat :=
  (List.range t.count).filter fun l => (t.range l).within r

theorem pairwise_leavesWithin (t : Leaves depth) (r : KeyRange) : (t.leavesWithin r).Pairwise (· < ·) :=
  List.pairwise_lt_range.filter _

variable (ht : t.isValid = true)
include ht

theorem mem_leavesWithin (hn : n.IsCell depth) :
    l ∈ t.leavesWithin (n.range depth) ↔ l < t.count ∧ (t.node l).Inside depth n := by
  rw [leavesWithin, List.mem_filter, List.mem_range]
  refine and_congr_right fun hl => ?_
  rw [← range_node ht hl]
  refine ⟨inside_of_within (isCell_node ht hl) hn, fun hin => ?_⟩
  exact hin.within (isCell_node ht hl) hn (by simp [KeyRange.within])

theorem leavesWithin_node (hl : l < t.count) : t.leavesWithin ((t.node l).range depth) = [l] := by
  refine Sorted.eq_of_mem_iff (fun a b => Nat.lt_asymm) (t.pairwise_leavesWithin _) (List.pairwise_singleton _ _) fun j => ?_
  rw [mem_leavesWithin ht (isCell_node ht hl), List.mem_singleton]
  constructor
  · rintro ⟨hj, hin⟩
    refine node_inj ht hj hl ?_
    exact HasNode.eq_of_inside (hasNode_node ht hj) (isCell_node ht hl) hin (not_splits_node ht hl)
  · rintro rfl
    exact ⟨hl, Inside.refl _⟩

/-- The leaves of a split cell are those of its octants. -/
theorem leavesWithin_of_splits (hn : n.IsCell depth) (hs : t.Splits n) : t.leavesWithin (n.range depth) =
    (List.range 8).flatMap fun k => t.leavesWithin ((n.child depth k).range depth) := by
  have hlt := hs.level_lt hn
  refine Sorted.eq_of_mem_iff (fun a b => Nat.lt_asymm) (t.pairwise_leavesWithin _) ?_ fun l => ?_
  · refine List.pairwise_flatMap.2 ⟨fun k _ => t.pairwise_leavesWithin _, ?_⟩
    refine List.pairwise_lt_range.imp_of_mem fun {k k'} hk hk' hkk l hl l' hl' => ?_
    obtain ⟨hcount, hin⟩ := (mem_leavesWithin ht (hn.child hlt (List.mem_range.1 hk))).1 hl
    obtain ⟨_, hin'⟩ := (mem_leavesWithin ht (hn.child hlt (List.mem_range.1 hk'))).1 hl'
    refine (ascends_of_isValid ht).lt_of_start_lt (Nat.le_of_lt hcount) ?_
    calc t.start l
        < (n.child depth k).stop depth := hin.2.2
      _ ≤ (n.child depth k').first := n.child_stop_le_first hkk
      _ ≤ t.start l' := hin'.2.1
  · rw [mem_leavesWithin ht hn, List.mem_flatMap]
    constructor
    · rintro ⟨hl, hin⟩
      obtain ⟨k, hk, hink⟩ := hs.exists_child (not_splits_node ht hl) hin (isCell_node ht hl) hn
      exact ⟨k, List.mem_range.2 hk, (mem_leavesWithin ht (hn.child hlt hk)).2 ⟨hl, hink⟩⟩
    · rintro ⟨k, hk, hmem⟩
      have hk := List.mem_range.1 hk
      obtain ⟨hl, hin⟩ := (mem_leavesWithin ht (hn.child hlt hk)).1 hmem
      exact ⟨hl, hin.trans (child_inside hlt hk) (hn.child hlt hk) hn⟩

end Leaves

namespace Octree

variable {depth : Nat} {τ : Type} {t : Leaves depth} {combine : τ → τ → τ} {blank : τ} {i : Nat}

/-- The children of an inner node are combined from the left. -/
theorem some_combineChildren (combine : τ → τ → τ) (blank : τ) (values : Array τ) (first : Nat) :
    some (combineChildren combine blank values first) =
      foldLeft? combine ((List.range 8).map fun k => values.getD (first + k) blank) := by
  simp only [combineChildren, foldLeft?, List.range_succ_eq_map (n := 7), List.map_cons, List.map_map, List.foldl_map,
    Function.comp_def, Nat.add_zero, Nat.succ_eq_add_one, Nat.add_assoc, Nat.add_comm 1]

section Table

variable (ht : t.isValid = true)
include ht

/-- An associative combination of values carried up is one of the leaves' values. -/
theorem fold_leavesWithin [Std.Associative combine] (leafValues : Array τ) (hi : i < (ofLeaves t).size) :
    foldLeft? combine ((t.leavesWithin ((ofLeaves t).range i)).map (leafValues.getD · blank)) =
      some (((ofLeaves t).upsweep combine blank leafValues).getD i blank) := by
  refine upsweep_induction ht
    (P := fun n v => foldLeft? combine ((t.leavesWithin (n.range depth)).map (leafValues.getD · blank)) = some v)
    (fun l hl => ?_) (fun {n values first} hn hs hchild => ?_) hi
  · rw [leavesWithin_node ht hl]
    rfl
  · rw [leavesWithin_of_splits ht hn hs, List.map_flatMap, some_combineChildren]
    exact foldLeft?_flatMap fun k hk => hchild k (List.mem_range.1 hk)

/-- Numbers of keys in the leaves add up to those in the nodes. -/
theorem upsweep_histogram (keys : List Nat) (hi : i < (ofLeaves t).size) :
    ((ofLeaves t).upsweep (· + ·) 0 (t.histogram keys)).getD i 0 = ((ofLeaves t).node i).keyCount depth keys := by
  refine upsweep_induction ht (P := fun n v => v = n.keyCount depth keys) (fun l hl => getD_histogram keys hl)
    (fun {n values first} hn hs hchild => Option.some.inj ?_) hi
  have hvalues : ((List.range 8).map fun k => values.getD (first + k) 0) =
      (List.range 8).map fun k => (n.child depth k).keyCount depth keys :=
    List.map_congr_left fun k hk => hchild k (List.mem_range.1 hk)
  rw [some_combineChildren, hvalues, ← sum_keyCount_child (hs.level_lt hn)]
  exact foldLeft?_add _ _

end Table

/-- What values carried up a tree are, in terms of the values of its leaves. -/
structure Folds (t : Leaves depth) (combine : τ → τ → τ) (blank : τ) (leafValues values : Array τ) : Prop where
  size_eq : values.size = (ofLeaves t).size
  leaf : ∀ i < (ofLeaves t).size, (ofLeaves t).isLeaf i = true →
    ∃ l < t.count, (ofLeaves t).node i = t.node l ∧ values.getD i blank = leafValues.getD l blank
  /-- Inner nodes hold the fold of what their eight children hold, in key order. -/
  inner : ∀ i < (ofLeaves t).size, (ofLeaves t).isLeaf i = false →
    ((ofLeaves t).children i).map (ofLeaves t).node = (List.range 8).map (((ofLeaves t).node i).child depth) ∧
      foldLeft? combine (((ofLeaves t).children i).map (values.getD · blank)) = some (values.getD i blank)
  /-- With an associative combination, nodes hold the fold over the leaves in their keys, in key order. -/
  leaves : Std.Associative combine → ∀ i < (ofLeaves t).size,
    foldLeft? combine ((t.leavesWithin ((ofLeaves t).range i)).map (leafValues.getD · blank)) = some (values.getD i blank)

section Table

variable (ht : t.isValid = true)
include ht

theorem folds_upsweep (combine : τ → τ → τ) (blank : τ) (leafValues : Array τ) :
    Folds t combine blank leafValues ((ofLeaves t).upsweep combine blank leafValues) where
  size_eq := size_upsweep _ _ _ _
  leaf i hi hleaf := by
    obtain ⟨l, hl, heq⟩ := (hasNode ht hi).exists_node ht ((isLeaf_iff ht hi).1 hleaf)
    obtain ⟨hpos, hnode⟩ := leafNode_spec ht hl
    refine ⟨l, hl, heq.symm, ?_⟩
    rw [← position_inj ht hpos hi (hnode.trans heq), upsweep_leaf ht leafValues hl]
  inner i hi hinner := by
    have hs : t.Splits ((ofLeaves t).node i) := by rwa [← Bool.not_eq_true, isLeaf_iff ht hi, not_not] at hinner
    obtain ⟨first, hfirst, hlt, hchild⟩ := exists_children ht hi hs
    rw [children_eq hfirst, List.map_map, List.map_map]
    refine ⟨List.map_congr_left fun k hk => (hchild k (List.mem_range.1 hk)).2, ?_⟩
    rw [upsweep_inner leafValues hi hfirst hlt, some_combineChildren]
    rfl
  leaves _ _ hi := fold_leavesWithin ht leafValues hi

/-- Values carried up a tree are folds of the values of its leaves. So numbers of keys are: carried up from the leaves,
they say how many keys lie in each node. -/
theorem upsweep_folds :
    (∀ {τ : Type} (combine : τ → τ → τ) (blank : τ) (leafValues : Array τ),
      Folds t combine blank leafValues ((ofLeaves t).upsweep combine blank leafValues)) ∧
    ∀ (backend : Backend) (keys : Array Nat), Sorted.Ascending keys → ∀ i < (ofLeaves t).size,
      ((ofLeaves t).upsweep (· + ·) 0 (t.counts backend keys)).getD i 0 =
          keys.toList.countP (· ∈ (ofLeaves t).range i) ∧
        ((t.leavesWithin ((ofLeaves t).range i)).map ((t.counts backend keys).getD · 0)).sum =
          keys.toList.countP (· ∈ (ofLeaves t).range i) := by
  refine ⟨folds_upsweep ht, fun backend keys hkeys i hi => ?_⟩
  have hvalue : ((ofLeaves t).upsweep (· + ·) 0 (t.counts backend keys)).getD i 0 =
      keys.toList.countP (· ∈ (ofLeaves t).range i) := by
    rw [counts_eq_histogram backend ht hkeys]
    exact upsweep_histogram ht keys.toList hi
  refine ⟨hvalue, ?_⟩
  have hfold := (folds_upsweep ht (· + ·) 0 (t.counts backend keys)).leaves ⟨Nat.add_assoc⟩ i hi
  rw [hvalue] at hfold
  cases hleaves : (t.leavesWithin ((ofLeaves t).range i)).map ((t.counts backend keys).getD · 0) with
  | nil =>
    rw [hleaves] at hfold
    cases hfold
  | cons v rest =>
    rw [hleaves, foldLeft?_add] at hfold
    exact Option.some.inj hfold

end Table

/-- The leaves of a tree that is split again and again at its first leaf, collected in key order, and keys counted in it. -/
theorem upsweep_folds_deep :
    let starts := (List.range 10).flatMap fun l => (List.range 7).map fun k => (k + 1) * 8 ^ l
    let t : Leaves KeyWidth.narrow.depth := ⟨(0 :: starts ++ [8 ^ 10]).toArray⟩
    let collected := (ofLeaves t).upsweep (· ++ ·) [] ((Array.range 71).map ([·]))
    let counted := (ofLeaves t).upsweep (· + ·) 0 (t.counts .host #[0, 0, 5, 8, 100])
    t.isValid = true ∧ collected.getD 0 [] = List.range 71 ∧ counted.getD 0 0 = 5 ∧ counted.getD 57 0 = 4 := by
  intro starts t collected counted
  have ht : t.isValid = true := by decide +kernel
  obtain ⟨hfolds, hcounts⟩ := upsweep_folds ht
  have hsize : 57 < (ofLeaves t).size := by decide +kernel
  refine ⟨ht, ?_, ?_, ?_⟩
  · have hroot := (hfolds (· ++ ·) [] ((Array.range 71).map ([·]))).leaves ⟨List.append_assoc⟩ 0 (Nat.zero_lt_of_lt hsize)
    refine Option.some.inj (hroot.symm.trans ?_)
    decide +kernel
  · refine (hcounts .host #[0, 0, 5, 8, 100] (by decide) 0 (Nat.zero_lt_of_lt hsize)).1.trans ?_
    decide +kernel
  · refine (hcounts .host #[0, 0, 5, 8, 100] (by decide) 57 hsize).1.trans ?_
    decide +kernel

end Octree

end CurvePartition
