-- SUMMARY: The pruned search for a close leaf finds one exactly if there is one: subtrees are skipped only where no leaf is close.
import CurvePartition.Halo.Search
import CurvePartition.Proofs.Leaves.Lookup
import CurvePartition.Proofs.Octree.Search
import CurvePartition.Proofs.Space.Rounding

/-!
# Pruned searches

Radii carried up the global tree are not smaller than those of the leaves below, whatever their signs, and distances do not grow
from a leaf to a node around it. So no node around a close leaf is skipped, and a leaf that is arrived at has been compared
itself: `HaloSearch.reaches` says whether some leaf inside a range is as close as the larger of the two radii
(`HaloSearch.reaches_iff_exists_close`).
-/

namespace CurvePartition

open Key Node Leaves Octree

variable {depth : Nat} {α : Type} [Scalar α]

/-- A search of halos that may skip nodes: its tree is valid, radii are in order, and distances do not grow from a cell to one
around it. -/
structure HaloSearch.Prunes (global : Leaves depth) (radii : Array α) (box : Box α) (curve : Curve) : Prop where
  valid : global.isValid = true
  comparison : Scalar.LawfulComparison α
  distances : box.NestsDistances depth curve
  radius_self : ∀ l < global.count, Scalar.InOrder (radii.getD l 0)

namespace HaloSearch

variable {global : Leaves depth} {radii : Array α} {box : Box α} {curve : Curve} {i j l first : Nat} {target : KeyRange}

/-- The search over the node table of a tree. -/
abbrev ofGlobal (global : Leaves depth) (radii : Array α) (box : Box α) (curve : Curve) : HaloSearch depth α :=
  make (ofLeaves global) radii box curve

/-- Whether a value is in order and not smaller than the radius of any leaf inside a node. -/
structure CoversRadii (global : Leaves depth) (radii : Array α) (n : Node) (value : α) : Prop where
  inOrder : Scalar.InOrder value
  le : ∀ l < global.count, (global.node l).Inside depth n → radii.getD l 0 ≤ value

namespace Prunes

variable (h : Prunes global radii box curve)
include h

/-! ## Radii carried up the tree -/

/-- A leaf's node has the radius of the leaf. -/
theorem nodeRadius_leaf (hl : l < global.count) :
    (ofGlobal global radii box curve).nodeRadii.getD ((ofLeaves global).leafNode l) 0 = radii.getD l 0 :=
  upsweep_leaf h.valid radii hl

theorem coversRadii_leaf (hl : l < global.count) : CoversRadii global radii (global.node l) (radii.getD l 0) where
  inOrder := h.radius_self l hl
  le l' hl' hin := by
    have hsame := (Leaves.hasNode_node h.valid hl').eq_of_inside (isCell_node h.valid hl) hin (not_splits_node h.valid hl)
    rw [node_inj h.valid hl' hl hsame]
    exact h.radius_self l hl

/-- The largest of the values that cover the octants of a split node covers the node. -/
theorem coversRadii_inner {n : Node} {values : Array α} (hn : n.IsCell depth) (hs : global.Splits n)
    (hchild : ∀ k < 8, CoversRadii global radii (n.child depth k) (values.getD (first + k) 0)) :
    CoversRadii global radii n (combineChildren Scalar.max 0 values first) := by
  -- The octants after the first one are numbered from its successor on.
  have hsucc : ∀ k, first + 1 + k = first + (k + 1) := fun k => by omega
  obtain ⟨hfirst, hrest⟩ := h.comparison.le_foldl_max (fun k => values.getD (first + 1 + k) 0) (List.range 7)
    (hchild 0 (by omega)).inOrder fun k hk => by
      have hk := List.mem_range.1 hk
      rw [hsucc]
      exact (hchild (k + 1) (by omega)).inOrder
  refine ⟨h.comparison.right hfirst, fun l hl hin => ?_⟩
  obtain ⟨k, hk, hink⟩ := hs.exists_child (not_splits_node h.valid hl) hin (isCell_node h.valid hl) hn
  have hle := (hchild k hk).le l hl hink
  cases k with
  | zero => exact h.comparison.trans hle hfirst
  | succ k =>
    rw [← hsucc] at hle
    exact h.comparison.trans hle (hrest k (List.mem_range.2 (by omega)))

/-- The radius of a node covers those of the leaves below. -/
theorem coversRadii (hi : i < (ofLeaves global).size) :
    CoversRadii global radii ((ofLeaves global).node i) ((ofGlobal global radii box curve).nodeRadii.getD i 0) :=
  upsweep_induction h.valid (fun _ hl => h.coversRadii_leaf hl) (fun hn hs hchild => h.coversRadii_inner hn hs hchild) hi

theorem radius_le_maxRadius (hl : l < global.count) :
    radii.getD l 0 ≤ (ofGlobal global radii box curve).maxRadius := by
  obtain ⟨hzero, hroot⟩ := node_zero h.valid
  exact (h.coversRadii hzero).le l hl (hroot ▸ inside_root (isCell_node h.valid hl))

/-- The largest radius is in order. -/
theorem maxRadius_self : Scalar.InOrder (ofGlobal global radii box curve).maxRadius :=
  (h.coversRadii (node_zero h.valid).1).inOrder

/-! ## The search -/

/-- The region of a leaf, by its position. -/
theorem bounds_leafNode (hl : l < global.count) :
    (ofGlobal global radii box curve).bounds ((ofLeaves global).node ((ofLeaves global).leafNode l)) =
      box.nodeBounds depth curve (global.node l) := by
  rw [(leafNode_spec h.valid hl).2]
  rfl

theorem range_leaf (hl : l < global.count) : (global.node l).range depth = global.range l := range_node h.valid hl

theorem reaches_eq (hl : l < global.count) : (ofGlobal global radii box curve).reaches l target =
    (ofLeaves global).anyLeaf fun i => ((ofLeaves global).range i).overlaps target &&
      !decide (Scalar.max (radii.getD l 0) ((ofGlobal global radii box curve).nodeRadii.getD i 0) <
        box.distance (box.nodeBounds depth curve (global.node l))
          (box.nodeBounds depth curve ((ofLeaves global).node i))) := by
  rw [← h.bounds_leafNode hl]
  rfl

/-- The search enters a node exactly if it overlaps the range and is as close as the larger of the two radii. -/
theorem enters_iff (hl : l < global.count) (hi : i < (ofLeaves global).size) :
    (((ofLeaves global).range i).overlaps target &&
      !decide (Scalar.max (radii.getD l 0) ((ofGlobal global radii box curve).nodeRadii.getD i 0) <
        box.distance (box.nodeBounds depth curve (global.node l))
          (box.nodeBounds depth curve ((ofLeaves global).node i)))) = true ↔
      ((ofLeaves global).range i).overlaps target = true ∧
        box.distance (box.nodeBounds depth curve (global.node l)) (box.nodeBounds depth curve ((ofLeaves global).node i)) ≤
          Scalar.max (radii.getD l 0) ((ofGlobal global radii box curve).nodeRadii.getD i 0) := by
  have hself := h.comparison.max_self (h.radius_self l hl) (h.coversRadii hi).inOrder
  have hdistance := h.distances.distance_self (isCell_node h.valid hl) (hasNode h.valid hi).1
  rw [Bool.and_eq_true, Bool.not_eq_true', decide_eq_false_iff_not, h.comparison.not_lt_iff hself hdistance]

/-- A leaf reaches a range if a leaf that overlaps the range is as close as the larger of the two radii. -/
theorem reaches_iff (hl : l < global.count) : (ofGlobal global radii box curve).reaches l target = true ↔
    ∃ j < global.count, (global.range j).overlaps target = true ∧
      box.distance (box.nodeBounds depth curve (global.node l)) (box.nodeBounds depth curve (global.node j)) ≤
        Scalar.max (radii.getD l 0) (radii.getD j 0) := by
  have ht := h.valid
  have hcell := isCell_node ht hl
  have hself := h.radius_self l hl
  rw [h.reaches_eq hl, anyLeaf_iff ht]
  constructor
  · rintro ⟨j, hj, hall⟩
    obtain ⟨hpos, hnode⟩ := leafNode_spec ht hj
    obtain ⟨hrange, hle⟩ := (h.enters_iff hl hpos).1 (hall _ hpos (hnode ▸ Inside.refl _))
    rw [Octree.range, hnode, h.range_leaf hj] at hrange
    rw [hnode, h.nodeRadius_leaf hj] at hle
    exact ⟨j, hj, hrange, hle⟩
  -- Every node around a close leaf is as close as the leaf, and has a radius that is not smaller.
  · rintro ⟨j, hj, hover, hle⟩
    refine ⟨j, hj, fun p hp hin => (h.enters_iff hl hp).2 ?_⟩
    have hm := isCell_node ht hj
    have hn := (hasNode ht hp).1
    rw [← h.range_leaf hj] at hover
    refine ⟨hin.overlaps hm hn hover, ?_⟩
    have hfar := h.distances.distance_le hcell hcell hm hn (Inside.refl _) hin
    have hradius := h.comparison.max_le_max hself ((h.coversRadii hp).le j hj hin)
    exact h.comparison.trans hfar (h.comparison.trans hle hradius)

end Prunes

/-- A leaf reaches a range between boundaries exactly if some leaf inside is as close as the larger of the two radii. -/
theorem reaches_iff_exists_close (hlaw : Scalar.LawfulComparison α) (hnests : box.NestsDistances depth curve)
    (ht : global.isValid = true) (hradii : ∀ l < global.count, Scalar.InOrder (radii.getD l 0)) (hl : l < global.count)
    (htarget : global.Bounds target) : (ofGlobal global radii box curve).reaches l target = true ↔
      ∃ j < global.count, (global.range j).within target = true ∧
        box.distance (box.nodeBounds depth curve (global.node l)) (box.nodeBounds depth curve (global.node j)) ≤
          Scalar.max (radii.getD l 0) (radii.getD j 0) := by
  have h : Prunes global radii box curve := ⟨ht, hlaw, hnests, hradii⟩
  rw [h.reaches_iff hl]
  refine exists_congr fun j => and_congr_right fun hj => and_congr_left fun _ => ?_
  exact htarget.overlaps_iff (ascends_of_isValid ht) hj

/-- The first octant reaches the last two, as it touches an image of the last one around a periodic axis. The radii there
are negative, and the leaf with the largest radius lies elsewhere. -/
theorem reaches_iff_exists_close_periodic : (Leaves.uniform 1 : Leaves 10).isValid = true ∧
    (∀ l < (Leaves.uniform 1 : Leaves 10).count, Scalar.InOrder
      ((#[⟨0⟩, ⟨0⟩, ⟨1⟩, ⟨0⟩, ⟨0⟩, ⟨0⟩, ⟨-1⟩, ⟨-1⟩] : Array Rational).getD l 0)) ∧
    0 < (Leaves.uniform 1 : Leaves 10).count ∧ (Leaves.uniform 1 : Leaves 10).Bounds ⟨6 * 8 ^ 9, 8 ^ 10⟩ ∧
    (ofGlobal (Leaves.uniform 1 : Leaves 10) #[⟨0⟩, ⟨0⟩, ⟨1⟩, ⟨0⟩, ⟨0⟩, ⟨0⟩, ⟨-1⟩, ⟨-1⟩] Criterion.aroundFirst.box
      .hilbert).reaches 0 ⟨6 * 8 ^ 9, 8 ^ 10⟩ = true := by
  have ht : (Leaves.uniform 1 : Leaves 10).isValid = true := by decide +kernel
  have hl : 0 < (Leaves.uniform 1 : Leaves 10).count := by decide +kernel
  have hbounds : (Leaves.uniform 1 : Leaves 10).Bounds ⟨6 * 8 ^ 9, 8 ^ 10⟩ :=
    ⟨⟨6, by decide +kernel, by decide +kernel⟩, ⟨8, by decide +kernel, by decide +kernel⟩⟩
  have hnests : Criterion.aroundFirst.box.Nests 10 .hilbert := Box.nests_of_computes Rational.lawfulRounding
    Criterion.valid_aroundFirst (fun n _ => Box.computesCell_of_inOrder Rational.le_self _ 10 .hilbert n)
    fun _ _ _ _ => Box.computes_of_inOrder Rational.le_self _ _ _
  refine ⟨ht, fun _ _ => Rational.le_self _, hl, hbounds, ?_⟩
  refine (reaches_iff_exists_close Rational.lawfulRounding.toLawfulComparison hnests.distances ht
    (fun _ _ => Rational.le_self _) hl hbounds).2 ⟨7, ?_⟩
  decide +kernel

end HaloSearch

end CurvePartition
