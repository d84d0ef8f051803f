-- SUMMARY: Focus trees settle: the changes adapt a tree to the cells that the global tree splits and that need resolution, so the rounds end there.
import CurvePartition.Focus.Basic
import CurvePartition.Proofs.Key.Cover
import CurvePartition.Proofs.Leaves.Lookup
import CurvePartition.Proofs.Leaves.Settling
import CurvePartition.Proofs.Octree.Table
import CurvePartition.Proofs.Sorted.Sums
import CurvePartition.Proofs.Space.Nesting

/-!
# Settled focus trees

A node that needs no resolution has no descendant that does, so the cells that a focus tree wants to split, those that
the global tree splits and that need resolution, are the inner nodes of an octree. Each round adapts the leaves to them,
and what is left to do shrinks by a level per round, whatever the tree was before.
-/

namespace CurvePartition

open Key Node Leaves

variable {depth : Nat} {α : Type} [Scalar α]

/-- The laws that a criterion relies on: numbers in order, distances and edges of nested cells, a region that consists
of cells, a radius that is not negative, and a positive opening angle. -/
structure Criterion.Monotone (c : Criterion α) (depth : Nat) : Prop where
  order : Scalar.LawfulOrder α
  nests : c.box.Nests depth c.curve
  region : ∃ cells : List Node, (∀ m ∈ cells, m.IsCell depth) ∧ c.region = cells.map (c.box.nodeBounds depth c.curve)
  radius : 0 ≤ c.radius
  theta : 0 < c.theta

/-- A node around one that needs resolution needs it as well. -/
theorem Criterion.Monotone.needsResolution {c : Criterion α} (hc : c.Monotone depth) {m n : Node}
    (hm : m.IsCell depth) (hn : n.IsCell depth) (hin : m.Inside depth n)
    (h : c.needsResolution depth m = true) : c.needsResolution depth n = true := by
  obtain ⟨cells, hcells, hregion⟩ := hc.region
  have hdistance := Box.distanceToAny_le hc.order hc.nests hcells hm hn hin
  rw [← hregion] at hdistance
  refine needsResolution_of_closer hc.order.comparison (hc.order.right hc.radius) hdistance
    (hc.nests.edgeLength_le hm hn hin) (fun hbeyond => ?_) h
  -- Beyond the radius the distance is positive, and so its product with the angle grows with it.
  exact hc.order.mul_le_mul hc.theta (hc.order.comparison.lt_of_le_of_lt hc.radius hbeyond) hdistance

namespace Focus

variable {global t : Leaves depth} {criterion : Criterion α}

/-- Whether a focus tree wants a cell split: the global tree splits it, and it needs resolution. -/
def Wanted (global : Leaves depth) (criterion : Criterion α) (n : Node) : Prop :=
  global.Splits n ∧ criterion.needsResolution depth n = true

theorem isShape_wanted (hc : criterion.Monotone depth) : IsShape depth (Wanted global criterion) where
  level_lt _ hn h := h.1.level_lt hn
  around _ _ hm hn hin h := ⟨h.1.mono hin hm hn, hc.needsResolution hm hn hin h.2⟩

/-- What a change depends on: the shape, and the siblings of the leaf. -/
theorem change_eq (hglobal : global.isValid = true) (ht : t.isValid = true) {i : Nat} (hi : i < t.count)
    [Decidable (Wanted global criterion (t.node i))]
    [Decidable (Wanted global criterion ((t.node i).parent depth))] :
    change global criterion t i =
      if Wanted global criterion (t.node i) then .split 1
      else match t.siblingSlot i with
        | none => .keep
        | some slot =>
          if slot = 0 ∨ Wanted global criterion ((t.node i).parent depth) then .keep else .drop := by
  have hn := isCell_node ht hi
  have hself := level_lt_level_find_iff hglobal hn (Nat.le_refl _) (t.node i).first_lt_stop
  unfold change
  refine ite_congr (propext (and_congr hself Iff.rfl)) (fun _ => rfl) fun _ => ?_
  cases hslot : t.siblingSlot i with
  | none => rfl
  | some slot =>
    obtain ⟨hpos, _, _, _, hchild⟩ := (siblingSlot_eq_some_iff ht hi).1 hslot
    have hpos : 0 < (t.node i).level := hpos
    have hup : (t.node i).Inside depth ((t.node i).parent depth) :=
      (t.node i).inside_ancestor (Nat.sub_le (t.node i).level 1)
    have hparent := level_lt_level_find_iff hglobal hn.parent hup.2.1 hup.2.2
    have hstart : (⟨(t.node i).first - slot * extent depth (t.node i).level, (t.node i).level - 1⟩ : Node) =
        (t.node i).parent depth := by
      have hfirst : (t.node i).first = _ := congrArg Node.first hchild
      rw [first_child, level_parent, Nat.sub_add_cancel hpos] at hfirst
      rw [hfirst, Nat.add_sub_cancel]
      rfl
    have hlevel : (t.node i).level - 1 < (t.node i).level := Nat.sub_lt hpos Nat.one_pos
    simp only [hstart, Wanted, ← hparent, level_parent]
    by_cases hzero : slot = 0
    · rw [if_pos hzero, if_pos (.inl hzero)]
    by_cases hfiner : global.level (global.find (t.node i).first) < (t.node i).level
    · rw [if_neg hzero, if_pos hfiner, if_neg]
      rintro (h | ⟨h, _⟩)
      · exact hzero h
      · omega
    · rw [if_neg hzero, if_neg hfiner]
      refine ite_congr (propext ?_) (fun _ => rfl) fun _ => rfl
      exact ⟨fun h => .inr ⟨by omega, h⟩, fun h => (h.resolve_left hzero).2⟩

open Classical in
/-- The changes of a round adapt a focus tree to its shape. -/
theorem adapts_changes (hc : criterion.Monotone depth) (hglobal : global.isValid = true) (ht : t.isValid = true) :
    t.Adapts (Wanted global criterion) ((List.range t.count).map (change global criterion t)) where
  length_eq := by simp
  merge i hi slot hslot hnot := by
    have hn := isCell_node ht hi
    have hself : ¬ Wanted global criterion (t.node i) := fun hw =>
      hnot ((isShape_wanted hc).around _ _ hn hn.parent ((t.node i).inside_ancestor (Nat.sub_le _ _)) hw)
    rw [List.getElem?_map, List.getElem?_range hi, Option.map_some, change_eq hglobal ht hi, if_neg hself, hslot]
    simp only [hnot, or_false]
  split i hi hall := by
    rw [List.getElem?_map, List.getElem?_range hi, Option.map_some, change_eq hglobal ht hi]
    by_cases hw : Wanted global criterion (t.node i)
    · rw [if_pos hw]
      exact ⟨1, rfl, hw.1.level_lt (isCell_node ht hi), fun _ => hw, fun _ => Nat.one_pos⟩
    · refine ⟨0, ?_, (isCell_node ht hi).level_le, fun h => absurd h (Nat.lt_irrefl 0), fun h => absurd h hw⟩
      rw [if_neg hw]
      cases hslot : t.siblingSlot i with
      | none => rfl
      | some slot =>
        simp only [hall slot hslot, or_true, if_true]
        rfl

/-- The rounds end at the shape, after no more of them than there are levels left to settle. -/
theorem settle_spec (hc : criterion.Monotone depth) (hglobal : global.isValid = true) {fuel k : Nat} (rounds : Nat)
    (ht : t.isValid = true) (hk : t.SettlesIn (Wanted global criterion) k) (hle : k ≤ fuel) :
    ∃ (t' : Leaves depth) (more : Nat), more ≤ k ∧ t'.isValid = true ∧ t'.HasShape (Wanted global criterion) ∧
      settle global criterion fuel rounds t = (t', some (rounds + more)) := by
  have hshape : IsShape depth (Wanted global criterion) := isShape_wanted hc
  induction fuel generalizing t k rounds with
  | zero =>
    obtain rfl : k = 0 := Nat.le_zero.1 hle
    have hdone := hk.hasShape hshape ht
    have hstable := (isStable_iff_hasShape hshape ht (adapts_changes hc hglobal ht)).2 hdone
    exact ⟨t, 0, Nat.le_refl 0, ht, hdone, by rw [settle, if_pos hstable]; rfl⟩
  | succ fuel ih =>
    have hadapts := adapts_changes hc hglobal ht
    by_cases hdone : t.HasShape (Wanted global criterion)
    · have hstable := (isStable_iff_hasShape hshape ht hadapts).2 hdone
      exact ⟨t, 0, Nat.zero_le k, ht, hdone, by rw [settle, if_pos hstable]; rfl⟩
    · have hstable := mt (isStable_iff_hasShape hshape ht hadapts).1 hdone
      cases k with
      | zero => exact absurd (hk.hasShape hshape ht) hdone
      | succ k =>
        obtain ⟨t', more, hmore, ht', hshape', hsettle⟩ := ih (rounds + 1) (isValid_apply ht hadapts)
          (hk.apply hshape ht hadapts) (Nat.le_of_succ_le_succ hle)
        refine ⟨t', more + 1, Nat.succ_le_succ hmore, ht', hshape', ?_⟩
        rw [settle, if_neg hstable]
        exact hsettle.trans (by rw [Nat.add_assoc, Nat.add_comm 1])

/-! ## The update -/

/-- The criterion of an update. -/
def criterionOf (f : Focus depth α) (assignment : Assignment depth) (box : Box α) (curve : Curve) (radius : α) :
    Criterion α :=
  ⟨box, curve, box.rangeBounds depth curve (assignment.keyRange f.rank), radius, f.theta⟩

/-- What a focus tree is after an update: an octree of the shape, with its node table and the counts of its leaves. -/
structure Settled (f : Focus depth α) (global : Leaves depth) (counts : Array Nat) (criterion : Criterion α) :
    Prop where
  valid : f.leaves.isValid = true
  shape : f.leaves.HasShape (Wanted global criterion)
  octree_eq : f.octree = .ofLeaves f.leaves
  counts_eq : f.counts = sumCounts global counts f.leaves

/-- A leaf of a settled focus tree is a node of the global tree. -/
theorem Settled.hasNode {f : Focus depth α} {counts : Array Nat} (h : f.Settled global counts criterion) {l : Nat}
    (hl : l < f.leaves.count) : global.HasNode (f.leaves.node l) := by
  obtain ⟨hn, hparent⟩ := hasNode_node h.valid hl
  refine ⟨hn, hparent.imp_right fun hs => ?_⟩
  exact ((h.shape _ hn.parent).1 hs).1

/-- An update never fails: it settles within as many rounds as there are levels. -/
theorem update_spec (f : Focus depth α) (counts : Array Nat) {assignment : Assignment depth} {box : Box α}
    {curve : Curve} {radius : α} (hc : (criterionOf f assignment box curve radius).Monotone depth)
    (hglobal : global.isValid = true) (hf : f.leaves.isValid = true) :
    ∃ (f' : Focus depth α) (rounds : Nat), f.update global counts assignment box curve radius = (f', .ok rounds) ∧
      rounds ≤ depth ∧ f'.own = assignment.keyRange f.rank ∧
      f'.Settled global counts (criterionOf f assignment box curve radius) := by
  have hfuel : depth ≤ maxRounds depth := by
    unfold maxRounds
    omega
  obtain ⟨leaves, rounds, hle, hvalid, hshape, hsettle⟩ :=
    settle_spec hc hglobal 0 hf (settlesIn_depth f.leaves _) hfuel
  unfold criterionOf at hsettle
  unfold update
  simp only [hsettle, Nat.zero_add]
  exact ⟨_, rounds, rfl, hle, rfl, hvalid, hshape, rfl, rfl⟩

/-- A focus leaf that is a global leaf has the count of the global leaf. -/
theorem getD_sumCounts (hglobal : global.isValid = true) (ht : t.isValid = true) {counts : Array Nat}
    (hsize : counts.size = global.count) {l g : Nat} (hl : l < t.count) (hg : g < global.count)
    (heq : t.node l = global.node g) : (sumCounts global counts t).getD l 0 = counts.getD g 0 := by
  have ha := ascends_of_isValid hglobal
  have hfirst : t.start l = global.start g := congrArg Node.first heq
  have hstop : t.start (l + 1) = global.start (g + 1) := by
    rw [← stop_node ht hl, heq, stop_node hglobal hg]
  have hrange : global.leavesIn (t.range l) = (g, g + 1) := by
    simp only [leavesIn, Leaves.range, hfirst, hstop, firstFrom_start ha hg, firstFrom_start ha (Nat.le_of_lt hg)]
  simp only [sumCounts]
  simp only [Array.getD_eq_getD_getElem?, Array.getElem?_map, Array.getElem?_range, hl, if_true, Option.map_some,
    Option.getD_some, hrange]
  simp only [← Array.getD_eq_getD_getElem?, Sorted.getD_runningSums_succ (hsize ▸ hg)]
  exact Nat.add_sub_cancel_left _ _

end Focus

end CurvePartition
