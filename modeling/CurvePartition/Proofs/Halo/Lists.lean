-- SUMMARY: Sender and receiver list the same halos: the received leaves of a rank that another one holds are the leaves that the other one sends to it.
import CurvePartition.Proofs.Assignment
import CurvePartition.Proofs.Focus.Settling
import CurvePartition.Proofs.Halo.Reaching

/-!
# Lists of halo leaves

The sending rank finds its own leaves that reach the keys of the receiver (`sent_eq`). The receiving rank searches
its focus tree, which holds every leaf that reaches its keys: around such a leaf every node is within the largest radius,
so it needs resolution, and the focus tree splits it if the global tree does. So the receiver finds all leaves of
other ranks that reach its keys (`map_node_received`).
-/

namespace CurvePartition

open Key Node Leaves Octree

variable {depth : Nat} {α : Type} [Scalar α]

namespace HaloSearch

variable {global : Leaves depth} {radii : Array α} {box : Box α} {curve : Curve} {l g : Nat} {own peer : KeyRange}

theorem received_eq {focus : Focus depth α} (hoctree : focus.octree = ofLeaves focus.leaves) :
    (ofGlobal global radii box curve).received focus =
    ((ofLeaves focus.leaves).leavesWhere fun i =>
      !((ofLeaves focus.leaves).range i).within focus.own &&
        (ofGlobal global radii box curve).mayHoldHalos (box.rangeBounds depth curve focus.own)
          ((ofLeaves focus.leaves).node i)).filterMap fun i =>
      ((ofGlobal global radii box curve).globalLeaf ((ofLeaves focus.leaves).node i)).bind fun g =>
        if (ofGlobal global radii box curve).reaches g focus.own then (ofLeaves focus.leaves).leaf? i else none := by
  unfold received
  rw [hoctree]
  rfl

section Sound

variable (h : Sound global radii box curve)
include h

/-! ## The sending rank -/

/-- The sender finds exactly its leaves that reach the receiver, in key order. -/
theorem Sound.sent_eq (hown : global.Bounds own) (hpeer : global.Bounds peer) :
    (ofGlobal global radii box curve).sent own peer = (List.range global.count).filter fun l =>
      (global.range l).within own && (ofGlobal global radii box curve).reaches l peer := by
  have ht := h.valid
  have ha := ascends_of_isValid ht
  have hkeep : ∀ j l, (ofLeaves global).leaf? j = some l → (ofLeaves global).leaf? j = some l := fun _ _ hl => hl
  refine Sorted.eq_of_mem_iff (fun _ _ => Nat.lt_asymm) ((pairwise_filterMap_leavesWhere ht hkeep).filter _)
    (List.pairwise_lt_range.filter _) fun l => ?_
  change l ∈ List.filter _ (List.filterMap _ _) ↔ _
  rw [List.mem_filter, List.mem_filter, List.mem_range, Bool.and_eq_true]
  refine Iff.trans (and_congr_left fun _ => mem_filterMap_leavesWhere ht hkeep) ?_
  constructor
  · rintro ⟨⟨hl, hall, _⟩, hreach⟩
    obtain ⟨hpos, hnode⟩ := leafNode_spec ht hl
    have henter := hall _ hpos (hnode ▸ Inside.refl _)
    have hover : (((ofLeaves global).node ((ofLeaves global).leafNode l)).range depth).overlaps own = true :=
      (Bool.and_eq_true _ _ ▸ henter).1
    rw [hnode, h.prunes.range_leaf hl] at hover
    exact ⟨hl, (hown.overlaps_iff ha hl).1 hover, hreach⟩
  · rintro ⟨hl, hwithin, hreach⟩
    refine ⟨⟨hl, fun p hp hin => ?_, leaf?_leafNode ht hl⟩, hreach⟩
    have hn := (hasNode ht hp).1
    rw [Bool.and_eq_true]
    constructor
    · exact hin.overlaps (isCell_node ht hl) hn (h.prunes.range_leaf hl ▸ (hown.overlaps_iff ha hl).2 hwithin)
    · exact h.mayHoldHalos_of_reaches hl hpeer hreach hn hin

/-! ## The receiving rank -/

/-- The criterion of a focus tree whose radius is the largest one. -/
def criterion (s : HaloSearch depth α) (own : KeyRange) (theta : α) : Criterion α :=
  ⟨s.box, s.curve, s.box.rangeBounds depth s.curve own, s.maxRadius, theta⟩

theorem Sound.monotone_criterion (hown : global.Bounds own) {theta : α} (htheta : 0 < theta) :
    ((ofGlobal global radii box curve).criterion own theta).Monotone depth where
  order := h.order
  nests := h.nests
  region := ⟨cover depth own.first own.last, fun _ hc =>
    (isCell_of_mem_cover (hown.last_le (ascends_of_isValid h.valid)) hc).1, rfl⟩
  radius := h.maxRadius_nonneg
  theta := htheta

variable {focus : Focus depth α} {counts : Array Nat} {theta : α} (hown : global.Bounds focus.own)
  (hfocus : focus.Settled global counts ((ofGlobal global radii box curve).criterion focus.own theta))
include hown hfocus

/-- A leaf of the global tree that reaches the focus is a leaf of the focus tree. -/
theorem Sound.exists_focus_leaf (hg : g < global.count)
    (hreach : (ofGlobal global radii box curve).reaches g focus.own = true) :
    ∃ l < focus.leaves.count, focus.leaves.node l = global.node g := by
  have hn := isCell_node h.valid hg
  refine Leaves.exists_node hfocus.valid hn ?_ ?_
  · intro hs
    exact not_splits_node h.valid hg ((hfocus.shape _ hn).1 hs).1
  · rcases Nat.eq_zero_or_pos (global.level g) with hzero | hpos
    · exact .inl hzero
    -- The parent is split by the global tree and close to the focus, so it is wanted.
    · refine .inr ((hfocus.shape _ hn.parent).2 ⟨splits_parent_node h.valid hg hpos, ?_⟩)
      have hnear := h.mayHoldHalos_of_reaches hg hown hreach hn.parent
        ((global.node g).inside_ancestor (Nat.sub_le _ _))
      have hle := (h.mayHoldHalos_iff (hown.last_le (ascends_of_isValid h.valid)) hn.parent).1 hnear
      rw [Criterion.needsResolution, Bool.or_eq_true, decide_eq_true_eq]
      exact .inl hle

/-- The receiver finds the focus leaves outside its keys that are global leaves and reach them, in key order. -/
theorem Sound.received_spec : ((ofGlobal global radii box curve).received focus).Pairwise (· < ·) ∧
    ∀ l, l ∈ (ofGlobal global radii box curve).received focus ↔ l < focus.leaves.count ∧
      ∃ g < global.count, global.node g = focus.leaves.node l ∧ (global.range g).within focus.own = false ∧
        (ofGlobal global radii box curve).reaches g focus.own = true := by
  have ht := h.valid
  have hf := hfocus.valid
  have hkeep : ∀ j l, ((ofGlobal global radii box curve).globalLeaf ((ofLeaves focus.leaves).node j)).bind (fun g =>
      if (ofGlobal global radii box curve).reaches g focus.own then (ofLeaves focus.leaves).leaf? j else none) = some l →
      (ofLeaves focus.leaves).leaf? j = some l := by
    intro j l hl
    obtain ⟨g, _, hg⟩ := Option.bind_eq_some_iff.1 hl
    split at hg
    · exact hg
    · cases hg
  rw [received_eq hfocus.octree_eq]
  refine ⟨pairwise_filterMap_leavesWhere hf hkeep, fun l => (mem_filterMap_leavesWhere hf hkeep).trans ?_⟩
  refine and_congr_right fun hl => ?_
  obtain ⟨hpos, hnode⟩ := leafNode_spec hf hl
  have hglobal : ∀ g, (ofGlobal global radii box curve).globalLeaf (focus.leaves.node l) = some g ↔
      g < global.count ∧ global.node g = focus.leaves.node l := fun g =>
    leaf?_locate_eq_some_iff ht (hfocus.hasNode hl)
  rw [hnode]
  constructor
  · rintro ⟨hall, hfound⟩
    obtain ⟨g, hg, hreach⟩ := Option.bind_eq_some_iff.1 hfound
    obtain ⟨hlt, heq⟩ := (hglobal g).1 hg
    have henter := hall _ hpos (hnode ▸ Inside.refl _)
    simp only [Bool.and_eq_true, Bool.not_eq_true'] at henter
    refine ⟨g, hlt, heq, ?_, ?_⟩
    · rw [← h.prunes.range_leaf hlt, heq, ← hnode]
      exact henter.1
    · split at hreach
      · assumption
      · cases hreach
  · rintro ⟨g, hg, heq, hwithin, hreach⟩
    refine ⟨fun p hp hin => ?_, ?_⟩
    · have hn := (hasNode hf hp).1
      rw [← heq] at hin
      simp only [Bool.and_eq_true, Bool.not_eq_true']
      constructor
      · rw [← Bool.not_eq_true] at hwithin ⊢
        refine fun hinside => hwithin ?_
        rw [← h.prunes.range_leaf hg]
        exact hin.within (isCell_node ht hg) hn hinside
      · exact h.mayHoldHalos_of_reaches hg hown hreach hn hin
    · rw [(hglobal g).2 ⟨hg, heq⟩, Option.bind_some, if_pos hreach, leaf?_leafNode hf hl]

/-- The received leaves are the leaves of the global tree outside the keys of the receiver that reach them. -/
theorem Sound.map_node_received : ((ofGlobal global radii box curve).received focus).map focus.leaves.node =
    ((List.range global.count).filter fun g => !(global.range g).within focus.own &&
      (ofGlobal global radii box curve).reaches g focus.own).map global.node := by
  obtain ⟨hpairwise, hmem⟩ := h.received_spec hown hfocus
  have asymm : ∀ m n : Node, m.first < n.first → ¬ n.first < m.first := fun _ _ => Nat.lt_asymm
  refine Sorted.eq_of_mem_iff asymm ?_ ?_ fun n => ?_
  · refine List.pairwise_map.2 (hpairwise.imp_of_mem fun {k l} _ hl hlt => ?_)
    exact (ascends_of_isValid hfocus.valid).start_lt hlt (Nat.le_of_lt ((hmem l).1 hl).1)
  · refine List.pairwise_map.2 ((List.pairwise_lt_range.filter _).imp_of_mem fun {k l} _ hl hlt => ?_)
    have hl := List.mem_range.1 (List.mem_filter.1 hl).1
    exact (ascends_of_isValid h.valid).start_lt hlt (Nat.le_of_lt hl)
  · simp only [List.mem_map, List.mem_filter, List.mem_range, Bool.and_eq_true, Bool.not_eq_true']
    constructor
    · rintro ⟨l, hl, rfl⟩
      obtain ⟨_, g, hg, heq, hwithin, hreach⟩ := (hmem l).1 hl
      exact ⟨g, ⟨hg, hwithin, hreach⟩, heq⟩
    · rintro ⟨g, ⟨hg, hwithin, hreach⟩, rfl⟩
      obtain ⟨l, hl, heq⟩ := h.exists_focus_leaf hown hfocus hg hreach
      exact ⟨l, (hmem l).2 ⟨hl, g, hg, heq.symm, hwithin, hreach⟩, heq⟩

end Sound

end HaloSearch

end CurvePartition
