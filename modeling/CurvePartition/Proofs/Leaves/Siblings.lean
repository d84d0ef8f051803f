-- SUMMARY: Leaves as the unsplit cells below split ones, and eight siblings that are all leaves.
import CurvePartition.Leaves.Balance
import CurvePartition.Proofs.Leaves.Boundaries

/-!
# Leaves and their siblings

In a valid tree the leaves are the cells that are not split while the cell one level up is (`Leaves.exists_node`).
`Leaves.siblingSlot` finds out from nine boundaries whether all eight children of a leaf's parent are leaves. As
every octant holds at least one leaf, eight leaves from end to end of the parent can only be its children.
-/

namespace CurvePartition

namespace Leaves

open Key Node

variable {depth : Nat} {t : Leaves depth} {i : Nat}

/-- Whether the leaves from `first` on are the eight children of a node. -/
def HoldsChildren (t : Leaves depth) (first : Nat) (p : Node) : Prop :=
  ∀ k < 8, first + k < t.count ∧ t.node (first + k) = p.child depth k

/-- The leaf between the ends of a cell is that cell. -/
theorem node_eq (ht : t.isValid = true) (hi : i < t.count) {n : Node} (hn : n.IsCell depth)
    (hfirst : t.start i = n.first) (hstop : t.start (i + 1) = n.stop depth) : t.node i = n := by
  have hex : extent depth (t.level i) = extent depth n.level := by
    rw [(isNodeRange_of_isValid ht hi).2.1, hfirst, hstop]
    simp only [stop]
    omega
  have hl : t.level i = n.level := extent_inj (isCell_node ht hi).level_le hn.level_le hex
  simp only [node, hfirst, hl]

/-- A cell that is not split, below one that is, is a leaf. -/
theorem exists_node (ht : t.isValid = true) {n : Node} (hn : n.IsCell depth) (hnot : ¬ t.Splits n)
    (hparent : n.level = 0 ∨ t.Splits (n.parent depth)) : ∃ i < t.count, t.node i = n := by
  obtain ⟨i, hi, hin⟩ := (splits_or_inside ht hn).resolve_left hnot
  have hm := isCell_node ht hi
  have hl : (t.node i).level = n.level := by
    refine Nat.le_antisymm hin.1 (Nat.not_lt.1 fun hlt => ?_)
    rcases hparent with hzero | hs
    · omega
    · have hpin : (n.parent depth).Inside depth (t.node i) := by
        refine inside_of_mem hn.parent hm (by simp only [level_parent]; omega) ?_ ⟨hin.2.1, hin.2.2⟩
        exact ⟨anchor_le _ _ _, lt_anchor_add_extent _ _ _⟩
      exact not_splits_of_inside_node ht hi hn.parent hpin hs
  exact ⟨i, hi, (hin.eq_of_level hn hm hl.symm).symm⟩

theorem splits_parent_node (ht : t.isValid = true) (hi : i < t.count) (hpos : 0 < t.level i) :
    t.Splits ((t.node i).parent depth) :=
  (splits_iff_exists_leaf ht (isCell_node ht hi).parent).2
    ⟨i, hi, by simp only [level_parent, node]; omega, (t.node i).inside_ancestor (Nat.sub_le _ _)⟩

/-- Between two octants of a split cell there are at least as many leaves as octants. -/
theorem add_le_of_octants (ht : t.isValid = true) {p : Node} (hp : p.IsCell depth) (hs : t.Splits p) {o d i j : Nat}
    (hi : i ≤ t.count) (hj : j ≤ t.count) (ho : o + d ≤ 8) (hstart : t.start i = p.first + o * extent depth (p.level + 1))
    (hstop : t.start j = p.first + (o + d) * extent depth (p.level + 1)) : i + d ≤ j := by
  have ha := ascends_of_isValid ht
  induction d generalizing j with
  | zero => exact Nat.le_of_eq (ha.start_inj hi hj (hstart.trans hstop.symm))
  | succ d ih =>
    obtain ⟨j', hj', hstart'⟩ := closed_of_isValid ht p hp hs (o + d) (by omega)
    have hle := ih hj' (by omega) hstart'
    have hlt : t.start j' < t.start j := by
      rw [hstop, hstart', first_child, ← Nat.add_assoc, Nat.succ_mul]
      have := extent_pos depth (p.level + 1)
      omega
    exact Nat.lt_of_le_of_lt hle (ha.lt_of_start_lt hj' hlt)

/-- Eight leaves from one end of a split cell to the other are its children. -/
theorem holdsChildren_of_ends (ht : t.isValid = true) {p : Node} (hp : p.IsCell depth) (hs : t.Splits p)
    {first : Nat} (hle : first + 8 ≤ t.count) (hfirst : t.start first = p.first)
    (hstop : t.start (first + 8) = p.stop depth) : t.HoldsChildren first p := by
  have hlt := hs.level_lt hp
  -- There are at least `o` leaves before octant `o`, and at least `8 - o` from it on.
  have place : ∀ o, o < 8 → t.start (first + o) = p.first + o * extent depth (p.level + 1) := by
    intro o ho
    obtain ⟨j, hj, hstart⟩ := closed_of_isValid ht p hp hs o ho
    have hbefore : first + o ≤ j := add_le_of_octants ht hp hs (by omega) hj (by omega : 0 + o ≤ 8)
      (by rw [hfirst, Nat.zero_mul, Nat.add_zero]) (by rw [hstart, first_child, Nat.zero_add])
    have hbehind : j + (8 - o) ≤ first + 8 := add_le_of_octants ht hp hs hj hle (by omega) hstart
      (by rw [hstop, stop, extent_eq_mul hlt, Nat.add_sub_of_le (Nat.le_of_lt ho)])
    have : first + o = j := by omega
    rw [this]
    exact hstart
  intro k hk
  refine ⟨by omega, node_eq ht (by omega) (hp.child hlt hk) (place k hk) ?_⟩
  rcases Nat.lt_or_eq_of_le (Nat.le_of_lt_succ hk) with hk7 | rfl
  · rw [child_stop]
    exact place (k + 1) (by omega)
  · rw [child_seven_stop hlt]
    exact hstop

/-- If no octant of a split cell is split, its children are leaves in a row. -/
theorem exists_holdsChildren (ht : t.isValid = true) {p : Node} (hp : p.IsCell depth) (hs : t.Splits p)
    (hnot : ∀ k < 8, ¬ t.Splits (p.child depth k)) : ∃ first, t.HoldsChildren first p := by
  have ha := ascends_of_isValid ht
  have hlt := hs.level_lt hp
  have leaf : ∀ k < 8, ∃ j < t.count, t.node j = p.child depth k := by
    intro k hk
    have hck := hp.child hlt hk
    refine exists_node ht hck (hnot k hk) (.inr ?_)
    have : (p.child depth k).parent depth = p := (child_inside hlt hk).ancestor_eq hp
    rwa [this]
  obtain ⟨first, hfirst, hnode⟩ := leaf 0 (by omega)
  refine ⟨first, fun k hk => ?_⟩
  induction k with
  | zero => exact ⟨hfirst, hnode⟩
  | succ k ih =>
    obtain ⟨hj, hjnode⟩ := ih (by omega)
    obtain ⟨j, hj', hnode'⟩ := leaf (k + 1) hk
    have hnext : t.start (first + k + 1) = t.start j := by
      rw [← stop_node ht hj, hjnode, child_stop]
      exact (congrArg Node.first hnode').symm
    have : first + k + 1 = j := ha.start_inj hj (Nat.le_of_lt hj') hnext
    rw [← Nat.add_assoc, this]
    exact ⟨hj', hnode'⟩

theorem HoldsChildren.not_splits_child (ht : t.isValid = true) {first : Nat} {p : Node}
    (h : t.HoldsChildren first p) {k : Nat} (hk : k < 8) : ¬ t.Splits (p.child depth k) := by
  obtain ⟨hlt, hnode⟩ := h k hk
  exact hnode ▸ not_splits_node ht hlt

/-- No cell strictly below a node is split if the children of the node are leaves. -/
theorem HoldsChildren.not_splits (ht : t.isValid = true) {first : Nat} {p : Node} (h : t.HoldsChildren first p)
    (hp : p.IsCell depth) (hlt : p.level < depth) {m : Node} (hm : m.IsCell depth) (hin : m.Inside depth p)
    (hlevel : p.level < m.level) : ¬ t.Splits m := by
  intro hs
  obtain ⟨k, hk, hmk⟩ := hin.exists_child hm hp hlevel
  exact h.not_splits_child ht hk (hs.mono hmk hm (hp.child hlt hk))

/-! ## The test for siblings -/

/-- The first key of the parent, from the octant of the leaf. -/
theorem start_sub_octant (ht : t.isValid = true) (hi : i < t.count) (hpos : 0 < t.level i) :
    ∃ octant < 8, Key.octant depth (t.level i) (t.start i) = octant ∧
      t.node i = ((t.node i).parent depth).child depth octant ∧
      t.start i - octant * extent depth (t.level i) = ((t.node i).parent depth).first := by
  have hm := isCell_node ht hi
  obtain ⟨octant, ho, heq⟩ := child_eq_ancestor_or hm hpos
  have hfirst : t.start i = ((t.node i).parent depth).first + octant * extent depth (t.level i) := by
    have := congrArg Node.first heq
    simp only [child, level_parent, node] at this
    rwa [Nat.sub_add_cancel hpos] at this
  refine ⟨octant, ho, ?_, heq, by omega⟩
  have hex : extent depth (t.level i - 1) = 8 * extent depth (t.level i) := by
    have hlt : t.level i - 1 < depth := by
      have : t.level i ≤ depth := hm.level_le
      omega
    rw [extent_eq_mul hlt, Nat.sub_add_cancel hpos]
  obtain ⟨x, hx⟩ := hm.parent.aligned
  have hx' : ((t.node i).parent depth).first = extent depth (t.level i) * (8 * x) := by
    rw [hx]
    simp only [level_parent, node, hex]
    rw [Nat.mul_comm 8, Nat.mul_assoc]
  rw [Key.octant, hfirst, hx', Nat.add_mul_div_right _ _ (extent_pos _ _), Nat.mul_div_cancel_left _ (extent_pos _ _)]
  omega

/-- The test succeeds exactly for a leaf whose seven siblings are leaves. -/
theorem siblingSlot_eq_some_iff (ht : t.isValid = true) (hi : i < t.count) {slot : Nat} :
    t.siblingSlot i = some slot ↔
      0 < t.level i ∧ slot ≤ i ∧ slot < 8 ∧ t.HoldsChildren (i - slot) ((t.node i).parent depth) ∧
        t.node i = ((t.node i).parent depth).child depth slot := by
  have ha := ascends_of_isValid ht
  rcases Nat.eq_zero_or_pos (t.level i) with hzero | hpos
  · simp [siblingSlot, hzero]
  obtain ⟨octant, ho, hoct, hchild, hsub⟩ := start_sub_octant ht hi hpos
  have hp := (isCell_node ht hi).parent
  have hs := splits_parent_node ht hi hpos
  have hlt := hs.level_lt hp
  simp only [siblingSlot, Nat.ne_of_gt hpos, if_false, hoct, hsub, ha.size_eq]
  have hstop : ((t.node i).parent depth).first + extent depth (t.level i - 1) = ((t.node i).parent depth).stop depth :=
    rfl
  constructor
  · intro h
    split at h
    · cases h
    case isFalse hin =>
      split at h
      case isTrue hends =>
        cases h
        have hle : i - slot + 8 ≤ t.count := by omega
        exact ⟨hpos, by omega, ho, holdsChildren_of_ends ht hp hs hle hends.1 (hends.2.trans hstop), hchild⟩
      case isFalse => cases h
  · rintro ⟨-, hslot, hslot8, hall, hchild'⟩
    have hoctant : slot = octant := by
      have h := congrArg Node.first (hchild'.symm.trans hchild)
      simp only [child] at h
      exact Nat.eq_of_mul_eq_mul_right (extent_pos depth _) (Nat.add_left_cancel h)
    subst hoctant
    obtain ⟨hlast, hnode⟩ := hall 7 (by omega)
    obtain ⟨hfirst, hnode₀⟩ := hall 0 (by omega)
    have hbegin : t.start (i - slot) = ((t.node i).parent depth).first := by
      have := congrArg Node.first hnode₀
      simpa only [Nat.add_zero, node, child_zero_first] using this
    have hend : t.start (i - slot + 8) = ((t.node i).parent depth).stop depth := by
      rw [show i - slot + 8 = i - slot + 7 + 1 from rfl, ← stop_node ht hlast, hnode, child_seven_stop hlt]
    rw [if_neg (by omega), if_pos ⟨hbegin, hend⟩]

/-- Each of eight leaves that are the children of a cell passes the test. -/
theorem HoldsChildren.siblingSlot_eq (ht : t.isValid = true) {first : Nat} {p : Node} (hp : p.IsCell depth)
    (hlt : p.level < depth) (h : t.HoldsChildren first p) {k : Nat} (hk : k < 8) :
    t.siblingSlot (first + k) = some k ∧ (t.node (first + k)).parent depth = p := by
  obtain ⟨hj, hnode⟩ := h k hk
  have hparent : (t.node (first + k)).parent depth = p := by
    rw [hnode]
    exact (child_inside hlt hk).ancestor_eq hp
  have hlevel : t.level (first + k) = p.level + 1 := congrArg Node.level hnode
  refine ⟨(siblingSlot_eq_some_iff ht hj).2 ⟨by omega, by omega, hk, ?_, by rw [hparent, hnode]⟩, hparent⟩
  rw [hparent, Nat.add_sub_cancel]
  exact h

end Leaves

end CurvePartition
