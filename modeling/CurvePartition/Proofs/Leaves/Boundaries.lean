-- SUMMARY: What a valid boundary array says: its leaves are cells that tile the keys, and the cells it subdivides determine it.
import Mathlib.Data.Nat.Find
import Mathlib.Tactic.ByContra
import CurvePartition.Leaves.Basic
import CurvePartition.Proofs.Key.Cells

/-!
# Boundaries of valid trees

A tree *splits* a cell if one of its boundaries lies strictly inside. Of a valid tree, the cells it splits are the inner
nodes: with one boundary inside a cell all octants of the cell start at boundaries (`Leaves.Closed`). Conversely
ascending boundaries that are closed in this sense make a valid tree (`Leaves.isValid_of_closed`), and two valid
trees that split the same cells are equal (`Leaves.eq_of_splits_iff`).
-/

namespace CurvePartition

namespace Leaves

open Key Node

variable {depth : Nat} {t : Leaves depth}

/-- Whether a key is one of the boundaries of a tree. -/
def IsBoundary (t : Leaves depth) (key : Nat) : Prop := ∃ i ≤ t.count, t.start i = key

/-- Whether a boundary lies strictly inside a node. -/
def Splits (t : Leaves depth) (n : Node) : Prop := ∃ i ≤ t.count, Divides depth (t.start i) n

/-- Whether every octant of a cell that is split starts at a boundary. -/
def Closed (t : Leaves depth) : Prop :=
  ∀ n, n.IsCell depth → t.Splits n → ∀ octant < 8, t.IsBoundary (n.child depth octant).first

/-- The shape of a boundary array: it runs from zero up to the bound and ascends. -/
structure Ascends (t : Leaves depth) : Prop where
  two_le : 2 ≤ t.bounds.size
  start_zero : t.start 0 = 0
  start_count : t.start t.count = bound depth
  lt_succ : ∀ i < t.count, t.start i < t.start (i + 1)

namespace Ascends

variable {i j : Nat}

theorem size_eq (h : t.Ascends) : t.bounds.size = t.count + 1 := by
  have := h.two_le
  simp only [count]
  omega

theorem count_pos (h : t.Ascends) : 0 < t.count := by
  have := h.two_le
  simp only [count]
  omega

theorem start_lt (h : t.Ascends) (hij : i < j) (hj : j ≤ t.count) : t.start i < t.start j := by
  induction j with
  | zero => omega
  | succ j ih =>
    have hstep := h.lt_succ j (by omega)
    rcases Nat.lt_succ_iff_lt_or_eq.1 hij with hlt | rfl
    · exact Nat.lt_trans (ih hlt (by omega)) hstep
    · exact hstep

theorem start_le (h : t.Ascends) (hij : i ≤ j) (hj : j ≤ t.count) : t.start i ≤ t.start j := by
  rcases Nat.lt_or_eq_of_le hij with hlt | rfl
  · exact Nat.le_of_lt (h.start_lt hlt hj)
  · exact Nat.le_refl _

theorem start_lt_bound (h : t.Ascends) (hi : i < t.count) : t.start i < bound depth :=
  h.start_count ▸ h.start_lt hi (Nat.le_refl _)

theorem start_le_bound (h : t.Ascends) (hi : i ≤ t.count) : t.start i ≤ bound depth :=
  h.start_count ▸ h.start_le hi (Nat.le_refl _)

theorem lt_of_start_lt (h : t.Ascends) (hi : i ≤ t.count) (hlt : t.start i < t.start j) : i < j :=
  Nat.not_le.1 fun hji => Nat.not_lt.2 (h.start_le hji hi) hlt

theorem start_inj (h : t.Ascends) (hi : i ≤ t.count) (hj : j ≤ t.count) (heq : t.start i = t.start j) : i = j := by
  rcases Nat.lt_trichotomy i j with hlt | rfl | hlt
  · have := h.start_lt hlt hj
    omega
  · rfl
  · have := h.start_lt hlt hi
    omega

/-- Every key lies in a leaf. -/
theorem exists_leaf (h : t.Ascends) {k : Nat} (hk : k < bound depth) :
    ∃ i < t.count, t.start i ≤ k ∧ k < t.start (i + 1) := by
  have below : ∀ j ≤ t.count, k < t.start j → ∃ i < j, t.start i ≤ k ∧ k < t.start (i + 1) := by
    intro j hj hlt
    induction j with
    | zero => simp [h.start_zero] at hlt
    | succ j ih =>
      rcases Nat.lt_or_ge k (t.start j) with hkj | hkj
      · obtain ⟨i, hi, hmem⟩ := ih (by omega) hkj
        exact ⟨i, by omega, hmem⟩
      · exact ⟨j, Nat.lt_succ_self j, hkj, hlt⟩
  exact below t.count (Nat.le_refl _) (by rw [h.start_count]; exact hk)

/-- Nothing lies strictly between two boundaries in a row. -/
theorem not_between (h : t.Ascends) (hi : i < t.count) (hj : j ≤ t.count) :
    ¬ (t.start i < t.start j ∧ t.start j < t.start (i + 1)) := by
  rintro ⟨h₁, h₂⟩
  have := h.lt_of_start_lt (by omega) h₁
  have := h.lt_of_start_lt hj h₂
  omega

end Ascends

theorem isValid_iff : t.isValid = true ↔ t.bounds.size ≥ 2 ∧ t.start 0 = 0 ∧ t.start t.count = bound depth ∧
    ∀ i < t.count, isNodeRange depth (t.start i) (t.start (i + 1)) = true := by
  simp [isValid, and_assoc]

/-- The keys of a cell are a node. -/
theorem isNodeRange_of_isCell {n : Node} (hn : n.IsCell depth) : isNodeRange depth n.first (n.stop depth) = true := by
  have hlength : n.stop depth - n.first = extent depth n.level := Nat.add_sub_cancel_left _ _
  simp only [isNodeRange, hlength, levelOf_extent hn.level_le, Bool.and_eq_true, decide_eq_true_eq, beq_self_eq_true,
    and_true, isAligned_iff]
  exact ⟨n.first_lt_stop, hn.aligned⟩

theorem isValid_root (depth : Nat) : (root : Leaves depth).isValid = true := by
  refine isValid_iff.2 ⟨Nat.le_refl 2, rfl, rfl, fun i hi => ?_⟩
  obtain rfl : i = 0 := Nat.lt_one_iff.1 hi
  have hrange := isNodeRange_of_isCell (isCell_root depth)
  rwa [stop_root] at hrange

section Valid

variable (ht : t.isValid = true) {i : Nat}
include ht

theorem isNodeRange_of_isValid (hi : i < t.count) : t.start i < t.start (i + 1) ∧
    extent depth (t.level i) = t.start (i + 1) - t.start i ∧ extent depth (t.level i) ∣ t.start i := by
  have := (isValid_iff.1 ht).2.2.2 i hi
  simpa [isNodeRange, isAligned_iff, and_assoc, level] using this

theorem ascends_of_isValid : t.Ascends where
  two_le := (isValid_iff.1 ht).1
  start_zero := (isValid_iff.1 ht).2.1
  start_count := (isValid_iff.1 ht).2.2.1
  lt_succ _ hi := (isNodeRange_of_isValid ht hi).1

/-- A leaf ends where the next one starts. -/
theorem stop_node (hi : i < t.count) : (t.node i).stop depth = t.start (i + 1) := by
  obtain ⟨hlt, hex, _⟩ := isNodeRange_of_isValid ht hi
  simp only [node, stop, hex]
  omega

/-- The keys of a leaf are those of its node. -/
theorem range_node (hi : i < t.count) : (t.node i).range depth = t.range i := by
  have hlast : ((t.node i).range depth).last = (t.range i).last := stop_node ht hi
  exact congrArg (KeyRange.mk (t.start i)) hlast

/-- Leaves are cells. -/
theorem isCell_node (hi : i < t.count) : (t.node i).IsCell depth where
  level_le := Nat.sub_le _ _
  aligned := (isNodeRange_of_isValid ht hi).2.2
  first_lt := (ascends_of_isValid ht).start_lt_bound hi

/-- No boundary lies inside a leaf. -/
theorem not_splits_node (hi : i < t.count) : ¬ t.Splits (t.node i) := by
  rintro ⟨j, hj, h₁, h₂⟩
  rw [stop_node ht hi] at h₂
  exact (ascends_of_isValid ht).not_between hi hj ⟨h₁, h₂⟩

end Valid

/-! ## Split cells -/

/-- With a cell all cells around it are split. -/
theorem Splits.mono {m n : Node} (h : t.Splits m) (hmn : m.Inside depth n) (hm : m.IsCell depth)
    (hn : n.IsCell depth) : t.Splits n := by
  obtain ⟨i, hi, hd⟩ := h
  exact ⟨i, hi, hd.mono hmn hm hn⟩

theorem Splits.level_lt {n : Node} (h : t.Splits n) (hn : n.IsCell depth) : n.level < depth := by
  obtain ⟨i, _, hd⟩ := h
  exact hd.level_lt hn

/-- A cell that is not split lies in one of the octants of a split cell around it. -/
theorem Splits.exists_child {m n : Node} (h : t.Splits n) (hnot : ¬ t.Splits m) (hin : m.Inside depth n)
    (hm : m.IsCell depth) (hn : n.IsCell depth) : ∃ octant < 8, m.Inside depth (n.child depth octant) := by
  refine hin.exists_child hm hn (Nat.lt_of_le_of_ne hin.1 fun heq => hnot ?_)
  rwa [hin.eq_of_level hm hn heq.symm]

/-- An octant of a split cell ends at a boundary if the cell does. -/
theorem Closed.isBoundary_stop_of_parent (hc : t.Closed) {n : Node} (hn : n.IsCell depth) (hpos : 0 < n.level)
    (hs : t.Splits (n.parent depth)) (hstop : t.IsBoundary ((n.parent depth).stop depth)) : t.IsBoundary (n.stop depth) := by
  have hp := hn.parent
  obtain ⟨octant, ho, heq⟩ := child_eq_ancestor_or hn hpos
  rcases Nat.lt_or_eq_of_le (Nat.le_of_lt_succ ho) with hlt7 | rfl
  · have := hc _ hp hs (octant + 1) (by omega)
    rwa [heq, child_stop]
  · rwa [heq, child_seven_stop (hs.level_lt hp)]

/-- A cell that is split ends at a boundary: it is an octant of a cell that is split as well, or the root. -/
theorem Closed.isBoundary_stop (hc : t.Closed) (ha : t.Ascends) {n : Node} (hn : n.IsCell depth) (h : t.Splits n) :
    t.IsBoundary (n.stop depth) := by
  induction hl : n.level generalizing n with
  | zero =>
    obtain rfl := hn.eq_root hl
    exact ⟨t.count, Nat.le_refl _, by rw [ha.start_count, stop_root]⟩
  | succ l ih =>
    have hp := hn.parent
    have hsplit : t.Splits (n.parent depth) := h.mono (n.inside_ancestor (Nat.sub_le _ _)) hn hp
    exact hc.isBoundary_stop_of_parent hn (by omega) hsplit (ih hp hsplit (by simp only [level_parent]; omega))

theorem closed_of_isValid (ht : t.isValid = true) : t.Closed := by
  intro n hn hs octant ho
  have ha := ascends_of_isValid ht
  have hlt := hs.level_lt hn
  have hc := hn.child hlt ho
  obtain ⟨i, hi, hle, hlt'⟩ := ha.exists_leaf hc.first_lt
  rcases Nat.eq_or_lt_of_le hle with heq | hgt
  · exact ⟨i, Nat.le_of_lt hi, heq⟩
  -- Otherwise the octant starts strictly inside a leaf, which then holds the whole cell.
  · have hdiv : Divides depth (n.child depth octant).first (t.node i) := ⟨hgt, by rwa [stop_node ht hi]⟩
    have hin := inside_of_divides_child_first (isCell_node ht hi) hn hlt ho hdiv
    exact absurd (hs.mono hin hn (isCell_node ht hi)) (not_splits_node ht hi)

/-- A cell is either split or part of a leaf. -/
theorem splits_or_inside (ht : t.isValid = true) {n : Node} (hn : n.IsCell depth) :
    t.Splits n ∨ ∃ i < t.count, n.Inside depth (t.node i) := by
  have ha := ascends_of_isValid ht
  obtain ⟨i, hi, hle, hlt⟩ := ha.exists_leaf hn.first_lt
  have hm := isCell_node ht hi
  have hmem : (t.node i).first ≤ n.first ∧ n.first < (t.node i).stop depth := ⟨hle, by rwa [stop_node ht hi]⟩
  rcases Nat.le_total (t.node i).level n.level with hl | hl
  · exact .inr ⟨i, hi, inside_of_mem hn hm hl ⟨Nat.le_refl _, n.first_lt_stop⟩ hmem⟩
  · have hin := inside_of_mem hm hn hl hmem ⟨Nat.le_refl _, n.first_lt_stop⟩
    rcases Nat.eq_or_lt_of_le hl with heq | hgt
    · have hnode : t.node i = n := hin.eq_of_level hm hn heq.symm
      exact .inr ⟨i, hi, by rw [hnode]; exact Inside.refl n⟩
    · have hstop : t.start (i + 1) < n.stop depth := by
        have hfirst : t.start i = n.first := Nat.le_antisymm hle hin.2.1
        have hex := extent_lt hgt hm.level_le
        rw [← stop_node ht hi]
        simp only [stop]
        simp only [node] at hex ⊢
        omega
      exact .inl ⟨i + 1, hi, hlt, hstop⟩

theorem not_splits_of_inside_node (ht : t.isValid = true) {i : Nat} (hi : i < t.count) {n : Node}
    (hn : n.IsCell depth) (h : n.Inside depth (t.node i)) : ¬ t.Splits n := fun hs =>
  not_splits_node ht hi (hs.mono h hn (isCell_node ht hi))

/-- A cell is split exactly if a leaf lies strictly inside. -/
theorem splits_iff_exists_leaf (ht : t.isValid = true) {n : Node} (hn : n.IsCell depth) :
    t.Splits n ↔ ∃ i < t.count, n.level < t.level i ∧ (t.node i).Inside depth n := by
  constructor
  · intro hs
    have ha := ascends_of_isValid ht
    obtain ⟨i, hi, hle, hlt⟩ := ha.exists_leaf hn.first_lt
    have hm := isCell_node ht hi
    have hmem : (t.node i).first ≤ n.first ∧ n.first < (t.node i).stop depth := ⟨hle, by rwa [stop_node ht hi]⟩
    have hl : n.level < t.level i := Nat.not_le.1 fun hge =>
      not_splits_of_inside_node ht hi hn (inside_of_mem hn hm hge ⟨Nat.le_refl _, n.first_lt_stop⟩ hmem) hs
    exact ⟨i, hi, hl, inside_of_mem hm hn (Nat.le_of_lt hl) hmem ⟨Nat.le_refl _, n.first_lt_stop⟩⟩
  · rintro ⟨i, hi, hl, hin⟩
    rcases splits_or_inside ht hn with hs | ⟨j, hj, hnj⟩
    · exact hs
    -- Two leaves that share a key are one.
    · have ha := ascends_of_isValid ht
      have hij := hin.trans hnj hn (isCell_node ht hj)
      have h₁ : t.start j ≤ t.start i := hij.2.1
      have h₂ : t.start i < t.start (j + 1) := stop_node ht hj ▸ hij.2.2
      have hji : j ≤ i := Nat.le_of_lt_succ <| by
        rcases Nat.eq_or_lt_of_le h₁ with heq | hlt
        · exact Nat.lt_succ_of_le (Nat.le_of_eq (ha.start_inj (Nat.le_of_lt hj) (Nat.le_of_lt hi) heq))
        · exact Nat.lt_succ_of_lt (ha.lt_of_start_lt (Nat.le_of_lt hj) hlt)
      have hij' := ha.lt_of_start_lt (Nat.le_of_lt hi) h₂
      have heq : i = j := by omega
      subst heq
      exact absurd hnj.1 (Nat.not_le.2 hl)

/-! ## Trees from their split cells -/

/-- Boundary arrays are told apart by their boundaries. -/
theorem ext_start {t' : Leaves depth} (hsize : t.bounds.size = t'.bounds.size)
    (h : ∀ i < t.bounds.size, t.start i = t'.start i) : t = t' := by
  have hbounds : t.bounds = t'.bounds := by
    refine Array.ext hsize fun i h₁ h₂ => ?_
    have hstart := h i h₁
    simpa only [start, Array.getD, h₁, h₂, dif_pos, Array.getInternal_eq_getElem] using hstart
  cases t
  cases t'
  exact congrArg Leaves.mk hbounds

/-- The node from a boundary to the next one: the coarsest cell there that is not split. -/
theorem Closed.exists_cell (hc : t.Closed) (ha : t.Ascends) {i : Nat} (hi : i < t.count) :
    ∃ n : Node, n.IsCell depth ∧ n.first = t.start i ∧ n.stop depth = t.start (i + 1) := by
  have hlt := ha.start_lt_bound hi
  have whole : ∃ l, l ≤ depth ∧ extent depth l ∣ t.start i ∧ ¬ t.Splits ⟨t.start i, l⟩ :=
    ⟨depth, Nat.le_refl _, by simp, fun hs =>
      absurd (hs.level_lt ⟨Nat.le_refl depth, by simp, hlt⟩) (Nat.lt_irrefl depth)⟩
  classical
  obtain ⟨hl, hdvd, hnot⟩ := Nat.find_spec whole
  generalize hlevel : Nat.find whole = l at hl hdvd hnot
  have hn : Node.IsCell depth ⟨t.start i, l⟩ := ⟨hl, hdvd, hlt⟩
  refine ⟨⟨t.start i, l⟩, hn, rfl, ?_⟩
  have hbound : t.IsBoundary (Node.stop depth ⟨t.start i, l⟩) := by
    rcases Nat.eq_zero_or_pos l with rfl | hpos
    · refine ⟨t.count, Nat.le_refl _, ?_⟩
      rw [hn.eq_root rfl, ha.start_count, stop_root]
    · have hp := hn.parent
      have hin : Inside depth ⟨t.start i, l⟩ (Node.parent depth ⟨t.start i, l⟩) :=
        Node.inside_ancestor ⟨t.start i, l⟩ (Nat.sub_le l 1)
      have hsplit : t.Splits (Node.parent depth ⟨t.start i, l⟩) := by
        rcases Nat.eq_or_lt_of_le hin.2.1 with heq | hgt
        · by_contra hns
          have heq' : anchor depth (l - 1) (t.start i) = t.start i := heq
          refine Nat.find_min whole (m := l - 1) (by omega) ⟨by omega, ?_, ?_⟩
          · rw [← heq']
            exact extent_dvd_anchor depth (l - 1) (t.start i)
          · simpa only [Node.parent, Node.ancestor, heq'] using hns
        · exact ⟨i, Nat.le_of_lt hi, hgt, hin.2.2⟩
      exact hc.isBoundary_stop_of_parent hn hpos hsplit (hc.isBoundary_stop ha hp hsplit)
  obtain ⟨j, hj, hstart⟩ := hbound
  rw [← hstart]
  have hfirst : t.start i < Node.stop depth ⟨t.start i, l⟩ :=
    Node.first_lt_stop ⟨t.start i, l⟩
  rw [← hstart] at hfirst
  have hij : i < j := ha.lt_of_start_lt (Nat.le_of_lt hi) hfirst
  rcases Nat.eq_or_lt_of_le hij with heq | hgt
  · exact congrArg t.start heq.symm
  · exact absurd ⟨i + 1, hi, ha.lt_succ i hi, hstart ▸ ha.start_lt hgt hj⟩ hnot

/-- Ascending boundaries that are closed make a valid tree. -/
theorem isValid_of_closed (ha : t.Ascends) (hc : t.Closed) : t.isValid = true := by
  refine isValid_iff.2 ⟨ha.two_le, ha.start_zero, ha.start_count, fun i hi => ?_⟩
  obtain ⟨n, hn, hfirst, hstop⟩ := hc.exists_cell ha hi
  rw [← hfirst, ← hstop]
  exact isNodeRange_of_isCell hn

section Splits

variable {t' : Leaves depth} (ht : t.isValid = true) (ht' : t'.isValid = true)
  (h : ∀ n, n.IsCell depth → (t.Splits n ↔ t'.Splits n))
include ht ht' h

/-- Leaves of two trees with the same split cells that start together end together: a coarser one would be split. -/
theorem start_succ_eq_of_level_le {i : Nat} (hi : i < t.count) (hi' : i < t'.count) (hstart : t.start i = t'.start i)
    (hlevel : t.level i ≤ t'.level i) : t.start (i + 1) = t'.start (i + 1) := by
  have hin : (t'.node i).Inside depth (t.node i) :=
    ⟨hlevel, Nat.le_of_eq hstart, by
      have : (t.node i).first < (t.node i).stop depth := first_lt_stop _
      simpa only [node, hstart] using this⟩
  rcases Nat.eq_or_lt_of_le hlevel with heq | hlt
  · rw [← stop_node ht hi, ← stop_node ht' hi']
    simp only [node, stop, hstart, heq]
  · have hsplit := (splits_iff_exists_leaf ht' (isCell_node ht hi)).2 ⟨i, hi', hlt, hin⟩
    exact absurd ((h _ (isCell_node ht hi)).2 hsplit) (not_splits_node ht hi)

/-- Trees with the same split cells agree on one boundary after the other. -/
theorem start_eq_of_splits_iff {i : Nat} (hi : i ≤ t.count) : i ≤ t'.count ∧ t.start i = t'.start i := by
  have ha := ascends_of_isValid ht
  have ha' := ascends_of_isValid ht'
  induction i with
  | zero => exact ⟨Nat.zero_le _, by rw [ha.start_zero, ha'.start_zero]⟩
  | succ i ih =>
    obtain ⟨hle, hstart⟩ := ih (by omega)
    have hi' : i < t'.count := by
      refine Nat.lt_of_le_of_ne hle fun heq => ?_
      have := ha.start_lt_bound (i := i) (by omega)
      rw [hstart, heq, ha'.start_count] at this
      omega
    refine ⟨hi', ?_⟩
    rcases Nat.le_total (t.level i) (t'.level i) with hl | hl
    · exact start_succ_eq_of_level_le ht ht' h hi hi' hstart hl
    · exact (start_succ_eq_of_level_le ht' ht (fun n hn => (h n hn).symm) hi' hi hstart.symm hl).symm

/-- A valid tree is determined by the cells it splits. -/
theorem eq_of_splits_iff : t = t' := by
  have ha := ascends_of_isValid ht
  have ha' := ascends_of_isValid ht'
  have hcount : t.count = t'.count := by
    obtain ⟨hle, hstart⟩ := start_eq_of_splits_iff ht ht' h (Nat.le_refl t.count)
    refine Nat.le_antisymm hle (Nat.not_lt.1 fun hlt => ?_)
    have := ha'.start_lt_bound hlt
    rw [← hstart, ha.start_count] at this
    omega
  exact ext_start (by rw [ha.size_eq, ha'.size_eq, hcount]) fun i hi =>
    (start_eq_of_splits_iff ht ht' h (by rw [ha.size_eq] at hi; omega)).2

end Splits

end Leaves

end CurvePartition
