-- SUMMARY: Cells, the nodes that an octree can have: nesting of their key ranges, ancestors, and the octants of a cell.
import CurvePartition.Key.Basic

/-!
# Cells

A cell is a node that starts at a multiple of its length and lies below the bound. Two cells that share a key are nested
(`Node.inside_total`), which makes the cells a tree: above each cell there is exactly one cell of every coarser level,
`Node.ancestor`. A key *divides* a cell if it lies strictly between the ends of the cell.
-/

namespace CurvePartition

namespace Key

variable {depth : Nat}

/-- Multiples of a number that differ do so by at least that number. -/
theorem add_le_of_dvd {e a b : Nat} (ha : e ∣ a) (hb : e ∣ b) (h : a < b) : a + e ≤ b := by
  obtain ⟨x, rfl⟩ := ha
  obtain ⟨y, rfl⟩ := hb
  have hxy : x < y := Nat.lt_of_mul_lt_mul_left h
  calc e * x + e = e * (x + 1) := (Nat.mul_succ e x).symm
    _ ≤ e * y := Nat.mul_le_mul_left e hxy

theorem extent_dvd_bound (depth level : Nat) : extent depth level ∣ bound depth :=
  extent_dvd (Nat.zero_le level)

theorem extent_dvd_anchor (depth level key : Nat) : extent depth level ∣ anchor depth level key :=
  Nat.dvd_mul_left _ _

theorem isAligned_iff {level key : Nat} : isAligned depth level key = true ↔ extent depth level ∣ key := by
  simp [isAligned, Nat.dvd_iff_mod_eq_zero]

/-- The only multiple of the extent that holds a key is its anchor. -/
theorem anchor_eq {level a key : Nat} (ha : extent depth level ∣ a) (hle : a ≤ key)
    (hlt : key < a + extent depth level) : anchor depth level key = a := by
  have h₁ := anchor_le depth level key
  have h₂ := lt_anchor_add_extent depth level key
  have hd := extent_dvd_anchor depth level key
  rcases Nat.lt_trichotomy (anchor depth level key) a with h | h | h
  · have := add_le_of_dvd hd ha h
    omega
  · exact h
  · have := add_le_of_dvd ha hd h
    omega

theorem anchor_of_dvd {level key : Nat} (h : extent depth level ∣ key) : anchor depth level key = key :=
  anchor_eq h (Nat.le_refl key) (Nat.lt_add_of_pos_right (extent_pos depth level))

/-- On levels that exist, finer extents are smaller. -/
theorem extent_lt {l m : Nat} (h : l < m) (hm : m ≤ depth) : extent depth m < extent depth l :=
  Nat.pow_lt_pow_right (by decide) (by omega)

/-- Levels that exist are told apart by their extents. -/
theorem extent_inj {l m : Nat} (hl : l ≤ depth) (hm : m ≤ depth) (h : extent depth l = extent depth m) : l = m := by
  rcases Nat.lt_trichotomy l m with hlt | heq | hlt
  · have := extent_lt hlt hm
    omega
  · exact heq
  · have := extent_lt hlt hl
    omega

end Key

namespace Node

open Key

variable {depth : Nat}

/-- One past the last key of a node. -/
def stop (depth : Nat) (n : Node) : Nat := n.first + extent depth n.level

/-- A node of an octree: aligned, on a level that exists, and below the bound. -/
structure IsCell (depth : Nat) (n : Node) : Prop where
  level_le : n.level ≤ depth
  aligned : extent depth n.level ∣ n.first
  first_lt : n.first < bound depth

/-- Whether a cell lies in another one: it is not coarser and starts there. -/
def Inside (depth : Nat) (m n : Node) : Prop :=
  n.level ≤ m.level ∧ n.first ≤ m.first ∧ m.first < n.stop depth

/-- Whether a key lies strictly between the ends of a node. -/
def Divides (depth : Nat) (key : Nat) (n : Node) : Prop := n.first < key ∧ key < n.stop depth

/-- The node of a coarser level that holds a node. -/
def ancestor (depth : Nat) (n : Node) (level : Nat) : Node := ⟨anchor depth level n.first, level⟩

/-- The node one level up. -/
def parent (depth : Nat) (n : Node) : Node := n.ancestor depth (n.level - 1)

@[simp] theorem level_ancestor (n : Node) (level : Nat) : (n.ancestor depth level).level = level := rfl

@[simp] theorem level_parent (n : Node) : (n.parent depth).level = n.level - 1 := rfl

@[simp] theorem level_child (n : Node) (octant : Nat) : (n.child depth octant).level = n.level + 1 := rfl

theorem first_child (n : Node) (octant : Nat) :
    (n.child depth octant).first = n.first + octant * extent depth (n.level + 1) := rfl

theorem first_lt_stop (n : Node) : n.first < n.stop depth :=
  Nat.lt_add_of_pos_right (extent_pos depth n.level)

theorem range_last (n : Node) : (n.range depth).last = n.stop depth := rfl

theorem isCell_root (depth : Nat) : root.IsCell depth :=
  ⟨Nat.zero_le depth, Nat.dvd_zero _, bound_pos depth⟩

@[simp] theorem stop_root (depth : Nat) : root.stop depth = bound depth := by
  simp [stop, root, bound]

namespace IsCell

variable {m n : Node}

theorem dvd_stop (h : n.IsCell depth) : extent depth n.level ∣ n.stop depth :=
  (Nat.dvd_add_right h.aligned).2 (Nat.dvd_refl _)

theorem stop_le (h : n.IsCell depth) : n.stop depth ≤ bound depth :=
  add_le_of_dvd h.aligned (extent_dvd_bound depth n.level) h.first_lt

theorem ancestor (h : n.IsCell depth) {level : Nat} (hle : level ≤ n.level) :
    (n.ancestor depth level).IsCell depth where
  level_le := Nat.le_trans hle h.level_le
  aligned := extent_dvd_anchor depth level n.first
  first_lt := Nat.lt_of_le_of_lt (anchor_le depth level n.first) h.first_lt

theorem parent (h : n.IsCell depth) : (n.parent depth).IsCell depth := h.ancestor (Nat.sub_le _ _)

theorem child (h : n.IsCell depth) (hlt : n.level < depth) {octant : Nat} (ho : octant < 8) :
    (n.child depth octant).IsCell depth where
  level_le := hlt
  aligned := by
    refine (Nat.dvd_add_right ?_).2 (Nat.dvd_mul_left _ _)
    exact Nat.dvd_trans (extent_dvd (Nat.le_succ _)) h.aligned
  first_lt := by
    have hstop := h.stop_le
    have hex := extent_eq_mul hlt
    have hpos := extent_pos depth (n.level + 1)
    have hmul : octant * extent depth (n.level + 1) ≤ 7 * extent depth (n.level + 1) :=
      Nat.mul_le_mul_right _ (by omega)
    simp only [stop] at hstop
    simp only [Node.child]
    omega

end IsCell

/-! ## Nesting -/

theorem Inside.refl (n : Node) : n.Inside depth n := ⟨Nat.le_refl _, Nat.le_refl _, n.first_lt_stop⟩

/-- A cell inside another one also ends there. -/
theorem Inside.stop_le {m n : Node} (h : m.Inside depth n) (hm : m.IsCell depth) (hn : n.IsCell depth) :
    m.stop depth ≤ n.stop depth :=
  add_le_of_dvd hm.aligned (Nat.dvd_trans (extent_dvd h.1) hn.dvd_stop) h.2.2

theorem Inside.trans {l m n : Node} (hlm : l.Inside depth m) (hmn : m.Inside depth n) (hm : m.IsCell depth)
    (hn : n.IsCell depth) : l.Inside depth n :=
  ⟨Nat.le_trans hmn.1 hlm.1, Nat.le_trans hmn.2.1 hlm.2.1, Nat.lt_of_lt_of_le hlm.2.2 (hmn.stop_le hm hn)⟩

/-- A cell around one that overlaps a key range overlaps it as well. -/
theorem Inside.overlaps {m n : Node} {r : KeyRange} (h : m.Inside depth n) (hm : m.IsCell depth)
    (hn : n.IsCell depth) (hover : (m.range depth).overlaps r = true) : (n.range depth).overlaps r = true := by
  simp only [KeyRange.overlaps, Bool.and_eq_true, decide_eq_true_eq] at hover ⊢
  exact ⟨Nat.lt_of_le_of_lt h.2.1 hover.1, Nat.lt_of_lt_of_le hover.2 (h.stop_le hm hn)⟩

/-- A cell inside one that lies in a key range lies in it as well. -/
theorem Inside.within {m n : Node} {r : KeyRange} (h : m.Inside depth n) (hm : m.IsCell depth)
    (hn : n.IsCell depth) (hwithin : (n.range depth).within r = true) : (m.range depth).within r = true := by
  simp only [KeyRange.within, Bool.and_eq_true, decide_eq_true_eq] at hwithin ⊢
  exact ⟨Nat.le_trans hwithin.1 h.2.1, Nat.le_trans (h.stop_le hm hn) hwithin.2⟩

/-- The cell around another one is its ancestor. -/
theorem Inside.ancestor_eq {m n : Node} (h : m.Inside depth n) (hn : n.IsCell depth) :
    m.ancestor depth n.level = n := by
  have : anchor depth n.level m.first = n.first := anchor_eq hn.aligned h.2.1 h.2.2
  simp only [ancestor, this]

theorem Inside.eq_of_level {m n : Node} (h : m.Inside depth n) (hm : m.IsCell depth) (hn : n.IsCell depth)
    (hl : m.level = n.level) : m = n := by
  have hfirst : m.first = n.first := by
    have ha := anchor_eq hn.aligned h.2.1 h.2.2
    rw [← hl, anchor_of_dvd hm.aligned] at ha
    exact ha
  cases m
  cases n
  simp_all

theorem inside_ancestor (n : Node) {level : Nat} (h : level ≤ n.level) : n.Inside depth (n.ancestor depth level) :=
  ⟨h, anchor_le depth level n.first, lt_anchor_add_extent depth level n.first⟩

theorem inside_root {n : Node} (h : n.IsCell depth) : n.Inside depth root :=
  ⟨Nat.zero_le _, Nat.zero_le _, by simpa using h.first_lt⟩

theorem IsCell.eq_root {n : Node} (h : n.IsCell depth) (hl : n.level = 0) : n = root :=
  (inside_root h).eq_of_level h (isCell_root depth) hl

/-- Two cells that share a key are nested. The coarser one is the outer one. -/
theorem inside_of_mem {m n : Node} {k : Nat} (hm : m.IsCell depth) (hn : n.IsCell depth) (hl : n.level ≤ m.level)
    (hkm : m.first ≤ k ∧ k < m.stop depth) (hkn : n.first ≤ k ∧ k < n.stop depth) : m.Inside depth n := by
  have hdvd : extent depth m.level ∣ n.first := Nat.dvd_trans (extent_dvd hl) hn.aligned
  refine ⟨hl, Nat.not_lt.1 fun hlt => ?_, by omega⟩
  have := add_le_of_dvd hm.aligned hdvd hlt
  simp only [stop] at hkm
  omega

/-- A cell whose keys are among those of another one lies inside. -/
theorem inside_of_within {m n : Node} (hm : m.IsCell depth) (hn : n.IsCell depth)
    (h : (m.range depth).within (n.range depth) = true) : m.Inside depth n := by
  simp only [KeyRange.within, Bool.and_eq_true, decide_eq_true_eq] at h
  obtain ⟨hfirst, hlast⟩ := h
  have hlevel : n.level ≤ m.level := Nat.not_lt.1 fun hlt => by
    have hextent := extent_lt hlt hn.level_le
    simp only [range] at hfirst hlast
    omega
  exact inside_of_mem hm hn hlevel ⟨Nat.le_refl _, m.first_lt_stop⟩ ⟨hfirst, Nat.lt_of_lt_of_le m.first_lt_stop hlast⟩

theorem inside_total {m n : Node} {k : Nat} (hm : m.IsCell depth) (hn : n.IsCell depth)
    (hkm : m.first ≤ k ∧ k < m.stop depth) (hkn : n.first ≤ k ∧ k < n.stop depth) :
    m.Inside depth n ∨ n.Inside depth m := by
  rcases Nat.le_total n.level m.level with h | h
  · exact .inl (inside_of_mem hm hn h hkm hkn)
  · exact .inr (inside_of_mem hn hm h hkn hkm)

/-- A key that divides a cell is not aligned to it. -/
theorem Divides.not_dvd {n : Node} {k : Nat} (h : Divides depth k n) (hn : n.IsCell depth) :
    ¬ extent depth n.level ∣ k := by
  intro hd
  have := add_le_of_dvd hn.aligned hd h.1
  have := h.2
  simp only [stop] at this
  omega

/-- A key that divides a cell divides every cell around it. -/
theorem Divides.mono {m n : Node} {k : Nat} (h : Divides depth k m) (hmn : m.Inside depth n) (hm : m.IsCell depth)
    (hn : n.IsCell depth) : Divides depth k n :=
  ⟨Nat.lt_of_le_of_lt hmn.2.1 h.1, Nat.lt_of_lt_of_le h.2 (hmn.stop_le hm hn)⟩

theorem Divides.level_lt {n : Node} {k : Nat} (h : Divides depth k n) (hn : n.IsCell depth) : n.level < depth := by
  refine Nat.lt_of_le_of_ne hn.level_le fun heq => ?_
  have hone : extent depth n.level = 1 := by rw [heq, extent_self]
  have := h.1
  have := h.2
  simp only [stop, hone] at this
  omega

/-! ## Octants -/

theorem child_inside {n : Node} (hlt : n.level < depth) {octant : Nat} (ho : octant < 8) :
    (n.child depth octant).Inside depth n := by
  have hex := extent_eq_mul hlt
  have hmul : octant * extent depth (n.level + 1) ≤ 7 * extent depth (n.level + 1) :=
    Nat.mul_le_mul_right _ (by omega)
  have hpos := extent_pos depth (n.level + 1)
  refine ⟨Nat.le_succ _, Nat.le_add_right _ _, ?_⟩
  simp only [child, stop]
  omega

theorem child_stop (n : Node) (octant : Nat) :
    (n.child depth octant).stop depth = n.first + (octant + 1) * extent depth (n.level + 1) := by
  simp only [child, stop, Nat.add_mul, Nat.one_mul, Nat.add_assoc]

/-- The octants of a cell follow one another. -/
theorem child_stop_le_first (n : Node) {octant octant' : Nat} (h : octant < octant') :
    (n.child depth octant).stop depth ≤ (n.child depth octant').first := by
  rw [child_stop, first_child]
  exact Nat.add_le_add_left (Nat.mul_le_mul_right _ h) _

@[simp] theorem child_zero_first (n : Node) : (n.child depth 0).first = n.first := by simp [child]

theorem child_seven_stop {n : Node} (hlt : n.level < depth) : (n.child depth 7).stop depth = n.stop depth := by
  rw [child_stop, stop, extent_eq_mul hlt]

/-- The octant of a cell that holds a key. -/
theorem exists_child_of_mem {n : Node} (hlt : n.level < depth) {k : Nat} (hk : n.first ≤ k ∧ k < n.stop depth) :
    ∃ octant < 8, (n.child depth octant).first ≤ k ∧ k < (n.child depth octant).stop depth := by
  have hpos := extent_pos depth (n.level + 1)
  have hex := extent_eq_mul hlt
  have hdiv := Nat.div_mul_le_self (k - n.first) (extent depth (n.level + 1))
  have hmod := Nat.lt_div_mul_add (a := k - n.first) hpos
  refine ⟨(k - n.first) / extent depth (n.level + 1), ?_, ?_, ?_⟩
  · rw [Nat.div_lt_iff_lt_mul hpos]
    have := hk.2
    simp only [stop] at this
    omega
  · simp only [child]
    omega
  · rw [child_stop, Nat.add_mul, Nat.one_mul]
    omega

/-- A cell strictly inside another one lies in one of its octants. -/
theorem Inside.exists_child {m n : Node} (h : m.Inside depth n) (hm : m.IsCell depth) (hn : n.IsCell depth)
    (hl : n.level < m.level) : ∃ octant < 8, m.Inside depth (n.child depth octant) := by
  have hlt : n.level < depth := Nat.lt_of_lt_of_le hl hm.level_le
  obtain ⟨octant, ho, hmem⟩ := exists_child_of_mem hlt ⟨h.2.1, h.2.2⟩
  exact ⟨octant, ho, inside_of_mem hm (hn.child hlt ho) hl ⟨Nat.le_refl _, m.first_lt_stop⟩ hmem⟩

/-- The octants of a cell, the cell's first key apart, start at keys that divide the cell. -/
theorem divides_child_first {n : Node} (hlt : n.level < depth) {octant : Nat} (hpos : 0 < octant) (ho : octant < 8) :
    Divides depth (n.child depth octant).first n := by
  have hex := extent_pos depth (n.level + 1)
  have hmul : 1 * extent depth (n.level + 1) ≤ octant * extent depth (n.level + 1) :=
    Nat.mul_le_mul_right _ hpos
  refine ⟨?_, (child_inside hlt ho).2.2⟩
  simp only [child]
  omega

/-- The start of an octant divides no cell inside the octants, and every cell that it divides holds the whole cell. -/
theorem inside_of_divides_child_first {m n : Node} (hm : m.IsCell depth) (hn : n.IsCell depth)
    (hlt : n.level < depth) {octant : Nat} (ho : octant < 8)
    (h : Divides depth (n.child depth octant).first m) : n.Inside depth m := by
  have hc := hn.child hlt ho
  have hin := child_inside hlt ho
  have hnot := h.not_dvd hm
  have hlevel : m.level ≤ n.level := Nat.not_lt.1 fun hgt =>
    hnot (Nat.dvd_trans (extent_dvd (Nat.succ_le_of_lt hgt)) hc.aligned)
  exact inside_of_mem hn hm hlevel ⟨hin.2.1, hin.2.2⟩ ⟨Nat.le_of_lt h.1, h.2⟩

theorem child_eq_ancestor_or {n : Node} (hn : n.IsCell depth) (hpos : 0 < n.level) :
    ∃ octant < 8, n = (n.parent depth).child depth octant := by
  have hp := hn.parent
  have hlt : (n.parent depth).level < n.level := by simp only [level_parent]; omega
  have hup : n.Inside depth (n.parent depth) := n.inside_ancestor (Nat.sub_le _ _)
  obtain ⟨octant, ho, hin⟩ := hup.exists_child hn hp hlt
  refine ⟨octant, ho, hin.eq_of_level hn (hp.child (Nat.lt_of_lt_of_le hlt hn.level_le) ho) ?_⟩
  show n.level = n.level - 1 + 1
  omega

end Node

end CurvePartition
