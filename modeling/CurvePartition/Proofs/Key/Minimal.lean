-- SUMMARY: The cover of a key range tiles it by the fewest aligned nodes, at most fourteen for each level, and its walk stays within words.
import Mathlib.Data.List.Perm.Subperm
import CurvePartition.Proofs.Key.Cover

/-!
# Minimal covers

Every aligned node of a range lies in a node of the cover (`Key.exists_mem_cover`). So of any other nodes with the same keys
there is at least one in each node of the cover, which makes the cover minimal. The parent of a node of the cover does not lie in
the range, hence it is cut by one of the two ends. On each level one node is cut by either end, and at most seven of its octants
lie in the range: that leaves fourteen nodes on each level (`Key.length_cover_le`).

`Key.walk` is the cover with the sums and lengths that are computed on the way, each of which has to fit its word.
-/

namespace CurvePartition

open Key

namespace Node

/-- Whether a node starts at a multiple of its length, on a level that exists. -/
structure Aligned (depth : Nat) (n : Node) : Prop where
  level_le : n.level ≤ depth
  isAligned : isAligned depth n.level n.first = true

theorem Aligned.isCell {depth : Nat} {n : Node} (h : n.Aligned depth) (hlt : n.first < bound depth) : n.IsCell depth :=
  ⟨h.level_le, isAligned_iff.1 h.isAligned, hlt⟩

theorem IsCell.isAligned {depth : Nat} {n : Node} (h : n.IsCell depth) : n.Aligned depth := ⟨h.level_le, isAligned_iff.2 h.aligned⟩

end Node

namespace Key

open Node

variable {depth first last k : Nat} {c c' m n : Node} {nodes others : List Node}

/-! ## Tilings -/

/-- Whether nodes follow each other from one key up to another without gap or overlap. -/
def Tiles (depth : Nat) : Nat → Nat → List Node → Prop
  | first, last, [] => first = last
  | first, last, n :: rest => n.first = first ∧ Tiles depth (n.stop depth) last rest

theorem tiles_cover (hle : first ≤ last) : Tiles depth first last (cover depth first last) := by
  fun_induction cover depth first last with
  | case1 first hlt level ih =>
    have hfits : fits depth first last level = true := fits_coarsestLevel hlt
    simp only [fits, Bool.and_eq_true, decide_eq_true_eq] at hfits
    exact ⟨rfl, ih hfits.2⟩
  | case2 first hnot => exact Nat.le_antisymm hle (Nat.not_lt.1 hnot)

namespace Tiles

/-- Each node starts where the one before ends, or later. -/
theorem pairwise (h : Tiles depth first last nodes) :
    (∀ n ∈ nodes, first ≤ n.first) ∧ nodes.Pairwise fun m n => m.stop depth ≤ n.first := by
  induction nodes generalizing first with
  | nil => exact ⟨by simp, .nil⟩
  | cons n rest ih =>
    obtain ⟨rfl, hrest⟩ := h
    obtain ⟨hstart, hpairwise⟩ := ih hrest
    refine ⟨fun m hm => ?_, List.pairwise_cons.2 ⟨hstart, hpairwise⟩⟩
    rcases List.mem_cons.1 hm with rfl | hm
    · exact Nat.le_refl _
    · exact Nat.le_trans (Nat.le_of_lt n.first_lt_stop) (hstart m hm)

theorem ascending (h : Tiles depth first last nodes) : nodes.Pairwise fun m n => m.first < n.first :=
  h.pairwise.2.imp fun {m _} hle => Nat.lt_of_lt_of_le m.first_lt_stop hle

theorem nodup (h : Tiles depth first last nodes) : nodes.Nodup :=
  h.ascending.imp fun {_ _} hlt heq => Nat.ne_of_lt hlt (congrArg Node.first heq)

/-- A key is in one node only. -/
theorem eq_of_mem (h : Tiles depth first last nodes) (hm : m ∈ nodes) (hn : n ∈ nodes) (hkm : k ∈ m.range depth)
    (hkn : k ∈ n.range depth) : m = n := by
  induction nodes generalizing first with
  | nil => cases hm
  | cons x rest ih =>
    obtain ⟨rfl, hrest⟩ := h
    have hapart : ∀ y ∈ rest, k ∈ x.range depth → k ∉ y.range depth := fun y hy hx hky =>
      Nat.not_lt.2 (hrest.pairwise.1 y hy) (Nat.lt_of_le_of_lt hky.1 hx.2)
    rcases List.mem_cons.1 hm with rfl | hm'
    · rcases List.mem_cons.1 hn with rfl | hn'
      · rfl
      · exact absurd hkn (hapart n hn' hkm)
    · rcases List.mem_cons.1 hn with rfl | hn'
      · exact absurd hkm (hapart m hm' hkn)
      · exact ih hrest hm' hn'

end Tiles

section Cover

variable (hle : first ≤ last) (hlast : last ≤ bound depth)
include hle hlast

/-- The node of a cover that holds a cell of the range is the only one that shares a key with it. -/
theorem inside_of_mem_cover (hm : m.IsCell depth) (hfirst : first ≤ m.first) (hstop : m.stop depth ≤ last)
    (hc : c ∈ cover depth first last) (hkm : k ∈ m.range depth) (hkc : k ∈ c.range depth) : m.Inside depth c := by
  obtain ⟨c', hc', hin⟩ := exists_mem_cover hlast hm hfirst hstop
  have hkc' : k ∈ c'.range depth :=
    ⟨Nat.le_trans hin.2.1 hkm.1, Nat.lt_of_lt_of_le hkm.2 (hin.stop_le hm (isCell_of_mem_cover hlast hc').1)⟩
  rwa [(tiles_cover hle).eq_of_mem hc hc' hkc hkc']

/-! ## The fewest nodes -/

/-- No nodes with the same keys are fewer. -/
theorem length_cover_le_length (haligned : ∀ n ∈ others, n.Aligned depth)
    (hkeys : ∀ k, (∃ n ∈ others, k ∈ n.range depth) ↔ first ≤ k ∧ k < last) :
    (cover depth first last).length ≤ others.length := by
  have htiles : Tiles depth first last _ := tiles_cover hle
  -- Each node is sent to the node of the cover that holds its first key.
  let holder (m : Node) : Node := ((cover depth first last).find? fun c => m.first ∈ c.range depth).getD m
  have hsub : cover depth first last ⊆ others.map holder := by
    intro c hc
    have hcell := isCell_of_mem_cover hlast hc
    obtain ⟨m, hm, hk⟩ := (hkeys c.first).2 ⟨hcell.2.1, Nat.lt_of_lt_of_le c.first_lt_stop hcell.2.2⟩
    have hfirst := (hkeys m.first).1 ⟨m, hm, Nat.le_refl _, m.first_lt_stop⟩
    have hstop := (hkeys (m.stop depth - 1)).1 ⟨m, hm, by
      have : m.first < m.stop depth := m.first_lt_stop
      exact ⟨by simp only [range]; omega, by simp only [range, stop] at *; omega⟩⟩
    have hmcell := (haligned m hm).isCell (Nat.lt_of_lt_of_le hfirst.2 hlast)
    have hin := inside_of_mem_cover hle hlast hmcell hfirst.1 (by omega) hc hk ⟨Nat.le_refl _, c.first_lt_stop⟩
    refine List.mem_map.2 ⟨m, hm, ?_⟩
    cases hfind : (cover depth first last).find? fun c => m.first ∈ c.range depth with
    | none => exact absurd (decide_eq_true (show m.first ∈ c.range depth from hin.2)) (List.find?_eq_none.1 hfind c hc)
    | some c' =>
      have hmem := List.find?_some hfind
      simp only [holder, hfind, Option.getD_some]
      exact htiles.eq_of_mem (List.mem_of_find?_eq_some hfind) hc (of_decide_eq_true hmem) hin.2
  calc (cover depth first last).length ≤ (others.map holder).length :=
        (List.subperm_of_subset htiles.nodup hsub).length_le
    _ = others.length := List.length_map _

/-! ## Nodes on a level -/

/-- The octants of the two nodes on each level that may be cut by an end of the range, without the first octant of the one and the
last octant of the other. -/
def candidates (depth first last : Nat) : List Node :=
  (List.range depth).flatMap fun level =>
    (List.range' 1 7).map (Node.child depth ⟨anchor depth level first, level⟩) ++
      (List.range 7).map (Node.child depth ⟨anchor depth level last, level⟩)

omit hle hlast in
theorem length_candidates (depth first last : Nat) : (candidates depth first last).length = 14 * depth := by
  simp [candidates, List.length_flatMap, Nat.mul_comm]

/-- The parent of a node of the cover is cut by an end of the range. -/
theorem cut_parent (hc : c ∈ cover depth first last) (hpos : 0 < c.level) :
    (c.parent depth).first < first ∨ last < (c.parent depth).stop depth := by
  have hcell := (isCell_of_mem_cover hlast hc).1
  by_contra hnot
  simp only [not_or, Nat.not_lt] at hnot
  -- Otherwise it would lie in a node of the cover, which could only be the node itself.
  have hup : c.Inside depth (c.parent depth) := c.inside_ancestor (Nat.sub_le _ _)
  have hin := inside_of_mem_cover hle hlast hcell.parent hnot.1 hnot.2 hc hup.2 ⟨Nat.le_refl _, c.first_lt_stop⟩
  have hlevel : c.level ≤ c.level - 1 := hin.1
  omega

theorem mem_candidates (hc : c ∈ cover depth first last) (hpos : 0 < c.level) : c ∈ candidates depth first last := by
  obtain ⟨hcell, hfirst, hstop⟩ := isCell_of_mem_cover hlast hc
  have hup : c.Inside depth (c.parent depth) := c.inside_ancestor (Nat.sub_le _ _)
  have hupstop := hup.stop_le hcell hcell.parent
  have hcstop : c.first < c.stop depth := c.first_lt_stop
  have hdepth : c.level - 1 < depth := by have := hcell.level_le; omega
  obtain ⟨octant, hoctant, heq⟩ := child_eq_ancestor_or hcell hpos
  refine List.mem_flatMap.2 ⟨c.level - 1, List.mem_range.2 hdepth, List.mem_append.2 ?_⟩
  rcases cut_parent hle hlast hc hpos with hcut | hcut
  · have hanchor : anchor depth (c.level - 1) first = (c.parent depth).first :=
      anchor_eq hcell.parent.aligned (Nat.le_of_lt hcut) (Nat.lt_of_le_of_lt hfirst hup.2.2)
    refine .inl (List.mem_map.2 ⟨octant, ?_, by rw [hanchor]; exact heq.symm⟩)
    have hne : octant ≠ 0 := by
      rintro rfl
      have := congrArg Node.first heq
      rw [child_zero_first] at this
      omega
    simp only [List.mem_range'_1]
    omega
  · have hanchor : anchor depth (c.level - 1) last = (c.parent depth).first :=
      anchor_eq hcell.parent.aligned (Nat.le_trans hup.2.1 (by omega)) hcut
    refine .inr (List.mem_map.2 ⟨octant, ?_, by rw [hanchor]; exact heq.symm⟩)
    have hne : octant ≠ 7 := by
      rintro rfl
      have := congrArg (Node.stop depth) heq
      rw [child_seven_stop hdepth] at this
      omega
    simp only [List.mem_range]
    omega

/-- A cover has at most fourteen nodes for each level. -/
theorem length_cover_le (hpos : 0 < depth) : (cover depth first last).length ≤ 14 * depth := by
  have hnodup : (cover depth first last).Nodup := (tiles_cover hle).nodup
  by_cases hroot : ∃ c ∈ cover depth first last, c.level = 0
  -- The root shares a key with every node, so there is no other one.
  · obtain ⟨c, hc, hzero⟩ := hroot
    have hsub : cover depth first last ⊆ [c] := by
      intro m hm
      have hcell := (isCell_of_mem_cover hlast hc).1
      have hmcell := (isCell_of_mem_cover hlast hm).1
      have hceq : c = root := hcell.eq_root hzero
      have hin := inside_root hmcell
      rw [← hceq] at hin
      exact List.mem_singleton.2 ((tiles_cover hle).eq_of_mem hm hc ⟨Nat.le_refl _, m.first_lt_stop⟩ hin.2)
    have := (List.subperm_of_subset hnodup hsub).length_le
    simp only [List.length_singleton] at this
    omega
  · have hsub : cover depth first last ⊆ candidates depth first last := fun c hc =>
      mem_candidates hle hlast hc (Nat.pos_of_ne_zero fun hzero => hroot ⟨c, hc, hzero⟩)
    exact Nat.le_trans (List.subperm_of_subset hnodup hsub).length_le (Nat.le_of_eq (length_candidates ..))

end Cover

/-! ## The walk in words -/

/-- A sum that fits a word of 64 bits. -/
def wordSum (a b : Nat) : Option Nat := if a + b < 2 ^ 64 then some (a + b) else none

/-- Level and length of the first node at `first` that ends by `last`, from a level with a length on. There is none if a sum does
not fit its word, if the length has run out, or after so many levels. -/
def shrink (first last : Nat) : Nat → Nat → Nat → Option (Nat × Nat)
  | 0, _, _ => none
  | fuel + 1, level, length =>
    if length = 0 then none
    else if first % length ≠ 0 then shrink first last fuel (level + 1) (length / 8)
    else do
      let stop ← wordSum first length
      if last < stop then shrink first last fuel (level + 1) (length / 8) else some (level, length)

/-- The nodes from a key up to `last`, each key as a word of its width. There are none if a key or a sum does not fit its word, or
after so many nodes. -/
def walk (w : KeyWidth) (last : Nat) : Nat → Nat → Option (List Node)
  | fuel, key =>
    if last ≤ key then some []
    else match fuel with
      | 0 => none
      | fuel + 1 => do
        let (level, length) ← shrink key last (w.depth + 1) 0 (8 ^ w.depth)
        let next ← wordSum key length
        if 2 ^ (8 * w.bytes) ≤ key then none
        else return ⟨key, level⟩ :: (← walk w last fuel next)

/-- Two keys of a width, the bound included, add up to a word, unless both are the bound. -/
theorem bound_add_bound_le (w : KeyWidth) : bound w.depth + bound w.depth ≤ 2 ^ 64 := by
  cases w <;> decide

theorem bound_le_word (w : KeyWidth) : bound w.depth ≤ 2 ^ (8 * w.bytes) := by
  cases w <;> decide

variable {w : KeyWidth}

theorem wordSum_extent (hfirst : first < bound w.depth) (level : Nat) :
    wordSum first (extent w.depth level) = some (first + extent w.depth level) := by
  have hextent : extent w.depth level ≤ bound w.depth := Nat.le_of_dvd (bound_pos _) (extent_dvd_bound _ _)
  have hword := bound_add_bound_le w
  exact if_pos (by omega)

/-- The length shrinks to that of the coarsest node that fits. -/
theorem shrink_eq (hlt : first < last) (hlast : last ≤ bound w.depth) {level fuel : Nat}
    (hlevel : level ≤ coarsestLevel w.depth first last) (hfuel : coarsestLevel w.depth first last < level + fuel) :
    shrink first last fuel level (extent w.depth level) =
      some (coarsestLevel w.depth first last, extent w.depth (coarsestLevel w.depth first last)) := by
  have hdepth := coarsestLevel_le w.depth first last
  induction fuel generalizing level with
  | zero => omega
  | succ fuel ih =>
    have hsum := wordSum_extent (Nat.lt_of_lt_of_le hlt hlast) level
    have hpos := Nat.ne_of_gt (extent_pos w.depth level)
    rcases Nat.lt_or_eq_of_le hlevel with hfiner | rfl
    -- A coarser node does not fit.
    · have hnot : fits w.depth first last level ≠ true := fun hfits =>
        Nat.not_lt.2 (coarsestLevel_le_of_fits hfits (by omega)) hfiner
      have hnext := ih (show level + 1 ≤ _ from hfiner) (by omega)
      have hlength : extent w.depth level / 8 = extent w.depth (level + 1) := by
        rw [extent_eq_mul (show level < w.depth by omega), Nat.mul_div_cancel_left _ (by decide)]
      rw [shrink, if_neg hpos, hlength, hsum]
      by_cases haligned : first % extent w.depth level = 0
      · have hlong : last < first + extent w.depth level :=
          Nat.not_le.1 fun hle => hnot (by simp [fits, isAligned, haligned, hle])
        rw [if_neg (not_not_intro haligned)]
        simp only [Option.bind_eq_bind, Option.bind_some, if_pos hlong, hnext]
      · rw [if_pos haligned, hnext]
    · have hfits : fits w.depth first last _ = true := fits_coarsestLevel hlt
      simp only [fits, isAligned, Bool.and_eq_true, beq_iff_eq, decide_eq_true_eq] at hfits
      rw [shrink, if_neg hpos, if_neg (not_not_intro hfits.1), hsum]
      simp only [Option.bind_eq_bind, Option.bind_some, if_neg (Nat.not_lt.2 hfits.2)]

/-- The walk ends after as many nodes as the cover has, and meets no key and no sum that does not fit its word. -/
theorem walk_eq (hlast : last ≤ bound w.depth) {fuel : Nat} (hfuel : (cover w.depth first last).length ≤ fuel) :
    walk w last fuel first = some (cover w.depth first last) := by
  induction fuel generalizing first with
  | zero =>
    have hnil := List.eq_nil_of_length_eq_zero (Nat.le_zero.1 hfuel)
    have hle : last ≤ first := Nat.not_lt.1 fun hlt => by
      rw [cover_of_lt hlt] at hnil
      cases hnil
    rw [walk, if_pos hle, hnil]
  | succ fuel ih =>
    rcases Nat.lt_or_ge first last with hlt | hle
    · have hfirst := Nat.lt_of_lt_of_le hlt hlast
      have hword : ¬ 2 ^ (8 * w.bytes) ≤ first := Nat.not_le.2 (Nat.lt_of_lt_of_le hfirst (bound_le_word w))
      have hshrink : shrink first last (w.depth + 1) 0 (8 ^ w.depth) = _ := shrink_eq hlt hlast (Nat.zero_le _)
        (by have := coarsestLevel_le w.depth first last; omega)
      rw [cover_of_lt hlt, List.length_cons] at hfuel
      rw [walk, if_neg (Nat.not_le.2 hlt), cover_of_lt hlt]
      simp only [hshrink, Option.bind_eq_bind, Option.bind_some, wordSum_extent hfirst, if_neg hword,
        ih (Nat.le_of_succ_le_succ hfuel)]
      rfl
    · rw [walk, if_pos hle, cover_of_le hle]

/-! ## Minimal covers -/

/-- Whether nodes are the fewest ones that tile a key range. -/
structure IsMinimalCover (w : KeyWidth) (first last : Nat) (nodes : List Node) : Prop where
  /-- The walk ends, and all its keys and sums fit their words. -/
  walk_eq : walk w last (14 * w.depth) first = some nodes
  aligned : ∀ n ∈ nodes, n.Aligned w.depth
  ascending : nodes.Pairwise fun m n => m.first < n.first
  tiles : Tiles w.depth first last nodes
  /-- Other nodes with the same keys, in whatever order, are not fewer. -/
  minimal : ∀ others : List Node, (∀ n ∈ others, n.Aligned w.depth) →
    (∀ k, (∃ n ∈ others, k ∈ n.range w.depth) ↔ first ≤ k ∧ k < last) → nodes.length ≤ others.length
  length_le : nodes.length ≤ 14 * w.depth
  /-- Each node among the keys of the range lies in one of these nodes. -/
  existsUnique : ∀ m : Node, m.Aligned w.depth → (m.range w.depth).within ⟨first, last⟩ = true →
    ∃! n, n ∈ nodes ∧ (m.range w.depth).within (n.range w.depth) = true

/-- The cover of a key range is minimal. -/
theorem cover_minimal (w : KeyWidth) (hle : first ≤ last) (hlast : last ≤ bound w.depth) :
    IsMinimalCover w first last (cover w.depth first last) := by
  have htiles : Tiles w.depth first last _ := tiles_cover hle
  have hlength := length_cover_le hle hlast (show 0 < w.depth by cases w <;> decide)
  refine {
    walk_eq := walk_eq hlast hlength
    aligned := fun n hn => (isCell_of_mem_cover hlast hn).1.isAligned
    ascending := htiles.ascending
    tiles := htiles
    minimal := fun others haligned hkeys => length_cover_le_length hle hlast haligned hkeys
    length_le := hlength
    existsUnique := fun m hm hwithin => ?_ }
  simp only [KeyRange.within, Bool.and_eq_true, decide_eq_true_eq] at hwithin
  have hstop : m.stop w.depth ≤ last := hwithin.2
  have hcell := hm.isCell (Nat.lt_of_lt_of_le m.first_lt_stop (Nat.le_trans hstop hlast))
  obtain ⟨c, hc, hin⟩ := exists_mem_cover hlast hcell hwithin.1 hstop
  have hkeys : (m.range w.depth).within (c.range w.depth) = true :=
    hin.within hcell (isCell_of_mem_cover hlast hc).1 (by simp [KeyRange.within])
  refine ⟨c, ⟨hc, hkeys⟩, ?_⟩
  rintro c' ⟨hc', hwithin'⟩
  have hfirst : m.first ∈ m.range w.depth := ⟨Nat.le_refl _, m.first_lt_stop⟩
  exact htiles.eq_of_mem hc' hc (KeyRange.mem_of_within hwithin' hfirst) (KeyRange.mem_of_within hkeys hfirst)

/-- All keys of 64 bits but the first and the last one. -/
theorem cover_minimal_inner : 1 ≤ 8 ^ 21 - 1 ∧ 8 ^ 21 - 1 ≤ bound KeyWidth.wide.depth ∧
    IsMinimalCover .wide 1 (8 ^ 21 - 1) (cover 21 1 (8 ^ 21 - 1)) :=
  ⟨by decide, by decide, cover_minimal .wide (by decide) (by decide)⟩

end Key

end CurvePartition
