-- SUMMARY: The boundary arrays that pass the validity check are those that grow from the root when one leaf after the other is split into its octants.
import CurvePartition.Proofs.Leaves.Settling

/-!
# Growth of trees

The validity check looks at neighbouring boundaries only. That it accepts no other arrays than those of octrees is
`Leaves.isValid_iff_grown`: an array passes exactly if it grows from the root by splits of single leaves. A split keeps an
array valid (`Leaves.isValid_splitLeaf`). Conversely a valid array with more than one leaf has eight leaves in a row that are the
octants of one cell, as the cells that are split have a lowest one among them, and without the seven boundaries between them
it is a smaller valid array (`Leaves.exists_splitLeaf_eq`).
-/

namespace CurvePartition

namespace Leaves

open Key Node

variable {depth : Nat} {t : Leaves depth} {i j k first : Nat} {p : Node}

/-! ## Splitting a leaf and merging its octants -/

/-- The tree with a leaf split into its octants: seven boundaries more, at the starts of all octants but the first. -/
def splitLeaf (t : Leaves depth) (i : Nat) : Leaves depth :=
  ⟨(t.bounds.toList.take (i + 1) ++
    ((List.range 7).map (fun k => t.start i + (k + 1) * extent depth (t.level i + 1)) ++
      t.bounds.toList.drop (i + 1))).toArray⟩

/-- The tree with eight leaves from `first` on made one: seven boundaries fewer. -/
def mergeLeaves (t : Leaves depth) (first : Nat) : Leaves depth :=
  ⟨(t.bounds.toList.take (first + 1) ++ t.bounds.toList.drop (first + 8)).toArray⟩

/-- The trees that grow from the root, as one leaf after the other above the deepest level is split into its octants. -/
inductive Grown : Leaves depth → Prop
  | root : Grown root
  | split {t : Leaves depth} {i : Nat} (grown : Grown t) (leaf : i < t.count) (coarse : t.level i < depth) :
      Grown (t.splitLeaf i)

theorem start_eq_getElem? (t : Leaves depth) (j : Nat) : t.start j = t.bounds.toList[j]?.getD 0 := by
  simp [start, Array.getD_eq_getD_getElem?]

section Split

variable (hi : i < t.bounds.size)
include hi

theorem length_take_succ : (t.bounds.toList.take (i + 1)).length = i + 1 := by
  rw [List.length_take, Array.length_toList]
  omega

theorem size_splitLeaf : (t.splitLeaf i).bounds.size = t.bounds.size + 7 := by
  simp only [splitLeaf, List.size_toArray, List.length_append, length_take_succ hi, List.length_map, List.length_range,
    List.length_drop, Array.length_toList]
  omega

theorem start_splitLeaf_of_le (hj : j ≤ i) : (t.splitLeaf i).start j = t.start j := by
  rw [start_eq_getElem?, start_eq_getElem?, splitLeaf, List.getElem?_append_left (by rw [length_take_succ hi]; omega),
    List.getElem?_take_of_lt (by omega)]

/-- The octants start at the start of the leaf and at the new boundaries. -/
theorem start_splitLeaf_add (hk : k < 8) : (t.splitLeaf i).start (i + k) = ((t.node i).child depth k).first := by
  cases k with
  | zero => rw [Nat.add_zero, start_splitLeaf_of_le hi (Nat.le_refl i), child_zero_first, node]
  | succ k =>
    rw [start_eq_getElem?, splitLeaf, List.getElem?_append_right (by rw [length_take_succ hi]; omega), length_take_succ hi,
      show i + (k + 1) - (i + 1) = k by omega, List.getElem?_append_left (by simp; omega), List.getElem?_map,
      List.getElem?_range (by omega), Option.map_some, Option.getD_some]
    rfl

theorem start_splitLeaf_of_lt (hj : i < j) : (t.splitLeaf i).start (j + 7) = t.start j := by
  rw [start_eq_getElem?, start_eq_getElem?, splitLeaf, List.getElem?_append_right (by rw [length_take_succ hi]; omega),
    length_take_succ hi, List.getElem?_append_right (by simp; omega), List.length_map, List.length_range, List.getElem?_drop]
  congr 2
  omega

end Split

section Merge

variable (hfirst : first + 8 < t.bounds.size)
include hfirst

theorem size_mergeLeaves : (t.mergeLeaves first).bounds.size + 7 = t.bounds.size := by
  simp only [mergeLeaves, List.size_toArray, List.length_append, length_take_succ (show first < t.bounds.size by omega),
    List.length_drop, Array.length_toList]
  omega

theorem start_mergeLeaves_of_le (hj : j ≤ first) : (t.mergeLeaves first).start j = t.start j := by
  have hlength := length_take_succ (show first < t.bounds.size by omega)
  rw [start_eq_getElem?, start_eq_getElem?, mergeLeaves, List.getElem?_append_left (by rw [hlength]; omega),
    List.getElem?_take_of_lt (by omega)]

theorem start_mergeLeaves_of_lt (hj : first < j) : (t.mergeLeaves first).start j = t.start (j + 7) := by
  have hlength := length_take_succ (show first < t.bounds.size by omega)
  rw [start_eq_getElem?, start_eq_getElem?, mergeLeaves, List.getElem?_append_right (by rw [hlength]; omega), hlength,
    List.getElem?_drop]
  congr 2
  omega

end Merge

/-! ## Validity -/

section Valid

variable (ht : t.isValid = true)
include ht

theorem isNodeRange_succ (hi : i < t.count) : isNodeRange depth (t.start i) (t.start (i + 1)) = true :=
  (isValid_iff.1 ht).2.2.2 i hi

/-- A tree stays valid when a leaf is split. -/
theorem isValid_splitLeaf (hi : i < t.count) (hlevel : t.level i < depth) : (t.splitLeaf i).isValid = true := by
  have ha := ascends_of_isValid ht
  have hsize : i < t.bounds.size := by rw [ha.size_eq]; omega
  have hcount : (t.splitLeaf i).count = t.count + 7 := by rw [count, size_splitLeaf hsize, ha.size_eq]; omega
  have hn := isCell_node ht hi
  refine isValid_iff.2 ⟨?_, ?_, ?_, fun j hj => ?_⟩
  · rw [size_splitLeaf hsize]
    omega
  · rw [start_splitLeaf_of_le hsize (Nat.zero_le i), ha.start_zero]
  · rw [hcount, start_splitLeaf_of_lt hsize hi, ha.start_count]
  · rw [hcount] at hj
    rcases Nat.lt_or_ge j i with hlt | hge
    · rw [start_splitLeaf_of_le hsize (Nat.le_of_lt hlt), start_splitLeaf_of_le hsize hlt]
      exact isNodeRange_succ ht (Nat.lt_trans hlt hi)
    rcases Nat.lt_or_ge j (i + 8) with hin | hafter
    -- An octant ends where the next one starts, and the last one where the leaf does.
    · obtain ⟨k, rfl⟩ := Nat.exists_eq_add_of_le hge
      have hk : k < 8 := by omega
      have hstop : (t.splitLeaf i).start (i + k + 1) = ((t.node i).child depth k).stop depth := by
        rcases Nat.lt_or_eq_of_le (Nat.le_of_lt_succ hk) with hk7 | rfl
        · rw [Nat.add_assoc, start_splitLeaf_add hsize (Nat.succ_lt_succ hk7), child_stop]
          rfl
        · rw [show i + 7 + 1 = i + 1 + 7 by omega, start_splitLeaf_of_lt hsize (Nat.lt_succ_self i), ← stop_node ht hi,
            child_seven_stop hlevel]
      rw [start_splitLeaf_add hsize hk, hstop]
      exact isNodeRange_of_isCell (hn.child hlevel hk)
    · obtain ⟨j', rfl⟩ : ∃ j', j = j' + 7 := ⟨j - 7, by omega⟩
      rw [Nat.add_right_comm, start_splitLeaf_of_lt hsize (by omega), start_splitLeaf_of_lt hsize (by omega)]
      exact isNodeRange_succ ht (by omega)

end Valid

namespace HoldsChildren

variable (h : t.HoldsChildren first p) (ht : t.isValid = true)
include h

theorem start_first : t.start first = p.first := by
  have hfirst := congrArg Node.first (h 0 (by decide)).2
  rwa [child_zero_first] at hfirst

theorem start_add (hk : k < 8) : t.start (first + k) = (p.child depth k).first :=
  congrArg Node.first (h k hk).2

include ht

theorem lt_size : first + 8 < t.bounds.size := by
  have hlast := (h 7 (by decide)).1
  rw [(ascends_of_isValid ht).size_eq]
  omega

theorem start_last (hlevel : p.level < depth) : t.start (first + 8) = p.stop depth := by
  obtain ⟨hlast, hnode⟩ := h 7 (by decide)
  rw [show first + 8 = first + 7 + 1 from rfl, ← stop_node ht hlast, hnode, child_seven_stop hlevel]

theorem count_mergeLeaves : (t.mergeLeaves first).count + 7 = t.count := by
  have hlast := (h 7 (by decide)).1
  have hsize := size_mergeLeaves (h.lt_size ht)
  simp only [count] at hlast ⊢
  omega

/-- A tree stays valid when the octants of a cell are made one leaf. -/
theorem isValid_mergeLeaves (hp : p.IsCell depth) (hlevel : p.level < depth) : (t.mergeLeaves first).isValid = true := by
  have ha := ascends_of_isValid ht
  have hlast := (h 7 (by decide)).1
  have hsize := h.lt_size ht
  have hcount := h.count_mergeLeaves ht
  refine isValid_iff.2 ⟨?_, ?_, ?_, fun j hj => ?_⟩
  · have hmerged := size_mergeLeaves hsize
    omega
  · rw [start_mergeLeaves_of_le hsize (Nat.zero_le first), ha.start_zero]
  · rw [start_mergeLeaves_of_lt hsize (by omega), hcount, ha.start_count]
  · rcases Nat.lt_trichotomy j first with hlt | rfl | hgt
    · rw [start_mergeLeaves_of_le hsize (Nat.le_of_lt hlt), start_mergeLeaves_of_le hsize hlt]
      exact isNodeRange_succ ht (by omega)
    · rw [start_mergeLeaves_of_le hsize (Nat.le_refl j), start_mergeLeaves_of_lt hsize (show j < j + 1 by omega), h.start_first,
        Nat.add_right_comm, h.start_last ht hlevel]
      exact isNodeRange_of_isCell hp
    · rw [start_mergeLeaves_of_lt hsize hgt, start_mergeLeaves_of_lt hsize (show first < j + 1 by omega), Nat.add_right_comm]
      exact isNodeRange_succ ht (by omega)

/-- The leaf that the octants of a cell are made is that cell. -/
theorem node_mergeLeaves (hp : p.IsCell depth) (hlevel : p.level < depth) : (t.mergeLeaves first).node first = p := by
  have hlast := (h 7 (by decide)).1
  have hsize := h.lt_size ht
  have hcount := h.count_mergeLeaves ht
  refine node_eq (h.isValid_mergeLeaves ht hp hlevel) (by omega) hp ?_ ?_
  · rw [start_mergeLeaves_of_le hsize (Nat.le_refl first), h.start_first]
  · rw [start_mergeLeaves_of_lt hsize (show first < first + 1 by omega), Nat.add_right_comm, h.start_last ht hlevel]

/-- Splitting the leaf again gives the tree back. -/
theorem splitLeaf_mergeLeaves (hp : p.IsCell depth) (hlevel : p.level < depth) :
    (t.mergeLeaves first).splitLeaf first = t := by
  have hsize := h.lt_size ht
  have hmerged := size_mergeLeaves hsize
  have hfirst : first < (t.mergeLeaves first).bounds.size := by omega
  refine ext_start (by rw [size_splitLeaf hfirst, hmerged]) fun j _ => ?_
  rcases Nat.lt_or_ge j (first + 8) with hlt | hge
  · rcases Nat.le_total j first with hle | hle
    · rw [start_splitLeaf_of_le hfirst hle, start_mergeLeaves_of_le hsize hle]
    · obtain ⟨k, rfl⟩ := Nat.exists_eq_add_of_le hle
      have hk : k < 8 := Nat.lt_of_add_lt_add_left hlt
      rw [start_splitLeaf_add hfirst hk, h.node_mergeLeaves ht hp hlevel, h.start_add hk]
  · obtain ⟨j', rfl⟩ : ∃ j', j = j' + 7 := ⟨j - 7, by omega⟩
    rw [start_splitLeaf_of_lt hfirst (by omega), start_mergeLeaves_of_lt hsize (by omega)]

end HoldsChildren

/-! ## Growth -/

/-- A valid tree that is not the root is a smaller one with a leaf split. -/
theorem exists_splitLeaf_eq (ht : t.isValid = true) (hcount : 1 < t.count) :
    ∃ (s : Leaves depth) (i : Nat), s.isValid = true ∧ s.count < t.count ∧ i < s.count ∧ s.level i < depth ∧
      s.splitLeaf i = t := by
  have ha := ascends_of_isValid ht
  have hroot : t.Splits Node.root := by
    refine ⟨1, Nat.le_of_lt hcount, ?_, ?_⟩
    · have hlt := ha.lt_succ 0 ha.count_pos
      rwa [ha.start_zero] at hlt
    · rw [stop_root]
      exact ha.start_lt_bound hcount
  obtain ⟨p, hp, _, hs, hnot⟩ := exists_lowest_splits (isCell_root depth) hroot
  obtain ⟨first, h⟩ := exists_holdsChildren ht hp hs hnot
  have hlevel := hs.level_lt hp
  have hmerged := h.count_mergeLeaves ht
  have hlast := (h 7 (by decide)).1
  have hnode : (t.mergeLeaves first).level first = p.level :=
    congrArg Node.level (h.node_mergeLeaves ht hp hlevel)
  exact ⟨t.mergeLeaves first, first, h.isValid_mergeLeaves ht hp hlevel, by omega, by omega, by rwa [hnode],
    h.splitLeaf_mergeLeaves ht hp hlevel⟩

theorem eq_root_of_count (ht : t.isValid = true) (hcount : t.count = 1) : t = root := by
  have ha := ascends_of_isValid ht
  have hsize : t.bounds.size = 2 := by rw [ha.size_eq, hcount]
  refine ext_start hsize fun i hi => ?_
  obtain rfl | rfl : i = 0 ∨ i = 1 := by omega
  · exact ha.start_zero
  · have hstop := ha.start_count
    rwa [hcount] at hstop

theorem Grown.isValid (h : t.Grown) : t.isValid = true := by
  induction h with
  | root => exact isValid_root depth
  | split _ hi hlevel ih => exact isValid_splitLeaf ih hi hlevel

theorem grown_of_isValid (ht : t.isValid = true) : t.Grown := by
  induction hn : t.count using Nat.strong_induction_on generalizing t with
  | _ n ih =>
    rcases Nat.lt_or_ge 1 t.count with hmany | hone
    · obtain ⟨s, i, hs, hlt, hi, hlevel, rfl⟩ := exists_splitLeaf_eq ht hmany
      exact .split (ih s.count (hn ▸ hlt) hs rfl) hi hlevel
    · have hpos := (ascends_of_isValid ht).count_pos
      rw [eq_root_of_count ht (Nat.le_antisymm hone hpos)]
      exact .root

/-- The validity check accepts exactly the trees that grow from the root by splits of single leaves. -/
theorem isValid_iff_grown (t : Leaves depth) : t.isValid = true ↔ t.Grown := ⟨grown_of_isValid, Grown.isValid⟩

end Leaves

end CurvePartition
