-- SUMMARY: The cover of a key range consists of cells of the range, and every cell of the range lies in one of them.
import CurvePartition.Key.Cover
import CurvePartition.Proofs.Key.Cells

/-!
# Cells of a cover

Each step of `Key.cover` takes the coarsest cell that fits, so a cell of the range that starts where the step does is not
coarser than the cell taken, and a cell that starts later is left to the rest of the cover or lies in the cell taken.
-/

namespace CurvePartition

namespace Key

open Node

variable {depth first last : Nat} {m c : Node}

/-- No coarser level than the chosen one fits. -/
theorem coarsestLevel_le_of_fits {level : Nat} (h : fits depth first last level = true) (hlevel : level ≤ depth) :
    coarsestLevel depth first last ≤ level := by
  unfold coarsestLevel
  cases hfind : (List.range depth).find? (fits depth first last) with
  | none =>
    have hnot := List.find?_eq_none.1 hfind level
    rcases Nat.lt_or_eq_of_le hlevel with hlt | rfl
    · exact absurd h (hnot (List.mem_range.2 hlt))
    · exact Nat.le_refl _
  | some l =>
    rw [Option.getD_some, ← Nat.not_lt]
    intro hlt
    simpa [h] using (List.find?_range_eq_some.1 hfind).2.2 level hlt

/-- The cover of a range below the bound consists of cells inside the range. -/
theorem isCell_of_mem_cover (hbound : last ≤ bound depth) (hc : c ∈ cover depth first last) :
    c.IsCell depth ∧ first ≤ c.first ∧ c.stop depth ≤ last := by
  fun_induction cover depth first last with
  | case1 first hlt level ih =>
    have hfits : fits depth first last (coarsestLevel depth first last) = true := fits_coarsestLevel hlt
    simp only [fits, Bool.and_eq_true, decide_eq_true_eq] at hfits
    rcases List.mem_cons.1 hc with rfl | hc
    · exact ⟨⟨coarsestLevel_le depth first last, isAligned_iff.1 hfits.1, Nat.lt_of_lt_of_le hlt hbound⟩,
        Nat.le_refl _, hfits.2⟩
    · obtain ⟨hcell, hfirst, hstop⟩ := ih hc
      exact ⟨hcell, Nat.le_trans (Nat.le_add_right _ _) hfirst, hstop⟩
  | case2 first hnot => cases hc

/-- Every cell of a range lies in a cell of its cover. -/
theorem exists_mem_cover (hbound : last ≤ bound depth) (hm : m.IsCell depth) (hfirst : first ≤ m.first)
    (hstop : m.stop depth ≤ last) : ∃ c ∈ cover depth first last, m.Inside depth c := by
  fun_induction cover depth first last with
  | case1 first hlt level ih =>
    have hhead := isCell_of_mem_cover hbound (cover_of_lt hlt ▸ List.mem_cons_self)
    by_cases hlate : first + extent depth level ≤ m.first
    · obtain ⟨c, hc, hin⟩ := ih hlate
      exact ⟨c, List.mem_cons_of_mem _ hc, hin⟩
    · refine ⟨⟨first, level⟩, List.mem_cons_self, ?_⟩
      have hmem : first ≤ m.first ∧ m.first < Node.stop depth ⟨first, level⟩ := ⟨hfirst, Nat.not_le.1 hlate⟩
      rcases inside_total hm hhead.1 ⟨Nat.le_refl _, m.first_lt_stop⟩ hmem with hin | hin
      · exact hin
      -- A cell around the one taken would have been taken itself.
      · have heq : m.first = first := Nat.le_antisymm hin.2.1 hfirst
        have hfits : fits depth first last m.level = true := by
          simp only [fits, Bool.and_eq_true, decide_eq_true_eq, isAligned_iff]
          exact ⟨heq ▸ hm.aligned, heq ▸ hstop⟩
        exact ⟨coarsestLevel_le_of_fits hfits hm.level_le, hmem⟩
  | case2 first hnot =>
    have : m.first < m.stop depth := m.first_lt_stop
    omega

end Key

end CurvePartition
