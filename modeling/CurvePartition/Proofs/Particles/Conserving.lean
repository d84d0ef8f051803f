-- SUMMARY: Redistribution conserves particles: on every rank the rows whose keys are assigned to it, by key, rank and position, and over all ranks the rows there were before.
import CurvePartition.Proofs.Particles.Moving
import CurvePartition.Proofs.Space.Exact

/-!
# Conservation of particles

`ParticleSet.Redistributed` tells of every row after redistribution which row it was before. As the ranges of the ranks
share no key and leave none out, each row is told of once (`ParticleSet.Redistributed.perm_origins`), so no row is lost,
doubled or mixed up.
-/

namespace CurvePartition

namespace ParticleSet

section Kept

variable {width : KeyWidth} {α : Type} [Scalar α] {size : Nat} {a : Assignment width.depth} {t : Leaves width.depth}
  {ps ps' : Nat → ParticleSet width α} {origins : Nat → List (Nat × Nat)} (h : Redistributed size a ps ps' origins)
include h

/-- A row of a rank is the row that the list names. -/
theorem Redistributed.row_eq {i j : Nat} (hi : i < size) (hj : j < (origins i).length) :
    (ps' i).row j = (ps (origins i)[j].1).row (origins i)[j].2 := by
  have hrows := congrArg (·[j]?) (h.rows_eq i hi)
  simpa [rows, (h.uniform i hi).size_eq, hj] using hrows

/-- No row is listed twice. -/
theorem Redistributed.nodup {i : Nat} (hi : i < size) : (origins i).Nodup :=
  (h.ordered i hi).imp fun {o o'} hoo' heq => by
    subst heq
    exact hoo'.asymm hoo'

/-- The lists of all ranks name every row once. -/
theorem Redistributed.perm_origins (ha : a.Tiles t) (hranks : a.ranks = size)
    (hbound : ∀ s < size, ∀ j < (ps s).size, keyAt ps (s, j) < Key.bound width.depth) :
    ((List.range size).flatMap origins).Perm
      ((List.range size).flatMap fun s => (List.range (ps s).size).map fun j => (s, j)) := by
  refine (List.perm_ext_iff_of_nodup ?_ ?_).2 fun o => ?_
  · refine List.nodup_flatMap.2 ⟨fun i hi => h.nodup (List.mem_range.1 hi), List.nodup_range.imp_of_mem ?_⟩
    intro i j hi hj hne o ho ho'
    have hi := List.mem_range.1 hi
    have hj := List.mem_range.1 hj
    exact hne (ha.eq_of_mem (hranks ▸ hi) (hranks ▸ hj) ((h.mem_iff i hi o).1 ho).2.2 ((h.mem_iff j hj o).1 ho').2.2)
  · refine List.nodup_flatMap.2 ⟨fun s _ => List.nodup_range.map fun _ _ heq => (Prod.mk.inj heq).2,
      List.nodup_range.imp fun hne o ho ho' => hne ?_⟩
    obtain ⟨_, _, rfl⟩ := List.mem_map.1 ho
    obtain ⟨_, _, heq⟩ := List.mem_map.1 ho'
    exact (Prod.mk.inj heq).1.symm
  · simp only [List.mem_flatMap, List.mem_map, List.mem_range]
    constructor
    · rintro ⟨i, hi, ho⟩
      obtain ⟨hs, hj, _⟩ := (h.mem_iff i hi o).1 ho
      exact ⟨o.1, hs, o.2, hj, rfl⟩
    · rintro ⟨s, hs, j, hj, rfl⟩
      obtain ⟨i, hi, hkey⟩ := ha.exists_rank (hbound s hs j hj)
      exact ⟨i, hranks ▸ hi, (h.mem_iff i (hranks ▸ hi) _).2 ⟨hs, hj, hkey⟩⟩

/-- The rows of all ranks stay the same, up to their order. -/
theorem Redistributed.perm_rows (ha : a.Tiles t) (hranks : a.ranks = size)
    (hbound : ∀ s < size, ∀ j < (ps s).size, keyAt ps (s, j) < Key.bound width.depth) :
    ((List.range size).flatMap fun i => (ps' i).rows).Perm ((List.range size).flatMap fun s => (ps s).rows) := by
  have hperm := (h.perm_origins ha hranks hbound).map fun o => (ps o.1).row o.2
  rw [List.map_flatMap, List.map_flatMap] at hperm
  have hafter : ((List.range size).flatMap fun i => (ps' i).rows) =
      (List.range size).flatMap fun i => (origins i).map fun o => (ps o.1).row o.2 :=
    List.flatMap_congr fun i hi => h.rows_eq i (List.mem_range.1 hi)
  have hbefore : ((List.range size).flatMap fun s => (ps s).rows) =
      (List.range size).flatMap fun s => ((List.range (ps s).size).map fun j => (s, j)).map fun o => (ps o.1).row o.2 :=
    List.flatMap_congr fun s _ => by rw [rows, List.map_map]; rfl
  rw [hafter, hbefore]
  exact hperm

/-- Sets whose rows are on the ranks of their keys, in order, stay as they are. -/
theorem Redistributed.eq_self (ha : a.Tiles t) (hranks : a.ranks = size) (hps : ∀ s < size, (ps s).Uniform (ps s).size)
    (howned : ∀ s < size, (ps s).owned = (ps s).size) (hkeys : ∀ s < size, Sorted.Ascending (ps s).keys)
    (hheld : ∀ s < size, ∀ j < (ps s).size, keyAt ps (s, j) ∈ a.keyRange s) {i : Nat} (hi : i < size) : ps' i = ps i := by
  have horigins : origins i = (List.range (ps i).size).map fun j => (i, j) := by
    refine Sorted.eq_of_mem_iff (fun _ _ => Before.asymm) (h.ordered i hi) ?_ fun o => ?_
    · refine List.pairwise_map.2 (List.pairwise_lt_range.imp_of_mem fun {j k} _ hk hjk => ?_)
      have hle := (hkeys i hi).getD_le (Nat.le_of_lt hjk) ((hps i hi).size_keys.symm ▸ List.mem_range.1 hk)
      exact (Nat.lt_or_eq_of_le hle).imp_right fun heq => ⟨heq, .inr ⟨rfl, hjk⟩⟩
    · rw [h.mem_iff i hi, List.mem_map]
      constructor
      · rintro ⟨hs, hj, hkey⟩
        obtain rfl : o.1 = i := ha.eq_of_mem (hranks ▸ hs) (hranks ▸ hi) (hheld o.1 hs o.2 hj) hkey
        exact ⟨o.2, List.mem_range.2 hj, rfl⟩
      · rintro ⟨j, hj, rfl⟩
        exact ⟨hi, List.mem_range.1 hj, hheld i hi j (List.mem_range.1 hj)⟩
  have hlength : (origins i).length = (ps i).size := by rw [horigins, List.length_map, List.length_range]
  refine ext_rows (hlength ▸ h.uniform i hi) (hps i hi) (h.layout_eq i hi)
    ((h.owned_eq i hi).trans (hlength.trans (howned i hi).symm)) fun j hj => ?_
  rw [h.row_eq hi (hlength.symm ▸ hj)]
  simp only [horigins, List.getElem_map, List.getElem_range]

end Kept

/-! ## In every order of messages -/

section Conserves

variable {width : KeyWidth} {α β : Type} [Scalar α] [Wire α β] [Wire.LawfulWords α β] [Wire.LawfulScalars α β]
  {size : Nat} {a : Assignment width.depth} {t : Leaves width.depth} {ps : Nat → ParticleSet width α}
  {layout : List (String × ElementKind)}

/-- In whatever order messages arrive, redistribution gives every rank the rows of all ranks whose keys are assigned to
it, sorted by key, then by rank and by position there, and the rows of all ranks stay the same. -/
theorem redistribute_conserves (ha : a.Tiles t) (hranks : a.ranks = size) (hlayout : ∀ s < size, (ps s).layout = layout)
    (huniform : ∀ s < size, (ps s).Uniform (ps s).size) (hfits : ∀ s < size, ∀ i < (ps s).size, (ps s).RowFits i)
    (hkeys : ∀ s < size, Sorted.Ascending (ps s).keys)
    (hbound : ∀ s < size, ∀ k ∈ (ps s).keys.toList, k < Key.bound width.depth)
    (hsmall : ∀ s < size, (ps s).size < 2 ^ 64) (backend : Nat → Backend) :
    ∃ (ps' : Nat → ParticleSet width α) (origins : Nat → List (Nat × Nat)),
      Attempt.ComesTo (β := β) size (fun place => (ps place.rank).redistribute (backend place.rank) place a)
        (fun i => .ok (ps' i)) ∧
      Redistributed size a ps ps' origins ∧
      ((List.range size).flatMap fun i => (ps' i).rows).Perm ((List.range size).flatMap fun s => (ps s).rows) := by
  have hpos : 0 < size := hranks ▸ ha.ranks_pos
  have hfilled : ∀ s < size, (ps s).Filled (ps 0).kinds (ps s).size := fun s hs =>
    ⟨kinds_eq_of_layout_eq ((hlayout s hs).trans (hlayout 0 hpos).symm), huniform s hs, hfits s hs⟩
  obtain ⟨ps', origins, hcollects, hredistributed, _⟩ :=
    collects_redistribute (β := β) ha hranks hfilled hkeys hbound backend hsmall
  refine ⟨ps', origins, hcollects.comesTo fun place => throws_redistribute _ _ _ _, hredistributed,
    hredistributed.perm_rows ha hranks fun s hs j hj => hbound s hs _ ?_⟩
  have hj : j < (ps s).keys.size := (huniform s hs).size_keys.symm ▸ hj
  simp [keyAt, Array.getD, hj]

/-- The keys of three particles on two ranks, in the first and the last octant. -/
def exampleKeys (rank : Nat) : Array Nat := if rank = 0 then #[3, 7 * 2 ^ 27] else #[3]

/-- Particles with these keys and a property that tells them apart. -/
noncomputable def exampleSets (rank : Nat) : ParticleSet .narrow EReal :=
  let keys := exampleKeys rank
  let zeros : Array EReal := Array.replicate keys.size 0
  ⟨keys, zeros, zeros, zeros, zeros, [⟨"id", .unsigned8, Array.replicate keys.size rank⟩], keys.size⟩

/-- Each of two ranks has half of the keys. -/
def halves : Assignment KeyWidth.narrow.depth := ⟨#[0, 4, 8], #[0, 2 ^ 29, 2 ^ 30], #[2, 3]⟩

theorem tiles_halves : halves.Tiles (.uniform 1) := by
  have hcompute : Assignment.compute (α := EReal) (.uniform 1 : Leaves KeyWidth.narrow.depth) #[1, 0, 0, 1, 1, 2, 0, 0] 2 = .ok halves := by
    rw [Assignment.compute, if_neg (by decide +kernel)]
    exact congrArg Except.ok (by decide +kernel)
  exact (Assignment.tiles_compute (by decide +kernel) hcompute).1

theorem redistribute_conserves_halves : ∃ (ps' : Nat → ParticleSet .narrow EReal) (origins : Nat → List (Nat × Nat)),
    Attempt.ComesTo (β := Exact.Symbol) 2
      (fun place => (exampleSets place.rank).redistribute .host place halves) (fun i => .ok (ps' i)) ∧
    Redistributed 2 halves exampleSets ps' origins ∧
    ((List.range 2).flatMap fun i => (ps' i).rows).Perm ((List.range 2).flatMap fun s => (exampleSets s).rows) := by
  have hrank : ∀ s < 2, s = 0 ∨ s = 1 := fun s hs => by omega
  have hlayout : ∀ s < 2, (exampleSets s).layout = [("id", .unsigned8)] := fun _ _ => rfl
  refine redistribute_conserves tiles_halves rfl hlayout (fun s _ => ?_) (fun s hs i hi => ?_) (fun s hs => ?_) (fun s hs => ?_) (fun s hs => ?_) fun _ => .host
  · simp [uniform_iff, exampleSets, size]
  · have hi : i < (exampleKeys s).size := by simpa [exampleSets, size] using hi
    rcases hrank s hs with rfl | rfl
    · have : i = 0 ∨ i = 1 := by
        have : (exampleKeys 0).size = 2 := rfl
        omega
      rcases this with rfl | rfl <;> simp [rowFits_iff, exampleSets, exampleKeys] <;> decide
    · have : i = 0 := by
        have : (exampleKeys 1).size = 1 := rfl
        omega
      subst this
      simp [rowFits_iff, exampleSets, exampleKeys]
      decide
  · rcases hrank s hs with rfl | rfl <;> decide
  · rcases hrank s hs with rfl | rfl <;> decide
  · rcases hrank s hs with rfl | rfl <;> decide

end Conserves

end ParticleSet

end CurvePartition
