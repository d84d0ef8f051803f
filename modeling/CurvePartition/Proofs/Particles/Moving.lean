-- SUMMARY: Rows that move between ranks: messages of several ranks read side by side, and redistribution, after which each rank has the rows whose keys are assigned to it.
import Mathlib.Algebra.BigOperators.Group.Finset.Sigma
import Mathlib.Algebra.Order.BigOperators.Group.List
import Mathlib.Algebra.Order.Ring.Nat
import CurvePartition.Proofs.Assignment
import CurvePartition.Proofs.Cluster.Messages
import CurvePartition.Proofs.Particles.Rows
import CurvePartition.Proofs.Sorted.Bins

/-!
# Moving rows

Messages of several ranks are read one after the other, each into its own part of the set, so that every row comes from
one message or stays (`ParticleSet.unpackAll_spec`). Redistribution is one exchange of counts and one of rows. After it
the rows of a rank are rows that some rank had, their keys ascend and are assigned to the rank
(`ParticleSet.collects_redistribute`).
-/

namespace CurvePartition

namespace ParticleSet

variable {width : KeyWidth} {α β : Type} [Scalar α]

/-- A set with columns of given kinds and one length, whose rows can be spelled. -/
structure Filled (p : ParticleSet width α) (kinds : List (Option ElementKind)) (n : Nat) : Prop where
  kinds_eq : p.kinds = kinds
  uniform : p.Uniform n
  fits : ∀ i < n, p.RowFits i

variable [Wire α β] [Wire.LawfulWords α β] [Wire.LawfulScalars α β]

omit [Wire.LawfulWords α β] [Wire.LawfulScalars α β] in
omit [Scalar α] in
theorem rowWidth_eq {p q : ParticleSet width α} (h : p.kinds = q.kinds) : p.rowWidth = q.rowWidth := by
  have hwidth : ∀ c : Column α, c.width = (c.kind?.map ElementKind.width).getD Wire.scalarWidth := by
    intro c
    cases c <;> rfl
  have hmap : ∀ p : ParticleSet width α, p.columns.map Column.width =
      p.kinds.map fun k => (k.map ElementKind.width).getD Wire.scalarWidth := by
    intro p
    rw [kinds, List.map_map]
    exact List.map_congr_left fun c _ => hwidth c
  rw [rowWidth, rowWidth, Column.rowWidth, Column.rowWidth, hmap, hmap, h]

/-- A message of packed rows has as many symbols as its rows. -/
theorem length_pack (p : ParticleSet width α) (ranges : List IndexRange) :
    (p.pack ranges : Message β).length = (ranges.flatMap IndexRange.toList).length * p.rowWidth :=
  Column.length_pack p.columns ranges

/-! ## Several messages -/

theorem zip_map_self {τ : Type} (l : List Nat) (f : Nat → τ) : l.zip (l.map f) = l.map fun s => (s, f s) := by
  induction l with
  | nil => rfl
  | cons s l ih => rw [List.map_cons, List.zip_cons_cons, ih, List.map_cons]

omit [Scalar α] [Wire.LawfulWords α β] [Wire.LawfulScalars α β] in
@[simp] theorem layout_unpackAll (counts offsets : List Nat) (messages : List (Nat × Message β))
    (p : ParticleSet width α) : (p.unpackAll counts offsets messages).layout = p.layout := by
  induction messages generalizing p with
  | nil => rfl
  | cons m messages ih => exact (ih _).trans (layout_unpack ..)

omit [Scalar α] [Wire.LawfulWords α β] [Wire.LawfulScalars α β] in
@[simp] theorem owned_unpackAll (counts offsets : List Nat) (messages : List (Nat × Message β)) (p : ParticleSet width α) :
    (p.unpackAll counts offsets messages).owned = p.owned := by
  induction messages generalizing p with
  | nil => rfl
  | cons m messages ih => exact (ih _).trans (owned_withColumns _ _)

omit [Scalar α] [Wire.LawfulWords α β] [Wire.LawfulScalars α β] in
theorem Uniform.unpackAll {p : ParticleSet width α} {n : Nat} (h : p.Uniform n) (counts offsets : List Nat)
    (messages : List (Nat × Message β)) : (p.unpackAll counts offsets messages).Uniform n := by
  induction messages generalizing p with
  | nil => exact h
  | cons m messages ih => exact ih (h.unpack _ _ _)

omit [Wire.LawfulWords α β] [Wire.LawfulScalars α β] in
/-- Whatever messages hold, the rows before all of them stay. -/
theorem row_unpackAll_of_lt {j : Nat} (counts offsets : List Nat) {messages : List (Nat × Message β)}
    (hbefore : ∀ m ∈ messages, j < offsets.getD m.1 0) (p : ParticleSet width α) :
    (p.unpackAll counts offsets messages).row j = p.row j := by
  induction messages generalizing p with
  | nil => rfl
  | cons m messages ih =>
    exact (ih (fun m hm => hbefore m (List.mem_cons_of_mem _ hm)) _).trans
      (row_unpack_of_lt (hbefore m List.mem_cons_self) p _ _)

section Sources

variable (q : Nat → ParticleSet width α) (ranges : Nat → List IndexRange) (indices : Nat → List Nat)
  (counts offsets : List Nat) {n : Nat}

/-- Messages of several ranks are read side by side: each row of a message is found behind the offset of its rank, and
rows beside all messages stay. -/
theorem unpackAll_spec {sources : List Nat} (hnodup : sources.Nodup)
    (hindices : ∀ s ∈ sources, (ranges s).flatMap IndexRange.toList = indices s)
    (hcounts : ∀ s ∈ sources, counts.getD s 0 = (indices s).length)
    (hroom : ∀ s ∈ sources, offsets.getD s 0 + (indices s).length ≤ n)
    (hapart : ∀ s ∈ sources, ∀ t ∈ sources, s ≠ t → offsets.getD s 0 + (indices s).length ≤ offsets.getD t 0 ∨
      offsets.getD t 0 + (indices t).length ≤ offsets.getD s 0)
    (hfits : ∀ s ∈ sources, ∀ i ∈ indices s, (q s).RowFits i) {p : ParticleSet width α} (hp : p.Uniform n)
    (hkinds : ∀ s ∈ sources, p.kinds = (q s).kinds) :
    (unpackAll counts offsets (sources.map fun s => (s, ((q s).pack (ranges s) : Message β))) p).kinds = p.kinds ∧
    (unpackAll counts offsets (sources.map fun s => (s, ((q s).pack (ranges s) : Message β))) p).Uniform n ∧
    (∀ s ∈ sources, ∀ k < (indices s).length,
      (unpackAll counts offsets (sources.map fun s => (s, ((q s).pack (ranges s) : Message β))) p).row
        (offsets.getD s 0 + k) = (q s).row ((indices s).getD k 0)) ∧
    ∀ j, (∀ s ∈ sources, j < offsets.getD s 0 ∨ offsets.getD s 0 + (indices s).length ≤ j) →
      (unpackAll counts offsets (sources.map fun s => (s, ((q s).pack (ranges s) : Message β))) p).row j = p.row j := by
  induction sources generalizing p with
  | nil =>
    refine ⟨rfl, hp, ?_, fun _ _ => rfl⟩
    intro s hs
    cases hs
  | cons s sources ih =>
    obtain ⟨hnew, hnodup⟩ := List.nodup_cons.1 hnodup
    have hs := List.mem_cons_self (a := s) (l := sources)
    have hrest : ∀ {t}, t ∈ sources → t ∈ s :: sources := List.mem_cons_of_mem s
    -- The set after the first message.
    have hfirst := row_unpack_pack (β := β) (hindices s hs) hp (hkinds s hs) (hroom s hs) (hfits s hs)
    have hstep : unpackAll counts offsets ((s :: sources).map fun s => (s, ((q s).pack (ranges s) : Message β))) p =
        unpackAll counts offsets (sources.map fun s => (s, ((q s).pack (ranges s) : Message β)))
          (p.unpack (offsets.getD s 0) (indices s).length ((q s).pack (ranges s) : Message β)) := by
      rw [← hcounts s hs]
      rfl
    obtain ⟨hk, hu, hrows, hothers⟩ := ih hnodup (fun t ht => hindices t (hrest ht)) (fun t ht => hcounts t (hrest ht))
      (fun t ht => hroom t (hrest ht)) (fun t ht u hu => hapart t (hrest ht) u (hrest hu))
      (fun t ht => hfits t (hrest ht)) (hp.unpack (offsets.getD s 0) (indices s).length ((q s).pack (ranges s) : Message β))
      fun t ht => (kinds_unpack ..).trans (hkinds t (hrest ht))
    rw [hstep]
    refine ⟨hk.trans (kinds_unpack ..), hu, fun t ht k hlt => ?_, fun j hj => ?_⟩
    · rcases List.mem_cons.1 ht with rfl | ht
      · rw [hothers _ fun u hu => ?_, hfirst, if_pos (by omega), Nat.add_sub_cancel_left]
        have hne : t ≠ u := fun heq => hnew (heq ▸ hu)
        rcases hapart t hs u (hrest hu) hne with h | h <;> omega
      · exact hrows t ht k hlt
    · rw [hothers j fun t ht => hj t (hrest ht), hfirst, if_neg]
      have := hj s hs
      omega

end Sources

/-! ## Redistribution -/

section Redistribution

variable {a : Assignment width.depth} {t : Leaves width.depth} {p : ParticleSet width α} {n r : Nat}

/-- The rows of a set that redistribution sends to a rank. -/
def rowsFor (p : ParticleSet width α) (a : Assignment width.depth) (rank : Nat) : IndexRange :=
  let counts := Sorted.binCounts p.keys a.startKeys
  let offsets := Sorted.offsets counts
  ⟨offsets.getD rank 0, offsets.getD rank 0 + counts.getD rank 0⟩

variable (ha : a.Tiles t) (hkeys : Sorted.Ascending p.keys) (hbound : ∀ k ∈ p.keys.toList, k < Key.bound width.depth)
include ha hkeys hbound

omit [Wire α β] [Wire.LawfulWords α β] [Wire.LawfulScalars α β] [Scalar α]

/-- The rows for a rank lie between the positions of its first key and of the next rank's. -/
theorem rowsFor_eq (hr : r < a.ranks) : p.rowsFor a r =
    ⟨Sorted.lowerBound p.keys (a.boundaries.start r), Sorted.lowerBound p.keys (a.boundaries.start (r + 1))⟩ :=
  ha.bin_eq hkeys hbound hr

/-- The rows for a rank are those whose keys are assigned to it. -/
theorem mem_rowsFor_iff (hr : r < a.ranks) {i : Nat} (hi : i < p.keys.size) :
    i ∈ (p.rowsFor a r).toList ↔ p.keys.getD i 0 ∈ a.keyRange r := by
  rw [rowsFor_eq ha hkeys hbound hr, Sorted.mem_toList_bin_iff hkeys, KeyRange.mem_iff]
  exact and_iff_right hi

theorem length_rowsFor (hr : r < a.ranks) :
    (p.rowsFor a r).toList.length = (Sorted.binCounts p.keys a.startKeys).getD r 0 := by
  rw [IndexRange.length_toList, rowsFor_eq ha hkeys hbound hr, ha.binCounts_startKeys hkeys hbound]
  simp [IndexRange.length, List.getD_eq_getElem?_getD, hr]

theorem lt_of_mem_rowsFor (hr : r < a.ranks) {i : Nat} (hi : i ∈ (p.rowsFor a r).toList) : i < p.keys.size := by
  rw [rowsFor_eq ha hkeys hbound hr] at hi
  exact ((Sorted.mem_toList_bin_iff hkeys).1 hi).1

end Redistribution


/-! ## All ranks redistribute -/

section AllRanks

variable {size : Nat} {a : Assignment width.depth} {t : Leaves width.depth} {ps : Nat → ParticleSet width α}
  {kinds : List (Option ElementKind)} {n : Nat → Nat}

/-- Rows that a rank gets from all ranks. -/
def arriving (size : Nat) (a : Assignment width.depth) (ps : Nat → ParticleSet width α) (i : Nat) : List Nat :=
  (List.range size).map fun s => (Sorted.binCounts (ps s).keys a.startKeys).getD i 0

/-- The rows of all ranks for one of them, read into a set of the right size. -/
def gathered (size : Nat) (a : Assignment width.depth) (ps : Nat → ParticleSet width α) (i : Nat) : ParticleSet width α :=
  ((((ps i).truncate 0).resize (arriving size a ps i).sum).unpackAll (arriving size a ps i)
    (Sorted.offsets (arriving size a ps i))
    ((i :: (Place.mk i size).peers).map fun s => (s, ((ps s).pack [(ps s).rowsFor a i] : Message β))))

/-- The rows for a rank in the order in which they are read, by rank and position there. -/
def arrivals (size : Nat) (a : Assignment width.depth) (ps : Nat → ParticleSet width α) (i : Nat) : List (Nat × Nat) :=
  (List.range size).flatMap fun s => ((ps s).rowsFor a i).toList.map fun j => (s, j)

/-- The key of a row, by rank and position. -/
def keyAt (ps : Nat → ParticleSet width α) (o : Nat × Nat) : Nat := (ps o.1).keys.getD o.2 0

/-- The order of redistributed rows: by key, then by rank, then by position there. -/
def Before (ps : Nat → ParticleSet width α) (o o' : Nat × Nat) : Prop :=
  keyAt ps o < keyAt ps o' ∨ keyAt ps o = keyAt ps o' ∧ (o.1 < o'.1 ∨ o.1 = o'.1 ∧ o.2 < o'.2)

omit [Scalar α] in
theorem Before.asymm {o o' : Nat × Nat} (h : Before ps o o') : ¬ Before ps o' o := by
  unfold Before at *
  omega

omit [Scalar α] in
theorem pairwise_arrivals (size : Nat) (a : Assignment width.depth) (ps : Nat → ParticleSet width α) (i : Nat) :
    (arrivals size a ps i).Pairwise fun o o' => o.1 < o'.1 ∨ o.1 = o'.1 ∧ o.2 < o'.2 := by
  refine List.pairwise_flatMap.2 ⟨fun s _ => List.pairwise_map.2 ?_, List.pairwise_lt_range.imp fun hlt o ho o' ho' => ?_⟩
  · refine (List.pairwise_map.2 (List.pairwise_lt_range.imp fun hlt => ?_) : (IndexRange.toList _).Pairwise _)
    exact .inr ⟨rfl, Nat.add_lt_add_left hlt _⟩
  · obtain ⟨_, _, rfl⟩ := List.mem_map.1 ho
    obtain ⟨_, _, rfl⟩ := List.mem_map.1 ho'
    exact .inl hlt

/-- What redistribution makes of the sets of all ranks. The list of a rank tells where each of its rows was before, by
rank and position there. -/
structure Redistributed (size : Nat) (a : Assignment width.depth) (ps ps' : Nat → ParticleSet width α)
    (origins : Nat → List (Nat × Nat)) : Prop where
  layout_eq : ∀ i < size, (ps' i).layout = (ps i).layout
  uniform : ∀ i < size, (ps' i).Uniform (origins i).length
  owned_eq : ∀ i < size, (ps' i).owned = (origins i).length
  rows_eq : ∀ i < size, (ps' i).rows = (origins i).map fun o => (ps o.1).row o.2
  mem_iff : ∀ i < size, ∀ o, o ∈ origins i ↔
    o.1 < size ∧ o.2 < (ps o.1).size ∧ keyAt ps o ∈ a.keyRange i
  ordered : ∀ i < size, (origins i).Pairwise (Before ps)

variable (ha : a.Tiles t) (hranks : a.ranks = size) (hfilled : ∀ s < size, (ps s).Filled kinds (n s))
  (hkeys : ∀ s < size, Sorted.Ascending (ps s).keys)
  (hbound : ∀ s < size, ∀ k ∈ (ps s).keys.toList, k < Key.bound width.depth)
include ha hranks hfilled hkeys hbound

omit [Wire α β] [Wire.LawfulWords α β] [Wire.LawfulScalars α β]

omit hfilled [Scalar α] in
theorem getD_arriving {i s : Nat} (hi : i < size) (hs : s < size) :
    (arriving size a ps i).getD s 0 = ((ps s).rowsFor a i).toList.length := by
  rw [length_rowsFor ha (hkeys s hs) (hbound s hs) (hranks ▸ hi), arriving, List.getD_eq_getElem?_getD,
    List.getElem?_map, List.getElem?_range hs]
  rfl

omit hfilled [Scalar α] in
theorem arriving_eq {i : Nat} (hi : i < size) : arriving size a ps i =
    (List.range size).map fun s => (((ps s).rowsFor a i).toList.map fun j => (s, j)).length := by
  refine List.map_congr_left fun s hs => ?_
  have hs := List.mem_range.1 hs
  rw [List.length_map, length_rowsFor ha (hkeys s hs) (hbound s hs) (hranks ▸ hi)]

omit hfilled [Scalar α] in
theorem length_arrivals {i : Nat} (hi : i < size) : (arrivals size a ps i).length = (arriving size a ps i).sum := by
  rw [arrivals, List.length_flatMap, arriving_eq ha hranks hkeys hbound hi]

theorem mem_arrivals_iff {i : Nat} (hi : i < size) {o : Nat × Nat} : o ∈ arrivals size a ps i ↔
    o.1 < size ∧ o.2 < (ps o.1).size ∧ keyAt ps o ∈ a.keyRange i := by
  have hmem : o ∈ arrivals size a ps i ↔ o.1 < size ∧ o.2 ∈ ((ps o.1).rowsFor a i).toList := by
    simp only [arrivals, List.mem_flatMap, List.mem_map, List.mem_range]
    exact ⟨fun ⟨s, hs, j, hj, heq⟩ => heq ▸ ⟨hs, hj⟩, fun ⟨hs, hj⟩ => ⟨o.1, hs, o.2, hj, rfl⟩⟩
  rw [hmem]
  refine and_congr_right fun hs => ?_
  have hsize : (ps o.1).keys.size = (ps o.1).size :=
    (hfilled o.1 hs).uniform.size_keys.trans (hfilled o.1 hs).uniform.size_eq.symm
  refine ⟨fun hj => ?_, fun ⟨hj, hkey⟩ => ?_⟩
  · have hlt := lt_of_mem_rowsFor ha (hkeys o.1 hs) (hbound o.1 hs) (hranks ▸ hi) hj
    exact ⟨hsize ▸ hlt, (mem_rowsFor_iff ha (hkeys o.1 hs) (hbound o.1 hs) (hranks ▸ hi) hlt).1 hj⟩
  · exact (mem_rowsFor_iff ha (hkeys o.1 hs) (hbound o.1 hs) (hranks ▸ hi) (hsize ▸ hj)).2 hkey

omit hfilled [Scalar α] in
/-- A row that arrives is one of the group of its rank. -/
theorem exists_arrival {i j : Nat} (hi : i < size) {o : Nat × Nat} (ho : (arrivals size a ps i)[j]? = some o) :
    o.1 < size ∧ ∃ k < ((ps o.1).rowsFor a i).toList.length,
      j = (Sorted.offsets (arriving size a ps i)).getD o.1 0 + k ∧ o.2 = ((ps o.1).rowsFor a i).toList.getD k 0 := by
  have hlength : (arriving size a ps i).length = size := by simp [arriving]
  have hj : j < (arriving size a ps i).sum := by
    rw [← length_arrivals ha hranks hkeys hbound hi]
    exact (List.getElem?_eq_some_iff.1 ho).1
  obtain ⟨s, hs, hlo, hhi⟩ := Sorted.exists_group hj
  rw [hlength] at hs
  obtain ⟨k, rfl⟩ := Nat.exists_eq_add_of_le hlo
  have hk : k < ((ps s).rowsFor a i).toList.length := by
    rw [← getD_arriving ha hranks hkeys hbound hi hs]
    omega
  rw [arriving_eq ha hranks hkeys hbound hi, arrivals,
    Sorted.getElem?_flatMap_range hs (by rwa [List.length_map]), List.getElem?_map, List.getElem?_eq_getElem hk] at ho
  cases ho
  refine ⟨hs, k, hk, rfl, ?_⟩
  rw [List.getD_eq_getElem?_getD, List.getElem?_eq_getElem hk]
  rfl

variable [Wire α β] [Wire.LawfulWords α β] [Wire.LawfulScalars α β]

/-- The gathered set holds the rows that arrive, in the order of the ranks. -/
theorem gathered_spec {i : Nat} (hi : i < size) :
    (gathered (β := β) size a ps i).kinds = kinds ∧
    (gathered (β := β) size a ps i).layout = (ps i).layout ∧
    (gathered (β := β) size a ps i).Uniform (arrivals size a ps i).length ∧
    ∀ j o, (arrivals size a ps i)[j]? = some o → (gathered (β := β) size a ps i).row j = (ps o.1).row o.2 := by
  have hlt : ∀ {s}, s ∈ i :: (Place.mk i size).peers → s < size := (Delivery.mem_cons_peers_iff hi).1
  have hin : ∀ {s}, s ∈ i :: (Place.mk i size).peers → s < (arriving size a ps i).length := fun hs => by
    rw [arriving, List.length_map, List.length_range]
    exact hlt hs
  have hcounts : ∀ s ∈ i :: (Place.mk i size).peers,
      (arriving size a ps i).getD s 0 = ((ps s).rowsFor a i).toList.length := fun s hs =>
    getD_arriving ha hranks hkeys hbound hi (hlt hs)
  have hsent : ∀ s < size, ∀ k ∈ ((ps s).rowsFor a i).toList, k < n s := fun s hs k hk =>
    (hfilled s hs).uniform.size_keys ▸ lt_of_mem_rowsFor ha (hkeys s hs) (hbound s hs) (hranks ▸ hi) hk
  have hblank : (((ps i).truncate 0).resize (arriving size a ps i).sum).kinds = kinds := by
    rw [kinds_resize, kinds_truncate, (hfilled i hi).kinds_eq]
  obtain ⟨hkinds, huniform, hrows, _⟩ := unpackAll_spec (β := β) ps (fun s => [(ps s).rowsFor a i])
    (fun s => ((ps s).rowsFor a i).toList) (arriving size a ps i) (Sorted.offsets (arriving size a ps i))
    (Delivery.nodup_cons_peers i size)
    (fun s _ => List.flatMap_singleton _ _) hcounts
    (fun s hs => by
      rw [← hcounts s hs]
      exact Sorted.offsets_add_le_sum (hin hs))
    (fun s hs t ht hne => by
      rw [← hcounts s hs, ← hcounts t ht]
      exact Sorted.offsets_apart hne (hin hs) (hin ht))
    (fun s hs k hk => (hfilled s (hlt hs)).fits k (hsent s (hlt hs) k hk))
    (uniform_resize ((ps i).truncate 0) (arriving size a ps i).sum)
    (fun s hs => hblank.trans (hfilled s (hlt hs)).kinds_eq.symm)
  rw [length_arrivals ha hranks hkeys hbound hi]
  refine ⟨hkinds.trans hblank, ?_, huniform, fun j o ho => ?_⟩
  · rw [gathered, layout_unpackAll, layout_resize, layout_truncate]
  · obtain ⟨hs, k, hk, rfl, horigin⟩ := exists_arrival ha hranks hkeys hbound hi ho
    rw [horigin]
    exact hrows o.1 ((Delivery.mem_cons_peers_iff hi).2 hs) k hk

/-- The gathered rows sorted by key, and where they come from. -/
theorem exists_sorted (backend : Backend) {i : Nat} (hi : i < size) :
    ∃ (p' : ParticleSet width α) (origins : List (Nat × Nat)),
      ({ gathered (β := β) size a ps i with owned := (arriving size a ps i).sum } : ParticleSet width α).sort backend =
        .ok p' ∧ p'.layout = (ps i).layout ∧ p'.Uniform origins.length ∧ p'.owned = origins.length ∧
        p'.kinds = kinds ∧ p'.rows = origins.map (fun o => (ps o.1).row o.2) ∧ Sorted.Ascending p'.keys ∧
        (∀ o, o ∈ origins ↔ o.1 < size ∧ o.2 < (ps o.1).size ∧ keyAt ps o ∈ a.keyRange i) ∧
        origins.Pairwise (Before ps) := by
  obtain ⟨hkinds, hlayout, huniform, hrows⟩ := gathered_spec (β := β) ha hranks hfilled hkeys hbound hi
  have hlength := length_arrivals ha hranks hkeys hbound hi
  have hmem := fun o => mem_arrivals_iff ha hranks hfilled hkeys hbound hi (o := o)
  have harrivals := pairwise_arrivals size a ps i
  generalize gathered (β := β) size a ps i = g at *
  generalize arrivals size a ps i = arrivals at *
  obtain ⟨p', order, hsort, hperm, hkinds', huniform', howned, hlayout', hrow, horder⟩ :=
    sort_spec (p := { g with owned := (arriving size a ps i).sum }) backend huniform
  have hget : ∀ j < arrivals.length, arrivals[j]? = some (arrivals.getD j (0, 0)) := fun j hj => by
    simp [hj]
  have hkey : ∀ j < arrivals.length, g.keys.getD j 0 = keyAt ps (arrivals.getD j (0, 0)) := fun j hj =>
    (fields_eq_of_row_eq (hrows j _ (hget j hj))).1
  have horigins : (order.toList.map fun j => arrivals.getD j (0, 0)).Perm arrivals := by
    refine (hperm.map _).trans (.of_eq ?_)
    refine List.ext_getElem (by simp) fun j h₁ h₂ => ?_
    simp [h₂]
  have hinner : ∀ j ∈ order.toList, j < arrivals.length := fun j hj => List.mem_range.1 (hperm.mem_iff.1 hj)
  refine ⟨p', order.toList.map fun j => arrivals.getD j (0, 0), hsort, hlayout'.trans hlayout, ?_, ?_,
    hkinds'.trans hkinds, ?_, ascending_of_rows hperm huniform' hrow horder,
    fun o => horigins.mem_iff.trans (hmem o), ?_⟩
  · rwa [horigins.length_eq]
  · rw [howned, horigins.length_eq, hlength]
  · rw [rows, huniform'.size_eq, List.map_map]
    refine List.ext_getElem (by simp [hperm.length_eq]) fun j h₁ h₂ => ?_
    have hj : j < arrivals.length := by simpa using h₁
    have hsize : j < order.size := by simpa using h₂
    rw [List.getElem_map, List.getElem_range, hrow j hj, List.getElem_map]
    have hlt := getD_lt_of_perm_range hperm hj
    refine (hrows _ _ (hget _ hlt)).trans ?_
    simp [Array.getD, hsize]
  · refine List.pairwise_map.2 (horder.imp_of_mem fun {j k} hj hk hjk => ?_)
    rw [hkey j (hinner j hj), hkey k (hinner k hk)] at hjk
    refine hjk.imp_right fun ⟨heq, hlt⟩ => ⟨heq, ?_⟩
    have := List.pairwise_iff_getElem.1 harrivals j k (hinner j hj) (hinner k hk) hlt
    simpa [hinner j hj, hinner k hk] using this

/-- Redistribution succeeds on all ranks, and afterwards each rank has the rows whose keys are assigned to it. -/
theorem collects_redistribute (backend : Nat → Backend) (hsmall : ∀ s < size, n s < 2 ^ 64) :
    ∃ (ps' : Nat → ParticleSet width α) (origins : Nat → List (Nat × Nat)),
      Collects size (fun i => ((ps i).redistribute (backend i) ⟨i, size⟩ a : Attempt α β _).run) (fun i => .ok (ps' i)) ∧
      Redistributed size a ps ps' origins ∧
      ∀ i < size, (ps' i).kinds = kinds ∧ Sorted.Ascending (ps' i).keys := by
  have : Nonempty (ParticleSet width α) := ⟨ps 0⟩
  choose! ps' origins hps' using fun i (hi : i < size) =>
    exists_sorted (β := β) ha hranks hfilled hkeys hbound (backend i) hi
  refine ⟨ps', origins, ?_, ⟨fun i hi => (hps' i hi).2.1, fun i hi => (hps' i hi).2.2.1, fun i hi => (hps' i hi).2.2.2.1,
    fun i hi => (hps' i hi).2.2.2.2.2.1, fun i hi => (hps' i hi).2.2.2.2.2.2.2.1,
    fun i hi => (hps' i hi).2.2.2.2.2.2.2.2⟩, fun i hi => ⟨(hps' i hi).2.2.2.2.1, (hps' i hi).2.2.2.2.2.2.1⟩⟩
  have hwords : ∀ s < size, ∀ v ∈ Sorted.binCounts (ps s).keys a.startKeys, v < 2 ^ 64 := by
    intro s hs v hv
    refine Nat.lt_of_le_of_lt (List.single_le_sum (fun _ _ => Nat.zero_le _) v hv) ?_
    rw [ha.sum_binCounts (hkeys s hs) (hbound s hs), (hfilled s hs).uniform.size_keys]
    exact hsmall s hs
  have hlengths : ∀ i < size, ∀ s < size, s ≠ i → (arriving size a ps i).getD s 0 * (ps i).rowWidth =
      ((ps s).pack [(ps s).rowsFor a i] : Message β).length := by
    intro i hi s hs _
    rw [length_pack, List.flatMap_singleton, getD_arriving ha hranks hkeys hbound hi hs,
      rowWidth_eq ((hfilled i hi).kinds_eq.trans (hfilled s hs).kinds_eq.symm)]
  have hmessages : Collects size (fun i => (Exchange.messages Purpose.redistribute.tag
      ((Place.mk i size).peers.map fun d => (d, (ps i).pack [(ps i).rowsFor a d]))
      ((Place.mk i size).peers.map fun s => (s, (arriving size a ps i).getD s 0 * (ps i).rowWidth)) :
        Exchange α β _).run) _ :=
    Exchange.collects_messages _ (fun s d => (ps s).pack [(ps s).rowsFor a d]) hlengths
  refine (Exchange.collects_counts (α := α) hwords).attempt.ok_bind (hmessages.attempt.ok_bind ?_)
  refine (Collects.done fun i => Except.ok (ps' i)).congr (fun i hi => ?_) fun _ _ => rfl
  rw [zip_map_self]
  exact congrArg Program.done (hps' i hi).1

end AllRanks

omit [Wire.LawfulWords α β] [Wire.LawfulScalars α β] in
open Program in
theorem throws_redistribute (backend : Backend) (place : Place) (a : Assignment width.depth) (p : ParticleSet width α) :
    Throws Call.failure Error.communication (p.redistribute backend place a : Attempt α β _) :=
  (Attempt.throws_exchange (Exchange.throws_counts _ _)).bind fun _ =>
    (Attempt.throws_exchange (Exchange.throws_messages _ _ _)).bind fun _ => Attempt.throws_ofExcept _

end ParticleSet

end CurvePartition
