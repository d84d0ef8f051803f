-- SUMMARY: Halo rows: when the plans of all ranks match, each rank gets the rows that the others send to it, in the order of the ranks.
import CurvePartition.Halo.Plan
import CurvePartition.Proofs.Particles.Moving

/-!
# Halo rows

Plans match if every rank expects from another one as many rows as that one sends (`HaloPlan.Matching`). Then a halo
exchange succeeds on all ranks. The own rows stay, and behind them stand the rows that `HaloPlan.origins` names, one
rank after the other (`ParticleSet.collects_fetchHalos`).
-/

namespace CurvePartition

namespace HaloPlan

/-- The plans of all ranks fit together, for ranks that have given numbers of rows. -/
structure Matching (size : Nat) (plan : Nat → HaloPlan) (n : Nat → Nat) : Prop where
  localCount_eq : ∀ i < size, (plan i).localCount = n i
  size_eq : ∀ i < size, (plan i).receiveCounts.size = size
  offsets_eq : ∀ i < size, (plan i).receiveOffsets.toList = (Sorted.offsets (plan i).receiveCounts.toList).map (· + n i)
  receiveCount_eq : ∀ i < size, ∀ s < size, (plan i).receiveCount s = if s = i then 0 else ((plan s).send i).count
  send_lt : ∀ i < size, ∀ s < size, ∀ j ∈ ((plan s).send i).toList, j < n s

/-- The rows that a rank gets, by rank and position there. -/
def origins (size : Nat) (plan : Nat → HaloPlan) (i : Nat) : List (Nat × Nat) :=
  (List.range size).flatMap fun s => if s = i then [] else ((plan s).send i).toList.map fun j => (s, j)

variable {size i : Nat} {plan : Nat → HaloPlan} {n : Nat → Nat}

theorem mem_origins_iff {s j : Nat} : (s, j) ∈ origins size plan i ↔ s < size ∧ s ≠ i ∧ j ∈ ((plan s).send i).toList := by
  simp only [origins, List.mem_flatMap, List.mem_range]
  constructor
  · rintro ⟨r, hr, hmem⟩
    split at hmem
    · cases hmem
    · obtain ⟨k, hk, heq⟩ := List.mem_map.1 hmem
      cases heq
      exact ⟨hr, ‹_›, hk⟩
  · rintro ⟨hs, hne, hj⟩
    exact ⟨s, hs, by rw [if_neg hne]; exact List.mem_map.2 ⟨j, hj, rfl⟩⟩

/-- No row comes twice if no rank sends a row twice. -/
theorem nodup_origins (h : ∀ s < size, ((plan s).send i).toList.Nodup) : (origins size plan i).Nodup := by
  have hfirst : ∀ s o, o ∈ (if s = i then [] else ((plan s).send i).toList.map fun j => (s, j)) → o.1 = s := by
    intro s o ho
    split at ho
    · cases ho
    · obtain ⟨_, _, rfl⟩ := List.mem_map.1 ho
      rfl
  refine List.nodup_flatMap.2 ⟨fun s hs => ?_, List.nodup_range.imp fun {s r} hne o hs hr => ?_⟩
  · split
    · exact List.nodup_nil
    · exact (h s (List.mem_range.1 hs)).map fun a b hab => (Prod.mk.inj hab).2
  · exact hne ((hfirst s o hs).symm.trans (hfirst r o hr))

section Matching

variable (h : Matching size plan n) (hi : i < size)
include h hi

theorem Matching.receiveCounts_eq : (plan i).receiveCounts.toList =
    (List.range size).map fun s => (if s = i then [] else ((plan s).send i).toList.map fun j => (s, j)).length := by
  refine List.ext_getElem (by simp [h.size_eq i hi]) fun s h₁ h₂ => ?_
  have hs : s < size := by simpa using h₂
  have hcount := h.receiveCount_eq i hi s hs
  rw [receiveCount, Array.getD_eq_getD_getElem?, Array.getElem?_eq_getElem (by rwa [h.size_eq i hi])] at hcount
  rw [List.getElem_map, List.getElem_range, Array.getElem_toList]
  refine hcount.trans ?_
  split
  · rfl
  · rw [List.length_map, SendList.length_toList]

/-- A rank has as many halos as rows come to it. -/
theorem Matching.length_origins : (origins size plan i).length = (plan i).haloCount := by
  rw [origins, List.length_flatMap, haloCount, h.receiveCounts_eq hi]

theorem Matching.getD_receiveCounts {s : Nat} (hs : s < size) :
    (plan i).receiveCounts.toList.getD s 0 = if s = i then 0 else ((plan s).send i).toList.length := by
  rw [SendList.length_toList, ← h.receiveCount_eq i hi s hs, receiveCount, List.getD_eq_getElem?_getD,
    Array.getElem?_toList, Array.getD_eq_getD_getElem?]

theorem Matching.getD_receiveOffsets {s : Nat} (hs : s < size) : (plan i).receiveOffsets.toList.getD s 0 =
    (Sorted.offsets (plan i).receiveCounts.toList).getD s 0 + n i := by
  have hlength : s < (Sorted.offsets (plan i).receiveCounts.toList).length := by
    rw [Sorted.offsets, Sorted.length_offsetsFrom, Array.length_toList, h.size_eq i hi]
    exact hs
  rw [h.offsets_eq i hi, List.getD_eq_getElem?_getD, List.getElem?_map, List.getD_eq_getElem?_getD,
    List.getElem?_eq_getElem hlength]
  rfl

/-- The rows that a rank sends come together, in the order of its list. -/
theorem Matching.getElem?_origins {s k : Nat} (hs : s < size) (hne : s ≠ i) (hk : k < ((plan s).send i).toList.length) :
    (origins size plan i)[(Sorted.offsets (plan i).receiveCounts.toList).getD s 0 + k]? =
      some (s, ((plan s).send i).toList.getD k 0) := by
  rw [h.receiveCounts_eq hi, origins, Sorted.getElem?_flatMap_range hs (by rwa [if_neg hne, List.length_map]), if_neg hne,
    List.getElem?_map, List.getD_eq_getElem?_getD, List.getElem?_eq_getElem hk]
  rfl

/-- Each row that comes is in the group of the rank it comes from. -/
theorem Matching.exists_source {k : Nat} (hk : k < (origins size plan i).length) : ∃ s < size, s ≠ i ∧
    ∃ j < ((plan s).send i).toList.length, k = (Sorted.offsets (plan i).receiveCounts.toList).getD s 0 + j ∧
      (origins size plan i)[k]? = some (s, ((plan s).send i).toList.getD j 0) := by
  have hsum : k < (plan i).receiveCounts.toList.sum := by
    rwa [h.length_origins hi] at hk
  obtain ⟨s, hs, hlo, hhi⟩ := Sorted.exists_group hsum
  rw [Array.length_toList, h.size_eq i hi] at hs
  rw [h.getD_receiveCounts hi hs] at hhi
  have hne : s ≠ i := fun heq => by
    rw [if_pos heq] at hhi
    omega
  rw [if_neg hne] at hhi
  obtain ⟨j, rfl⟩ := Nat.exists_eq_add_of_le hlo
  have hj : j < ((plan s).send i).toList.length := by omega
  exact ⟨s, hs, hne, j, hj, rfl, h.getElem?_origins hi hs hne hj⟩

end Matching

end HaloPlan

namespace ParticleSet

open HaloPlan

variable {width : KeyWidth} {α β : Type} [Scalar α] [Wire α β] [Wire.LawfulWords α β] [Wire.LawfulScalars α β]
  {size : Nat} {plan : Nat → HaloPlan} {n : Nat → Nat} {ps : Nat → ParticleSet width α}
  {kinds : List (Option ElementKind)}

/-- The rows of a rank with those of the other ranks read behind them. -/
def withHalos (size : Nat) (plan : Nat → HaloPlan) (ps : Nat → ParticleSet width α) (i : Nat) : ParticleSet width α :=
  ((ps i).resize ((plan i).localCount + (plan i).haloCount)).unpackAll (plan i).receiveCounts.toList
    (plan i).receiveOffsets.toList
    ((Place.mk i size).peers.map fun s => (s, ((ps s).pack ((plan s).send i).ranges : Message β)))

variable (h : Matching size plan n) (hfilled : ∀ s < size, (ps s).Filled kinds (n s))
include h hfilled

/-- The own rows stay, and behind them stand the rows that came. -/
theorem withHalos_spec {i : Nat} (hi : i < size) :
    (withHalos (β := β) size plan ps i).kinds = kinds ∧
    (withHalos (β := β) size plan ps i).Uniform (n i + (plan i).haloCount) ∧
    (∀ j < n i, (withHalos (β := β) size plan ps i).row j = (ps i).row j) ∧
    ∀ k o, (origins size plan i)[k]? = some o →
      (withHalos (β := β) size plan ps i).row (n i + k) = (ps o.1).row o.2 := by
  have hpeer : ∀ s ∈ (Place.mk i size).peers, s < size ∧ s ≠ i := fun s hs => Delivery.mem_peers_iff.1 hs
  have hcount : ∀ s ∈ (Place.mk i size).peers,
      (plan i).receiveCounts.toList.getD s 0 = ((plan s).send i).toList.length := fun s hs => by
    rw [h.getD_receiveCounts hi (hpeer s hs).1, if_neg (hpeer s hs).2]
  have hlength : (plan i).receiveCounts.toList.length = size := by rw [Array.length_toList, h.size_eq i hi]
  have hkinds : ((ps i).resize (n i + (plan i).haloCount)).kinds = kinds := by
    rw [kinds_resize, (hfilled i hi).kinds_eq]
  obtain ⟨hk, hu, hrows, hothers⟩ := unpackAll_spec (β := β) ps (fun s => ((plan s).send i).ranges)
    (fun s => ((plan s).send i).toList) (plan i).receiveCounts.toList (plan i).receiveOffsets.toList
    (Delivery.nodup_peers (Place.mk i size)) (fun s _ => rfl) hcount
    (fun s hs => by
      rw [h.getD_receiveOffsets hi (hpeer s hs).1, ← hcount s hs, Nat.add_right_comm, Nat.add_comm (n i)]
      exact Nat.add_le_add_right (Sorted.offsets_add_le_sum (hlength.symm ▸ (hpeer s hs).1)) _)
    (fun s hs t ht hne => by
      rw [h.getD_receiveOffsets hi (hpeer s hs).1, h.getD_receiveOffsets hi (hpeer t ht).1, ← hcount s hs, ← hcount t ht]
      have := Sorted.offsets_apart hne (hlength.symm ▸ (hpeer s hs).1) (hlength.symm ▸ (hpeer t ht).1)
      omega)
    (fun s hs j hj => (hfilled s (hpeer s hs).1).fits j (h.send_lt i hi s (hpeer s hs).1 j hj))
    (uniform_resize (ps i) (n i + (plan i).haloCount))
    (fun s hs => hkinds.trans (hfilled s (hpeer s hs).1).kinds_eq.symm)
  rw [withHalos, h.localCount_eq i hi]
  refine ⟨hk.trans hkinds, hu, fun j hj => ?_, fun k o ho => ?_⟩
  · rw [hothers j fun s hs => .inl ?_, row_resize (hfilled i hi).uniform hj (Nat.lt_add_right _ hj)]
    rw [h.getD_receiveOffsets hi (hpeer s hs).1]
    omega
  · have hk : k < (origins size plan i).length := (List.getElem?_eq_some_iff.1 ho).1
    obtain ⟨s, hs, hne, j, hj, rfl, hsome⟩ := h.exists_source hi hk
    cases ho.symm.trans hsome
    have hmem : s ∈ (Place.mk i size).peers := Delivery.mem_peers_iff.2 ⟨hs, hne⟩
    have hrow := hrows s hmem j hj
    rwa [h.getD_receiveOffsets hi hs, Nat.add_comm _ (n i), Nat.add_assoc] at hrow

/-- A halo exchange succeeds on all ranks. -/
theorem collects_fetchHalos : Collects size (fun i => ((ps i).fetchHalos ⟨i, size⟩ (plan i) : Attempt α β _).run)
    fun i => .ok (withHalos (β := β) size plan ps i) := by
  have hlengths : ∀ i < size, ∀ s < size, s ≠ i → (plan i).receiveCount s * (ps i).rowWidth =
      ((ps s).pack ((plan s).send i).ranges : Message β).length := by
    intro i hi s hs hne
    rw [h.receiveCount_eq i hi s hs, if_neg hne, length_pack, ← SendList.length_toList,
      rowWidth_eq ((hfilled i hi).kinds_eq.trans (hfilled s hs).kinds_eq.symm)]
    rfl
  have hmessages : Collects size (fun i => (Exchange.messages Purpose.halos.tag
      ((Place.mk i size).peers.map fun d => (d, (ps i).pack ((plan i).send d).ranges))
      ((Place.mk i size).peers.map fun s => (s, (plan i).receiveCount s * (ps i).rowWidth)) : Exchange α β _).run) _ :=
    Exchange.collects_messages _ (fun s d => (ps s).pack ((plan s).send d).ranges) hlengths
  refine hmessages.attempt.ok_bind ?_
  refine (Collects.done fun i => Except.ok (withHalos (β := β) size plan ps i)).congr (fun i hi => ?_) fun _ _ => rfl
  rw [zip_map_self]
  rfl

end ParticleSet

end CurvePartition
