-- SUMMARY: The halo section after an exchange: behind the own rows, which stay, stand the rows that the send lists of the other ranks name, and these are the rows of the received leaves, leaf by leaf.
import CurvePartition.Proofs.Cluster.Turns
import CurvePartition.Proofs.Subdomain.Connecting
import CurvePartition.Proofs.Subdomain.Stages

/-!
# The halo section

A sender lists rows by its leaves of the global tree and merges index ranges; the receiver only counts what its leaves of
the focus tree hold. Both walk the same leaves in the same order (`HaloPlan.Setting.Proper.map_node_received`), and a list
names the rows of a leaf together (`ParticleSet.map_row_slice`). As the ranks hold ascending leaves, the lists of all ranks
put one after the other are the rows of all received leaves in order (`HaloPlan.Setting.Proper.map_row_origins`).
-/

namespace CurvePartition

open Leaves

/-! ## Rows of a leaf -/

namespace ParticleSet

variable {width : KeyWidth} {α : Type} [Scalar α] {p : ParticleSet width α} {keys : KeyRange}

/-- The rows of a set whose keys are in a range. -/
def rowsIn (p : ParticleSet width α) (keys : KeyRange) : List (List (Entry α)) := p.rows.filter fun row => rowKey row ∈ keys

theorem rowsIn_eq (p : ParticleSet width α) (keys : KeyRange) :
    p.rowsIn keys = ((List.range p.size).filter fun j => p.keys.getD j 0 ∈ keys).map p.row := by
  rw [rowsIn, rows, List.filter_map]
  rfl

theorem rowKey_mem_of_mem_rowsIn {row : List (Entry α)} (h : row ∈ p.rowsIn keys) : rowKey row ∈ keys :=
  of_decide_eq_true (List.mem_filter.1 h).2

/-- The rows in a range are in the order of their keys. -/
theorem pairwise_rowsIn (h : p.Uniform p.size) (hkeys : Sorted.Ascending p.keys) (keys : KeyRange) :
    (p.rowsIn keys).Pairwise fun row row' => rowKey row ≤ rowKey row' := by
  refine List.Pairwise.filter _ (List.pairwise_map.2 (List.pairwise_lt_range.imp_of_mem fun {i j} _ hj hij => ?_))
  exact hkeys.getD_le (Nat.le_of_lt hij) (h.size_keys.symm ▸ List.mem_range.1 hj)

/-- The index range of a leaf names its rows. -/
theorem map_row_slice (h : p.Uniform p.size) (hkeys : Sorted.Ascending p.keys) (t : Leaves width.depth) (l : Nat) :
    (IndexRange.toList ⟨(t.slice p.keys l).1, (t.slice p.keys l).2⟩).map p.row = p.rowsIn (t.range l) := by
  rw [rowsIn_eq]
  refine congrArg (List.map p.row) (Sorted.eq_of_mem_iff (fun _ _ => Nat.lt_asymm) ?_ (List.pairwise_lt_range.filter _)
    fun j => ?_)
  · exact List.pairwise_map.2 (List.pairwise_lt_range.imp fun hij => Nat.add_lt_add_left hij _)
  · rw [slice, Sorted.mem_toList_bin_iff hkeys, h.size_keys, List.mem_filter, List.mem_range, decide_eq_true_eq]
    rfl

end ParticleSet

/-- What the peers of a rank have, one after the other, is what all other ranks have. -/
theorem Place.flatMap_peers {τ : Type} (place : Place) (f : Nat → List τ) :
    place.peers.flatMap f = (List.range place.size).flatMap fun s => if s = place.rank then [] else f s := by
  rw [peers]
  induction List.range place.size with
  | nil => rfl
  | cons s rest ih =>
    rw [List.flatMap_cons, ← ih]
    by_cases heq : s = place.rank
    · rw [if_pos heq, List.filter_cons_of_neg (by simpa using heq), List.nil_append]
    · rw [if_neg heq, List.filter_cons_of_pos (by simpa using heq), List.flatMap_cons]

/-! ## Leaves of a rank -/

namespace HaloPlan.Setting

section Leaves

variable {depth : Nat} {α : Type} [Scalar α] {w : Setting depth α} {r s l : Nat}

/-- The rank that holds a leaf of a focus tree. -/
def holder (w : Setting depth α) (r l : Nat) : Nat := w.assignment.rankOf ((w.followed r).1.leaves.start l)

variable (h : w.Proper) (hr : r < w.assignment.ranks)
include h hr

/-- The leaves of a plan are leaves of the focus tree, in order. -/
theorem Proper.leaves_spec : (w.plan r).leaves.Pairwise (· < ·) ∧
    ∀ l ∈ (w.plan r).leaves, l < (w.followed r).1.leaves.count := by
  obtain ⟨_, hown, hsettled⟩ := h.followed_spec hr
  obtain ⟨hpairwise, hmem⟩ := h.sound.received_spec (hown ▸ h.tiles.bounds hr) hsettled
  exact ⟨hpairwise, fun l hl => ((hmem l).1 hl).1⟩

theorem Proper.ascends_followed : (w.followed r).1.leaves.Ascends :=
  ascends_of_isValid (h.followed_spec hr).2.2.valid

/-- The leaves of a plan, sorted by the ranks that hold them, stay in order. -/
theorem Proper.flatMap_holder : ((List.range w.assignment.ranks).flatMap fun s =>
    (w.plan r).leaves.filter fun l => w.holder r l = s) = (w.plan r).leaves := by
  obtain ⟨hpairwise, hlt⟩ := h.leaves_spec hr
  have ha := h.ascends_followed hr
  refine Sorted.eq_of_mem_iff (fun _ _ => Nat.lt_asymm) (List.pairwise_flatMap.2 ⟨fun s _ => hpairwise.filter _, ?_⟩)
    hpairwise fun l => ?_
  · refine List.pairwise_lt_range.imp fun {s s'} hss l hl l' hl' => Nat.lt_of_not_le fun hle => ?_
    obtain ⟨hmem, hs⟩ := List.mem_filter.1 hl
    obtain rfl := of_decide_eq_true hs
    obtain rfl := of_decide_eq_true (List.mem_filter.1 hl').2
    -- An earlier leaf is not held by a later rank.
    have hstart := ha.start_le hle (Nat.le_of_lt (hlt l hmem))
    exact Nat.not_lt.2 (h.tiles.rankOf_mono hstart (ha.start_lt_bound (hlt l hmem))) hss
  · simp only [List.mem_flatMap, List.mem_range, List.mem_filter, decide_eq_true_eq]
    refine ⟨fun ⟨_, _, hl, _⟩ => hl, fun hl => ⟨w.holder r l, ?_, hl, rfl⟩⟩
    exact h.tiles.rankOf_lt (ha.start_lt_bound (hlt l hl))

end Leaves

/-! ## Rows that are sent -/

section Rows

variable {width : KeyWidth} {α : Type} [Scalar α] {w : Setting width.depth α} {r s : Nat} (h : w.Proper)
include h

/-- What a rank sends to another one are its rows in the leaves that the other one receives from it. -/
theorem Proper.map_row_send {p : ParticleSet width α} (hr : r < w.assignment.ranks) (hs : s < w.assignment.ranks)
    (hne : r ≠ s) (hp : p.Uniform p.size) (hkeys : p.keys = w.keys s) :
    ((w.plan s).send r).toList.map p.row =
      ((w.plan r).leaves.filter fun l => w.holder r l = s).flatMap fun l => p.rowsIn ((w.followed r).1.leaves.range l) := by
  have hascending : Sorted.Ascending p.keys := hkeys ▸ h.countable.ascending s hs
  calc ((w.plan s).send r).toList.map p.row
      = (w.search.sent (w.own s) (w.own r)).flatMap fun l => p.rowsIn (w.global.range l) := by
        rw [send_eq hr, if_neg hne, toList_particlesIn, List.map_flatMap, ← hkeys]
        exact List.flatMap_congr fun l _ => ParticleSet.map_row_slice hp hascending w.global l
    _ = ((w.search.sent (w.own s) (w.own r)).map w.global.node).flatMap fun n => p.rowsIn (n.range width.depth) := by
        rw [List.flatMap_map]
        exact List.flatMap_congr fun l hl => by rw [h.sound.prunes.range_leaf (h.mem_sent hr hs hl).1]
    _ = (((w.plan r).leaves.filter fun l => w.holder r l = s).map (w.followed r).1.leaves.node).flatMap fun n =>
          p.rowsIn (n.range width.depth) := by rw [← h.map_node_received hr hs hne]; rfl
    _ = _ := by
        rw [List.flatMap_map]
        refine List.flatMap_congr fun l hl => ?_
        have hl := (h.leaves_spec hr).2 l (List.mem_filter.1 hl).1
        rw [Leaves.range_node (h.followed_spec hr).2.2.valid hl]

/-- The rows that come to a rank are the rows of the leaves of its plan, leaf by leaf. -/
theorem Proper.map_row_origins (ps : Nat → ParticleSet width α)
    (hps : ∀ s < w.assignment.ranks, (ps s).Uniform (ps s).size)
    (hkeys : ∀ s < w.assignment.ranks, (ps s).keys = w.keys s) (hr : r < w.assignment.ranks) :
    ((origins w.assignment.ranks w.plan r).map fun o => (ps o.1).row o.2) =
      (w.plan r).leaves.flatMap fun l => (ps (w.holder r l)).rowsIn ((w.followed r).1.leaves.range l) := by
  conv_rhs => rw [← h.flatMap_holder hr, List.flatMap_assoc]
  rw [origins, List.map_flatMap]
  refine List.flatMap_congr fun s hs => ?_
  have hs := List.mem_range.1 hs
  by_cases heq : s = r
  · have hnone : ((w.plan r).leaves.filter fun l => w.holder r l = s) = [] := by
      rw [heq]
      exact h.received_self hr
    rw [if_pos heq, hnone]
    rfl
  · rw [if_neg heq, List.map_map]
    refine (h.map_row_send hr hs (Ne.symm heq) (hps s hs) (hkeys s hs)).trans (List.flatMap_congr fun l hl => ?_)
    rw [of_decide_eq_true (List.mem_filter.1 hl).2]

end Rows

/-! ## The exchange -/

section Exchange

variable {width : KeyWidth} {α β : Type} [Scalar α] {w : Setting width.depth α} {r s : Nat}
  {ps : Nat → ParticleSet width α}

/-- Whether the plans of a setting are made for the particles of the ranks: sets of one layout whose own rows have the keys
of the setting and can be spelled. Copies from an earlier exchange may stand behind the own rows. -/
structure Describes (w : Setting width.depth α) (ps : Nat → ParticleSet width α) : Prop where
  layout_eq : ∀ s < w.assignment.ranks, (ps s).layout = (ps 0).layout
  uniform : ∀ s < w.assignment.ranks, (ps s).Uniform (ps s).size
  owned_le : ∀ s < w.assignment.ranks, (ps s).owned ≤ (ps s).size
  keys_eq : ∀ s < w.assignment.ranks, (ps s).own.keys = w.keys s
  fits : ∀ s < w.assignment.ranks, ∀ j < (ps s).owned, (ps s).RowFits j

/-- What a rank holds after the exchange: its own rows, and behind them the halo section. -/
structure Exchanged (w : Setting width.depth α) (ps : Nat → ParticleSet width α) (r : Nat)
    (final : ParticleSet width α) : Prop where
  own_eq : final.own = (ps r).own
  uniform : final.Uniform ((ps r).owned + (w.plan r).haloCount)
  /-- Lists name own rows. -/
  send_lt : ∀ s < w.assignment.ranks, s ≠ r → ∀ j ∈ ((w.plan s).send r).toList, j < (ps s).owned
  /-- The rows from a rank are where the plan puts them. -/
  rows_eq : ∀ s < w.assignment.ranks, s ≠ r →
    (List.range ((w.plan r).receiveCount s)).map (fun k => final.row ((w.plan r).receiveOffset s + k)) =
      ((w.plan s).send r).toList.map (ps s).row
  /-- Nothing else is in the halo section. -/
  haloRows_eq_peers : final.haloRows = (Place.mk r w.assignment.ranks).peers.flatMap fun s =>
    ((w.plan s).send r).toList.map (ps s).row
  haloRows_eq_leaves : final.haloRows = (w.plan r).leaves.flatMap fun l =>
    (ps (w.holder r l)).own.rowsIn ((w.followed r).1.leaves.range l)
  ordered : final.haloRows.Pairwise fun row row' => ParticleSet.rowKey row ≤ ParticleSet.rowKey row'

section Describes

variable (hw : w.Describes ps) (hs : s < w.assignment.ranks)
include hw hs

theorem Describes.size_own : (ps s).own.size = (ps s).owned := by
  rw [ParticleSet.size_own, Nat.min_eq_left (hw.owned_le s hs)]

theorem Describes.size_keys : (w.keys s).size = (ps s).owned := by
  rw [← hw.keys_eq s hs]
  exact ((hw.uniform s hs).truncate (hw.owned_le s hs)).size_keys

/-- The own rows of a rank make up a set that can be packed. -/
theorem Describes.filled : (ps s).own.Filled (ps 0).kinds (ps s).own.size where
  kinds_eq := ParticleSet.kinds_eq_of_layout_eq ((ParticleSet.layout_own _).trans (hw.layout_eq s hs))
  uniform := hw.size_own hs ▸ (hw.uniform s hs).truncate (hw.owned_le s hs)
  fits j hj := by
    rw [hw.size_own hs] at hj
    exact ParticleSet.rowFits_of_eq (ParticleSet.row_own hj) (ParticleSet.kinds_truncate _ _) (hw.fits s hs j hj)

theorem Describes.withoutHalos_eq : (ps s).withoutHalos (w.plan s) = (ps s).own := by
  have hcount : (w.plan s).localCount = (ps s).owned := hw.size_keys hs
  rw [ParticleSet.withoutHalos, hcount]
  rfl

end Describes

variable (h : w.Proper) (hw : w.Describes ps)
include h hw

theorem Describes.matching : Matching w.assignment.ranks w.plan fun s => (ps s).own.size := by
  have hsize : ∀ s < w.assignment.ranks, (w.keys s).size = (ps s).own.size := fun s hs =>
    (hw.size_keys hs).trans (hw.size_own hs).symm
  obtain ⟨hlocal, hranks, hoffsets, hcounts, hlt⟩ := h.matching
  exact ⟨fun i hi => (hlocal i hi).trans (hsize i hi), hranks, fun i hi => hsize i hi ▸ hoffsets i hi, hcounts,
    fun i hi s hs j hj => hsize s hs ▸ hlt i hi s hs j hj⟩

theorem Describes.send_lt (hr : r < w.assignment.ranks) (hs : s < w.assignment.ranks) :
    ∀ j ∈ ((w.plan s).send r).toList, j < (ps s).owned := fun j hj =>
  hw.size_own hs ▸ (hw.matching h).send_lt r hr s hs j hj

/-- The rows of the leaves of a plan ascend. -/
theorem Describes.pairwise_leaves (hr : r < w.assignment.ranks) :
    ((w.plan r).leaves.flatMap fun l => (ps (w.holder r l)).own.rowsIn ((w.followed r).1.leaves.range l)).Pairwise
      fun row row' => ParticleSet.rowKey row ≤ ParticleSet.rowKey row' := by
  obtain ⟨hpairwise, hlt⟩ := h.leaves_spec hr
  have ha := h.ascends_followed hr
  refine List.pairwise_flatMap.2 ⟨fun l hl => ?_, hpairwise.imp_of_mem fun {l l'} hl hl' hll row hrow row' hrow' => ?_⟩
  · have hs : w.holder r l < w.assignment.ranks := h.tiles.rankOf_lt (ha.start_lt_bound (hlt l hl))
    exact ParticleSet.pairwise_rowsIn (hw.filled hs).uniform (hw.keys_eq _ hs ▸ h.countable.ascending _ hs) _
  · -- One leaf ends before the other one starts.
    have hkey := (ParticleSet.rowKey_mem_of_mem_rowsIn hrow).2
    have hkey' := (ParticleSet.rowKey_mem_of_mem_rowsIn hrow').1
    exact Nat.le_of_lt (Nat.lt_of_lt_of_le hkey (Nat.le_trans (ha.start_le hll (Nat.le_of_lt (hlt l' hl'))) hkey'))

variable [Wire α β] [Wire.LawfulWords α β] [Wire.LawfulScalars α β]

theorem Describes.exchanged (hr : r < w.assignment.ranks) : w.Exchanged ps r
    (ParticleSet.withHalos (β := β) w.assignment.ranks w.plan (fun s => (ps s).own) r) := by
  have hmatching := hw.matching h
  have hfilled : ∀ s < w.assignment.ranks, (ps s).own.Filled (ps 0).kinds (ps s).own.size := fun s hs => hw.filled hs
  have howned : (ps r).own.owned = (ps r).own.size := (ParticleSet.owned_own _).trans (hw.size_own hr).symm
  have hhalos := ParticleSet.haloRows_withHalos (β := β) hmatching hfilled howned hr
  have hleaves := h.map_row_origins (fun s => (ps s).own) (fun s hs => (hfilled s hs).uniform) hw.keys_eq hr
  obtain ⟨_, huniform, _, hrows⟩ := ParticleSet.withHalos_spec (β := β) hmatching hfilled hr
  have hsent : ∀ s < w.assignment.ranks, ((w.plan s).send r).toList.map (ps s).own.row =
      ((w.plan s).send r).toList.map (ps s).row := fun s hs =>
    List.map_congr_left fun j hj => ParticleSet.row_own (hw.send_lt h hr hs j hj)
  refine ⟨ParticleSet.own_withHalos hmatching (hfilled r hr).uniform howned hr, hw.size_own hr ▸ huniform,
    fun s hs _ => hw.send_lt h hr hs, fun s hs hne => ?_, ?_, hhalos.trans hleaves, ?_⟩
  · have hcount : (w.plan r).receiveCount s = ((w.plan s).send r).toList.length := by
      rw [hmatching.receiveCount_eq r hr s hs, if_neg hne, SendList.length_toList]
    have hoffset : (w.plan r).receiveOffset s =
        (ps r).own.size + (Sorted.offsets (w.plan r).receiveCounts.toList).getD s 0 := by
      rw [receiveOffset, Nat.add_comm, ← hmatching.getD_receiveOffsets hr hs, List.getD_eq_getElem?_getD,
        Array.getElem?_toList, Array.getD_eq_getD_getElem?]
    rw [← hsent s hs]
    refine List.ext_getElem (by simp [hcount]) fun k hk hk' => ?_
    rw [List.length_map] at hk'
    rw [List.getElem_map, List.getElem_map, List.getElem_range, hoffset, Nat.add_assoc,
      hrows _ _ (hmatching.getElem?_origins hr hs hne hk')]
    simp [List.getD_eq_getElem?_getD, hk']
  · rw [hhalos, origins, List.map_flatMap, Place.flatMap_peers]
    refine List.flatMap_congr fun s hs => ?_
    split
    · rfl
    · rw [List.map_map]
      exact hsent s (List.mem_range.1 hs)
  · rw [hhalos, hleaves]
    exact hw.pairwise_leaves h hr

/-- In whatever order messages arrive, an exchange gives every rank its halos: no own row changes, and the halo section
consists of the rows that the others' lists name, at the places of the plan, which are the rows of the plan's leaves in key
order. -/
theorem Proper.halo_sections : ∃ final : Nat → ParticleSet width α,
    Attempt.ComesTo (β := β) w.assignment.ranks
      (fun place => ((ps place.rank).withoutHalos (w.plan place.rank)).fetchHalos place (w.plan place.rank))
      (fun i => .ok (final i)) ∧
    (Cluster.start ((List.range w.assignment.ranks).map fun i =>
      ((((ps i).withoutHalos (w.plan i)).fetchHalos ⟨i, w.assignment.ranks⟩ (w.plan i) : Attempt α β _).run).expand
        (Call.toActions ⟨i, w.assignment.ranks⟩))).Settles ((List.range w.assignment.ranks).map fun i => .ok (final i)) ∧
    ∀ r < w.assignment.ranks, w.Exchanged ps r (final r) := by
  have hcollects : Collects w.assignment.ranks (fun i => (((ps i).withoutHalos (w.plan i)).fetchHalos
      ⟨i, w.assignment.ranks⟩ (w.plan i) : Attempt α β _).run) fun i =>
        .ok (ParticleSet.withHalos (β := β) w.assignment.ranks w.plan (fun s => (ps s).own) i) :=
    (ParticleSet.collects_fetchHalos (hw.matching h) fun s hs => hw.filled hs).congr
      (fun i hi => by rw [hw.withoutHalos_eq hi]) fun _ _ => rfl
  exact ⟨_, hcollects.comesTo fun place => Subdomain.throws_fetchHalos _ _ _, hcollects.settles,
    fun r hr => hw.exchanged h hr⟩

end Exchange

/-- Two ranks that share the octants of a unit cube, each with two particles. -/
noncomputable def twoHalves : Setting KeyWidth.narrow.depth EReal where
  global := .uniform 1
  radii := Array.replicate 8 1
  box := .unit
  curve := .hilbert
  assignment := ParticleSet.halves
  keys := fun r => if r = 0 then #[3, 2 ^ 27] else #[2 ^ 29, 7 * 2 ^ 27]
  focus := fun r => .initial r 1
  backend := fun _ => .host

/-- Their particles, with a label of the rank and a copy that is out of date. -/
noncomputable def twoSets (rank : Nat) : ParticleSet .narrow EReal :=
  let zeros : Array EReal := Array.replicate 3 0
  ⟨(twoHalves.keys rank).push 0, zeros, zeros, zeros, zeros, [⟨"id", .unsigned8, Array.replicate 3 rank⟩], 2⟩

theorem proper_twoHalves : twoHalves.Proper where
  sound := sound_unit (by decide +kernel) 8
  tiles := ParticleSet.tiles_halves
  holds := fun r hr k hk => by
    have hr : r = 0 ∨ r = 1 := by
      have : r < 2 := hr
      omega
    rcases hr with rfl | rfl
    · have : k = 3 ∨ k = 2 ^ 27 := by simpa [twoHalves] using hk
      rcases this with rfl | rfl <;> exact KeyRange.mem_iff.2 (by decide)
    · have : k = 2 ^ 29 ∨ k = 7 * 2 ^ 27 := by simpa [twoHalves] using hk
      rcases this with rfl | rfl <;> exact KeyRange.mem_iff.2 (by decide)
  countable := ⟨by decide, by decide⟩
  focus _ _ := ⟨rfl, Leaves.isValid_root _, zero_lt_one⟩

theorem describes_twoSets : twoHalves.Describes twoSets where
  layout_eq _ _ := rfl
  uniform s _ := by
    have hsize : (twoHalves.keys s).size = 2 := by
      simp only [twoHalves]
      split <;> rfl
    simp [ParticleSet.uniform_iff, twoSets, ParticleSet.size, hsize]
  owned_le _ _ := by simp [twoSets, ParticleSet.size]
  keys_eq s _ := by
    change ((twoHalves.keys s).push 0).extract 0 2 = twoHalves.keys s
    simp only [twoHalves]
    split <;> rfl
  fits s hs j hj := by
    have hrank : s = 0 ∨ s = 1 := by
      have : s < 2 := hs
      omega
    have hrow : j = 0 ∨ j = 1 := by
      have : j < 2 := hj
      omega
    rcases hrank with rfl | rfl <;> rcases hrow with rfl | rfl <;>
      simp [ParticleSet.rowFits_iff, twoSets, twoHalves] <;> decide

/-- Both ranks get the halos of their plans. -/
theorem halo_sections_two_halves : twoHalves.Proper ∧ twoHalves.Describes twoSets ∧
    ∃ final : Nat → ParticleSet .narrow EReal,
      Attempt.ComesTo (β := Exact.Symbol) 2
        (fun place => ((twoSets place.rank).withoutHalos (twoHalves.plan place.rank)).fetchHalos place
          (twoHalves.plan place.rank))
        (fun i => .ok (final i)) ∧
      ∀ r < 2, twoHalves.Exchanged twoSets r (final r) := by
  obtain ⟨final, hcomesTo, _, hfinal⟩ := proper_twoHalves.halo_sections (β := Exact.Symbol) describes_twoSets
  exact ⟨proper_twoHalves, describes_twoSets, final, hcomesTo, hfinal⟩

end HaloPlan.Setting

end CurvePartition
