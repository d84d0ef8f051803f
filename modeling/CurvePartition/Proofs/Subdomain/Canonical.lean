-- SUMMARY: The decomposition is determined by the particles of all ranks together: neither the steps before, nor how particles are spread and ordered, make a difference.
import CurvePartition.Proofs.Halo.Signs
import CurvePartition.Proofs.Subdomain.Crowding
import CurvePartition.Proofs.Subdomain.Outcomes

/-!
# Canonical decompositions

Two families of ranks with one configuration, whatever steps they have made, are given the same particles, spread and ordered
in any way. Stage by stage they come to the same: the box is fitted to the same coordinates, the same keys are balanced to the
same tree from whatever tree there was, each rank gets the same rows, the longest lengths in each leaf are the same, and the
plans send the same rows. So either all ranks of both get the same decomposition, or those of both fail with one cause
(`Subdomain.decomposition_canonical`). If it is fatal, the first rank that finds out ends the run and may cut off others, which
report the end of the run in place of the cause (`Subdomain.not_decomposition_canonical_center`).

Which of two zeros is the larger one depends on their order, so boxes and radii may differ in the signs of zeros
(`Subdomain.Shared.Alike`). No key, no tree, no row and no plan does.
-/

namespace CurvePartition

open Program HaloPlan

variable {width : KeyWidth} {α β : Type} [Scalar α] {size i j : Nat}

/-! ## Rows in any order -/

namespace ParticleSet

variable {ps s ps' s' : Nat → ParticleSet width α} {b : Box α} {curve : Curve} {order order' : Nat → List Nat}

/-- The same particles have the same keys, however they are spread. -/
theorem perm_allKeys (hs : ∀ i < size, Arranged b curve (ps i) (s i) (order i))
    (hs' : ∀ i < size, Arranged b curve (ps' i) (s' i) (order' i)) (hperm : (allData size ps').Perm (allData size ps)) :
    (Global.allKeys size fun i => (s' i).keys).Perm (Global.allKeys size fun i => (s i).keys) := by
  rw [allKeys_eq_map_rowKey fun i hi => (hs i hi).uniform_size, allKeys_eq_map_rowKey fun i hi => (hs' i hi).uniform_size]
  exact (((perm_rows_of_arranged hs').trans (hperm.map _)).trans (perm_rows_of_arranged hs).symm).map _

omit [Scalar α] in
/-- One part of many. -/
theorem flatMap_range_ite {τ : Type} (f : Nat → List τ) (hi : i < size) :
    ((List.range size).flatMap fun r => if r = i then f r else []) = f i := by
  induction size with
  | zero => exact absurd hi (Nat.not_lt_zero i)
  | succ n ih =>
    rw [List.range_succ, List.flatMap_append, List.flatMap_singleton]
    rcases Nat.lt_or_eq_of_le (Nat.le_of_lt_succ hi) with hlt | rfl
    · rw [ih hlt, if_neg (Nat.ne_of_gt hlt), List.append_nil]
    · have hbefore : ((List.range i).flatMap fun r => if r = i then f r else []) = [] :=
        List.flatMap_eq_nil_iff.2 fun r hr => if_neg (Nat.ne_of_lt (List.mem_range.1 hr))
      rw [hbefore, if_pos rfl, List.nil_append]

/-- A row of a set is one of its rows. -/
theorem mem_rows_iff {p : ParticleSet width α} {row : List (Entry α)} : row ∈ p.rows ↔ ∃ j < p.size, p.row j = row := by
  simp only [rows, List.mem_map, List.mem_range]

end ParticleSet

namespace HaloPlan.Setting

variable {depth : Nat} {w : Setting width.depth α} {r s : Nat} {p : ParticleSet width α}

/-- A rank sends the rows whose keys are in the leaves it found. -/
theorem Proper.perm_rows_sent (h : w.Proper) (hr : r < w.assignment.ranks) (hs : s < w.assignment.ranks) (hne : r ≠ s)
    (hkeys : w.keys s = p.keys) (hp : p.Uniform p.size) : (((w.plan s).send r).toList.map p.row).Perm
      (p.rows.filter fun row => (w.search.sent (w.own s) (w.own r)).any fun l =>
        decide (ParticleSet.rowKey row ∈ w.global.range l)) := by
  rw [ParticleSet.rows, List.filter_map]
  refine List.Perm.map _ ((List.perm_ext_iff_of_nodup (h.nodup_send hr hs) (List.nodup_range.filter _)).2 fun j => ?_)
  rw [h.mem_send_iff hr hs hne, hkeys, hp.size_keys, List.mem_filter, List.mem_range]
  simp only [Function.comp, ParticleSet.rowKey_row, List.any_eq_true]
  constructor
  · rintro ⟨l, hl, hj, hkey⟩
    exact ⟨hj, l, hl, decide_eq_true hkey⟩
  · rintro ⟨hj, l, hl, hkey⟩
    exact ⟨l, hl, hj, of_decide_eq_true hkey⟩

/-- The halos of a rank are the rows that all others send to it. -/
theorem Proper.perm_halos {ps : Nat → ParticleSet width α} (h : w.Proper) (hranks : w.assignment.ranks = size)
    (hkeys : ∀ s < size, w.keys s = (ps s).keys) (hps : ∀ s < size, (ps s).Uniform (ps s).size) (hi : i < size) :
    ((origins size w.plan i).map fun o => (ps o.1).row o.2).Perm
      ((List.range size).flatMap fun s => if s = i then [] else
        (ps s).rows.filter fun row => (w.search.sent (w.own s) (w.own i)).any fun l =>
          decide (ParticleSet.rowKey row ∈ w.global.range l)) := by
  rw [origins, List.map_flatMap]
  refine .flatMap_left _ fun s hs => ?_
  have hs := List.mem_range.1 hs
  by_cases heq : s = i
  · rw [if_pos heq, if_pos heq]
    exact .nil
  · rw [if_neg heq, if_neg heq, List.map_map]
    exact h.perm_rows_sent (hranks ▸ hi) (hranks ▸ hs) (Ne.symm heq) (hkeys s hs) (hps s hs)

end HaloPlan.Setting

namespace Subdomain

/-- What all ranks have in common after a step. -/
structure Shared (width : KeyWidth) (α : Type) where
  box : Box α
  tree : Leaves width.depth
  counts : Array Nat
  assignment : Option (Assignment width.depth)
  radii : Array α

/-- Decompositions whose boxes and radii differ in signs of zeros only. -/
structure Shared.Alike (c c' : Shared width α) : Prop where
  box : c.box.Alike c'.box
  tree_eq : c'.tree = c.tree
  counts_eq : c'.counts = c.counts
  assignment_eq : c'.assignment = c.assignment
  size_radii : c'.radii.size = c.radii.size
  radii : ∀ l, Scalar.Alike (c.radii.getD l 0) (c'.radii.getD l 0)

def shared (d : Subdomain width α) : Shared width α := ⟨d.box, d.tree, d.counts, d.assignment, d.radii⟩

/-- The part of a partition that subdomains keep. -/
def Partition.shared (p : Partition width α) : Shared width α := ⟨p.box, p.tree, p.counts, some p.assignment, p.radii⟩

/-! ## The first stages -/

section Stages

variable {config : Config α} {box box' : Box α} {tree tree' : Leaves width.depth} {ps ps' : Nat → ParticleSet width α}

/-- The same particles have the same box, whatever box there was before. -/
theorem commonBox_alike (hlaw : Scalar.LawfulSigns α) (hpos : 0 < size) (hbox : box.Valid) (hbox' : box'.Valid)
    (hclosed : box.SameClosed box') (hvalid : ∀ i < size, (ps i).own.Valid box) (hvalid' : ∀ i < size, (ps' i).own.Valid box')
    (hperm : (ParticleSet.allData size fun i => (ps' i).own).Perm (ParticleSet.allData size fun i => (ps i).own))
    (hsome : ParticleSet.allData size (fun i => (ps i).own) ≠ []) :
    Global.Alike (commonBox size config box ps) (commonBox size config box' ps') := by
  have hfinite : ∀ i < size, ∀ a, ∀ v ∈ ((ps i).own.coordinates.get a).toList, Scalar.isFinite v = true := fun i hi =>
    (hvalid i hi).finite_coordinates
  refine Global.fitted_alike hlaw hclosed hbox hbox' (Global.extremes_alike hlaw hpos hfinite
    (fun i hi => (hvalid' i hi).finite_coordinates) fun a v => ?_) fun a _ hnone => ?_
  · rw [ParticleSet.onAxis_iff fun i hi => (hvalid' i hi).uniform, ParticleSet.onAxis_iff fun i hi => (hvalid i hi).uniform]
    exact exists_congr fun e => and_congr_left fun _ => hperm.mem_iff.symm
  -- There is a coordinate on each axis.
  · obtain ⟨e, he⟩ := List.exists_mem_of_ne_nil _ hsome
    obtain ⟨i, hi, he⟩ := List.mem_flatMap.1 he
    obtain ⟨j, hj, _⟩ := List.mem_map.1 he
    have hi := List.mem_range.1 hi
    have hv : Global.OnAxis size (fun i => (ps i).own.coordinates) a (((ps i).own.position j).get a) :=
      ⟨i, hi, (ParticleSet.mem_coordinates_iff (hvalid i hi).uniform a).2 ⟨j, List.mem_range.1 hj, rfl⟩⟩
    obtain ⟨lo, hi', hn, hp, _, _, hle⟩ := Global.extremes_spec hlaw hpos hfinite (fun _ => config.backend) a
    obtain ⟨hlo, hhi⟩ := hle _ hv
    rw [List.getD_eq_getElem?_getD, List.getD_eq_getElem?_getD, hn, hp, Option.getD_some, Option.getD_some,
      hlaw.neg_neg (hlaw.left hlo)] at hnone
    exact absurd (hlaw.trans hlo hhi) (hlaw.lt_iff.1 hnone).2

section Same

variable (hlaw : Scalar.LawfulSigns α) (hrounds : width.depth < config.maxRounds) (hbucket : config.bucketSize * 512 < 2 ^ 64)
  (hbox : box.Valid) (htree : tree.isValid = true) (htree' : tree'.isValid = true)
  (hcommon : Global.Alike (commonBox size config box ps) (commonBox size config box' ps'))
  (hperm : (ParticleSet.allData size fun i => (ps' i).own).Perm (ParticleSet.allData size fun i => (ps i).own))
include hlaw hbox hcommon hperm

omit hcommon in
/-- Arranged in alike boxes, the same particles have the same keys. -/
theorem perm_allKeys_of_alike {b b' : Box α} (halike : b.Alike b') (h : commonBox size config box ps = .ok b)
    {s s' : Nat → ParticleSet width α} {order order' : Nat → List Nat}
    (hs : ∀ i < size, ParticleSet.Arranged b config.curve (ps i).own (s i) (order i))
    (hs' : ∀ i < size, ParticleSet.Arranged b' config.curve (ps' i).own (s' i) (order' i)) :
    (Global.allKeys size fun i => (s' i).keys).Perm (Global.allKeys size fun i => (s i).keys) := by
  obtain ⟨hvalid, _, _⟩ := Global.fitted_valid hbox h
  exact ParticleSet.perm_allKeys hs (fun i hi => (hs' i hi).of_alike hlaw halike hvalid) hperm

include hrounds hbucket htree htree'

/-- If both fail they do so for one cause. -/
theorem PrepareFails.unique {e e' : Error α} (h : PrepareFails size config box tree ps e)
    (h' : PrepareFails size config box' tree' ps' e') : e.Alike e' := by
  rcases h with h | ⟨b, s, order, h, hs, hdivided⟩ <;> rcases h' with h' | ⟨b', s', order', h', hs', hdivided'⟩ <;>
    rw [h, h'] at hcommon
  · cases hcommon with
    | error halike => exact halike
  · cases hcommon
  · cases hcommon
  · cases hcommon with
    | ok halike =>
      rcases divided_congr hbucket hrounds htree htree' (perm_allKeys_of_alike hlaw hbox hperm halike h hs hs') with
        ⟨_, he, he'⟩ | ⟨_, _, _, _, _, hok, _⟩
      · obtain rfl := (Except.error.inj (hdivided'.symm.trans he')).trans (Except.error.inj (he.symm.trans hdivided))
        exact .same _
      · cases hok.symm.trans hdivided

variable {p p' : Partition width α} {s s' local' local'' : Nat → ParticleSet width α} {order order' : Nat → List Nat}
  {origins origins' : Nat → List (Nat × Nat)}

/-- If one fails the other one does not succeed. -/
theorem PrepareFails.not_prepared {e : Error α} (h : PrepareFails size config box tree ps e)
    (h' : Prepared size config box' tree' ps' p' s' order' local'' origins') : False := by
  rcases h with h | ⟨b, s, order, h, hs, hdivided⟩ <;> rw [h, h'.box_eq] at hcommon
  · cases hcommon
  · cases hcommon with
    | ok halike =>
      rcases divided_congr hbucket hrounds htree htree' (perm_allKeys_of_alike hlaw hbox hperm halike h hs h'.arranged) with
        ⟨_, _, he'⟩ | ⟨_, _, _, _, _, hok, _⟩
      · cases he'.symm.trans h'.divided_eq
      · cases hok.symm.trans hdivided

/-- If both succeed they come to alike boxes, and to one tree and assignment. -/
theorem Prepared.parts_alike (h : Prepared size config box tree ps p s order local' origins)
    (h' : Prepared size config box' tree' ps' p' s' order' local'' origins') :
    p.box.Alike p'.box ∧ p'.tree = p.tree ∧ p'.counts = p.counts ∧ p'.assignment = p.assignment := by
  rw [h.box_eq, h'.box_eq] at hcommon
  cases hcommon with
  | ok halike =>
    rcases divided_congr hbucket hrounds htree htree'
      (perm_allKeys_of_alike hlaw hbox hperm halike h.box_eq h.arranged h'.arranged) with
      ⟨_, he, _⟩ | ⟨t, counts, _, _, a, hok, hok'⟩
    · cases he.symm.trans h.divided_eq
    · obtain ⟨rfl, rfl, _, rfl⟩ : t = p.tree ∧ counts = p.counts ∧ _ ∧ a = p.assignment := by
        simpa using hok.symm.trans h.divided_eq
      obtain ⟨htree, hcounts, _, hassignment⟩ : p.tree = p'.tree ∧ p.counts = p'.counts ∧ _ ∧ p.assignment = p'.assignment := by
        simpa using hok'.symm.trans h'.divided_eq
      exact ⟨halike, htree.symm, hcounts.symm, hassignment.symm⟩

end Same

end Stages

/-! ## Rows of a rank -/

section Rows

theorem hasLength_of_perm {tree : Leaves width.depth} {p q : ParticleSet width α} (h : q.rows.Perm p.rows) {l : Nat} {v : α}
    (hv : HasLength tree q l v) : HasLength tree p l v := by
  obtain ⟨j, hj, hkey, rfl⟩ := hv
  obtain ⟨k, hk, hrow⟩ := ParticleSet.mem_rows_iff.1 (h.mem_iff.1 (ParticleSet.mem_rows_iff.2 ⟨j, hj, rfl⟩))
  obtain ⟨hkeys, _, hlength⟩ := ParticleSet.fields_eq_of_row_eq hrow
  exact ⟨k, hk, hkeys ▸ hkey, hlength.symm⟩

theorem hasLength_iff_of_perm {tree : Leaves width.depth} {p q : ParticleSet width α} (h : q.rows.Perm p.rows) {l : Nat} {v : α} :
    HasLength tree q l v ↔ HasLength tree p l v := ⟨hasLength_of_perm h, hasLength_of_perm h.symm⟩

variable {config : Config α} {box box' : Box α} {tree tree' : Leaves width.depth} {d d' : Nat → Subdomain width α}
  {ps ps' s s' local' local'' : Nat → ParticleSet width α} {p p' : Partition width α} {order order' : Nat → List Nat}
  {origins origins' : Nat → List (Nat × Nat)}

/-- A rank has those of all rows whose keys are assigned to it. -/
theorem Prepared.rows_eq_filter (h : Prepared size config box tree ps p s order local' origins)
    (htiles : p.assignment.Tiles p.tree) (hranks : p.assignment.ranks = size) (hi : i < size) :
    (local' i).rows = ((List.range size).flatMap fun r => (local' r).rows).filter fun row =>
      decide (ParticleSet.rowKey row ∈ p.assignment.keyRange i) := by
  have hrank : ∀ r < size, (local' r).rows.filter (fun row => decide (ParticleSet.rowKey row ∈ p.assignment.keyRange i)) =
      if r = i then (local' r).rows else [] := by
    intro r hr
    have hkey : ∀ row ∈ (local' r).rows, ParticleSet.rowKey row ∈ p.assignment.keyRange r := fun row hrow => by
      obtain ⟨j, hj, rfl⟩ := ParticleSet.mem_rows_iff.1 hrow
      obtain ⟨_, _, _, _, _, hkey⟩ := h.exists_origin hr hj
      exact hkey
    split
    · rename_i heq
      exact List.filter_eq_self.2 fun row hrow => decide_eq_true (heq ▸ hkey row hrow)
    · rename_i hne
      refine List.filter_eq_nil_iff.2 fun row hrow hmem => hne ?_
      exact htiles.eq_of_mem (hranks ▸ hr) (hranks ▸ hi) (hkey row hrow) (of_decide_eq_true hmem)
  rw [List.filter_flatMap, List.flatMap_congr fun r hr => hrank r (List.mem_range.1 hr)]
  exact (ParticleSet.flatMap_range_ite (fun r => (local' r).rows) hi).symm

variable (h : Prepared size config box tree ps p s order local' origins) (hd : Peers size config box tree d)
  (hps : Admissible size ps) (h' : Prepared size config box' tree' ps' p' s' order' local'' origins')
  (hd' : Peers size config box' tree' d') (hps' : Admissible size ps') (hbucket : config.bucketSize * 512 < 2 ^ 64)
  (hperm : (ParticleSet.allData size fun i => (ps' i).own).Perm (ParticleSet.allData size fun i => (ps i).own))
  (hlaw : Scalar.LawfulSigns α) (hbox : p.box.Alike p'.box)
include h hd hps h' hd' hps' hbucket hperm hlaw hbox

/-- With alike boxes and one assignment each rank gets the same rows. -/
theorem Prepared.perm_rows_of_same (hassignment : p'.assignment = p.assignment) (hi : i < size) :
    (local'' i).rows.Perm (local' i).rows := by
  obtain ⟨_, _, htiles, hranks⟩ := h.divided_spec hd hbucket
  obtain ⟨_, _, htiles', hranks'⟩ := h'.divided_spec hd' hbucket
  rw [h.rows_eq_filter htiles hranks hi, h'.rows_eq_filter htiles' hranks' hi, hassignment]
  refine List.Perm.filter _ (((h'.perm_placed hd' hps' hbucket).trans ?_).trans (h.perm_placed hd hps hbucket).symm)
  rw [hbox.placed_eq hlaw (Global.fitted_valid hd.box_valid h.box_eq).1]
  exact hperm.map _

/-- With alike boxes, one tree and one assignment the radii are alike as well. -/
theorem Prepared.shared_alike (hzero : (0 : α) ≤ 0) (hpos : 0 < size) (htree : p'.tree = p.tree)
    (hcounts : p'.counts = p.counts) (hassignment : p'.assignment = p.assignment) : p.shared.Alike p'.shared := by
  have hlength : ∀ l v, LengthIn size p.tree local' l v ↔ LengthIn size p.tree local'' l v := fun l v =>
    or_congr_right (exists_congr fun i => and_congr_right fun hi => (hasLength_iff_of_perm
      (h.perm_rows_of_same hd hps h' hd' hps' hbucket hperm hlaw hbox hassignment hi)).symm)
  refine ⟨hbox, htree, hcounts, congrArg some hassignment, ?_, fun l => ?_⟩
  · show p'.radii.size = p.radii.size
    rw [h'.radii_eq, h.radii_eq, htree, size_radiiOf hpos, size_radiiOf hpos]
  · show Scalar.Alike (p.radii.getD l 0) (p'.radii.getD l 0)
    rw [h'.radii_eq, h.radii_eq, htree]
    exact radiiOf_alike hpos (fun i hi => h.measured hps hi) hlaw hzero (fun i hi => h'.measured hps' hi)
      (fun l _ v => hlength l v) l

/-- With alike decompositions each rank gets the same halos. -/
theorem Prepared.perm_haloRows [Wire α β] [Wire.LawfulWords α β] [Wire.LawfulScalars α β]
    (hproper : (settingOf config p d local').Proper) (hproper' : (settingOf config p' d' local'').Proper)
    (halike : p.shared.Alike p'.shared) (hi : i < size) :
    (ParticleSet.withHalos (β := β) size (settingOf config p' d' local'').plan local'' i).haloRows.Perm
      (ParticleSet.withHalos (β := β) size (settingOf config p d local').plan local' i).haloRows := by
  obtain ⟨_, _, _, hranks⟩ := h.divided_spec hd hbucket
  obtain ⟨_, _, _, hranks'⟩ := h'.divided_spec hd' hbucket
  rw [(h.connected hd hps hbucket hproper).haloRows_eq i hi, (h'.connected hd' hps' hbucket hproper').haloRows_eq i hi]
  refine ((hproper'.perm_halos hranks' (fun _ _ => rfl) (fun s hs => h'.uniform_local hs) hi).trans ?_).trans
    (hproper.perm_halos hranks (fun _ _ => rfl) (fun s hs => h.uniform_local hs) hi).symm
  refine .flatMap_left _ fun s hs => ?_
  split
  · exact .nil
  · have htree : p'.tree = p.tree := halike.tree_eq
    have hassignment : p'.assignment = p.assignment := Option.some.inj halike.assignment_eq
    have hsearch : (settingOf config p d local').search.Alike (settingOf config p' d' local'').search := by
      show (HaloSearch.make (.ofLeaves p.tree) p.radii p.box config.curve).Alike
        (HaloSearch.make (.ofLeaves p'.tree) p'.radii p'.box config.curve)
      rw [htree]
      exact HaloSearch.make_alike hlaw halike.box halike.radii
    have hsame : ∀ row : List (Entry α), (((settingOf config p' d' local'').search.sent ((settingOf config p' d' local'').own s)
        ((settingOf config p' d' local'').own i)).any fun l =>
          decide (ParticleSet.rowKey row ∈ (settingOf config p' d' local'').global.range l)) =
        (((settingOf config p d local').search.sent ((settingOf config p d local').own s)
        ((settingOf config p d local').own i)).any fun l =>
          decide (ParticleSet.rowKey row ∈ (settingOf config p d local').global.range l)) := fun row => by
      rw [hsearch.sent_eq hlaw]
      simp only [settingOf, Setting.own, htree, hassignment]
      rfl
    simp only [hsame]
    exact (h.perm_rows_of_same hd hps h' hd' hps' hbucket hperm hlaw hbox hassignment (List.mem_range.1 hs)).filter _

end Rows

/-! ## Whole steps -/

section Whole

variable {config : Config α} {d d' : Nat → Subdomain width α} {ps ps' : Nat → ParticleSet width α}
  {layout : List (String × ElementKind)} [Wire α β] [Wire.LawfulWords α β] [Wire.LawfulScalars α β]

/-- What rank `i` has after a step that succeeded: what it has in common with all others, and its own rows in order. -/
structure Holds (shared : Shared width α) (r : Except (Error α) (Report α) × StepState width α) : Prop where
  ok : ∃ report, r.1 = .ok report
  shared_eq : r.2.subdomain.shared = shared
  ascending : Sorted.Ascending r.2.particles.own.keys

section Holds

variable {box : Box α} {tree : Leaves width.depth} {s local' : Nat → ParticleSet width α} {p : Partition width α}
  {order : Nat → List Nat} {origins : Nat → List (Nat × Nat)}
  (h : Prepared size config box tree ps p s order local' origins) (hd : Peers size config box tree d)
  (hbucket : config.bucketSize * 512 < 2 ^ 64) (hproper : (settingOf config p d local').Proper)
include h hd hbucket hproper

omit [Wire.LawfulWords α β] [Wire.LawfulScalars α β] in
theorem Prepared.own_withHalos (hi : i < size) :
    (ParticleSet.withHalos (β := β) size (settingOf config p d local').plan local' i).own = local' i :=
  ParticleSet.own_withHalos (h.matching hd hbucket hproper) (h.uniform_local hi) (h.owned_local hi) hi

omit [Wire.LawfulWords α β] [Wire.LawfulScalars α β] in
theorem Prepared.holds (hi : i < size) (report : Report α) : Holds p.shared
    (.ok report, ⟨(d i).commit p ((settingOf config p d local').followed i).1 ((settingOf config p d local').plan i)
      (local' i).size, ParticleSet.withHalos (β := β) size (settingOf config p d local').plan local' i⟩) where
  ok := ⟨report, rfl⟩
  shared_eq := rfl
  ascending := by
    rw [h.own_withHalos hd hbucket hproper hi]
    exact h.ascending i hi

end Holds

/-- Whatever steps two families of ranks with one configuration have made, and however the same particles are spread over
them: if nobody loses patience, their steps never get stuck and come to the same, a failure of all ranks of both or the same
box, tree, counts, assignment and radii on every rank, with the same own rows and the same halos on each. Only the signs of zeros
in boxes and radii may differ. A fatal failure need not be reported by all ranks, as the first one that has it may end the run and
cut off others. -/
theorem decomposition_canonical (hcells : LawfulCells α width.depth config.curve) (hlaw : Scalar.LawfulSigns α) (hpos : 0 < size)
    (hsize : size < 2 ^ 64) (hrounds : width.depth < config.maxRounds) (hbucket : config.bucketSize * 512 < 2 ^ 64)
    (hd : Reachable β size config d) (hd' : Reachable β size config d') (hps : Admissible size ps) (hps' : Admissible size ps')
    (hvalid : ∀ i < size, (ps i).own.Valid config.box) (hvalid' : ∀ i < size, (ps' i).own.Valid config.box)
    (hlayout : ∀ i < size, (ps i).layout = layout) (hlayout' : ∀ i < size, (ps' i).layout = layout)
    (hperm : (ParticleSet.allData size fun i => (ps' i).own).Perm (ParticleSet.allData size fun i => (ps i).own))
    (hsome : ParticleSet.allData size (fun i => (ps i).own) ≠ []) :
    (stepping (β := β) size fun i => ⟨d i, ps i⟩).NeverStuck ∧ (stepping (β := β) size fun i => ⟨d' i, ps' i⟩).NeverStuck ∧
    ∀ results results', CompletesInTurns (β := β) size (fun i => ⟨d i, ps i⟩) results →
      CompletesInTurns (β := β) size (fun i => ⟨d' i, ps' i⟩) results' →
      (∃ e e' : Error α, e.Alike e' ∧ FailsWith size e results ∧ FailsWith size e' results') ∨
      ∃ shared shared' : Shared width α, shared.Alike shared' ∧ ∀ i < size, Holds shared (results i) ∧ Holds shared' (results' i) ∧
        (results' i).2.particles.own.rows.Perm (results i).2.particles.own.rows ∧
        (results' i).2.particles.haloRows.Perm (results i).2.particles.haloRows := by
  obtain ⟨box, tree, hpeers, hfocus⟩ := hd.octrees hcells hpos hsize
  obtain ⟨box', tree', hpeers', hfocus'⟩ := hd'.octrees hcells hpos hsize
  have haccepted : Accepted size box ps := ⟨fun i hi => (hvalid i hi).of_sameClosed hpeers.closed,
    fun i hi => (hlayout i hi).trans (hlayout 0 hpos).symm⟩
  have haccepted' : Accepted size box' ps' := ⟨fun i hi => (hvalid' i hi).of_sameClosed hpeers'.closed,
    fun i hi => (hlayout' i hi).trans (hlayout' 0 hpos).symm⟩
  have hcommon : Global.Alike (commonBox size config box ps) (commonBox size config box' ps') :=
    commonBox_alike hlaw hpos hpeers.box_valid hpeers'.box_valid (hpeers.closed.symm.trans hpeers'.closed) haccepted.valid
      haccepted'.valid hperm hsome
  rcases hpeers.collects_outcome (β := β) hps hpos hsize hbucket hcells hfocus haccepted with ⟨e, rest, hfails, hstages⟩ |
    ⟨p, s, order, local', origins, reports, h, _, hstages⟩
  all_goals
    rcases hpeers'.collects_outcome (β := β) hps' hpos hsize hbucket hcells hfocus' haccepted' with
      ⟨e', rest', hfails', hstages'⟩ | ⟨p', s', order', local'', origins', reports', h', _, hstages'⟩
  · have halike := hfails.unique hlaw hrounds hbucket hpeers.box_valid hpeers.tree_valid hpeers'.tree_valid hcommon hperm hfails'
    refine ⟨neverStuck_stepping hstages.succeeds, neverStuck_stepping hstages'.succeeds,
      fun results results' hrun hrun' => .inl ⟨e, e', halike, ?_, ?_⟩⟩
    · exact hrun.failsWith hstages hpos fun _ _ => rfl
    · exact hrun'.failsWith hstages' hpos fun _ _ => rfl
  · exact (hfails.not_prepared hlaw hrounds hbucket hpeers.box_valid hpeers.tree_valid hpeers'.tree_valid hcommon hperm h').elim
  · exact (hfails'.not_prepared hlaw hrounds hbucket hpeers'.box_valid hpeers'.tree_valid hpeers.tree_valid hcommon.symm
      hperm.symm h).elim
  · obtain ⟨hbox, htree, hcounts, hassignment⟩ :=
      h.parts_alike hlaw hrounds hbucket hpeers.box_valid hpeers.tree_valid hpeers'.tree_valid hcommon hperm h'
    have halike := h.shared_alike hpeers hps h' hpeers' hps' hbucket hperm hlaw hbox hcells.radii.zero_le_zero hpos htree hcounts
      hassignment
    have hproper := h.proper hpeers hps hbucket hcells hfocus hpos
    have hproper' := h'.proper hpeers' hps' hbucket hcells hfocus' hpos
    refine ⟨neverStuck_stepping hstages.succeeds, neverStuck_stepping hstages'.succeeds,
      fun results results' hrun hrun' => .inr ⟨p.shared, p'.shared, halike, fun i hi => ?_⟩⟩
    rw [(hrun.cutShort hstages.succeeds).eq_of_not_fatal (fun _ _ _ he => nomatch he) hi,
      (hrun'.cutShort hstages'.succeeds).eq_of_not_fatal (fun _ _ _ he => nomatch he) hi]
    have hown := h.own_withHalos (β := β) hpeers hbucket hproper hi
    have hown' := h'.own_withHalos (β := β) hpeers' hbucket hproper' hi
    refine ⟨h.holds hpeers hbucket hproper hi _, h'.holds hpeers' hbucket hproper' hi _, ?_, ?_⟩
    · rw [successOf, successOf, hown, hown']
      exact h.perm_rows_of_same hpeers hps h' hpeers' hps' hbucket hperm hlaw hbox hassignment hi
    · exact h.perm_haloRows hpeers hps h' hpeers' hps' hbucket hperm hlaw hbox hproper hproper' halike hi

end Whole

/-! ## Particles given to the ranks in one way or the other -/

/-- Ranks that exchange their places have the same particles together. -/
theorem perm_allData_single (v : Nat → EReal) {place : Nat → Nat} (hplace : ((List.range size).map place).Perm (List.range size)) :
    (ParticleSet.allData size fun i => (single (v (place i)) (place i)).own).Perm
      (ParticleSet.allData size fun i => (single (v i) i).own) := by
  have hall : ∀ place : Nat → Nat, (ParticleSet.allData size fun i => (single (v (place i)) (place i)).own) =
      ((List.range size).map place).map fun rank => (single (v rank) rank).data 0 := fun place => by
    rw [ParticleSet.allData, List.map_map, List.map_eq_flatMap]
    simp only [own_single]
    rfl
  have hid := hall id
  rw [List.map_id] at hid
  rw [hall, show (ParticleSet.allData size fun i => (single (v i) i).own) = _ from hid]
  exact hplace.map _

theorem allData_single_ne_nil (hpos : 0 < size) (v : Nat → EReal) :
    ParticleSet.allData size (fun i => (single (v i) i).own) ≠ [] := by
  refine List.ne_nil_of_mem (a := (single (v 0) 0).data 0) (List.mem_flatMap.2 ⟨0, List.mem_range.2 hpos, ?_⟩)
  show _ ∈ (List.range (single (v 0) 0).own.size).map (single (v 0) 0).own.data
  rw [own_single]
  exact List.mem_singleton_self _

/-- Two particles in opposite corners of a cube are shared out, three in its center are too many for a bucket of one. -/
theorem decomposition_canonical_corners_center :
    (∃ results results' shared shared',
      CompletesInTurns (β := Exact.Symbol) 2 (fun i => ⟨initial ⟨i, 2⟩ (walled 64), corners i⟩) results ∧
      CompletesInTurns (β := Exact.Symbol) 2 (fun i => ⟨initial ⟨i, 2⟩ (walled 64), corners (1 - i)⟩) results' ∧
      shared.Alike shared' ∧ ∀ i < 2, Holds shared (results i) ∧ Holds shared' (results' i) ∧
        (results' i).2.particles.own.rows.Perm (results i).2.particles.own.rows ∧
        (results' i).2.particles.haloRows.Perm (results i).2.particles.haloRows) ∧
    ∃ results results' e e',
      CompletesInTurns (β := Exact.Symbol) 3 (fun i => ⟨initial ⟨i, 3⟩ crowded, centered i⟩) results ∧
      CompletesInTurns (β := Exact.Symbol) 3 (fun i => ⟨initial ⟨i, 3⟩ crowded, centered (2 - i)⟩) results' ∧
      (∃ j < 3, (results j).1 = .error (.communication (.aborted 0 2))) ∧
      e.Alike e' ∧ FailsWith 3 e results ∧ FailsWith 3 e' results' := by
  constructor
  · have hbucket : (walled 64).bucketSize * 512 < 2 ^ 64 := show 64 * 512 < 2 ^ 64 by decide
    have hrounds : KeyWidth.narrow.depth < (walled 64).maxRounds := show KeyWidth.narrow.depth < 64 by decide
    have hswapped : Admissible 2 fun i => corners (1 - i) := admissible_single (by decide) _ (by decide)
    obtain ⟨_, _, _, _, _, _, _, _, hstages⟩ := collects_step_corners (show 0 < 64 by decide)
    have hrun := exists_completesInTurns hstages.succeeds
    obtain ⟨_, hstuck, hall⟩ := decomposition_canonical (β := Exact.Symbol) (Exact.lawfulCells _ _) Exact.lawfulSigns
      (by decide) (by decide) hrounds hbucket (.start (make_walled (by decide))) (.start (make_walled (by decide)))
      admissible_corners hswapped (accepted_corners 64).valid (fun i _ => (accepted_corners 64).valid (1 - i) (by omega))
      (show ∀ i < 2, (corners i).layout = (corners 0).layout from fun _ _ => rfl)
      (show ∀ i < 2, (corners (1 - i)).layout = (corners 0).layout from fun _ _ => rfl)
      (perm_allData_single (fun rank => if rank = 0 then 0 else 1) (by decide))
      (allData_single_ne_nil (by decide) _)
    obtain ⟨results', hrun'⟩ := hstuck.exists_results (by decide)
    rcases hall _ results' hrun hrun' with ⟨_, _, _, ⟨⟨_, _, herror, _⟩, _⟩, _⟩ | ⟨shared, shared', hshared⟩
    · cases herror
    · exact ⟨_, results', shared, shared', hrun, hrun', hshared⟩
  · have hbucket : crowded.bucketSize * 512 < 2 ^ 64 := show 1 * 512 < 2 ^ 64 by decide
    have hrounds : KeyWidth.narrow.depth < crowded.maxRounds := show KeyWidth.narrow.depth < 64 by decide
    have hswapped : Admissible 3 fun i => centered (2 - i) := admissible_single (by decide) _ (by decide)
    obtain ⟨key, results, hrun, hzero, hcut⟩ := exists_cut_off_centered
    obtain ⟨_, hstuck, hall⟩ := decomposition_canonical (β := Exact.Symbol) (Exact.lawfulCells _ _) Exact.lawfulSigns
      (by decide) (by decide) hrounds hbucket (.start make_crowded) (.start make_crowded) admissible_centered hswapped
      (fun i _ => valid_centered i) (fun i _ => valid_centered (2 - i))
      (show ∀ i < 3, (centered i).layout = (centered 0).layout from fun _ _ => rfl)
      (show ∀ i < 3, (centered (2 - i)).layout = (centered 0).layout from fun _ _ => rfl)
      (perm_allData_single (fun _ => (((1 / 2 : ℚ) : ℝ) : EReal)) (by decide)) (allData_single_ne_nil (by decide) _)
    obtain ⟨results', hrun'⟩ := hstuck.exists_results (by decide)
    rcases hall results results' hrun hrun' with ⟨e, e', hfails⟩ | ⟨_, _, _, hshared⟩
    · exact ⟨results, results', e, e', hrun, hrun', hcut, hfails⟩
    · obtain ⟨⟨⟨report, hreport⟩, _, _⟩, _⟩ := hshared 0 (by decide)
      cases hzero.symm.trans hreport

/-- The three in the center, given to the same ranks in the same way: the ranks neither all succeed nor all fail with the same
error when the first one that has found the crowded key cuts off another one. -/
theorem not_decomposition_canonical_center : crowded.check = .ok () ∧ KeyWidth.narrow.depth < crowded.maxRounds ∧
    crowded.bucketSize * 512 < 2 ^ 64 ∧
    Reachable Exact.Symbol 3 crowded (fun i => (initial ⟨i, 3⟩ crowded : Subdomain .narrow EReal)) ∧ Admissible 3 centered ∧
    (∀ i < 3, (centered i).own.Valid crowded.box) ∧ (∀ i < 3, (centered i).layout = (centered 0).layout) ∧
    ∃ key results, CompletesInTurns (β := Exact.Symbol) 3 (fun i => ⟨initial ⟨i, 3⟩ crowded, centered i⟩) results ∧
      (results 0).1 = .error (.imbalance (.unsplittable key 3 1)) ∧
      (∃ j < 3, (results j).1 = .error (.communication (.aborted 0 2))) ∧
      (¬ ∃ e, ∀ i < 3, (results i).1 = .error e) ∧ ¬ ∀ i < 3, ∃ report, (results i).1 = .ok report := by
  obtain ⟨key, results, hrun, hzero, j, hj, hcut⟩ := exists_cut_off_centered
  refine ⟨check_crowded, show KeyWidth.narrow.depth < 64 by decide, show 1 * 512 < 2 ^ 64 by decide, .start make_crowded,
    admissible_centered, fun i _ => valid_centered i, fun _ _ => rfl, key, results, hrun, hzero, ⟨j, hj, hcut⟩,
    fun ⟨e, hall⟩ => ?_, fun hall => ?_⟩
  · cases hzero.symm.trans ((hall 0 (by decide)).trans ((hall j hj).symm.trans hcut))
  · obtain ⟨report, hreport⟩ := hall 0 (by decide)
    cases hzero.symm.trans hreport

end Subdomain

end CurvePartition
