-- SUMMARY: An updated focus tree is canonical: the global tree and the criterion determine it, it shows the global leaves among the own keys, and its counts are those of the global leaves.
import CurvePartition.Proofs.Focus.Settling
import CurvePartition.Proofs.Space.Regions

/-!
# Canonical focus trees

Where an update ends does not depend on the tree it starts from: there is one tree of the shape that the global tree and
the criterion tell (`Focus.Canonical`). A cell among the own keys is at no distance of them, so it needs resolution, and
the leaves there are those of the global tree. Each leaf starts and ends where global leaves do, so its count is the sum of
theirs. `Focus.update_canonical` puts this together with the rounds on the way.
-/

namespace CurvePartition

open Key Node

variable {depth : Nat} {α : Type} [Scalar α]

/-! ## Leaves inside a key range -/

namespace Leaves

variable {t : Leaves depth} {n : Node} {r : KeyRange} {i : Nat}

/-- The leaves inside a key range, as nodes in key order. -/
def nodesIn (t : Leaves depth) (r : KeyRange) : List Node :=
  ((List.range t.count).filter fun i => (t.range i).within r).map t.node

/-- Sum of the counts of the leaves inside a key range. -/
def countIn (t : Leaves depth) (counts : Array Nat) (r : KeyRange) : Nat :=
  (((List.range t.count).filter fun i => (t.range i).within r).map fun i => counts.getD i 0).sum

/-- A leaf inside a range is a node of the tree there that is not split. -/
theorem mem_nodesIn_iff (ht : t.isValid = true) :
    n ∈ t.nodesIn r ↔ t.HasNode n ∧ ¬ t.Splits n ∧ (n.range depth).within r = true := by
  simp only [nodesIn, List.mem_map, List.mem_filter, List.mem_range]
  constructor
  · rintro ⟨i, ⟨hi, hwithin⟩, rfl⟩
    exact ⟨hasNode_node ht hi, not_splits_node ht hi, by rwa [range_node ht hi]⟩
  · rintro ⟨hn, hnot, hwithin⟩
    obtain ⟨i, hi, rfl⟩ := hn.exists_node ht hnot
    exact ⟨i, ⟨hi, by rwa [← range_node ht hi]⟩, rfl⟩

theorem pairwise_nodesIn (ht : t.isValid = true) (r : KeyRange) : (t.nodesIn r).Pairwise fun m n => m.first < n.first := by
  refine List.pairwise_map.2 ((List.pairwise_lt_range.filter _).imp_of_mem fun {k l} _ hl hlt => ?_)
  have hl := List.mem_range.1 (List.mem_filter.1 hl).1
  exact (ascends_of_isValid ht).start_lt hlt (Nat.le_of_lt hl)

/-- A node of a tree starts and ends on boundaries. -/
theorem HasNode.bounds (hn : t.HasNode n) (ht : t.isValid = true) : t.Bounds (n.range depth) := by
  have ha := ascends_of_isValid ht
  have hclosed := closed_of_isValid ht
  rcases Nat.eq_zero_or_pos n.level with hzero | hpos
  · obtain rfl := hn.1.eq_root hzero
    exact ⟨⟨0, Nat.zero_le _, ha.start_zero⟩, ⟨t.count, Nat.le_refl _, ha.start_count.trans (stop_root depth).symm⟩⟩
  · have hs := hn.2.resolve_left (Nat.ne_of_gt hpos)
    have hp := hn.1.parent
    have hlt := hs.level_lt hp
    obtain ⟨octant, ho, heq⟩ := child_eq_ancestor_or hn.1 hpos
    rw [heq]
    refine ⟨hclosed _ hp hs octant ho, ?_⟩
    rw [range_last]
    -- An octant ends where the next one starts, the last one where the parent ends.
    rcases Nat.lt_or_eq_of_le (Nat.le_of_lt_succ ho) with hlt7 | rfl
    · rw [child_stop]
      exact hclosed _ hp hs (octant + 1) (by omega)
    · rw [child_seven_stop hlt]
      exact hclosed.isBoundary_stop ha hp hs

/-- The counts of the leaves between two boundaries are told by the running sums. -/
theorem countIn_eq (ht : t.isValid = true) {counts : Array Nat} (hsize : counts.size = t.count) {j k : Nat}
    (hjk : j ≤ k) (hk : k ≤ t.count) : t.countIn counts ⟨t.start j, t.start k⟩ =
      (Sorted.runningSums counts).getD k 0 - (Sorted.runningSums counts).getD j 0 := by
  have ha := ascends_of_isValid ht
  have hwithin : ∀ i < t.count, (t.range i).within ⟨t.start j, t.start k⟩ = decide (j ≤ i ∧ i < k) := by
    intro i hi
    rw [Bool.eq_iff_iff, KeyRange.within, Bool.and_eq_true, decide_eq_true_eq, decide_eq_true_eq, decide_eq_true_eq]
    refine and_congr ?_ ?_
    · exact ⟨fun h => Nat.not_lt.1 fun hlt => Nat.not_le.2 (ha.start_lt hlt (by omega)) h,
        fun h => ha.start_le h (Nat.le_of_lt hi)⟩
    · exact ⟨fun h => Nat.not_le.1 fun hle => Nat.not_le.2 (ha.start_lt (Nat.lt_succ_of_le hle) hi) h,
        fun h => ha.start_le h hk⟩
  -- Up to each leaf, the leaves in between add up to the difference of the running sums so far.
  have upTo : ∀ n ≤ t.count, (((List.range n).filter fun i => (t.range i).within ⟨t.start j, t.start k⟩).map
      fun i => counts.getD i 0).sum + (Sorted.runningSums counts).getD (min n j) 0 =
        (Sorted.runningSums counts).getD (min n k) 0 := by
    intro n hn
    induction n with
    | zero => simp
    | succ n ih =>
      have ih := ih (Nat.le_of_succ_le hn)
      have hnext := Sorted.getD_runningSums_succ (hsize ▸ hn : n < counts.size)
      rw [List.range_succ, List.filter_append, List.map_append, List.sum_append, List.filter_singleton, hwithin n hn]
      rcases Nat.lt_or_ge n j with hnj | hnj
      · rw [Nat.min_eq_left (by omega)] at ih ⊢
        rw [Nat.min_eq_left (by omega)] at ih ⊢
        simpa [Nat.not_le.2 hnj] using ih
      · rcases Nat.lt_or_ge n k with hnk | hnk
        · rw [Nat.min_eq_right hnj, Nat.min_eq_left (Nat.le_of_lt hnk)] at ih
          rw [Nat.min_eq_right (by omega), Nat.min_eq_left (by omega), hnext, ← ih]
          simp only [hnj, hnk, and_self, decide_true, cond_true, List.map_cons, List.map_nil, List.sum_singleton]
          omega
        · rw [Nat.min_eq_right hnj, Nat.min_eq_right hnk] at ih
          rw [Nat.min_eq_right (by omega), Nat.min_eq_right (by omega), ← ih]
          simp [Nat.not_lt.2 hnk]
  have hall := upTo t.count (Nat.le_refl _)
  rw [Nat.min_eq_right hk, Nat.min_eq_right (Nat.le_trans hjk hk)] at hall
  rw [← hall, Nat.add_sub_cancel]
  rfl

end Leaves

namespace Focus

open Leaves

variable {global t : Leaves depth} {criterion : Criterion α} {n k : Nat}

/-! ## Rounds -/

/-- Changes of all leaves in a round. -/
def changes (global : Leaves depth) (criterion : Criterion α) (t : Leaves depth) : List LeafChange :=
  (List.range t.count).map (change global criterion t)

/-- A number of rounds of changes, each of which changes the tree. -/
inductive Rounds (global : Leaves depth) (criterion : Criterion α) : Nat → Leaves depth → Leaves depth → Prop where
  | none (t : Leaves depth) : Rounds global criterion 0 t t
  | more {n : Nat} {t t' : Leaves depth} (first : isStable (changes global criterion t) = false)
    (rest : Rounds global criterion n (t.apply (changes global criterion t)) t') : Rounds global criterion (n + 1) t t'

section Monotone

variable (hc : criterion.Monotone depth) (hglobal : global.isValid = true)
include hc hglobal

/-- Every tree on the way is an octree, and there are no more rounds than levels left to settle. -/
theorem Rounds.spec {t' : Leaves depth} (h : Rounds global criterion n t t') (ht : t.isValid = true)
    (hk : t.SettlesIn (Wanted global criterion) k) : t'.isValid = true ∧ n ≤ k := by
  have hshape : IsShape depth (Wanted global criterion) := isShape_wanted hc
  induction h generalizing k with
  | none => exact ⟨ht, Nat.zero_le k⟩
  | more first _ ih =>
    have hadapts := adapts_changes hc hglobal ht
    cases k with
    | zero =>
      have hstable := (isStable_iff_hasShape hshape ht hadapts).2 (hk.hasShape hshape ht)
      exact absurd hstable (Bool.eq_false_iff.1 first)
    | succ k =>
      obtain ⟨ht', hle⟩ := ih (isValid_apply ht hadapts) (hk.apply hshape ht hadapts)
      exact ⟨ht', Nat.succ_le_succ hle⟩

end Monotone

/-- What settles does so by rounds. -/
theorem rounds_of_settle {fuel rounds total : Nat} {t' : Leaves depth}
    (h : settle global criterion fuel rounds t = (t', some total)) :
    ∃ n, total = rounds + n ∧ Rounds global criterion n t t' := by
  induction fuel generalizing rounds t with
  | zero =>
    rw [settle] at h
    split at h
    · cases h
      exact ⟨0, rfl, .none _⟩
    · cases h
  | succ fuel ih =>
    rw [settle] at h
    split at h
    · cases h
      exact ⟨0, rfl, .none _⟩
    · rename_i hunstable
      obtain ⟨n, htotal, hrounds⟩ := ih h
      exact ⟨n + 1, by omega, .more (Bool.eq_false_iff.2 hunstable) hrounds⟩

/-- What settled has no leaf to change. -/
theorem isStable_of_settle {fuel rounds total : Nat} {t' : Leaves depth}
    (h : settle global criterion fuel rounds t = (t', some total)) : isStable (changes global criterion t') = true := by
  induction fuel generalizing rounds t with
  | zero =>
    rw [settle] at h
    split at h
    · cases h
      assumption
    · cases h
  | succ fuel ih =>
    rw [settle] at h
    split at h
    · cases h
      assumption
    · exact ih h

theorem settle_of_isStable (fuel rounds : Nat) (h : isStable (changes global criterion t) = true) :
    settle global criterion fuel rounds t = (t, some rounds) := by
  cases fuel <;> rw [settle] <;> exact if_pos h

/-! ## Canonical trees -/

/-- A focus tree that the global tree with its counts and the criterion determine. -/
structure Canonical (f : Focus depth α) (global : Leaves depth) (counts : Array Nat) (criterion : Criterion α) : Prop where
  valid : f.leaves.isValid = true
  /-- A cell is split exactly if the global tree splits it and it needs resolution. -/
  splits_iff : ∀ n, n.IsCell depth →
    (f.leaves.Splits n ↔ global.Splits n ∧ criterion.needsResolution depth n = true)
  /-- There is no other tree like this. -/
  unique : ∀ t : Leaves depth, t.isValid = true →
    (∀ n, n.IsCell depth → (t.Splits n ↔ global.Splits n ∧ criterion.needsResolution depth n = true)) → t = f.leaves
  /-- The leaves among the own keys are the global leaves there. -/
  nodesIn_own : f.leaves.nodesIn f.own = global.nodesIn f.own
  size_counts : f.counts.size = f.leaves.count
  /-- A leaf counts what the global leaves inside it count. -/
  counts_eq : ∀ l < f.leaves.count, f.counts.getD l 0 = global.countIn counts (f.leaves.range l)

section Settled

variable {f : Focus depth α} {counts : Array Nat} (h : f.Settled global counts criterion)
  (hglobal : global.isValid = true)
include h hglobal

/-- The leaves inside a range where every cell needs resolution are the global leaves. -/
theorem Settled.nodesIn_eq {r : KeyRange} (hc : criterion.Monotone depth)
    (hnear : ∀ n : Node, n.IsCell depth → (n.range depth).within r = true → criterion.needsResolution depth n = true) :
    f.leaves.nodesIn r = global.nodesIn r := by
  refine Sorted.eq_of_mem_iff (fun _ _ => Nat.lt_asymm) (pairwise_nodesIn h.valid r) (pairwise_nodesIn hglobal r)
    fun n => ?_
  rw [mem_nodesIn_iff h.valid, mem_nodesIn_iff hglobal, ← and_assoc, ← and_assoc]
  refine and_congr_left fun hwithin => ?_
  constructor
  · rintro ⟨⟨hn, hparent⟩, hnot⟩
    refine ⟨⟨hn, hparent.imp_right fun hs => ((h.shape _ hn.parent).1 hs).1⟩, fun hs => hnot ?_⟩
    exact (h.shape n hn).2 ⟨hs, hnear n hn hwithin⟩
  · rintro ⟨⟨hn, hparent⟩, hnot⟩
    have hup : n.Inside depth (n.parent depth) := n.inside_ancestor (Nat.sub_le _ _)
    refine ⟨⟨hn, hparent.imp_right fun hs => (h.shape _ hn.parent).2 ⟨hs, ?_⟩⟩, fun hs => hnot ((h.shape n hn).1 hs).1⟩
    exact hc.needsResolution hn hn.parent hup (hnear n hn hwithin)

/-- The counts of a settled focus tree are sums of global counts. -/
theorem Settled.getD_counts (hsize : counts.size = global.count) {l : Nat} (hl : l < f.leaves.count) :
    f.counts.getD l 0 = global.countIn counts (f.leaves.range l) := by
  have ha := ascends_of_isValid hglobal
  have hbounds := (h.hasNode hl).bounds hglobal
  rw [range_node h.valid hl] at hbounds
  obtain ⟨⟨j, hj, hfirst⟩, ⟨k, hk, hlast⟩⟩ := hbounds
  have hrange : f.leaves.range l = ⟨global.start j, global.start k⟩ := by rw [hfirst, hlast]
  have hlt : global.start j < global.start k := by
    rw [hfirst, hlast]
    exact (ascends_of_isValid h.valid).lt_succ l hl
  rw [hrange, countIn_eq hglobal hsize (Nat.le_of_lt (ha.lt_of_start_lt hj hlt)) hk, h.counts_eq]
  simp [sumCounts, Array.getD, hl, leavesIn, hrange, firstFrom_start ha hj, firstFrom_start ha hk]

end Settled

/-! ## The update -/

variable {counts : Array Nat} {assignment : Assignment depth} {box : Box α} {curve : Curve} {radius : α}

/-- Another update like one that settled has nothing to do. -/
theorem update_again {f f' : Focus depth α} (h : f.update global counts assignment box curve radius = (f', .ok n)) :
    f'.update global counts assignment box curve radius = (f', .ok 0) := by
  unfold update at h
  dsimp only at h
  split at h
  · cases h
  · rename_i leaves rounds hsettle
    cases h
    unfold update
    simp only [settle_of_isStable _ _ (isStable_of_settle hsettle)]

/-- A cell among the own keys needs resolution, as it lies in a cell of their cover. -/
theorem needsResolution_of_within {f : Focus depth α}
    (hc : (criterionOf f assignment box curve radius).Monotone depth) (hzero : Scalar.LawfulZero α)
    (hbounded : box.Bounded depth curve) (hlast : (assignment.keyRange f.rank).last ≤ bound depth) {n : Node}
    (hn : n.IsCell depth) (hwithin : (n.range depth).within (assignment.keyRange f.rank) = true) :
    (criterionOf f assignment box curve radius).needsResolution depth n = true := by
  simp only [KeyRange.within, Bool.and_eq_true, decide_eq_true_eq] at hwithin
  obtain ⟨c, hcover, hin⟩ := exists_mem_cover hlast hn hwithin.1 hwithin.2
  have hcells : ∀ c ∈ cover depth (assignment.keyRange f.rank).first (assignment.keyRange f.rank).last,
      c.IsCell depth := fun c hc => (isCell_of_mem_cover hlast hc).1
  have hdistance := Box.distanceToAny_le_zero hc.order hzero hc.nests hbounded hcells hn hcover hin
  rw [Criterion.needsResolution, Bool.or_eq_true, decide_eq_true_eq]
  exact .inl (hc.order.trans hdistance hc.radius)

/-- From whatever octree it starts, an update succeeds after at most as many rounds as there are levels, through octrees
only, and ends at the canonical focus tree, where another update has nothing to do. -/
theorem update_canonical (f : Focus depth α) (horder : Scalar.LawfulOrder α) (hzero : Scalar.LawfulZero α)
    (hnests : box.Nests depth curve) (hbounded : box.Bounded depth curve) (hglobal : global.isValid = true)
    (hsize : counts.size = global.count) (hf : f.leaves.isValid = true)
    (hlast : (assignment.keyRange f.rank).last ≤ bound depth) (hradius : 0 ≤ radius) (htheta : 0 < f.theta) :
    (∀ n t, Rounds global (criterionOf f assignment box curve radius) n f.leaves t → t.isValid = true ∧ n ≤ depth) ∧
    ∃ (f' : Focus depth α) (n : Nat), f.update global counts assignment box curve radius = (f', .ok n) ∧ n ≤ depth ∧
      Rounds global (criterionOf f assignment box curve radius) n f.leaves f'.leaves ∧
      f'.own = assignment.keyRange f.rank ∧
      f'.Canonical global counts (criterionOf f assignment box curve radius) ∧
      f'.update global counts assignment box curve radius = (f', .ok 0) := by
  have hc : (criterionOf f assignment box curve radius).Monotone depth :=
    ⟨horder, hnests, ⟨_, fun _ hc => (isCell_of_mem_cover hlast hc).1, rfl⟩, hradius, htheta⟩
  have hfuel : depth ≤ maxRounds depth := by
    unfold maxRounds
    omega
  refine ⟨fun n t h => h.spec hc hglobal hf (settlesIn_depth f.leaves _), ?_⟩
  obtain ⟨leaves, n, hle, hvalid, hshape, hsettle⟩ := settle_spec hc hglobal 0 hf (settlesIn_depth f.leaves _) hfuel
  rw [Nat.zero_add] at hsettle
  obtain ⟨_, rfl, hrounds⟩ := rounds_of_settle hsettle
  rw [Nat.zero_add] at hsettle hle
  obtain ⟨f', hf'⟩ : ∃ f' : Focus depth α, { f with
    leaves, counts := sumCounts global counts leaves, octree := .ofLeaves leaves
    own := assignment.keyRange f.rank } = f' := ⟨_, rfl⟩
  have hleaves : f'.leaves = leaves := by rw [← hf']
  have hown : f'.own = assignment.keyRange f.rank := by rw [← hf']
  have hsettled : f'.Settled global counts (criterionOf f assignment box curve radius) := by
    subst hf'
    exact ⟨hvalid, hshape, rfl, rfl⟩
  have hagain : settle global (criterionOf f assignment box curve radius) (maxRounds depth) 0 leaves = (leaves, some 0) := by
    have hstable := (isStable_iff_hasShape (isShape_wanted hc) hvalid (adapts_changes hc hglobal hvalid)).2 hshape
    cases maxRounds depth <;> rw [settle, if_pos hstable]
  refine ⟨f', _, ?_, hle, hleaves ▸ hrounds, hown, ?_, ?_⟩
  · unfold criterionOf at hsettle
    unfold update
    simp only [hsettle, hf']
  · refine ⟨hsettled.valid, hsettled.shape, fun t ht hsplits => ?_, ?_, ?_, fun l hl => ?_⟩
    · exact eq_of_splits_iff ht hsettled.valid fun m hm => (hsplits m hm).trans (hsettled.shape m hm).symm
    · rw [hown]
      exact hsettled.nodesIn_eq hglobal hc fun m hm => needsResolution_of_within hc hzero hbounded hlast hm
    · rw [hsettled.counts_eq]
      simp [sumCounts]
    · exact hsettled.getD_counts hglobal hsize hl
  · unfold criterionOf at hagain
    unfold update
    subst hf'
    simp only [hagain]

/-- The second of two ranks, which has the root only, follows a global tree of octants. -/
theorem update_canonical_octants : ∃ (f' : Focus 1 EReal) (n : Nat),
    (initial 1 1 : Focus 1 EReal).update (.uniform 1) #[1, 0, 0, 1, 1, 2, 0, 0] ⟨#[0, 4, 8], #[0, 4, 8], #[2, 3]⟩
        .unit .hilbert 1 = (f', .ok n) ∧
      f'.Canonical (.uniform 1) #[1, 0, 0, 1, 1, 2, 0, 0]
        (criterionOf (initial 1 1 : Focus 1 EReal) ⟨#[0, 4, 8], #[0, 4, 8], #[2, 3]⟩ .unit .hilbert 1) := by
  obtain ⟨_, f', n, hupdate, _, _, _, hcanonical, _⟩ :=
    @update_canonical 1 EReal _ (.uniform 1) #[1, 0, 0, 1, 1, 2, 0, 0] ⟨#[0, 4, 8], #[0, 4, 8], #[2, 3]⟩ .unit .hilbert
      1 (initial 1 1) Exact.lawfulOrder Exact.lawfulZero Box.valid_unit.nests Box.valid_unit.bounded (by decide +kernel)
      (by decide +kernel) (by decide +kernel) (by decide) zero_le_one zero_lt_one
  exact ⟨f', n, hupdate, hcanonical⟩

end Focus

end CurvePartition
