-- SUMMARY: Sender and receiver agree on halos: after the focus trees have followed the global tree, what each rank expects from another one is what that one sends, so the check of all plans succeeds.
import Mathlib.Algebra.Order.BigOperators.Group.List
import Mathlib.Algebra.Order.Ring.Nat
import CurvePartition.Particles.Transfer
import CurvePartition.Proofs.Cluster.Messages
import CurvePartition.Proofs.Global.Balance
import CurvePartition.Proofs.Halo.Counting
import CurvePartition.Proofs.Halo.Lists
import CurvePartition.Proofs.Space.Regions

/-!
# Agreement on halos

The received leaves that a rank holds are the same nodes of the tree as the leaves that it sends
(`HaloSearch.Sound.map_node_received`, `HaloSearch.Sound.sent_eq`), and the keys of all ranks in such a leaf are keys of
the rank that holds it. So the counts of both sides are sums of the same numbers, and no rank finds a mismatch.
-/

namespace CurvePartition

open Node Leaves Program

variable {depth : Nat} {α β : Type} [Scalar α]

/-! ## Keys of one rank -/

/-- Whether every rank has only keys that are assigned to it. -/
def Assignment.Holds (a : Assignment depth) (keys : Nat → Array Nat) : Prop :=
  ∀ r < a.ranks, ∀ k ∈ (keys r).toList, k ∈ a.keyRange r

section Keys

variable {global : Leaves depth} {a : Assignment depth} {keys : Nat → Array Nat} {l s : Nat}

/-- The keys of all ranks in a leaf are keys of the rank that holds the leaf. -/
theorem Assignment.Tiles.keyCount_allKeys (ha : a.Tiles global) (hglobal : global.isValid = true)
    (hkeys : a.Holds keys) (hl : l < global.count) (hs : s < a.ranks)
    (hwithin : (global.range l).within (a.keyRange s) = true) :
    (global.node l).keyCount depth (Global.allKeys a.ranks keys) = (global.node l).keyCount depth (keys s).toList := by
  have hnone : ∀ r < a.ranks, r ≠ s → (global.node l).keyCount depth (keys r).toList = 0 := by
    intro r hr hne
    refine List.countP_eq_zero.2 fun k hk hmem => hne ?_
    simp only [decide_eq_true_eq] at hmem
    rw [stop_node hglobal hl] at hmem
    exact ha.eq_of_mem hr hs (hkeys r hr k hk) (KeyRange.mem_of_within hwithin hmem)
  have upTo : ∀ n ≤ a.ranks, (global.node l).keyCount depth (Global.allKeys n keys) =
      if s < n then (global.node l).keyCount depth (keys s).toList else 0 := by
    intro n hn
    induction n with
    | zero => rfl
    | succ n ih =>
      rw [Global.allKeys, List.range_succ, List.flatMap_append, List.flatMap_singleton, keyCount, List.countP_append]
      refine (congrArg (· + _) (ih (Nat.le_of_succ_le hn))).trans ?_
      rcases Nat.lt_trichotomy s n with hlt | rfl | hlt
      · rw [if_pos hlt, if_pos (by omega)]
        exact congrArg (_ + ·) (hnone n hn (by omega))
      · rw [if_neg (Nat.lt_irrefl s), if_pos (Nat.lt_succ_self s), Nat.zero_add]
        rfl
      · rw [if_neg (by omega), if_neg (by omega), Nat.zero_add]
        exact hnone n hn (by omega)
  rw [upTo a.ranks (Nat.le_refl _), if_pos hs]

/-- Different leaves have different keys. -/
theorem sum_keyCount_le (hglobal : global.isValid = true) (keys : List Nat) {leaves : List Nat}
    (hleaves : leaves.Sublist (List.range global.count)) :
    (leaves.map fun l => (global.node l).keyCount depth keys).sum ≤ keys.length := by
  have ha := ascends_of_isValid hglobal
  have below : ∀ n ≤ global.count, ((List.range n).map fun l => (global.node l).keyCount depth keys).sum =
      keys.countP (· < global.start n) := by
    intro n hn
    induction n with
    | zero => simp [ha.start_zero]
    | succ n ih =>
      rw [List.range_succ, List.map_append, List.sum_append, ih (Nat.le_of_succ_le hn)]
      simp only [List.map_cons, List.map_nil, List.sum_singleton, keyCount, stop_node hglobal hn]
      exact Sorted.countP_lt_add (Nat.le_of_lt (ha.lt_succ n hn)) keys
  calc (leaves.map fun l => (global.node l).keyCount depth keys).sum
      ≤ ((List.range global.count).map fun l => (global.node l).keyCount depth keys).sum :=
        (hleaves.map _).sum_le_sum fun _ _ => Nat.zero_le _
    _ = keys.countP (· < global.start global.count) := below _ (Nat.le_refl _)
    _ ≤ keys.length := List.countP_le_length

end Keys

namespace HaloPlan

/-! ## Plans of all ranks -/

/-- What the plans of all ranks are made from: one global tree with its radii, one assignment, the keys of each rank, and a
focus tree of each rank from before. -/
structure Setting (depth : Nat) (α : Type) where
  global : Leaves depth
  radii : Array α
  box : Box α
  curve : Curve
  assignment : Assignment depth
  keys : Nat → Array Nat
  focus : Nat → Focus depth α
  backend : Nat → Backend

namespace Setting

variable (w : Setting depth α) (r s : Nat)

/-- Keys of all ranks in each leaf. -/
def counts : Array Nat := w.global.histogram (Global.allKeys w.assignment.ranks w.keys)

def search : HaloSearch depth α := .make (.ofLeaves w.global) w.radii w.box w.curve

/-- Keys assigned to a rank. -/
def own : KeyRange := w.assignment.keyRange r

/-- The focus tree of a rank after it has followed the global tree, and how that went. -/
def followed : Focus depth α × Except (Error α) Nat :=
  (w.focus r).update w.global w.counts w.assignment w.box w.curve w.search.maxRadius

/-- The plan of a rank. -/
def plan : HaloPlan := build (w.backend r) r (w.followed r).1 w.search w.global w.assignment (w.keys r)

/-- What is promised to a plan: laws of the numbers, a tree with radii that are not negative, an assignment of it with the
keys of each rank in order, and focus trees that are octrees. -/
structure Proper : Prop where
  sound : HaloSearch.Sound w.global w.radii w.box w.curve
  tiles : w.assignment.Tiles w.global
  holds : w.assignment.Holds w.keys
  countable : Global.Countable w.assignment.ranks w.keys
  focus : ∀ r < w.assignment.ranks, (w.focus r).rank = r ∧ (w.focus r).leaves.isValid = true ∧ 0 < (w.focus r).theta

variable {w r s}

/-- What a rank sends to another one: the particles of the leaves it found. -/
theorem send_eq (hr : r < w.assignment.ranks) : (w.plan s).send r =
    if r = s then .empty else particlesIn w.global (w.keys s) (w.search.sent (w.own s) (w.own r)) := by
  have hsend : (w.plan s).sends[r]? = some (if r = s then .empty
      else particlesIn w.global (w.keys s) (w.search.sent (w.own s) (w.own r))) := by
    simp [plan, build, Backend.mapIndices, hr, own]
  rw [send, Array.getD_eq_getD_getElem?, hsend]
  rfl

/-- What a rank expects from another one: the counts of the received leaves that the other one holds. -/
theorem receiveCount_plan (hs : s < w.assignment.ranks) : (w.plan r).receiveCount s =
    (((w.plan r).leaves.filter fun l => w.assignment.rankOf ((w.followed r).1.leaves.start l) = s).map fun l =>
      (w.followed r).1.counts.getD l 0).sum := by
  have hcounts : (w.plan r).receiveCounts = receiveCountsOf (w.followed r).1 w.assignment (w.plan r).leaves := rfl
  rw [receiveCount, hcounts, getD_receiveCountsOf _ _ _ hs]

variable (h : w.Proper)
include h

/-- The focus tree of every rank settles. -/
theorem Proper.followed_spec (hr : r < w.assignment.ranks) : (∃ rounds ≤ depth, (w.followed r).2 = .ok rounds) ∧
    (w.followed r).1.own = w.own r ∧ (w.followed r).1.Settled w.global w.counts
      (w.search.criterion (w.followed r).1.own (w.focus r).theta) := by
  obtain ⟨hrank, hvalid, htheta⟩ := h.focus r hr
  have hc : (Focus.criterionOf (w.focus r) w.assignment w.box w.curve w.search.maxRadius).Monotone depth := by
    rw [Focus.criterionOf, hrank]
    exact h.sound.monotone_criterion (h.tiles.bounds hr) htheta
  obtain ⟨f, rounds, hupdate, hle, hown, hsettled⟩ := Focus.update_spec (w.focus r) w.counts hc h.sound.valid hvalid
  have hfollowed : w.followed r = (f, .ok rounds) := hupdate
  rw [hfollowed]
  refine ⟨⟨rounds, hle, rfl⟩, by rw [hown, hrank]; rfl, ?_⟩
  rw [hown]
  exact hsettled

/-- The received leaves that a rank holds are the leaves that it sends, as nodes of the tree. -/
theorem Proper.map_node_received (hr : r < w.assignment.ranks) (hs : s < w.assignment.ranks) (hne : r ≠ s) :
    ((w.plan r).leaves.filter fun l => w.assignment.rankOf ((w.followed r).1.leaves.start l) = s).map
      (w.followed r).1.leaves.node = (w.search.sent (w.own s) (w.own r)).map w.global.node := by
  obtain ⟨_, hown, hsettled⟩ := h.followed_spec hr
  have hbounds := h.tiles.bounds hr
  have hreceived : (w.plan r).leaves.map (w.followed r).1.leaves.node = _ :=
    h.sound.map_node_received (hown ▸ hbounds) hsettled
  have hsent : w.search.sent (w.own s) (w.own r) = _ := h.sound.sent_eq (h.tiles.bounds hs) hbounds
  have hfilter : ∀ l : List Nat, ∀ t : Leaves depth, (l.filter fun i => w.assignment.rankOf (t.start i) = s).map t.node =
      (l.map t.node).filter fun n => w.assignment.rankOf n.first = s := by
    intro l t
    rw [List.filter_map]
    rfl
  rw [hfilter, hreceived, ← hfilter, hsent, List.filter_filter]
  refine congrArg (List.map _) (List.filter_congr fun g hg => ?_)
  have hg := List.mem_range.1 hg
  have hlt := (ascends_of_isValid h.sound.valid).start_lt_bound hg
  rw [hown, Bool.eq_iff_iff]
  simp only [Bool.and_eq_true, decide_eq_true_eq, Bool.not_eq_true', h.tiles.rankOf_eq_iff hlt hs,
    ← h.tiles.within_iff_mem h.sound.valid hg hs, ← and_assoc]
  refine and_congr_left fun _ => and_iff_left_of_imp fun hwithin => ?_
  -- A leaf of one rank is not a leaf of another one.
  refine Bool.eq_false_iff.2 fun hwithin' => hne ?_
  exact h.tiles.eq_of_mem hr hs ((h.tiles.within_iff_mem h.sound.valid hg hr).1 hwithin')
    ((h.tiles.within_iff_mem h.sound.valid hg hs).1 hwithin)

/-- A received leaf has the count of its keys. -/
theorem Proper.count_received (hr : r < w.assignment.ranks) {l : Nat} (hl : l ∈ (w.plan r).leaves) :
    (w.followed r).1.counts.getD l 0 =
      ((w.followed r).1.leaves.node l).keyCount depth (Global.allKeys w.assignment.ranks w.keys) := by
  obtain ⟨_, hown, hsettled⟩ := h.followed_spec hr
  obtain ⟨hlt, g, hg, heq, _⟩ := ((h.sound.received_spec (hown ▸ h.tiles.bounds hr) hsettled).2 l).1 hl
  have hsize : w.counts.size = w.global.count := size_histogram _ _
  rw [hsettled.counts_eq, Focus.getD_sumCounts h.sound.valid hsettled.valid hsize hlt hg heq.symm, counts,
    getD_histogram _ hg, heq]

theorem Proper.mem_sent (hr : r < w.assignment.ranks) (hs : s < w.assignment.ranks) {l : Nat}
    (hl : l ∈ w.search.sent (w.own s) (w.own r)) :
    l < w.global.count ∧ (w.global.range l).within (w.assignment.keyRange s) = true := by
  have hsent : w.search.sent (w.own s) (w.own r) = _ := h.sound.sent_eq (h.tiles.bounds hs) (h.tiles.bounds hr)
  rw [hsent, List.mem_filter, List.mem_range, Bool.and_eq_true] at hl
  exact ⟨hl.1, hl.2.1⟩

theorem Proper.count_send (hr : r < w.assignment.ranks) (hs : s < w.assignment.ranks) (hne : r ≠ s) :
    ((w.plan s).send r).count = ((w.search.sent (w.own s) (w.own r)).map fun l =>
      (w.global.node l).keyCount depth (w.keys s).toList).sum := by
  rw [send_eq hr, if_neg hne]
  exact count_particlesIn h.sound.valid (h.countable.ascending s hs) fun l hl => (h.mem_sent hr hs hl).1

/-- A rank expects from another one what that one sends. -/
theorem Proper.receiveCount_eq (hr : r < w.assignment.ranks) (hs : s < w.assignment.ranks) (hne : r ≠ s) :
    (w.plan r).receiveCount s = ((w.plan s).send r).count := by
  have hkeys : ((w.plan r).leaves.filter fun l => w.assignment.rankOf ((w.followed r).1.leaves.start l) = s).map
      (fun l => (w.followed r).1.counts.getD l 0) =
      (w.search.sent (w.own s) (w.own r)).map fun l => (w.global.node l).keyCount depth (w.keys s).toList := by
    calc _ = (((w.plan r).leaves.filter fun l => w.assignment.rankOf ((w.followed r).1.leaves.start l) = s).map
          (w.followed r).1.leaves.node).map fun n => n.keyCount depth (Global.allKeys w.assignment.ranks w.keys) := by
          rw [List.map_map]
          exact List.map_congr_left fun l hl => h.count_received hr (List.mem_filter.1 hl).1
      _ = ((w.search.sent (w.own s) (w.own r)).map w.global.node).map fun n =>
          n.keyCount depth (Global.allKeys w.assignment.ranks w.keys) := by rw [h.map_node_received hr hs hne]
      _ = _ := by
          rw [List.map_map]
          refine List.map_congr_left fun l hl => ?_
          obtain ⟨hlt, hwithin⟩ := h.mem_sent hr hs hl
          exact h.tiles.keyCount_allKeys h.sound.valid h.holds hlt hs hwithin
  rw [receiveCount_plan hs, hkeys, h.count_send hr hs hne]

/-- What a rank sends to another one can be counted in a word. -/
theorem Proper.count_send_lt (hr : r < w.assignment.ranks) (hs : s < w.assignment.ranks) :
    ((w.plan s).send r).count < 2 ^ 64 := by
  by_cases hne : r = s
  · rw [send_eq hr, if_pos hne]
    decide
  · rw [h.count_send hr hs hne]
    have hsent : w.search.sent (w.own s) (w.own r) = _ := h.sound.sent_eq (h.tiles.bounds hs) (h.tiles.bounds hr)
    refine Nat.lt_of_le_of_lt (sum_keyCount_le h.sound.valid _ (hsent ▸ List.filter_sublist)) ?_
    rw [Array.length_toList]
    exact h.countable.size_lt hs

end Setting

/-! ## The check of all plans -/

theorem getD_map_count (p : HaloPlan) (i : Nat) :
    (p.sends.toList.map SendList.count).getD i 0 = (p.send i).count := by
  rw [send, List.getD_eq_getElem?_getD, List.getElem?_map, Array.getElem?_toList, Array.getD_eq_getD_getElem?]
  cases p.sends[i]? <;> rfl

omit [Scalar α] in
theorem throws_verify [Wire α β] (place : Place) (p : HaloPlan) :
    Throws Call.failure Error.communication (p.verify place : Attempt α β Unit) := by
  refine (Attempt.throws_exchange (Exchange.throws_counts _ _)).bind fun announced => ?_
  split
  · exact .throw _
  · exact .pure _

namespace Setting

variable [Wire α β] [Wire.LawfulWords α β] {w : Setting depth α} {r s : Nat} (h : w.Proper)
include h

/-- All ranks find that the others send what they expect. -/
theorem Proper.collects_verify : Collects w.assignment.ranks
    (fun i => ((w.plan i).verify ⟨i, w.assignment.ranks⟩ : Attempt α β Unit).run) fun _ => .ok () := by
  have hsmall : ∀ i < w.assignment.ranks, ∀ v ∈ (w.plan i).sends.toList.map SendList.count, v < 2 ^ 64 := by
    intro i hi v hv
    obtain ⟨j, hj⟩ := List.mem_iff_getElem?.1 hv
    have hlt : j < w.assignment.ranks := by
      obtain ⟨hlt, _⟩ := List.getElem?_eq_some_iff.1 hj
      simpa [plan, build, Backend.mapIndices] using hlt
    have heq := getD_map_count (w.plan i) j
    rw [List.getD_eq_getElem?_getD, hj, Option.getD_some] at heq
    exact heq ▸ h.count_send_lt hlt hi
  refine (Exchange.collects_counts (α := α) hsmall).attempt.ok_bind ?_
  refine (Collects.done fun _ => .ok ()).congr (fun i hi => ?_) fun _ _ => rfl
  have hnone : (Place.mk i w.assignment.ranks).peers.find? (fun peer =>
      ((List.range w.assignment.ranks).map fun s => ((w.plan s).sends.toList.map SendList.count).getD i 0).getD peer 0 ≠
        (w.plan i).receiveCount peer) = none := by
    refine List.find?_eq_none.2 fun peer hpeer => ?_
    obtain ⟨hlt, hne⟩ := Delivery.mem_peers_iff.1 hpeer
    rw [List.getD_eq_getElem?_getD, List.getElem?_map, List.getElem?_range hlt, Option.map_some, Option.getD_some,
      getD_map_count, h.receiveCount_eq hi hlt (Ne.symm hne)]
    simp
  rw [hnone]
  rfl

/-- Sender and receiver agree: every focus tree settles, the received leaves that a rank holds are the leaves that it
sends, in the same order and without repetition, the counts are the same, and the check of the plans succeeds. -/
theorem Proper.halos_agree :
    (∀ r < w.assignment.ranks, ∃ rounds, (w.followed r).2 = .ok rounds) ∧
    (∀ r < w.assignment.ranks, ∀ s < w.assignment.ranks, r ≠ s →
      ((w.plan r).leaves.filter fun l => w.assignment.rankOf ((w.followed r).1.leaves.start l) = s).map
          (w.followed r).1.leaves.node = (w.search.sent (w.own s) (w.own r)).map w.global.node ∧
        w.search.sent (w.own s) (w.own r) = ((List.range w.global.count).filter fun l =>
          (w.global.range l).within (w.own s) && w.search.reaches l (w.own r)) ∧
        (w.plan r).receiveCount s = ((w.plan s).send r).count) ∧
    Attempt.ComesTo (α := α) (β := β) w.assignment.ranks (fun place => (w.plan place.rank).verify place)
      fun _ => .ok () := by
  refine ⟨fun r hr => ?_, fun r hr s hs hne => ⟨h.map_node_received hr hs hne, ?_, h.receiveCount_eq hr hs hne⟩, ?_⟩
  · obtain ⟨⟨rounds, _, hok⟩, _⟩ := h.followed_spec hr
    exact ⟨rounds, hok⟩
  · exact h.sound.sent_eq (h.tiles.bounds hs) (h.tiles.bounds hr)
  · exact h.collects_verify.comesTo fun place => throws_verify place _

omit [Scalar α] [Wire α β] [Wire.LawfulWords α β] h

/-- Two ranks that share the octants of a unit cube, with exact numbers. -/
noncomputable def twoRanks : Setting 1 EReal where
  global := .uniform 1
  radii := Array.replicate 8 1
  box := .unit
  curve := .hilbert
  assignment := ⟨#[0, 4, 8], #[0, 4, 8], #[2, 3]⟩
  keys := fun r => if r = 0 then #[0, 3] else #[4, 5, 5]
  focus := fun r => .initial r 1
  backend := fun _ => .host

/-- The laws hold in the unit cube, with exact numbers and one radius. -/
theorem sound_unit {global : Leaves depth} (hglobal : global.isValid = true) (n : Nat) {curve : Curve} :
    HaloSearch.Sound global (Array.replicate n 1) (.unit : Box EReal) curve where
  valid := hglobal
  order := Exact.lawfulOrder
  nests := Box.valid_unit.nests
  radii_nonneg l _ := by
    have hone : (0 : EReal) ≤ 1 := zero_le_one
    simp only [Array.getD_eq_getD_getElem?, Array.getElem?_replicate]
    split
    · exact hone
    · exact le_refl 0

theorem proper_twoRanks : twoRanks.Proper where
  sound := sound_unit (by decide +kernel) 8
  tiles := by
    have hcompute : Assignment.compute (α := EReal) (.uniform 1 : Leaves 1) #[1, 0, 0, 1, 1, 2, 0, 0] 2 =
        .ok ⟨#[0, 4, 8], #[0, 4, 8], #[2, 3]⟩ := by
      rw [Assignment.compute, if_neg (by decide +kernel)]
      exact congrArg Except.ok (by decide +kernel)
    exact (Assignment.tiles_compute (by decide +kernel) hcompute).1
  holds := fun r hr k hk => by
    have hr : r = 0 ∨ r = 1 := by
      have : r < 2 := hr
      omega
    rcases hr with rfl | rfl
    · have : k = 0 ∨ k = 3 := by simpa [twoRanks] using hk
      rcases this with rfl | rfl <;> exact KeyRange.mem_iff.2 (by decide)
    · have : k = 4 ∨ k = 5 := by simpa [twoRanks] using hk
      rcases this with rfl | rfl <;> exact KeyRange.mem_iff.2 (by decide)
  countable := ⟨by decide, by decide⟩
  focus _ _ := ⟨rfl, Leaves.isValid_root 1, zero_lt_one⟩

/-- What two ranks send to each other. -/
theorem halos_agree_two_ranks : twoRanks.Proper ∧
    (twoRanks.plan 0).receiveCount 1 = ((twoRanks.plan 1).send 0).count ∧
    Attempt.ComesTo (α := EReal) 2 (fun place => (twoRanks.plan place.rank).verify place) fun _ => .ok () :=
  have h := proper_twoRanks.halos_agree
  ⟨proper_twoRanks, (h.2.1 0 (by decide) 1 (by decide) (by decide)).2.2, h.2.2⟩

end Setting

end HaloPlan

end CurvePartition
