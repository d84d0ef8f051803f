-- SUMMARY: Send lists are a normal form: their ranges are the maximal runs of the indices that were pushed, so equal particles have equal lists.
import CurvePartition.Proofs.Halo.Agreement
import CurvePartition.Proofs.Sorted.Bins

/-!
# The normal form of send lists

Ranges that are pushed in order (`SendList.InOrder`) may touch, and empty ones may come anywhere between. A list of them
has no empty range, and each of its ranges ends strictly before the next one starts (`SendList.InOrder.isNormal`). Then
each range is a maximal run of the indices (`SendList.IsNormal.mem_ranges_iff`), so the indices alone determine the list,
however they were cut into ranges. The send lists of a halo plan are of this kind
(`HaloPlan.Setting.Proper.isNormal_send`).
-/

namespace CurvePartition

open Leaves

/-! ## Maximal runs -/

namespace IndexRange

variable {p : Nat → Prop} {q r : IndexRange} {i : Nat}

/-- Whether a range is a maximal run of the indices with a property: it is not empty, all of its indices have the
property, and neither the index before it nor the one behind it has. -/
structure IsRun (p : Nat → Prop) (r : IndexRange) : Prop where
  nonempty : r.start < r.stop
  all : ∀ i ∈ r.toList, p i
  before : ∀ i, i + 1 = r.start → ¬ p i
  behind : ¬ p r.stop

/-- A maximal run holds every other one that shares an index with it. -/
theorem IsRun.holds (hq : q.IsRun p) (hr : r.IsRun p) (hiq : i ∈ q.toList) (hir : i ∈ r.toList) :
    q.start ≤ r.start ∧ r.stop ≤ q.stop := by
  rw [mem_toList_iff] at hiq hir
  constructor
  · refine Nat.not_lt.1 fun hlt => ?_
    exact hq.before (q.start - 1) (by omega) (hr.all _ (mem_toList_iff.2 (by omega)))
  · refine Nat.not_lt.1 fun hlt => ?_
    exact hq.behind (hr.all _ (mem_toList_iff.2 (by omega)))

theorem IsRun.eq (hq : q.IsRun p) (hr : r.IsRun p) (hiq : i ∈ q.toList) (hir : i ∈ r.toList) : q = r := by
  obtain ⟨hstart, hstop⟩ := hq.holds hr hiq hir
  obtain ⟨hstart', hstop'⟩ := hr.holds hq hir hiq
  cases q
  cases r
  exact congr (congrArg IndexRange.mk (Nat.le_antisymm hstart hstart')) (Nat.le_antisymm hstop' hstop)

end IndexRange

namespace SendList

variable {s s' : SendList} {q r : IndexRange} {pushes pushes' : List IndexRange} {i : Nat}

/-! ## Lists in normal form -/

/-- The normal form of a send list: no range is empty, and each one ends strictly before all later ones start. -/
structure IsNormal (s : SendList) : Prop where
  proper : s.Proper
  apart : s.ranges.Pairwise fun q r => q.stop < r.start

theorem isNormal_empty : empty.IsNormal := ⟨fun _ hr => absurd hr List.not_mem_nil, List.Pairwise.nil⟩

theorem mem_toList_iff : i ∈ s.toList ↔ ∃ r ∈ s.ranges, r.start ≤ i ∧ i < r.stop := by
  simp only [toList, List.mem_flatMap, IndexRange.mem_toList_iff]

namespace IsNormal

variable (h : s.IsNormal)
include h

/-- The indices are sent in ascending order. -/
theorem pairwise_toList : s.toList.Pairwise (· < ·) := by
  refine List.pairwise_flatMap.2 ⟨fun r _ => ?_, h.apart.imp fun {q r} hapart i hi j hj => ?_⟩
  · exact List.pairwise_map.2 (List.pairwise_lt_range.imp fun hij => Nat.add_lt_add_left hij r.start)
  · calc i < q.stop := (IndexRange.mem_toList_iff.1 hi).2
      _ < r.start := hapart
      _ ≤ j := (IndexRange.mem_toList_iff.1 hj).1

theorem nodup_toList : s.toList.Nodup := h.pairwise_toList.imp Nat.ne_of_lt

/-- Indices below a bound are not more than the bound. -/
theorem count_le {bound : Nat} (hbound : ∀ i ∈ s.toList, i < bound) : s.count ≤ bound := by
  have hsub : s.toList ⊆ List.range bound := fun i hi => List.mem_range.2 (hbound i hi)
  have hle := (List.subperm_of_subset h.nodup_toList hsub).length_le
  rwa [length_toList, List.length_range] at hle

/-- Two ranges of a list are the same, or an index lies between them. -/
theorem eq_or_apart (hq : q ∈ s.ranges) (hr : r ∈ s.ranges) : q = r ∨ q.stop < r.start ∨ r.stop < q.start := by
  have hapart := List.pairwise_iff_getElem.1 h.apart
  obtain ⟨m, hm, rfl⟩ := List.getElem_of_mem hq
  obtain ⟨n, hn, rfl⟩ := List.getElem_of_mem hr
  rcases Nat.lt_trichotomy m n with hlt | rfl | hlt
  · exact .inr (.inl (hapart m n hm hn hlt))
  · exact .inl rfl
  · exact .inr (.inr (hapart n m hn hm hlt))

/-- A listed index at or beside a range is in it, as no other range comes so close. -/
theorem mem_of_beside (hr : r ∈ s.ranges) (hi : i ∈ s.toList) (hlo : r.start ≤ i + 1) (hhi : i ≤ r.stop) :
    r.start ≤ i ∧ i < r.stop := by
  obtain ⟨q, hq, hmem⟩ := mem_toList_iff.1 hi
  rcases h.eq_or_apart hq hr with rfl | hlt | hlt
  · exact hmem
  · omega
  · omega

theorem isRun (hr : r ∈ s.ranges) : r.IsRun (· ∈ s.toList) where
  nonempty := h.proper r hr
  all i hi := List.mem_flatMap.2 ⟨r, hr, hi⟩
  before i hi hlisted := by
    have hpos := h.proper r hr
    have hmem := h.mem_of_beside hr hlisted (by omega) (by omega)
    omega
  behind hlisted := by
    have hpos := h.proper r hr
    exact Nat.lt_irrefl _ (h.mem_of_beside hr hlisted (by omega) (Nat.le_refl _)).2

/-- The ranges are exactly the maximal runs of the indices. -/
theorem mem_ranges_iff : r ∈ s.ranges ↔ r.IsRun (· ∈ s.toList) := by
  refine ⟨h.isRun, fun hrun => ?_⟩
  have hstart : r.start ∈ r.toList := IndexRange.mem_toList_iff.2 ⟨Nat.le_refl _, hrun.nonempty⟩
  obtain ⟨q, hq, hmem⟩ := List.mem_flatMap.1 (hrun.all r.start hstart)
  exact (h.isRun hq).eq hrun hmem hstart ▸ hq

/-- Lists of the same indices are equal. -/
theorem eq_of_mem_iff (h' : s'.IsNormal) (hmem : ∀ i, i ∈ s.toList ↔ i ∈ s'.toList) : s = s' := by
  have ascending : ∀ {t : SendList}, t.IsNormal → t.ranges.Pairwise fun q r => q.start < r.start := fun ht =>
    ht.apart.imp_of_mem fun {q r} hq _ hapart => Nat.lt_trans (ht.proper q hq) hapart
  have hlisted : (· ∈ s.toList) = (· ∈ s'.toList) := funext fun i => propext (hmem i)
  have hranges : s.ranges = s'.ranges := by
    refine Sorted.eq_of_mem_iff (fun _ _ => Nat.lt_asymm) (ascending h) (ascending h') fun r => ?_
    rw [h.mem_ranges_iff, h'.mem_ranges_iff, hlisted]
  cases s
  exact congrArg SendList.mk hranges

end IsNormal

/-! ## Pushing -/

/-- Only the last range can be merged with the new one. -/
theorem append_concat (before : List IndexRange) (q r : IndexRange) :
    append (before ++ [q]) r = before ++ if q.stop = r.start then [⟨q.start, r.stop⟩] else [q, r] := by
  induction before with
  | nil => rfl
  | cons b before ih =>
    rw [List.cons_append, List.cons_append, ← ih]
    cases before <;> rfl

/-- A range behind all others keeps ranges apart: if it touches the last one, it is merged with it. -/
theorem IsNormal.pairwise_append (h : s.IsNormal) (hr : ∀ q ∈ s.ranges, q.stop ≤ r.start) :
    (append s.ranges r).Pairwise fun q r => q.stop < r.start := by
  rcases List.eq_nil_or_concat s.ranges with hnil | ⟨before, q, hranges⟩
  · rw [hnil]
    exact List.pairwise_singleton _ _
  rw [List.concat_eq_append] at hranges
  have hq : q ∈ s.ranges := hranges ▸ List.mem_concat_self
  have hparts := h.apart
  rw [hranges] at hparts
  obtain ⟨hbefore, _, hlast⟩ := List.pairwise_append.1 hparts
  rw [hranges, append_concat]
  by_cases htouch : q.stop = r.start
  · rw [if_pos htouch]
    refine List.pairwise_append.2 ⟨hbefore, List.pairwise_singleton _ _, fun b hb t ht => ?_⟩
    rw [List.mem_singleton.1 ht]
    exact hlast b hb q List.mem_cons_self
  -- The index between `q` and `r` is left out.
  · rw [if_neg htouch]
    have hapart : q.stop < r.start := Nat.lt_of_le_of_ne (hr q hq) htouch
    refine List.pairwise_append.2 ⟨hbefore, List.pairwise_pair.2 hapart, fun b hb t ht => ?_⟩
    have hb := hlast b hb q List.mem_cons_self
    rcases List.mem_pair.1 ht with rfl | rfl
    · exact hb
    · exact Nat.lt_trans (Nat.lt_trans hb (h.proper q hq)) hapart

/-- A range behind all others keeps the normal form, and so does an empty one anywhere. -/
theorem IsNormal.push (h : s.IsNormal) (hr : r.start < r.stop → ∀ q ∈ s.ranges, q.stop ≤ r.start) :
    (s.push r).IsNormal := by
  refine ⟨(push_spec h.proper r).1, ?_⟩
  rw [SendList.push]
  split
  · exact h.apart
  · rename_i hfull
    exact h.pairwise_append (hr (Nat.not_le.1 hfull))

/-- Whether ranges are in order: with empty ones left out, each one starts at or behind the end of the one before it. -/
def InOrder (pushes : List IndexRange) : Prop :=
  (pushes.filter fun r => r.start < r.stop).IsChain fun q r => q.stop ≤ r.start

instance (pushes : List IndexRange) : Decidable (InOrder pushes) := inferInstanceAs (Decidable (List.IsChain _ _))

/-- Whether the second range is not empty and starts at or behind the end of the first one. -/
def Follows (q r : IndexRange) : Prop := q.stop ≤ r.start ∧ r.start < r.stop

instance : Trans Follows Follows Follows where
  trans hqr hrt := ⟨Nat.le_trans hqr.1 (Nat.le_trans (Nat.le_of_lt hqr.2) hrt.1), hrt.2⟩

/-- Any two ranges that are not empty are in order, as those between them are not empty either. -/
theorem inOrder_iff : InOrder pushes ↔
    pushes.Pairwise fun q r => q.start < q.stop → r.start < r.stop → q.stop ≤ r.start := by
  constructor
  -- Only among ranges that are not empty is the order of neighbours transitive.
  · intro h
    have hchain : (pushes.filter fun r => r.start < r.stop).IsChain Follows :=
      h.imp_of_mem_imp fun q r _ hr hle => ⟨hle, of_decide_eq_true (List.mem_filter.1 hr).2⟩
    refine (List.pairwise_filter.1 (List.isChain_iff_pairwise.1 hchain)).imp fun hfollows hq hr => ?_
    exact (hfollows (decide_eq_true hq) (decide_eq_true hr)).1
  · intro h
    refine (List.pairwise_filter.2 (h.imp fun hle hq hr => ?_)).isChain
    exact hle (of_decide_eq_true hq) (of_decide_eq_true hr)

theorem mem_ofRanges_iff : i ∈ (ofRanges pushes).toList ↔ ∃ r ∈ pushes, r.start ≤ i ∧ i < r.stop := by
  simp only [(ofRanges_spec pushes).2, List.mem_flatMap, IndexRange.mem_toList_iff]

/-- The list of ranges in order is in normal form. -/
theorem InOrder.isNormal (h : InOrder pushes) : (ofRanges pushes).IsNormal := by
  induction pushes using List.reverseRecOn with
  | nil => exact isNormal_empty
  | append_singleton pushes r ih =>
    obtain ⟨hpushes, _, hbefore⟩ := List.pairwise_append.1 (inOrder_iff.1 h)
    have hs := ih (inOrder_iff.2 hpushes)
    rw [ofRanges_concat]
    refine hs.push fun hr q hq => ?_
    -- The last index of `q` was pushed, by a range that ends before `r` starts.
    have hpos := hs.proper q hq
    have hlast : q.stop - 1 ∈ (ofRanges pushes).toList := mem_toList_iff.2 ⟨q, hq, by omega⟩
    obtain ⟨b, hb, hmem⟩ := mem_ofRanges_iff.1 hlast
    have hle := hbefore b hb r List.mem_cons_self (by omega) hr
    omega

theorem count_ofRanges (pushes : List IndexRange) :
    (ofRanges pushes).count = (pushes.map IndexRange.length).sum := by
  rw [← length_toList, (ofRanges_spec pushes).2, List.length_flatMap]
  simp only [IndexRange.length_toList]

/-- Ranges in order give the same list exactly if they hold the same indices. -/
theorem InOrder.ofRanges_eq_iff (h : InOrder pushes) (h' : InOrder pushes') : ofRanges pushes = ofRanges pushes' ↔
    ∀ i, (∃ r ∈ pushes, r.start ≤ i ∧ i < r.stop) ↔ ∃ r ∈ pushes', r.start ≤ i ∧ i < r.stop := by
  simp only [← mem_ofRanges_iff]
  exact ⟨fun heq i => by rw [heq], h.isNormal.eq_of_mem_iff h'.isNormal⟩

/-- Ranges in order give a list in normal form that names exactly their indices, in order. Its count is their total
length, not above the greatest end, and the indices alone determine the list. -/
theorem normal_form (h : InOrder pushes) : (ofRanges pushes).IsNormal ∧
    (ofRanges pushes).toList = pushes.flatMap IndexRange.toList ∧
    (ofRanges pushes).count = (pushes.map IndexRange.length).sum ∧
    (∀ bound, (∀ r ∈ pushes, r.stop ≤ bound) → (ofRanges pushes).count ≤ bound) ∧
    ∀ pushes', InOrder pushes' → (ofRanges pushes = ofRanges pushes' ↔
      ∀ i, (∃ r ∈ pushes, r.start ≤ i ∧ i < r.stop) ↔ ∃ r ∈ pushes', r.start ≤ i ∧ i < r.stop) := by
  refine ⟨h.isNormal, (ofRanges_spec pushes).2, count_ofRanges pushes, ?_, fun _ => h.ofRanges_eq_iff⟩
  intro bound hbound
  refine h.isNormal.count_le fun i hi => ?_
  obtain ⟨r, hr, hmem⟩ := mem_ofRanges_iff.1 hi
  exact Nat.lt_of_lt_of_le hmem.2 (hbound r hr)

/-- Ranges that touch, with an empty one between them. -/
def touching : List IndexRange := [⟨0, 3⟩, ⟨3, 5⟩, ⟨5, 5⟩, ⟨7, 9⟩]

/-- The same indices, cut differently, with empty ranges that are out of order. -/
def recut : List IndexRange := [⟨4, 2⟩, ⟨0, 5⟩, ⟨7, 8⟩, ⟨6, 6⟩, ⟨8, 9⟩]

/-- Both give the list of two ranges. -/
theorem normal_form_touching : InOrder touching ∧ InOrder recut ∧ (ofRanges touching).IsNormal ∧
    (ofRanges touching).ranges = [⟨0, 5⟩, ⟨7, 9⟩] ∧ (ofRanges touching).toList = [0, 1, 2, 3, 4, 7, 8] ∧
    (ofRanges touching).count = 7 ∧ ofRanges touching = ofRanges recut := by
  have hin : InOrder touching := by decide
  have hin' : InOrder recut := by decide
  obtain ⟨hnormal, hlist, hcount, _, hsame⟩ := normal_form hin
  refine ⟨hin, hin', hnormal, rfl, hlist, hcount, (hsame recut hin').2 fun i => ?_⟩
  simp only [touching, recut, List.mem_cons, List.not_mem_nil, or_false, exists_eq_or_imp, exists_eq_left]
  omega

end SendList

/-! ## Halo plans -/

namespace HaloPlan

/-- The particles of ascending leaves are in order. -/
theorem inOrder_slices {depth : Nat} {global : Leaves depth} {keys : Array Nat} {leaves : List Nat}
    (hglobal : global.isValid = true) (hkeys : Sorted.Ascending keys) (hleaves : leaves.Pairwise (· < ·))
    (hlt : ∀ l ∈ leaves, l < global.count) :
    SendList.InOrder (leaves.map fun l => ⟨(global.slice keys l).1, (global.slice keys l).2⟩) := by
  refine SendList.inOrder_iff.2 (List.pairwise_map.2 (hleaves.imp_of_mem fun {k l} _ hl hkl _ _ => ?_))
  exact Sorted.lowerBound_mono hkeys ((ascends_of_isValid hglobal).start_le hkl (Nat.le_of_lt (hlt l hl)))

/-- A plan sends lists in normal form. -/
theorem Setting.Proper.isNormal_send {depth : Nat} {α : Type} [Scalar α] {w : Setting depth α} {r s : Nat}
    (h : w.Proper) (hr : r < w.assignment.ranks) (hs : s < w.assignment.ranks) : ((w.plan s).send r).IsNormal := by
  rw [send_eq hr]
  split
  · exact SendList.isNormal_empty
  · rw [particlesIn_eq]
    have hsent : w.search.sent (w.own s) (w.own r) = _ := h.sound.sent_eq (h.tiles.bounds hs) (h.tiles.bounds hr)
    have hleaves : (w.search.sent (w.own s) (w.own r)).Pairwise (· < ·) := hsent ▸ List.pairwise_lt_range.filter _
    refine (inOrder_slices h.sound.valid (h.countable.ascending s hs) hleaves fun l hl => ?_).isNormal
    exact (h.mem_sent hr hs hl).1

end HaloPlan

end CurvePartition
