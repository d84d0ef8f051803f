-- SUMMARY: Reductions across failures: ranks agree on a reduction if their earlier ones took the messages of all peers, and they need not otherwise.
import CurvePartition.Proofs.Cluster.Pairing
import CurvePartition.Proofs.Space.Exact

/-!
# Agreement of reductions

A reduction that succeeds is paired with the contributions of its peers by counts of messages taken (`Session.Paired`). If all
earlier ones of a rank took the messages of all peers, as a success does, and a failure over the message of the last peer, these
counts are the number of the reduction. Then the result is the combination of what all ranks contribute to the reductions of
this number, and all such ranks agree. Otherwise a rank combines contributions to different reductions, and nobody is told
(`Session.not_agrees_twiceByThree`).
-/

namespace CurvePartition

open Delivery

namespace Session

variable {α β : Type} {s : Session α β} {size i : Nat}

/-- Whether the ranks make the same sequence of reductions. Lengths may differ. -/
def Uniform (s : Session α β) (size : Nat) : Prop := ∀ n : Nat, ∀ q < size, ∀ r < size, ∀ c c' : Contribution α,
  (s.contributions q)[n]? = some c → (s.contributions r)[n]? = some c' → c.Alike c'

/-- Whether all words that ranks contribute have 64 bits. -/
def Fits (s : Session α β) (size : Nat) : Prop := ∀ q < size, ∀ c ∈ s.contributions q, c.Fits

/-- Whether the first reductions of a rank took the messages of all peers, whether they succeeded or not. -/
def KeepsUp (s : Session α β) (size i n : Nat) : Prop :=
  ∀ o ∈ (s.reductions i).take n, ∀ q < size, q ≠ i → o.takes q = true

/-- Whether all reductions of one number that succeed come to one result. -/
def Agrees (s : Session α β) (size : Nat) : Prop := ∀ n : Nat, ∀ i < size, ∀ j < size, ∀ c c' result result' : Contribution α,
  (s.reductions i)[n]? = some ⟨c, .ok result⟩ → (s.reductions j)[n]? = some ⟨c', .ok result'⟩ → result = result'

/-- Whether all calls of the ranks are sums of words. Such ranks make the same sequence of reductions. -/
def Sums (s : Session α β) (size : Nat) : Prop := ∀ i < size, ∃ l : List (List Nat),
  (s.calls i).map Prod.fst = l.map (Call.reduceWords .sum) ∧ ∀ values ∈ l, ∀ v ∈ values, v < 2 ^ 64

theorem Sums.contributions_eq (h : s.Sums size) (hi : i < size) : ∃ l : List (List Nat),
    s.contributions i = l.map (Contribution.words .sum) ∧ ∀ values ∈ l, ∀ v ∈ values, v < 2 ^ 64 := by
  obtain ⟨l, hl, hfits⟩ := h i hi
  refine ⟨l, ?_, hfits⟩
  have hcalls : s.contributions i = ((s.calls i).map Prod.fst).filterMap Call.contribution? := by
    rw [List.filterMap_map]
    rfl
  rw [hcalls, hl, List.filterMap_map]
  exact List.filterMap_eq_map_iff_forall_eq_some.2 fun _ _ => rfl

theorem Sums.reserves (h : s.Sums size) : s.Reserves size := by
  intro i hi c hc
  obtain ⟨l, hl, _⟩ := h i hi
  have hcall : c.1 ∈ l.map (Call.reduceWords .sum) := hl ▸ List.mem_map_of_mem hc
  obtain ⟨values, _, hvalues⟩ := List.mem_map.1 hcall
  rw [← hvalues]
  trivial

theorem Sums.uniform (h : s.Sums size) : s.Uniform size := by
  intro n q hq r hr c c' hc hc'
  have hsum : ∀ j < size, ∀ c ∈ s.contributions j, ∃ values, c = .words .sum values := by
    intro j hj c hc
    obtain ⟨l, hl, _⟩ := h.contributions_eq hj
    obtain ⟨values, _, rfl⟩ := List.mem_map.1 (hl ▸ hc)
    exact ⟨values, rfl⟩
  obtain ⟨values, rfl⟩ := hsum q hq c (List.mem_of_getElem? hc)
  obtain ⟨values', rfl⟩ := hsum r hr c' (List.mem_of_getElem? hc')
  rfl

theorem Sums.fits (h : s.Sums size) : s.Fits size := by
  intro q hq c hc
  obtain ⟨l, hl, hfits⟩ := h.contributions_eq hq
  obtain ⟨values, hvalues, rfl⟩ := List.mem_map.1 (hl ▸ hc)
  exact hfits values hvalues

variable [Scalar α] [Wire α β]

/-- What reductions combine, whatever happened before. -/
structure Paired (s : Session α β) (size : Nat) : Prop where
  /-- A reduction that succeeds combines its contribution with the next one of each peer, in the order of the ranks. That is the
  one after as many as earlier reductions of the rank have taken messages of the peer. -/
  partner : ∀ i < size, ∀ n c result, (s.reductions i)[n]? = some ⟨c, .ok result⟩ → ∃ partner : Nat → Contribution α,
    (∀ q < size, q ≠ i →
      (s.contributions q)[((s.reductions i).take n).countP (Outcome.takes q)]? = some (partner q) ∧
      ((partner q).message : Message β).length = (c.message : Message β).length) ∧
    Contribution.fold ((List.range size).map fun q =>
      if q = i then c else c.reread ((partner q).message : Message β)) = some result
  /-- If the earlier ones took the messages of all peers, the results are the combinations of what the ranks contribute to the
  reductions of one number. -/
  combined : s.Uniform size → s.Fits size → ∀ n, ∀ i < size, ∀ c result, (s.reductions i)[n]? = some ⟨c, .ok result⟩ →
    s.KeepsUp size i n → ∃ all : Nat → Contribution α, (∀ q < size, (s.contributions q)[n]? = some (all q)) ∧
      Contribution.fold ((List.range size).map all) = some result
  /-- So all such ranks come to the same result. -/
  agreed : s.Uniform size → s.Fits size → ∀ n, ∀ i < size, ∀ j < size, ∀ c c' result result',
    (s.reductions i)[n]? = some ⟨c, .ok result⟩ → (s.reductions j)[n]? = some ⟨c', .ok result'⟩ →
    s.KeepsUp size i n → s.KeepsUp size j n → result = result'

namespace Reachable

variable [Wire.LawfulWords α β] [Wire.LawfulScalars α β] (h : Reachable size s)
include h

theorem exists_combined (hreserves : s.Reserves size) (huniform : s.Uniform size) (hfits : s.Fits size) {n : Nat} (hi : i < size)
    {c result : Contribution α} (hn : (s.reductions i)[n]? = some ⟨c, .ok result⟩) (hkeeps : s.KeepsUp size i n) :
    ∃ all : Nat → Contribution α, (∀ q < size, (s.contributions q)[n]? = some (all q)) ∧
      Contribution.fold ((List.range size).map all) = some result := by
  obtain ⟨partner, hpartner, hfold⟩ := h.exists_partner hreserves hi hn
  have hown : (s.contributions i)[n]? = some c := by
    rw [contributions_eq, List.getElem?_append_left (by simpa using (List.getElem?_eq_some_iff.1 hn).1), List.getElem?_map, hn]
    rfl
  have hcount : ∀ q < size, q ≠ i → ((s.reductions i).take n).countP (Outcome.takes q) = n := by
    intro q hq hne
    rw [List.countP_eq_length.2 fun o ho => hkeeps o ho q hq hne, List.length_take]
    exact Nat.min_eq_left (Nat.le_of_lt (List.getElem?_eq_some_iff.1 hn).1)
  have hall : ∀ q < size, (s.contributions q)[n]? = some (if q = i then c else partner q) := by
    intro q hq
    by_cases hqi : q = i
    · rw [if_pos hqi, hqi, hown]
    · rw [if_neg hqi, ← hcount q hq hqi]
      exact (hpartner q hq hqi).1
  refine ⟨fun q => if q = i then c else partner q, hall, hfold ▸ congrArg Contribution.fold ?_⟩
  refine List.map_congr_left fun q hq => ite_congr rfl (fun _ => rfl) fun hne => ?_
  have hq := List.mem_range.1 hq
  have hget := hall q hq
  rw [if_neg hne] at hget
  exact (Contribution.reread_message (huniform n i hi q hq c _ hown hget) (hfits q hq _ (List.mem_of_getElem? hget))
    (hpartner q hq hne).2).symm

/-- Reductions are paired in all sessions in which only they use their tag. -/
theorem reductions_paired (hreserves : s.Reserves size) : s.Paired size where
  partner i hi n c result := h.exists_partner hreserves hi
  combined huniform hfits n i hi c result := h.exists_combined hreserves huniform hfits hi
  agreed huniform hfits n i hi j hj c c' result result' hn hn' hkeeps hkeeps' := by
    obtain ⟨all, hall, hfold⟩ := h.exists_combined hreserves huniform hfits hi hn hkeeps
    obtain ⟨all', hall', hfold'⟩ := h.exists_combined hreserves huniform hfits hj hn' hkeeps'
    have heq : (List.range size).map all = (List.range size).map all' := by
      refine List.map_congr_left fun q hq => Option.some.inj ?_
      rw [← hall q (List.mem_range.1 hq), ← hall' q (List.mem_range.1 hq)]
    rw [heq, hfold'] at hfold
    exact (Option.some.inj hfold).symm

end Reachable

/-- Two ranks add words twice. The first time their lengths differ, and each takes the message of the other one. -/
def twiceByTwo : List (Choice EReal Exact.Symbol) :=
  [.begin 0 (.reduceWords .sum [1]), .begin 1 (.reduceWords .sum [2, 2]), .act 0, .act 0, .act 1, .act 1, .act 0, .act 1,
    .begin 0 (.reduceWords .sum [10]), .begin 1 (.reduceWords .sum [20]), .act 0, .act 0, .act 1, .act 1, .act 0, .act 1]

theorem reductions_paired_twiceByTwo : ∃ s, (start 2).play twiceByTwo = some s ∧ s.Paired 2 ∧
    s.Uniform 2 ∧ s.Fits 2 ∧ s.KeepsUp 2 0 1 ∧ s.KeepsUp 2 1 1 ∧
    s.reductions 0 = [⟨.words .sum [1], .error (.sizeMismatch 1 (-1) 8 16)⟩, ⟨.words .sum [10], .ok (.words .sum [30])⟩] ∧
    s.reductions 1 = [⟨.words .sum [2, 2], .error (.sizeMismatch 0 (-1) 16 8)⟩, ⟨.words .sum [20], .ok (.words .sum [30])⟩] := by
  have hplay : ((start 2).play twiceByTwo).isSome = true := rfl
  have hsome := (Option.some_get hplay).symm
  have hsums : (((start 2).play twiceByTwo).get hplay).Sums 2 := by
    intro i hi
    obtain rfl | rfl : i = 0 ∨ i = 1 := by omega
    · exact ⟨[[1], [10]], rfl, by decide⟩
    · exact ⟨[[2, 2], [20]], rfl, by decide⟩
  refine ⟨_, hsome, Reachable.reductions_paired (reachable_of_play .start hsome) hsums.reserves, hsums.uniform, hsums.fits,
    fun o ho q hq hne => ?_, fun o ho q hq hne => ?_, rfl, rfl⟩
  · obtain rfl : q = 1 := by omega
    obtain rfl : o = ⟨.words .sum [1], .error (.sizeMismatch 1 (-1) 8 16)⟩ := List.mem_singleton.1 ho
    rfl
  · obtain rfl : q = 0 := by omega
    obtain rfl : o = ⟨.words .sum [2, 2], .error (.sizeMismatch 0 (-1) 16 8)⟩ := List.mem_singleton.1 ho
    rfl

/-- Three ranks add words twice. The first time rank 1 has too many, which ranks 0 and 2 find out while the message of rank 2 is
still to be taken by rank 0. -/
def twiceByThree : List (Choice Float UInt8) :=
  [.begin 0 (.reduceWords .sum [1]), .act 0, .act 0, .act 0, .act 0,
    .begin 1 (.reduceWords .sum [2, 2]), .act 1, .act 1, .act 1, .act 1,
    .begin 2 (.reduceWords .sum [4]), .act 2, .act 2, .act 2, .act 2,
    .act 0, .act 1, .act 2, .act 2,
    .begin 0 (.reduceWords .sum [10]), .act 0, .act 0, .act 0, .act 0,
    .begin 1 (.reduceWords .sum [20]), .act 1, .act 1, .act 1, .act 1,
    .begin 2 (.reduceWords .sum [40]), .act 2, .act 2, .act 2, .act 2,
    .act 0, .act 0, .act 1, .act 1, .act 2, .act 2]

/-- So the second results differ. -/
theorem not_agrees_twiceByThree : ∃ s, (start 3).play twiceByThree = some s ∧ Reachable 3 s ∧
    s.Reserves 3 ∧ s.Uniform 3 ∧ s.Fits 3 ∧
    s.reductions 0 = [⟨.words .sum [1], .error (.sizeMismatch 1 (-1) 8 16)⟩, ⟨.words .sum [10], .ok (.words .sum [34])⟩] ∧
    s.reductions 2 = [⟨.words .sum [4], .error (.sizeMismatch 1 (-1) 8 16)⟩, ⟨.words .sum [40], .ok (.words .sum [70])⟩] ∧
    ¬ s.Agrees 3 := by
  have hplay : ((start 3).play twiceByThree).isSome = true := rfl
  have hsome := (Option.some_get hplay).symm
  have hsums : (((start 3).play twiceByThree).get hplay).Sums 3 := by
    intro i hi
    obtain rfl | rfl | rfl : i = 0 ∨ i = 1 ∨ i = 2 := by omega
    · exact ⟨[[1], [10]], rfl, by decide⟩
    · exact ⟨[[2, 2], [20]], rfl, by decide⟩
    · exact ⟨[[4], [40]], rfl, by decide⟩
  refine ⟨_, hsome, reachable_of_play .start hsome, hsums.reserves, hsums.uniform, hsums.fits, rfl, rfl, fun hagrees => ?_⟩
  have heq : (Contribution.words .sum [34] : Contribution Float) = .words .sum [70] :=
    hagrees 1 0 (by decide) 2 (by decide) _ _ _ _ rfl rfl
  simp at heq

end Session

end CurvePartition
