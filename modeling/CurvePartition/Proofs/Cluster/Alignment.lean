-- SUMMARY: Programs of rounds that all ranks make in the same order: in every order of turns each call gives the data of its own round, however far the ranks are apart.
import CurvePartition.Proofs.Cluster.Messages
import CurvePartition.Proofs.Cluster.Turns
import CurvePartition.Proofs.Space.Exact

/-!
# Alignment of rounds

A `Round` is a call that all ranks make together: a reduction, an exchange of counts, or an exchange of messages. There is no
barrier between rounds and their tags are used again and again, so the messages of a fast rank queue behind those of earlier
rounds. Programs of all ranks are `Aligned` if they make the same rounds, each of which fits together (`Round.Fits`): the lengths
that a rank expects are those of the messages that are sent to it. Such programs settle, and each rank has made its rounds with
the answers that belong to them (`Aligned.rounds_settle`). What a round gives each rank is `Round.outcome`.
-/

namespace CurvePartition

open Program Exchange

variable {α β ρ τ : Type}

/-! ## Sums -/

namespace Delivery

/-- Sums that stay at the largest word once they have reached it. -/
theorem foldl_zipWith_sum {j n : Nat} (lists : List (List Nat)) (hlength : ∀ l ∈ lists, l.length = n) (hj : j < n)
    {first : List Nat} (hfirst : first.length = n) (hword : first.getD j 0 < 2 ^ 64) :
    (lists.foldl (List.zipWith Reduction.sum.words) first).getD j 0 =
      min (first.getD j 0 + (lists.map (·.getD j 0)).sum) (2 ^ 64 - 1) := by
  induction lists generalizing first with
  | nil =>
    rw [List.foldl_nil, List.map_nil, List.sum_nil, Nat.add_zero, Nat.min_eq_left (by omega)]
  | cons l lists ih =>
    have hl : l.length = n := hlength l List.mem_cons_self
    have hstep : (List.zipWith Reduction.sum.words first l).getD j 0 = min (first.getD j 0 + l.getD j 0) (2 ^ 64 - 1) := by
      simp only [List.getD_eq_getElem?_getD, List.getElem?_zipWith, List.getElem?_eq_getElem (hfirst ▸ hj),
        List.getElem?_eq_getElem (hl ▸ hj), Option.getD_some]
      rfl
    rw [List.foldl_cons, ih (fun l' hl' => hlength l' (List.mem_cons_of_mem l hl')) (by simp [hfirst, hl]) (by omega), hstep,
      List.map_cons, List.sum_cons]
    omega

/-- A sum over all ranks is their total, or the largest word. -/
theorem getD_combineAll_sum {f : Nat → List Nat} {size n j : Nat} (hpos : 0 < size) (hlength : ∀ i < size, (f i).length = n)
    (hword : ∀ i < size, ∀ v ∈ f i, v < 2 ^ 64) (hj : j < n) :
    (combineAll Reduction.sum.words ((List.range size).map f)).getD j 0 =
      min ((List.range size).map fun i => (f i).getD j 0).sum (2 ^ 64 - 1) := by
  obtain ⟨m, rfl⟩ := Nat.exists_eq_add_one_of_ne_zero (Nat.ne_of_gt hpos)
  have hrange : (List.range (m + 1)).map f = f 0 :: (List.range m).map fun i => f (i + 1) := by
    rw [List.range_succ_eq_map, List.map_cons, List.map_map]
    rfl
  have hfirst : (f 0).getD j 0 < 2 ^ 64 := by
    rw [List.getD_eq_getElem?_getD, List.getElem?_eq_getElem (hlength 0 hpos ▸ hj)]
    exact hword 0 hpos _ (List.getElem_mem _)
  have hrest : ∀ l ∈ (List.range m).map fun i => f (i + 1), l.length = n := by
    intro l hl
    obtain ⟨i, hi, rfl⟩ := List.mem_map.1 hl
    exact hlength (i + 1) (Nat.succ_lt_succ (List.mem_range.1 hi))
  rw [hrange, combineAll, foldl_zipWith_sum _ hrest hj (hlength 0 hpos) hfirst, List.range_succ_eq_map, List.map_cons,
    List.sum_cons, List.map_map, List.map_map]
  rfl

end Delivery

/-! ## Rounds -/

/-- A call that all ranks make together. -/
inductive Round (α β : Type) where
  | reduceWords (op : Reduction) (values : List Nat)
  | reduceScalars (op : Reduction) (values : List α)
  | counts (values : List Nat)
  /-- Full messages to send, and the sources and lengths of those to receive. -/
  | messages (tag : Int) (outgoing : List (Nat × Message β)) (incoming : List (Nat × Nat))

namespace Round

/-- What a round gives a rank. -/
inductive Data (α β : Type) where
  | words (values : List Nat)
  | scalars (values : List α)
  | messages (received : List (Message β))

/-- A round of a rank as an exchange. -/
def exchange [Wire α β] (place : Place) : Round α β → Exchange α β (Data α β)
  | reduceWords op values => return .words (← Exchange.reduceWords op values)
  | reduceScalars op values => return .scalars (← Exchange.reduceScalars op values)
  | counts values => return .words (← Exchange.counts place values)
  | messages tag outgoing incoming => return .messages (← Exchange.messages tag outgoing incoming)

/-- Calls that make up a round. -/
def toCalls [Wire α β] (place : Place) (r : Round α β) :
    Program (Call.Answer : Call α β → Type) (Except CommError (Data α β)) := (r.exchange place).run

/-- The words that a rank gives. -/
def words : Round α β → List Nat
  | reduceWords _ values | counts values => values
  | reduceScalars .. | messages .. => []

/-- The scalars that a rank gives. -/
def scalars : Round α β → List α
  | reduceScalars _ values => values
  | reduceWords .. | counts _ | messages .. => []

/-- The messages that a rank sends. -/
def outgoing : Round α β → List (Nat × Message β)
  | messages _ outgoing _ => outgoing
  | reduceWords .. | reduceScalars .. | counts _ => []

/-- Sources and lengths of the messages that a rank expects. -/
def incoming : Round α β → List (Nat × Nat)
  | messages _ _ incoming => incoming
  | reduceWords .. | reduceScalars .. | counts _ => []

/-! ## What rounds give -/

/-- Answers to lengths that are expected from some sources. To a length that is not zero it is the next message of the source. -/
def answers : (Nat → List (Message β)) → List (Nat × Nat) → List (Nat × Message β)
  | _, [] => []
  | sent, (source, length) :: rest =>
    if 0 < length then
      (source, (sent source).headD []) :: answers (fun s => if s = source then (sent s).tail else sent s) rest
    else (source, []) :: answers sent rest

/-- What a round of all ranks gives a rank. -/
def outcome [Scalar α] (size : Nat) (rounds : Nat → Round α β) (rank : Nat) : Data α β :=
  match rounds rank with
  | reduceWords op _ => .words (Delivery.combineAll op.words ((List.range size).map fun s => (rounds s).words))
  | reduceScalars op _ => .scalars (Delivery.combineAll op.scalars ((List.range size).map fun s => (rounds s).scalars))
  | counts _ => .words ((List.range size).map fun s => (rounds s).words.getD rank 0)
  | messages _ _ incoming => .messages ((answers (fun s => paired (full (rounds s).outgoing) rank) incoming).map Prod.snd)

/-- Whether the rounds of all ranks are one round: one reduction of as many values, or one exchange in which the lengths that a
rank expects from another one are, in order, those of the full messages that the other one sends to it. -/
inductive Fits (size : Nat) (rounds : Nat → Round α β) : Prop where
  | reduceWords (op : Reduction) (n : Nat) (kind : ∀ i < size, rounds i = .reduceWords op (rounds i).words)
    (length_eq : ∀ i < size, (rounds i).words.length = n) (word : ∀ i < size, ∀ v ∈ (rounds i).words, v < 2 ^ 64)
  | reduceScalars (op : Reduction) (n : Nat) (kind : ∀ i < size, rounds i = .reduceScalars op (rounds i).scalars)
    (length_eq : ∀ i < size, (rounds i).scalars.length = n)
  | counts (kind : ∀ i < size, rounds i = .counts (rounds i).words)
    (length_eq : ∀ i < size, (rounds i).words.length = size) (word : ∀ i < size, ∀ v ∈ (rounds i).words, v < 2 ^ 64)
  | messages (tag : Int) (kind : ∀ i < size, rounds i = .messages tag (rounds i).outgoing (rounds i).incoming)
    (dest_lt : ∀ i < size, ∀ p ∈ full (rounds i).outgoing, p.1 < size)
    (source_lt : ∀ i < size, ∀ p ∈ (rounds i).incoming, 0 < p.2 → p.1 < size)
    (lengths_eq : ∀ i < size, ∀ s < size,
      paired ((rounds i).incoming.filter (0 < ·.2)) s = (paired (full (rounds s).outgoing) i).map List.length)

/-- The next message of a source has the length that is expected first, and those behind it the lengths expected then. -/
theorem exists_next {size source length : Nat} {lengths : List (Nat × Nat)} {sent : Nat → List (Message β)}
    (hsource : source < size) (h : ∀ s < size, paired ((source, length) :: lengths) s = (sent s).map List.length) :
    ∃ m rest, sent source = m :: rest ∧ m.length = length ∧
      ∀ s < size, paired lengths s = (if s = source then (sent s).tail else sent s).map List.length := by
  have hhead := h source hsource
  rw [paired_cons, if_pos rfl] at hhead
  cases hsent : sent source with
  | nil => simp [hsent] at hhead
  | cons m rest =>
    rw [hsent, List.map_cons, List.cons.injEq] at hhead
    refine ⟨m, rest, rfl, hhead.1.symm, fun s hs => ?_⟩
    by_cases heq : s = source
    · rw [if_pos heq, heq, hsent, List.tail_cons, hhead.2]
    · rw [if_neg heq, ← h s hs, paired_cons, if_neg (Ne.symm heq)]

/-- Answers have the lengths that are expected, and those of a source are its messages in their order. -/
theorem answers_spec {size : Nat} {incoming : List (Nat × Nat)} {sent : Nat → List (Message β)}
    (hfull : ∀ s < size, ∀ m ∈ sent s, m ≠ []) (hsource : ∀ p ∈ incoming, 0 < p.2 → p.1 < size)
    (hlengths : ∀ s < size, paired (incoming.filter (0 < ·.2)) s = (sent s).map List.length) :
    ((answers sent incoming).map fun p => (p.1, p.2.length)) = incoming ∧
      ∀ s < size, paired (full (answers sent incoming)) s = sent s := by
  induction incoming generalizing sent with
  | nil =>
    refine ⟨rfl, fun s hs => ?_⟩
    have hnil := hlengths s hs
    rw [List.filter_nil, paired_nil, eq_comm, List.map_eq_nil_iff] at hnil
    exact hnil.symm
  | cons p incoming ih =>
    obtain ⟨source, length⟩ := p
    have hsource' := fun p hp => hsource p (List.mem_cons_of_mem _ hp)
    by_cases hpos : 0 < length
    · have hlt : source < size := hsource _ List.mem_cons_self hpos
      rw [List.filter_cons_of_pos (by simpa using hpos)] at hlengths
      obtain ⟨m, rest, hsent, hlength, hrest⟩ := exists_next hlt hlengths
      have hm : m ≠ [] := hfull source hlt m (hsent ▸ List.mem_cons_self)
      obtain ⟨hanswers, hpaired⟩ := @ih (fun s => if s = source then (sent s).tail else sent s)
        (fun s hs m' hm' => hfull s hs m' (by
          split at hm'
          · exact List.mem_of_mem_tail hm'
          · exact hm'))
        hsource' hrest
      rw [answers, if_pos hpos, hsent, List.headD_cons]
      refine ⟨by rw [List.map_cons, hanswers, hlength], fun s hs => ?_⟩
      rw [full, List.filter_cons_of_pos (by simpa using hm), paired_cons, ← full, hpaired s hs]
      by_cases heq : s = source
      · rw [if_pos heq.symm, if_pos heq, heq, hsent, List.tail_cons]
      · rw [if_neg (Ne.symm heq), if_neg heq]
    · obtain rfl : length = 0 := Nat.eq_zero_of_not_pos hpos
      rw [List.filter_cons_of_neg (by simp)] at hlengths
      obtain ⟨hanswers, hpaired⟩ := ih hfull hsource' hlengths
      rw [answers, if_neg hpos]
      refine ⟨by rw [List.map_cons, hanswers, List.length_nil], fun s hs => ?_⟩
      rw [full, List.filter_cons_of_neg (by simp)]
      exact hpaired s hs

/-- What the data of a round mean to a rank. -/
structure Delivers [Scalar α] (size : Nat) (rounds : Nat → Round α β) (rank : Nat) : Prop where
  /-- A sum is the total of all ranks, or the largest word if that is too large. -/
  total : ∀ values, rounds rank = .reduceWords .sum values → ∃ totals, outcome size rounds rank = .words totals ∧
    ∀ j < values.length, totals.getD j 0 =
      min ((List.range size).map fun s => (rounds s).words.getD j 0).sum (2 ^ 64 - 1)
  /-- Messages have the lengths that are expected, and those of a source are the full ones that it sends, in their order. -/
  received : ∀ tag outgoing incoming, rounds rank = .messages tag outgoing incoming →
    ∃ answered, outcome size rounds rank = .messages (answered.map Prod.snd) ∧
      (answered.map fun p => (p.1, p.2.length)) = incoming ∧
      ∀ s < size, paired (full answered) s = paired (full (rounds s).outgoing) rank

section Fits

variable [Scalar α] {size i : Nat} {rounds : Nat → Round α β}

omit [Scalar α] in
theorem full_ne_nil {l : List (Nat × Message β)} {rank : Nat} : ∀ m ∈ paired (full l) rank, m ≠ [] := by
  intro m hm
  rw [paired_full] at hm
  simpa using (List.mem_filter.1 hm).2

theorem Fits.delivers (h : Fits size rounds) (hi : i < size) : Delivers size rounds i where
  total own hown := by
    cases h with
    | reduceWords op n kind length_eq word =>
      obtain ⟨rfl, hwords⟩ := Round.reduceWords.inj ((kind i hi).symm.trans hown)
      refine ⟨_, by rw [outcome, hown], fun j hj => ?_⟩
      exact Delivery.getD_combineAll_sum (Nat.zero_lt_of_lt hi) length_eq word (length_eq i hi ▸ hwords ▸ hj)
    | reduceScalars op n kind => cases (kind i hi).symm.trans hown
    | counts kind => cases (kind i hi).symm.trans hown
    | messages tag kind => cases (kind i hi).symm.trans hown
  received tag outgoing incoming hmessages := by
    cases h with
    | reduceWords op n kind => cases (kind i hi).symm.trans hmessages
    | reduceScalars op n kind => cases (kind i hi).symm.trans hmessages
    | counts kind => cases (kind i hi).symm.trans hmessages
    | messages tag kind dest_lt source_lt lengths_eq =>
      obtain ⟨_, _, hincoming⟩ := Round.messages.inj ((kind i hi).symm.trans hmessages)
      obtain ⟨hanswers, hpaired⟩ := answers_spec (fun _ _ => full_ne_nil) (source_lt i hi) (lengths_eq i hi)
      exact ⟨_, by rw [outcome, hmessages], hincoming ▸ hanswers, hincoming ▸ hpaired⟩

variable [Wire α β] [Wire.LawfulWords α β] [Wire.LawfulScalars α β]

omit [Wire.LawfulWords α β] [Wire.LawfulScalars α β] in
theorem collects_data {e : Nat → Exchange α β τ} {rs : Nat → τ} (h : Collects size (fun i => (e i).run) fun i => .ok (rs i))
    (f : τ → Data α β) : Collects size (fun i => (e i >>= fun a => pure (f a)).run) fun i => .ok (f (rs i)) :=
  h.ok_bind (Collects.done _)

/-- A round that fits together gives every rank its data, and leaves no message behind. -/
theorem Fits.collects (h : Fits size rounds) :
    Collects size (fun i => toCalls ⟨i, size⟩ (rounds i)) fun i => .ok (outcome size rounds i) := by
  cases h with
  | reduceWords op n kind length_eq word =>
    refine (collects_data (Exchange.collects_reduceWords op length_eq word) .words).congr
      (fun i hi => congrArg (toCalls ⟨i, size⟩) (kind i hi)) fun i hi => ?_
    rw [outcome, kind i hi]
  | reduceScalars op n kind length_eq =>
    refine (collects_data (Exchange.collects_reduceScalars op length_eq) .scalars).congr
      (fun i hi => congrArg (toCalls ⟨i, size⟩) (kind i hi)) fun i hi => ?_
    rw [outcome, kind i hi]
  | counts kind length_eq word =>
    refine (collects_data (Exchange.collects_counts word) .words).congr
      (fun i hi => congrArg (toCalls ⟨i, size⟩) (kind i hi)) fun i hi => ?_
    rw [outcome, kind i hi]
  | messages tag kind dest_lt source_lt lengths_eq =>
    have hanswers := fun i hi => answers_spec (fun _ _ => full_ne_nil) (source_lt i hi) (lengths_eq i hi)
    have hsource : ∀ i < size, ∀ p ∈ full (answers (fun s => paired (full (rounds s).outgoing) i) (rounds i).incoming),
        p.1 < size := by
      intro i hi p hp
      obtain ⟨hp, hfull⟩ := mem_full_iff.1 hp
      have hmem : (p.1, p.2.length) ∈ (rounds i).incoming := by
        rw [← (hanswers i hi).1]
        exact List.mem_map.2 ⟨p, hp, rfl⟩
      exact source_lt i hi _ hmem (List.length_pos_iff.2 hfull)
    refine (collects_data (collects_messages_of_paired tag (fun i => (rounds i).outgoing) _ dest_lt hsource
      fun i hi => (hanswers i hi).2) .messages).congr (fun i hi => ?_) fun i hi => ?_
    · rw [(hanswers i hi).1]
      exact congrArg (toCalls ⟨i, size⟩) (kind i hi)
    · rw [outcome, kind i hi]
      rfl

end Fits

end Round

/-! ## Programs of rounds -/

/-- A program of rounds. -/
abbrev RoundProgram (α β ρ : Type) := Program (fun _ : Round α β => Except CommError (Round.Data α β)) ρ

/-- The program with a record of its calls and their answers. -/
def Program.recorded {Op A : Type} : Program (fun _ : Op => A) ρ → Program (fun _ : Op => A) (ρ × List (Op × A))
  | .done r => .done (r, [])
  | .call op next => .call op fun a => (next a).recorded >>= fun r => .done (r.1, (op, a) :: r.2)

/-- Programs of all ranks that make the same rounds, when each rank gets the data of each round, with the result and the record of
each rank. -/
inductive Aligned [Scalar α] (size : Nat) : (Nat → RoundProgram α β ρ) →
    (Nat → ρ × List (Round α β × Except CommError (Round.Data α β))) → Prop where
  | done {ps : Nat → RoundProgram α β ρ} (results : Nat → ρ) (ended : ∀ i < size, ps i = .done (results i)) :
    Aligned size ps fun i => (results i, [])
  | round {ps : Nat → RoundProgram α β ρ} (rounds : Nat → Round α β)
    (next : Nat → Except CommError (Round.Data α β) → RoundProgram α β ρ)
    {records : Nat → ρ × List (Round α β × Except CommError (Round.Data α β))}
    (calls : ∀ i < size, ps i = .call (rounds i) (next i)) (fits : Round.Fits size rounds)
    (rest : Aligned size (fun i => next i (.ok (Round.outcome size rounds i))) records) :
    Aligned size ps fun i => ((records i).1, (rounds i, .ok (Round.outcome size rounds i)) :: (records i).2)

section Aligned

variable [Scalar α] {size : Nat} {ps : Nat → RoundProgram α β ρ}
  {records : Nat → ρ × List (Round α β × Except CommError (Round.Data α β))}

/-- The records of all ranks are of the same rounds, each with its own data. -/
theorem Aligned.exists_rounds (h : Aligned size ps records) : ∃ rounds : List (Nat → Round α β),
    (∀ r ∈ rounds, Round.Fits size r) ∧ ∀ i, (records i).2 = rounds.map fun r => (r i, .ok (Round.outcome size r i)) := by
  induction h with
  | done results ended => exact ⟨[], List.forall_mem_nil _, fun i => rfl⟩
  | round rounds next calls fits rest ih =>
    obtain ⟨later, hfits, hrecords⟩ := ih
    refine ⟨rounds :: later, List.forall_mem_cons.2 ⟨fits, hfits⟩, fun i => ?_⟩
    rw [List.map_cons, ← hrecords i]

variable [Wire α β] [Wire.LawfulWords α β] [Wire.LawfulScalars α β]

theorem Aligned.collects (h : Aligned size ps records) :
    Collects size (fun i => (ps i).recorded.expand (Round.toCalls ⟨i, size⟩)) records := by
  induction h with
  | done results ended =>
    exact (Collects.done fun i => (results i, [])).congr (fun i hi => by rw [ended i hi]; rfl) fun _ _ => rfl
  | round rounds next calls fits rest ih =>
    refine (fits.collects.bind (f := fun i a => ((next i a).recorded.expand (Round.toCalls ⟨i, size⟩)) >>= fun r =>
      .done (r.1, (rounds i, a) :: r.2)) (ih.bind (Collects.done _))).congr (fun i hi => ?_) fun _ _ => rfl
    rw [calls i hi]
    exact congrArg (_ >>= ·) (funext fun a => expand_bind _ _ _)

/-- Ranks that make the same rounds, with no barrier between them, come to their results in every order of turns, and leave no
message behind. Each call of a rank was answered with the data of its own round, which is the same round on all ranks. -/
theorem Aligned.rounds_settle (h : Aligned size ps records) :
    (Cluster.start ((List.range size).map fun i =>
      ((ps i).recorded.expand (Round.toCalls ⟨i, size⟩)).expand (Call.toActions ⟨i, size⟩))).Settles
        ((List.range size).map records) ∧
    ∃ rounds : List (Nat → Round α β),
      (∀ r ∈ rounds, Round.Fits size r ∧ ∀ i < size, Round.Delivers size r i) ∧
      ∀ i < size, (records i).2 = rounds.map fun r => (r i, .ok (Round.outcome size r i)) := by
  obtain ⟨rounds, hfits, hrecords⟩ := h.exists_rounds
  exact ⟨h.collects.settles, rounds, fun r hr => ⟨hfits r hr, fun i hi => (hfits r hr).delivers hi⟩, fun i _ => hrecords i⟩

end Aligned

/-- Two ranks add up words to more than the largest one. Then rank 0 sends the sum to rank 1 in two messages, and to itself. -/
def passSum (rank : Nat) : RoundProgram EReal Exact.Symbol (Except CommError (Round.Data EReal Exact.Symbol)) :=
  .call (.reduceWords .sum [2 ^ 63 + rank]) fun
    | .ok (.words totals) => .call (passed (.word (totals.getD 0 0)) rank) .done
    | _ => .done (.ok (.words []))
where
  passed (sum : Exact.Symbol) (rank : Nat) : Round EReal Exact.Symbol :=
    if rank = 0 then .messages 7 [(1, [sum]), (0, [sum]), (1, [sum, sum])] [(0, 1)]
    else .messages 7 [] [(0, 1), (1, 0), (0, 2)]

theorem aligned_passSum : ∃ records, Aligned 2 passSum records ∧
    (records 0).1 = .ok (.messages [[.word (2 ^ 64 - 1)]]) ∧
    (records 1).1 = .ok (.messages [[.word (2 ^ 64 - 1)], [], [.word (2 ^ 64 - 1), .word (2 ^ 64 - 1)]]) := by
  have hsum : Round.Fits 2 fun i => (.reduceWords .sum [2 ^ 63 + i] : Round EReal Exact.Symbol) :=
    .reduceWords .sum 1 (fun _ _ => rfl) (fun _ _ => rfl) (by decide)
  have hpassed : Round.Fits 2 (passSum.passed (.word (2 ^ 64 - 1))) := by
    refine .messages 7 (fun i _ => ?_) (by decide) (by decide) (by decide)
    rw [passSum.passed]
    split <;> rfl
  exact ⟨_, .round _ _ (fun i _ => rfl) hsum (.round _ (fun _ => .done) (fun i _ => rfl) hpassed (.done _ fun i _ => rfl)),
    rfl, rfl⟩

theorem Aligned.rounds_settle_passSum : ∃ records, Aligned 2 passSum records ∧
    (records 0).1 = .ok (.messages [[.word (2 ^ 64 - 1)]]) ∧
    (records 1).1 = .ok (.messages [[.word (2 ^ 64 - 1)], [], [.word (2 ^ 64 - 1), .word (2 ^ 64 - 1)]]) ∧
    (Cluster.start ((List.range 2).map fun i =>
      ((passSum i).recorded.expand (Round.toCalls ⟨i, 2⟩)).expand (Call.toActions ⟨i, 2⟩))).Settles
        ((List.range 2).map records) := by
  obtain ⟨records, h, hzero, hone⟩ := aligned_passSum
  exact ⟨records, h, hzero, hone, h.rounds_settle.1⟩

end CurvePartition
