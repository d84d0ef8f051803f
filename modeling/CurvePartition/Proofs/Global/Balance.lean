-- SUMMARY: Balancing over all ranks: every rank comes to the one balanced tree of the keys of all ranks, in no more rounds than the tree is deep.
import CurvePartition.Global.Tree
import CurvePartition.Proofs.Cluster.Exchanges
import CurvePartition.Proofs.Leaves.Balanced

/-!
# Balancing over all ranks

The ranks sum up their counts, so each of them decides from the counts of the keys of all ranks, and all take the rounds
that one rank with all keys would take (`Global.collects_balance`). What the rounds come to is determined by the keys: a
balanced tree, or the first key that occurs too often.

Counts are words of 64 bits. All ranks together hold fewer keys than such a word can count.
-/

namespace CurvePartition

open Key Program

namespace Leaves

variable {depth : Nat} {t : Leaves depth}

theorem keyCount_append (n : Node) (a b : List Nat) :
    n.keyCount depth (a ++ b) = n.keyCount depth a + n.keyCount depth b := List.countP_append

theorem toList_histogram (t : Leaves depth) (keys : List Nat) :
    (t.histogram keys).toList = (List.range t.count).map fun i => (t.node i).keyCount depth keys := by
  rw [histogram, Array.toList_map, Array.toList_range]

/-- The counts of two sets of keys add up, as long as words can hold them. -/
theorem zipWith_histogram (t : Leaves depth) {a b : List Nat} (h : a.length + b.length < 2 ^ 64) :
    List.zipWith Reduction.sum.words (t.histogram a).toList (t.histogram b).toList =
      (t.histogram (a ++ b)).toList := by
  simp only [toList_histogram, List.zipWith_map, List.zipWith_self]
  refine List.map_congr_left fun i _ => ?_
  have ha : (t.node i).keyCount depth a ≤ a.length := List.countP_le_length
  have hb : (t.node i).keyCount depth b ≤ b.length := List.countP_le_length
  rw [keyCount_append]
  exact Nat.min_eq_left (by omega)

/-- The combination of the counts of several sets of keys counts all of them. -/
theorem combineAll_histogram (t : Leaves depth) (sets : List (List Nat)) (hne : sets ≠ [])
    (hfits : sets.flatten.length < 2 ^ 64) :
    Delivery.combineAll Reduction.sum.words (sets.map fun keys => (t.histogram keys).toList) =
      (t.histogram sets.flatten).toList := by
  have fold : ∀ (rest : List (List Nat)) (a : List Nat), (a ++ rest.flatten).length < 2 ^ 64 →
      (rest.map fun keys => (t.histogram keys).toList).foldl (List.zipWith Reduction.sum.words) (t.histogram a).toList =
        (t.histogram (a ++ rest.flatten)).toList := by
    intro rest
    induction rest with
    | nil => intro a _; simp
    | cons keys rest ih =>
      intro a ha
      rw [List.flatten_cons, ← List.append_assoc] at ha ⊢
      have hfirst : a.length + keys.length < 2 ^ 64 := by
        rw [List.length_append, List.length_append] at ha
        exact Nat.lt_of_le_of_lt (Nat.le_add_right _ _) ha
      rw [List.map_cons, List.foldl_cons, zipWith_histogram t hfirst, ih (a ++ keys) ha]
  obtain ⟨keys, rest, rfl⟩ := List.exists_cons_of_ne_nil hne
  exact fold rest keys hfits

end Leaves

namespace Global

variable {depth : Nat} {α β : Type} [Scalar α] [Wire α β]

/-- The keys of all ranks. -/
def allKeys (size : Nat) (keys : Nat → Array Nat) : List Nat := (List.range size).flatMap fun rank => (keys rank).toList

/-- Whether every rank has its keys in order, and all ranks together have few enough to be counted in a word. -/
structure Countable (size : Nat) (keys : Nat → Array Nat) : Prop where
  ascending : ∀ rank < size, Sorted.Ascending (keys rank)
  fits : (allKeys size keys).length < 2 ^ 64

omit [Scalar α] [Wire α β] in
/-- After a round that changes the tree, its leaves are counted, and further rounds follow. -/
theorem balanceFrom_of_round_some (backend : Backend) (keys : Array Nat) (maxRounds fuel rounds : Nat)
    {bucketSize : Nat} {t t' : Leaves depth} {leafCounts : Array Nat}
    (h : t.round leafCounts bucketSize = .ok (some t')) :
    (balanceFrom backend keys bucketSize maxRounds (fuel + 1) rounds t leafCounts : Attempt α β _) =
      Attempt.exchange (counts backend t' keys) >>= fun leafCounts' =>
        balanceFrom backend keys bucketSize maxRounds fuel (rounds + 1) t' leafCounts' := by
  rw [balanceFrom, round, h]
  exact LawfulMonad.bind_assoc (Attempt.exchange (counts backend t' keys)) _ _

section Rounds

variable {size : Nat} {keys : Nat → Array Nat} (hkeys : Countable size keys) (backend : Nat → Backend)
  {t : Leaves depth} (ht : t.isValid = true)
include hkeys

theorem Countable.size_lt {rank : Nat} (h : rank < size) : (keys rank).size < 2 ^ 64 := by
  refine Nat.lt_of_le_of_lt ?_ hkeys.fits
  have hmem : (keys rank).toList ∈ (List.range size).map fun rank => (keys rank).toList :=
    List.mem_map.2 ⟨rank, List.mem_range.2 h, rfl⟩
  have hle := (List.sublist_flatten_of_mem hmem).length_le
  rwa [← List.flatMap_def, Array.length_toList] at hle

variable [Wire.LawfulWords α β]
include ht

/-- Every rank gets the counts of the keys of all ranks. -/
theorem collects_counts : Collects size (fun rank => (counts (backend rank) t (keys rank) : Exchange α β (Array Nat)).run)
    fun _ => .ok (t.histogram (allKeys size keys)) := by
  have hcounts : ∀ rank < size, t.counts (backend rank) (keys rank) = t.histogram (keys rank).toList := fun rank h =>
    Leaves.counts_eq_histogram (backend rank) ht (hkeys.ascending rank h)
  have hlength : ∀ rank < size, (t.counts (backend rank) (keys rank)).toList.length = t.count := by
    intro rank _
    simp
  have hsmall : ∀ rank < size, ∀ v ∈ (t.counts (backend rank) (keys rank)).toList, v < 2 ^ 64 := by
    intro rank h v hv
    rw [hcounts rank h, Leaves.toList_histogram] at hv
    obtain ⟨i, _, rfl⟩ := List.mem_map.1 hv
    refine Nat.lt_of_le_of_lt List.countP_le_length ?_
    rw [Array.length_toList]
    exact hkeys.size_lt h
  have hsum : ∀ rank < size, Delivery.combineAll Reduction.sum.words
      ((List.range size).map fun rank => (t.counts (backend rank) (keys rank)).toList) =
        (t.histogram (allKeys size keys)).toList := by
    intro rank h
    have hmap : ((List.range size).map fun rank => (t.counts (backend rank) (keys rank)).toList) =
        ((List.range size).map fun rank => (keys rank).toList).map fun own => (t.histogram own).toList := by
      rw [List.map_map]
      exact List.map_congr_left fun rank h => congrArg Array.toList (hcounts rank (List.mem_range.1 h))
    have hne : ((List.range size).map fun rank => (keys rank).toList) ≠ [] := by
      rw [ne_eq, List.map_eq_nil_iff, List.range_eq_nil]
      omega
    have hfits := hkeys.fits
    rw [allKeys, List.flatMap_def] at hfits ⊢
    rw [hmap, Leaves.combineAll_histogram t _ hne hfits]
  have hreduce : Collects size
      (fun rank => (Exchange.reduceWords .sum (t.counts (backend rank) (keys rank)).toList : Exchange α β (List Nat)).run)
      fun _ => .ok (t.histogram (allKeys size keys)).toList :=
    (Exchange.collects_reduceWords .sum hlength hsmall).congr (fun _ _ => rfl) fun rank h => by rw [hsum rank h]
  exact hreduce.ok_bind (Collects.done _)

/-- The ranks take the rounds that one rank with all keys would take. -/
theorem collects_balanceFrom {bucketSize : Nat} (hfits : bucketSize * 512 < 2 ^ 64) (maxRounds fuel rounds : Nat) :
    Collects size (fun rank => (balanceFrom (backend rank) (keys rank) bucketSize maxRounds fuel rounds t
        (t.histogram (allKeys size keys)) : Attempt α β _).run)
      fun _ => (Leaves.roundsFrom (allKeys size keys) bucketSize maxRounds fuel rounds t).mapError .imbalance := by
  induction fuel generalizing rounds t with
  | zero => exact Collects.done _
  | succ fuel ih =>
    by_cases hbalanced : t.IsBalanced (allKeys size keys) bucketSize
    · have hround := Leaves.round_of_isBalanced ht (allKeys size keys) hfits hbalanced
      have hrest : Collects size
          (fun _ => (do
            Attempt.ofBalance (t.checkSplittable (t.histogram (allKeys size keys)) bucketSize)
            return (t, t.histogram (allKeys size keys), rounds) : Attempt α β (Leaves depth × Array Nat × Nat)).run)
          fun _ => (Leaves.roundsFrom (allKeys size keys) bucketSize maxRounds (fuel + 1) rounds t).mapError .imbalance := by
        rw [Leaves.roundsFrom, hround]
        cases t.checkSplittable (t.histogram (allKeys size keys)) bucketSize <;> exact Collects.done _
      refine hrest.congr (fun rank _ => ?_) fun _ _ => rfl
      rw [balanceFrom, round, hround]
      rfl
    · obtain ⟨t', hround, ht', _⟩ := Leaves.round_of_not_isBalanced ht (allKeys size keys) hfits hbalanced
      have hnext : Leaves.roundsFrom (allKeys size keys) bucketSize maxRounds (fuel + 1) rounds t =
          Leaves.roundsFrom (allKeys size keys) bucketSize maxRounds fuel (rounds + 1) t' := by
        rw [Leaves.roundsFrom, hround]
        rfl
      refine ((collects_counts (α := α) hkeys backend ht').attempt.ok_bind (ih ht' (rounds + 1))).congr
        (fun rank _ => ?_) fun _ _ => by rw [hnext]
      rw [balanceFrom_of_round_some _ _ _ _ _ hround]

/-- Together the ranks find what rounds with all keys find. -/
theorem collects_balance {bucketSize : Nat} (hfits : bucketSize * 512 < 2 ^ 64) (maxRounds : Nat) :
    Collects size (fun rank => (balance (backend rank) (keys rank) bucketSize maxRounds t : Attempt α β _).run)
      fun _ => (Leaves.roundsFrom (allKeys size keys) bucketSize maxRounds maxRounds 0 t).mapError .imbalance :=
  (collects_counts hkeys backend ht).attempt.ok_bind
    (collects_balanceFrom hkeys backend ht hfits maxRounds maxRounds 0)

end Rounds

omit [Scalar α] [Wire α β] in
theorem throws_balanceFrom (backend : Backend) (keys : Array Nat) (bucketSize maxRounds fuel rounds : Nat)
    (t : Leaves depth) (leafCounts : Array Nat) : Throws Call.failure Error.communication
      (balanceFrom backend keys bucketSize maxRounds fuel rounds t leafCounts : Attempt α β _) := by
  induction fuel generalizing rounds t leafCounts with
  | zero => exact .throw _
  | succ fuel ih =>
    have hcounts : ∀ t' : Leaves depth, Throws Call.failure id (counts backend t' keys : Exchange α β _) := fun t' =>
      (Exchange.throws_reduceWords _ _).bind fun _ => .pure _
    refine Throws.bind (Throws.bind (Attempt.throws_ofExcept _) fun next => ?_) fun next => ?_
    · split
      · exact .pure _
      · exact (Attempt.throws_exchange (hcounts _)).bind fun _ => .pure _
    · split
      · exact (Attempt.throws_ofExcept _).bind fun _ => .pure _
      · exact ih _ _ _

omit [Scalar α] [Wire α β] in
theorem throws_balance (backend : Backend) (keys : Array Nat) (bucketSize maxRounds : Nat) (t : Leaves depth) :
    Throws Call.failure Error.communication (balance backend keys bucketSize maxRounds t : Attempt α β _) :=
  (Attempt.throws_exchange ((Exchange.throws_reduceWords _ _).bind fun _ => .pure _)).bind fun _ =>
    throws_balanceFrom _ _ _ _ _ _ _ _

/-! ## The result of balancing -/

/-- Whatever tree they start from, the ranks come to the one balanced tree of all their keys and its exact counts, or to
the first key that occurs too often, unless the rounds run out. -/
theorem balance_canonical [Wire.LawfulWords α β] {bucketSize : Nat} (hfits : bucketSize * 512 < 2 ^ 64)
    (maxRounds : Nat) {size : Nat} {keys : Nat → Array Nat} (hkeys : Countable size keys) (backend : Nat → Backend)
    {t : Leaves depth} (ht : t.isValid = true) :
    (∀ (backend : Backend) (own : Array Nat), Sorted.Ascending own → Leaves.IsVerdict own.toList bucketSize maxRounds
      (Leaves.balance backend own bucketSize maxRounds : Except Imbalance (Leaves depth × Array Nat))) ∧
    ∃ verdict : Except Imbalance (Leaves depth × Array Nat × Nat),
      Leaves.IsVerdict (allKeys size keys) bucketSize maxRounds (verdict.map fun (t', counts, _) => (t', counts)) ∧
      Attempt.ComesTo (α := α) size
        (fun place => balance (backend place.rank) (keys place.rank) bucketSize maxRounds t)
        fun _ => verdict.mapError .imbalance := by
  refine ⟨fun backend own hown => ?_, _, Leaves.isVerdict_roundsFrom (allKeys size keys) hfits maxRounds maxRounds 0 ht,
    (collects_balance hkeys backend ht hfits maxRounds).comesTo fun _ => throws_balance _ _ _ _ _⟩
  rw [Leaves.balance, Leaves.balanceFrom_eq_roundsFrom backend hown hfits maxRounds maxRounds 0 (Leaves.isValid_root depth)]
  exact Leaves.isVerdict_roundsFrom own.toList hfits maxRounds maxRounds 0 (Leaves.isValid_root depth)

/-- Keys of two ranks, few enough for one leaf each but too many for one together. -/
def exampleKeys : Nat → Array Nat
  | 0 => #[1, 1, 5]
  | _ => #[3, 700000000]

theorem countable_exampleKeys : Countable 2 exampleKeys := ⟨by decide, by decide⟩

theorem balance_canonical_two_ranks : Countable 2 exampleKeys ∧ (Leaves.root : Leaves 10).isValid = true ∧
    ∃ verdict : Except Imbalance (Leaves 10 × Array Nat × Nat),
      Leaves.IsVerdict (allKeys 2 exampleKeys) 2 11 (verdict.map fun (t', counts, _) => (t', counts)) ∧
      Attempt.ComesTo (α := Float) 2 (fun place => balance .host (exampleKeys place.rank) 2 11 .root)
        fun _ => verdict.mapError .imbalance :=
  ⟨countable_exampleKeys, Leaves.isValid_root 10,
    (balance_canonical (by decide) 11 countable_exampleKeys (fun _ => .host) (Leaves.isValid_root 10)).2⟩

/-- No more rounds change the tree than it is deep, so that many and one more are always enough. The tree that the ranks find is
where these rounds end, and they count all of them. -/
theorem balance_within_depth [Wire.LawfulWords α β] {bucketSize : Nat} (hfits : bucketSize * 512 < 2 ^ 64)
    (maxRounds : Nat) {size : Nat} {keys : Nat → Array Nat} (hkeys : Countable size keys) (backend : Nat → Backend)
    {t : Leaves depth} (ht : t.isValid = true) :
    (∀ n t', Leaves.Rounds (allKeys size keys) bucketSize n t t' → n ≤ depth) ∧
    (∃ n ≤ depth, ∃ t', Leaves.Rounds (allKeys size keys) bucketSize n t t' ∧
      t'.round (t'.histogram (allKeys size keys)) bucketSize = .ok none) ∧
    (depth + 1 ≤ maxRounds → ∀ (backend : Backend) (own : Array Nat), Sorted.Ascending own → ∀ n,
      (Leaves.balance backend own bucketSize maxRounds : Except Imbalance (Leaves depth × Array Nat)) ≠
        .error (.notConverged n)) ∧
    ∃ verdict : Except Imbalance (Leaves depth × Array Nat × Nat),
      (depth + 1 ≤ maxRounds → ∀ n, verdict ≠ .error (.notConverged n)) ∧
      (∀ t' counts rounds, verdict = .ok (t', counts, rounds) → rounds ≤ depth ∧
        Leaves.Rounds (allKeys size keys) bucketSize rounds t t' ∧
        t'.round (t'.histogram (allKeys size keys)) bucketSize = .ok none) ∧
      Attempt.ComesTo (α := α) size
        (fun place => balance (backend place.rank) (keys place.rank) bucketSize maxRounds t)
        fun _ => verdict.mapError .imbalance := by
  have hsettles := Leaves.settlesIn_depth t (Node.Crowded depth (allKeys size keys) bucketSize)
  refine ⟨fun n t' h => h.le hfits ht hsettles, Leaves.exists_rounds hfits ht hsettles, fun hmax backend own hown n => ?_,
    _, fun hmax => Leaves.roundsFrom_ne_notConverged (allKeys size keys) hfits hmax 0 ht, fun t' counts rounds h => ?_,
    (collects_balance hkeys backend ht hfits maxRounds).comesTo fun _ => throws_balance _ _ _ _ _⟩
  · have hroot := Leaves.isValid_root depth
    rw [Leaves.balance, Leaves.balanceFrom_eq_roundsFrom backend hown hfits maxRounds maxRounds 0 hroot]
    have hne : Leaves.roundsFrom own.toList bucketSize maxRounds maxRounds 0 (Leaves.root : Leaves depth) ≠
        .error (.notConverged n) := Leaves.roundsFrom_ne_notConverged own.toList hfits hmax 0 hroot n
    intro heq
    cases hres : Leaves.roundsFrom own.toList bucketSize maxRounds maxRounds 0 (Leaves.root : Leaves depth) with
    | error cause =>
      rw [hres] at heq hne
      exact hne (congrArg Except.error (Except.error.inj heq))
    | ok =>
      rw [hres] at heq
      cases heq
  · obtain ⟨hrounds, hstop⟩ := Leaves.rounds_of_roundsFrom (allKeys size keys) hfits ht h
    exact ⟨hrounds.le hfits ht hsettles, hrounds, hstop⟩

theorem balance_within_depth_two_ranks : Countable 2 exampleKeys ∧ (Leaves.root : Leaves 10).isValid = true ∧
    ∃ verdict : Except Imbalance (Leaves 10 × Array Nat × Nat),
      (10 + 1 ≤ 11 → ∀ n, verdict ≠ .error (.notConverged n)) ∧
      (∀ t' counts rounds, verdict = .ok (t', counts, rounds) → rounds ≤ 10 ∧
        Leaves.Rounds (allKeys 2 exampleKeys) 2 rounds .root t' ∧
        t'.round (t'.histogram (allKeys 2 exampleKeys)) 2 = .ok none) ∧
      Attempt.ComesTo (α := Float) 2 (fun place => balance .host (exampleKeys place.rank) 2 11 .root)
        fun _ => verdict.mapError .imbalance :=
  ⟨countable_exampleKeys, Leaves.isValid_root 10,
    (balance_within_depth (by decide) 11 countable_exampleKeys (fun _ => .host) (Leaves.isValid_root 10)).2.2.2⟩

end Global

end CurvePartition
