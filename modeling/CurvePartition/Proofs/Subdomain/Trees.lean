-- SUMMARY: The global tree of a step: all ranks get one valid tree with the counts of all keys, and with a bucket that is too large none gets a tree.
import CurvePartition.Proofs.Cluster.Succeeding
import CurvePartition.Proofs.Global.Balance
import CurvePartition.Proofs.Leaves.Refining
import CurvePartition.Subdomain.Step

/-!
# The tree of a step

A step balances the tree of the last one and refines it until there is a leaf for every rank. All ranks do this together
and come to the same tree (`Subdomain.collects_balancedTree`). A bucket size that is too large fails on every rank, whatever
the others do (`Subdomain.every_balancedTree_of_too_large`).
-/

namespace CurvePartition

open Program

variable {α β : Type} [Scalar α] [Wire α β]

namespace Global

variable {depth : Nat} {t : Leaves depth} {bucketSize : Nat}

omit [Scalar α] [Wire α β] in
theorem every_balanceFrom_of_too_large (backend : Backend) (keys : Array Nat) (hlarge : 2 ^ 64 ≤ bucketSize * 512)
    (maxRounds fuel rounds : Nat) (ht : t.isValid = true) (leafCounts : Array Nat) :
    (balanceFrom backend keys bucketSize maxRounds fuel rounds t leafCounts : Attempt α β _).run.Every
      fun r => ∃ e, r = .error e ∧ e.isFatal = true := by
  induction fuel generalizing rounds t leafCounts with
  | zero => exact ⟨_, rfl, rfl⟩
  | succ fuel ih =>
    rcases t.round_of_too_large leafCounts ht hlarge with ⟨e, he⟩ | ⟨t', ht', hvalid⟩
    · rw [balanceFrom, round, he]
      exact ⟨_, rfl, rfl⟩
    · rw [balanceFrom_of_round_some _ _ _ _ _ ht']
      exact every_error_bind (every_exchange _) fun leafCounts' => ih (rounds + 1) hvalid leafCounts'

omit [Scalar α] [Wire α β] in
/-- With a bucket that is too large balancing ends the run, whatever the other ranks do. -/
theorem every_balance_of_too_large (backend : Backend) (keys : Array Nat) (hlarge : 2 ^ 64 ≤ bucketSize * 512)
    (maxRounds : Nat) (ht : t.isValid = true) :
    (balance backend keys bucketSize maxRounds t : Attempt α β _).run.Every fun r => ∃ e, r = .error e ∧ e.isFatal = true :=
  every_error_bind (every_exchange _) fun leafCounts =>
    every_balanceFrom_of_too_large backend keys hlarge maxRounds maxRounds 0 ht leafCounts

end Global

namespace Subdomain

variable {width : KeyWidth} {size : Nat} {d : Nat → Subdomain width α} {keys : Nat → Array Nat} {config : Config α}
  {tree : Leaves width.depth}

omit [Scalar α] [Wire α β] in
theorem every_balancedTree_of_too_large {d : Subdomain width α} (keys : Array Nat)
    (hlarge : 2 ^ 64 ≤ d.config.bucketSize * 512) (ht : d.tree.isValid = true) :
    (d.balancedTree keys : Attempt α β _).run.Every fun r => ∃ e, r = .error e ∧ e.isFatal = true := by
  refine (Global.every_balance_of_too_large d.backend keys hlarge d.config.maxRounds ht).bind fun r ⟨e, he, hfatal⟩ => ?_
  rw [he]
  exact ⟨e, rfl, hfatal⟩

/-- A balanced tree refined until there is a leaf for each of some ranks, with its counts. -/
def refined (size : Nat) (keys : List Nat) (balanced : Leaves width.depth × Array Nat × Nat) :
    Leaves width.depth × Array Nat × Nat :=
  let (t, _, rounds) := balanced
  if (t.refine size).bounds.size = t.bounds.size then balanced
  else (t.refine size, (t.refine size).histogram keys, rounds)

/-- What balancing and refining with all keys comes to. -/
def refinedFrom (α : Type) (size : Nat) (keys : List Nat) (bucketSize maxRounds : Nat) (tree : Leaves width.depth) :
    Except (Error α) (Leaves width.depth × Array Nat × Nat) :=
  ((Leaves.roundsFrom keys bucketSize maxRounds maxRounds 0 tree).mapError .imbalance).map (refined size keys)

/-- All ranks get one tree and its counts, or all fail with one cause. -/
theorem collects_balancedTree [Wire.LawfulWords α β] (hkeys : Global.Countable size keys) (ht : tree.isValid = true)
    (hfits : config.bucketSize * 512 < 2 ^ 64)
    (hd : ∀ i < size, (d i).tree = tree ∧ (d i).config = config ∧ (d i).place.size = size) :
    Collects size (fun i => ((d i).balancedTree (keys i) : Attempt α β _).run) fun _ =>
      refinedFrom α size (Global.allKeys size keys) config.bucketSize config.maxRounds tree := by
  have hbalance := Global.collects_balance (α := α) hkeys (fun _ => config.backend) ht hfits config.maxRounds
  have hrest : Collects size (fun i => (Global.balance config.backend (keys i) config.bucketSize config.maxRounds tree >>=
      fun (t, counts, rounds) =>
        if (t.refine size).bounds.size = t.bounds.size then pure (t, counts, rounds)
        else do
          let counts ← Attempt.exchange (Global.counts config.backend (t.refine size) (keys i))
          return (t.refine size, counts, rounds) : Attempt α β (Leaves width.depth × Array Nat × Nat)).run)
      fun _ => refinedFrom α size (Global.allKeys size keys) config.bucketSize config.maxRounds tree := by
    unfold refinedFrom
    cases hrounds : Leaves.roundsFrom (Global.allKeys size keys) config.bucketSize config.maxRounds config.maxRounds 0
        tree with
    | error e =>
      rw [hrounds] at hbalance
      exact hbalance.bind (Collects.done _)
    | ok balanced =>
      obtain ⟨t, counts, rounds⟩ := balanced
      rw [hrounds] at hbalance
      refine hbalance.ok_bind ?_
      have hvalid : t.isValid = true := ((Leaves.isVerdict_roundsFrom (Global.allKeys size keys) hfits config.maxRounds
        config.maxRounds 0 ht).canonical t counts (by rw [hrounds]; rfl)).1.valid
      by_cases hsame : (t.refine size).bounds.size = t.bounds.size
      · simp only [hsame, if_true, Except.mapError, Except.map, refined]
        exact Collects.done _
      · simp only [hsame, if_false, Except.mapError, Except.map, refined]
        exact (Global.collects_counts (α := α) hkeys (fun _ => config.backend)
          (Leaves.isValid_refine size hvalid)).attempt.ok_bind (Collects.done _)
  refine hrest.congr (fun i hi => ?_) fun _ _ => rfl
  obtain ⟨htree, hconfig, hsize⟩ := hd i hi
  rw [balancedTree, htree, backend, hconfig, hsize]

omit [Scalar α] in
/-- The tree is valid and the counts are those of all keys. -/
theorem refinedFrom_spec {keys : List Nat} {bucketSize maxRounds : Nat} (hfits : bucketSize * 512 < 2 ^ 64)
    (ht : tree.isValid = true) {t : Leaves width.depth} {counts : Array Nat} {rounds : Nat}
    (h : refinedFrom α size keys bucketSize maxRounds tree = .ok (t, counts, rounds)) :
    t.isValid = true ∧ counts = t.histogram keys := by
  unfold refinedFrom at h
  cases hrounds : Leaves.roundsFrom keys bucketSize maxRounds maxRounds 0 tree with
  | error e =>
    rw [hrounds] at h
    cases h
  | ok balanced =>
    obtain ⟨t', counts', rounds'⟩ := balanced
    obtain ⟨hbalanced, hcounts, _⟩ := (Leaves.isVerdict_roundsFrom keys hfits maxRounds maxRounds 0 ht).canonical t' counts'
      (by rw [hrounds]; rfl)
    rw [hrounds] at h
    have h : refined size keys (t', counts', rounds') = (t, counts, rounds) := Except.ok.inj h
    unfold refined at h
    dsimp only at h
    split at h
    · cases h
      exact ⟨hbalanced.valid, hcounts⟩
    · cases h
      exact ⟨Leaves.isValid_refine size hbalanced.valid, rfl⟩

/-- Refinement depends on no order of the keys, and passes the number of rounds on. -/
theorem refined_congr (size : Nat) {keys keys' : List Nat} (hperm : keys'.Perm keys) (balanced : Leaves width.depth) (n n' : Nat) :
    refined size keys' (balanced, balanced.histogram keys', n') =
      ((refined size keys (balanced, balanced.histogram keys, n)).1,
        (refined size keys (balanced, balanced.histogram keys, n)).2.1, n') := by
  have hhistogram : ∀ t : Leaves width.depth, t.histogram keys' = t.histogram keys := fun _ => Leaves.histogram_perm hperm
  unfold refined
  simp only [hhistogram]
  split <;> rfl

omit [Scalar α] in
/-- A tree that is found comes from a balanced one, in which no key occurs too often. -/
theorem exists_balanced {keys : List Nat} {bucketSize maxRounds : Nat} (hfits : bucketSize * 512 < 2 ^ 64)
    (ht : tree.isValid = true) {r : Leaves width.depth × Array Nat × Nat}
    (h : refinedFrom α size keys bucketSize maxRounds tree = .ok r) :
    ∃ (balanced : Leaves width.depth) (rounds : Nat), balanced.IsBalanced keys bucketSize ∧
      balanced.checkSplittable (balanced.histogram keys) bucketSize = .ok () ∧
      r = refined size keys (balanced, balanced.histogram keys, rounds) := by
  unfold refinedFrom at h
  rcases Leaves.roundsFrom_cases keys hfits maxRounds maxRounds 0 ht with ⟨balanced, more, hbalanced, _, _, hrounds⟩ | ⟨_, hrounds⟩
  · rw [hrounds] at h
    cases hcheck : balanced.checkSplittable (balanced.histogram keys) bucketSize with
    | error e =>
      rw [hcheck] at h
      cases h
    | ok u =>
      rw [hcheck] at h
      exact ⟨balanced, 0 + more, hbalanced, hcheck, (Except.ok.inj h).symm⟩
  · rw [hrounds] at h
    cases h

omit [Scalar α] in
/-- For the same keys in any order a tree that was found is found again from itself, if rounds that merge it back to the
balanced tree do not run out. With a leaf for every rank in the balanced tree there are none. -/
theorem refinedFrom_again {keys keys' : List Nat} {bucketSize maxRounds : Nat} (hfits : bucketSize * 512 < 2 ^ 64)
    (ht : tree.isValid = true) {t : Leaves width.depth} {counts : Array Nat} {rounds : Nat}
    (h : refinedFrom α size keys bucketSize maxRounds tree = .ok (t, counts, rounds)) (hperm : keys'.Perm keys) :
    ∃ balanced : Leaves width.depth, ∃ k ≤ width.depth, balanced.IsBalanced keys' bucketSize ∧
      Leaves.Rounds keys' bucketSize k t balanced ∧ (size ≤ balanced.count → k = 0) ∧
      (k < maxRounds → refinedFrom α size keys' bucketSize maxRounds t = .ok (t, counts, k)) ∧
      (maxRounds ≤ k → refinedFrom α size keys' bucketSize maxRounds t = .error (.imbalance (.notConverged maxRounds))) := by
  obtain ⟨balanced, n, hbalanced, hcheck, hrefined⟩ := exists_balanced hfits ht h
  obtain ⟨hvalid, _⟩ := refinedFrom_spec hfits ht h
  have hbalanced' := hbalanced.perm hperm.symm
  rw [Leaves.histogram_perm hperm.symm] at hcheck
  obtain ⟨k, hk, hrounds, hzero⟩ : ∃ k ≤ width.depth,
      Leaves.Rounds keys' bucketSize k t balanced ∧ (size ≤ balanced.count → k = 0) := by
    by_cases hmany : size ≤ balanced.count
    · have hsame : t = balanced := by
        have hfst := congrArg (fun r => r.1) hrefined
        simp only [refined, Leaves.refine_of_le hmany, if_true] at hfst
        exact hfst
      exact ⟨0, Nat.zero_le _, hsame ▸ .none t, fun _ => rfl⟩
    · obtain ⟨k, hk, hrounds⟩ := hbalanced'.exists_rounds hfits hvalid
      exact ⟨k, hk, hrounds, fun h => absurd h hmany⟩
  refine ⟨balanced, k, hk, hbalanced', hrounds, hzero, fun hlt => ?_, fun hle => ?_⟩
  · obtain ⟨fuel, rfl⟩ := Nat.exists_eq_add_of_lt hlt
    rw [refinedFrom, Nat.add_assoc, hrounds.roundsFrom_add, hbalanced'.roundsFrom_eq hfits, hcheck,
      Nat.zero_add]
    refine congrArg Except.ok ?_
    rw [refined_congr size hperm balanced n, ← hrefined]
  · rw [refinedFrom, hrounds.roundsFrom_of_le hle]
    rfl

omit [Scalar α] in
/-- With more rounds than a tree is deep, neither the order of the keys nor the tree of the last step matters. -/
theorem refinedFrom_congr (size : Nat) {keys keys' : List Nat} {bucketSize maxRounds : Nat} (hfits : bucketSize * 512 < 2 ^ 64)
    (hrounds : width.depth < maxRounds) {tree' : Leaves width.depth} (ht : tree.isValid = true) (ht' : tree'.isValid = true)
    (hperm : keys'.Perm keys) :
    (∃ e, refinedFrom α size keys bucketSize maxRounds tree = .error e ∧
      refinedFrom α size keys' bucketSize maxRounds tree' = .error e) ∨
    ∃ (t : Leaves width.depth) (counts : Array Nat) (n n' : Nat),
      refinedFrom α size keys bucketSize maxRounds tree = .ok (t, counts, n) ∧
      refinedFrom α size keys' bucketSize maxRounds tree' = .ok (t, counts, n') := by
  -- Neither of the two runs out of rounds.
  have hfound : ∀ (keys : List Nat) {tree : Leaves width.depth}, tree.isValid = true → ∃ (balanced : Leaves width.depth) (n : Nat),
      balanced.IsBalanced keys bucketSize ∧ Leaves.roundsFrom keys bucketSize maxRounds maxRounds 0 tree =
        (balanced.checkSplittable (balanced.histogram keys) bucketSize).map fun _ => (balanced, balanced.histogram keys, n) := by
    intro keys tree ht
    rcases Leaves.roundsFrom_cases keys hfits maxRounds maxRounds 0 ht with ⟨balanced, more, hbalanced, _, _, heq⟩ | ⟨hle, _⟩
    · exact ⟨balanced, 0 + more, hbalanced, heq⟩
    · exact absurd (hle width.depth (Leaves.settlesIn_depth tree _)) (Nat.not_le.2 hrounds)
  obtain ⟨balanced, n, hbalanced, heq⟩ := hfound keys ht
  obtain ⟨balanced', n', hbalanced', heq'⟩ := hfound keys' ht'
  obtain rfl : balanced' = balanced := (hbalanced'.perm hperm).unique hbalanced
  rw [refinedFrom, refinedFrom, heq, heq', Leaves.histogram_perm hperm]
  cases hcheck : balanced'.checkSplittable (balanced'.histogram keys) bucketSize with
  | error e => exact .inl ⟨.imbalance e, rfl, rfl⟩
  | ok u =>
    have hrefined := refined_congr size hperm balanced' n n'
    rw [Leaves.histogram_perm hperm] at hrefined
    exact .inr ⟨_, _, _, n', rfl, congrArg Except.ok hrefined⟩

/-- A refined tree has as many leaves as refinement gives. -/
theorem count_refined (size : Nat) (keys : List Nat) (balanced : Leaves width.depth × Array Nat × Nat) :
    (refined size keys balanced).1.count = (balanced.1.refine size).count := by
  unfold refined
  dsimp only
  split
  · rename_i hsame
    rw [Leaves.count, Leaves.count, hsame]
  · rfl

omit [Scalar α] in
/-- For no more keys than a bucket holds the root is refined. -/
theorem refinedFrom_root {keys : List Nat} {bucketSize maxRounds : Nat} (hfits : bucketSize * 512 < 2 ^ 64)
    (hfew : keys.length ≤ bucketSize) (hrounds : 0 < maxRounds) :
    refinedFrom α size keys bucketSize maxRounds (.root : Leaves width.depth) =
      .ok (refined size keys (.root, (Leaves.root : Leaves width.depth).histogram keys, 0)) := by
  obtain ⟨fuel, rfl⟩ := Nat.exists_eq_succ_of_ne_zero (Nat.ne_of_gt hrounds)
  rw [refinedFrom, Leaves.roundsFrom_root hfits hfew]
  rfl

end Subdomain

end CurvePartition
