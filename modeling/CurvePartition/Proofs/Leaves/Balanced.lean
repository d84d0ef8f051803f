-- SUMMARY: Balanced trees, which the keys alone determine, and rounds of balancing with exact counts, which reach them within the depth of the tree.
import CurvePartition.Proofs.Leaves.Counting

/-!
# Balanced trees

A valid tree is balanced if it splits exactly the crowded cells. There is at most one such tree
(`Leaves.IsBalanced.unique`). Rounds that know the exact counts find it from every valid tree: `Leaves.roundsFrom_cases`
says what the rounds return and how many are needed at most.
-/

namespace CurvePartition

namespace Leaves

open Key Node

variable {depth : Nat} {t : Leaves depth}

/-- Whether a tree splits exactly the cells above the deepest level that hold more keys than a bucket. -/
structure IsBalanced (t : Leaves depth) (keys : List Nat) (bucketSize : Nat) : Prop where
  valid : t.isValid = true
  splits_iff : ∀ n, n.IsCell depth → (t.Splits n ↔ n.level < depth ∧ bucketSize < n.keyCount depth keys)

theorem IsBalanced.unique {t' : Leaves depth} {keys : List Nat} {bucketSize : Nat} (h : t.IsBalanced keys bucketSize)
    (h' : t'.IsBalanced keys bucketSize) : t = t' :=
  eq_of_splits_iff h.valid h'.valid fun n hn => (h.splits_iff n hn).trans (h'.splits_iff n hn).symm

/-! ## One round -/

section Round

variable (ht : t.isValid = true) (keys : List Nat) {bucketSize : Nat} (hfits : bucketSize * 512 < 2 ^ 64)
include ht hfits

theorem round_of_isBalanced (h : t.IsBalanced keys bucketSize) :
    t.round (t.histogram keys) bucketSize = .ok none := by
  have hstable := (isStable_iff_hasShape (isShape_crowded depth keys bucketSize) ht
    (adapts_decisions ht keys bucketSize)).2 h.splits_iff
  rw [round, changes_eq_decisions t _ hfits]
  simp only [Except.bind, bind, hstable, if_true]
  rfl

/-- A round of a tree that is not balanced keeps it valid and leaves one level less to do. -/
theorem round_of_not_isBalanced (h : ¬ t.IsBalanced keys bucketSize) :
    ∃ t', t.round (t.histogram keys) bucketSize = .ok (some t') ∧ t'.isValid = true ∧
      ∀ k, t.SettlesIn (Crowded depth keys bucketSize) (k + 1) → t'.SettlesIn (Crowded depth keys bucketSize) k := by
  have hshape := isShape_crowded depth keys bucketSize
  have hadapts := adapts_decisions ht keys bucketSize
  have hunstable : ¬ isStable ((List.range t.count).map (t.decision (t.histogram keys) bucketSize)) = true :=
    fun hstable => h ⟨ht, (isStable_iff_hasShape hshape ht hadapts).1 hstable⟩
  refine ⟨_, ?_, isValid_apply ht hadapts, fun k hk => hk.apply hshape ht hadapts⟩
  rw [round, changes_eq_decisions t _ hfits]
  simp only [Except.bind, bind, if_neg hunstable]
  rfl

end Round

/-! ## Rounds -/

/-- A number of rounds with exact counts, each of which changes the tree. -/
inductive Rounds (keys : List Nat) (bucketSize : Nat) : Nat → Leaves depth → Leaves depth → Prop where
  | none (t : Leaves depth) : Rounds keys bucketSize 0 t t
  | more {n : Nat} {t t' t'' : Leaves depth} (first : t.round (t.histogram keys) bucketSize = .ok (some t'))
    (rest : Rounds keys bucketSize n t' t'') : Rounds keys bucketSize (n + 1) t t''

section Rounds

variable {keys : List Nat} {bucketSize n k : Nat} (hfits : bucketSize * 512 < 2 ^ 64)
include hfits

/-- There are no more rounds than levels left to settle. -/
theorem Rounds.le {t' : Leaves depth} (h : Rounds keys bucketSize n t t') (ht : t.isValid = true)
    (hk : t.SettlesIn (Crowded depth keys bucketSize) k) : n ≤ k := by
  induction h generalizing k with
  | none => exact Nat.zero_le k
  | @more n t t₁ _ first _ ih =>
    have hnot : ¬ t.IsBalanced keys bucketSize := fun hbalanced => by
      cases first.symm.trans (round_of_isBalanced ht keys hfits hbalanced)
    obtain ⟨t₂, hround, ht₂, hsettles⟩ := round_of_not_isBalanced ht keys hfits hnot
    cases first.symm.trans hround
    cases k with
    | zero => exact absurd ⟨ht, hk.hasShape (isShape_crowded depth keys bucketSize) ht⟩ hnot
    | succ k => exact Nat.succ_le_succ (ih ht₂ (hsettles k hk))

/-- After so many rounds nothing changes any more. -/
theorem exists_rounds (ht : t.isValid = true) (hk : t.SettlesIn (Crowded depth keys bucketSize) k) :
    ∃ n ≤ k, ∃ t', Rounds keys bucketSize n t t' ∧ t'.round (t'.histogram keys) bucketSize = .ok .none := by
  induction k generalizing t with
  | zero =>
    have hbalanced : t.IsBalanced keys bucketSize := ⟨ht, hk.hasShape (isShape_crowded depth keys bucketSize) ht⟩
    exact ⟨0, Nat.le_refl 0, t, .none t, round_of_isBalanced ht keys hfits hbalanced⟩
  | succ k ih =>
    by_cases hbalanced : t.IsBalanced keys bucketSize
    · exact ⟨0, Nat.zero_le _, t, .none t, round_of_isBalanced ht keys hfits hbalanced⟩
    · obtain ⟨t₁, hround, ht₁, hsettles⟩ := round_of_not_isBalanced ht keys hfits hbalanced
      obtain ⟨n, hn, t', hrounds, hstop⟩ := ih ht₁ (hsettles k hk)
      exact ⟨n + 1, Nat.succ_le_succ hn, t', .more hround hrounds, hstop⟩

theorem Rounds.isValid {t' : Leaves depth} (h : Rounds keys bucketSize n t t') (ht : t.isValid = true) : t'.isValid = true := by
  induction h with
  | none => exact ht
  | @more n t t₁ _ first _ ih =>
    have hnot : ¬ t.IsBalanced keys bucketSize := fun hbalanced => by
      cases first.symm.trans (round_of_isBalanced ht keys hfits hbalanced)
    obtain ⟨t₂, hround, ht₂, _⟩ := round_of_not_isBalanced ht keys hfits hnot
    cases first.symm.trans hround
    exact ih ht₂

/-- From every valid tree rounds lead to the balanced one. -/
theorem IsBalanced.exists_rounds {balanced : Leaves depth} (h : balanced.IsBalanced keys bucketSize) (ht : t.isValid = true) :
    ∃ n ≤ depth, Rounds keys bucketSize n t balanced := by
  obtain ⟨n, hn, t', hrounds, hstop⟩ := Leaves.exists_rounds hfits ht (settlesIn_depth t (Crowded depth keys bucketSize))
  have ht' := hrounds.isValid hfits ht
  have hbalanced : t'.IsBalanced keys bucketSize := by
    by_contra hnot
    obtain ⟨_, hround, _⟩ := round_of_not_isBalanced ht' keys hfits hnot
    cases hround.symm.trans hstop
  exact ⟨n, hn, hbalanced.unique h ▸ hrounds⟩

end Rounds

/-- Rounds of balancing that know all keys, at most `fuel` of them after the first `rounds`: the tree, its counts and the
number of rounds. -/
def roundsFrom (keys : List Nat) (bucketSize maxRounds : Nat) :
    Nat → Nat → Leaves depth → Except Imbalance (Leaves depth × Array Nat × Nat)
  | 0, _, _ => .error (.notConverged maxRounds)
  | fuel + 1, rounds, t => do
    match ← t.round (t.histogram keys) bucketSize with
    | none => do
      t.checkSplittable (t.histogram keys) bucketSize
      return (t, t.histogram keys, rounds)
    | some t' => roundsFrom keys bucketSize maxRounds fuel (rounds + 1) t'

/-- Rounds stop at a balanced tree. -/
theorem IsBalanced.roundsFrom_eq {keys : List Nat} {bucketSize : Nat} (h : t.IsBalanced keys bucketSize)
    (hfits : bucketSize * 512 < 2 ^ 64) (maxRounds fuel rounds : Nat) :
    roundsFrom keys bucketSize maxRounds (fuel + 1) rounds t =
      (t.checkSplittable (t.histogram keys) bucketSize).map fun _ => (t, t.histogram keys, rounds) := by
  rw [roundsFrom, round_of_isBalanced h.valid keys hfits h]
  cases t.checkSplittable (t.histogram keys) bucketSize <;> rfl

/-- Rounds that lead from one tree to another can be left out. -/
theorem Rounds.roundsFrom_add {keys : List Nat} {bucketSize n : Nat} {t' : Leaves depth}
    (h : Rounds keys bucketSize n t t') (maxRounds fuel rounds : Nat) :
    roundsFrom keys bucketSize maxRounds (n + fuel) rounds t = roundsFrom keys bucketSize maxRounds fuel (rounds + n) t' := by
  induction h generalizing rounds with
  | none => rw [Nat.zero_add, Nat.add_zero]
  | @more n t t₁ t₂ first _ ih =>
    have hnext : roundsFrom keys bucketSize maxRounds (n + fuel + 1) rounds t =
        roundsFrom keys bucketSize maxRounds (n + fuel) (rounds + 1) t₁ := by
      rw [roundsFrom, first]
      rfl
    rw [Nat.succ_add, hnext, ih, Nat.add_right_comm, Nat.add_assoc]

/-- As many rounds as lead to another tree are too few to find out that it is balanced. -/
theorem Rounds.roundsFrom_of_le {keys : List Nat} {bucketSize n fuel : Nat} {t' : Leaves depth}
    (h : Rounds keys bucketSize n t t') (hle : fuel ≤ n) (maxRounds rounds : Nat) :
    roundsFrom keys bucketSize maxRounds fuel rounds t = .error (.notConverged maxRounds) := by
  induction h generalizing rounds fuel with
  | none =>
    obtain rfl := Nat.le_zero.1 hle
    rfl
  | @more n t t₁ t₂ first _ ih =>
    cases fuel with
    | zero => rfl
    | succ fuel =>
      rw [roundsFrom, first]
      exact ih (Nat.le_of_succ_le_succ hle) (rounds + 1)

/-- Rounds end at a balanced tree. Otherwise they run out, before all levels are settled. -/
theorem roundsFrom_cases (keys : List Nat) {bucketSize : Nat} (hfits : bucketSize * 512 < 2 ^ 64)
    (maxRounds fuel rounds : Nat) (ht : t.isValid = true) :
    (∃ (t' : Leaves depth) (more : Nat), t'.IsBalanced keys bucketSize ∧ more < fuel ∧ Rounds keys bucketSize more t t' ∧
      roundsFrom keys bucketSize maxRounds fuel rounds t =
        (t'.checkSplittable (t'.histogram keys) bucketSize).map fun _ => (t', t'.histogram keys, rounds + more)) ∨
    (∀ k, t.SettlesIn (Crowded depth keys bucketSize) k → fuel ≤ k) ∧
      roundsFrom keys bucketSize maxRounds fuel rounds t = .error (.notConverged maxRounds) := by
  induction fuel generalizing rounds t with
  | zero => exact .inr ⟨fun k _ => Nat.zero_le k, rfl⟩
  | succ fuel ih =>
    by_cases hbalanced : t.IsBalanced keys bucketSize
    · exact .inl ⟨t, 0, hbalanced, Nat.succ_pos fuel, .none t, hbalanced.roundsFrom_eq hfits maxRounds fuel rounds⟩
    · obtain ⟨t', hround, ht', hsettles⟩ := round_of_not_isBalanced ht keys hfits hbalanced
      have hnext : roundsFrom keys bucketSize maxRounds (fuel + 1) rounds t =
          roundsFrom keys bucketSize maxRounds fuel (rounds + 1) t' := by
        rw [roundsFrom, hround]
        rfl
      rw [hnext]
      rcases ih (rounds + 1) ht' with ⟨t'', more, hb, hlt, hrest, heq⟩ | ⟨hle, heq⟩
      · refine .inl ⟨t'', more + 1, hb, Nat.succ_lt_succ hlt, .more hround hrest, ?_⟩
        rw [heq, Nat.add_assoc, Nat.add_comm 1 more]
      · refine .inr ⟨fun k hk => ?_, heq⟩
        -- A tree that is not balanced has a level left to settle, and the round settles it.
        cases k with
        | zero => exact absurd ⟨ht, hk.hasShape (isShape_crowded depth keys bucketSize) ht⟩ hbalanced
        | succ k => exact Nat.succ_le_succ (hle k (hsettles k hk))

/-- With one round more than the tree is deep, rounds do not run out. -/
theorem roundsFrom_ne_notConverged (keys : List Nat) {bucketSize : Nat} (hfits : bucketSize * 512 < 2 ^ 64)
    {maxRounds fuel : Nat} (hfuel : depth < fuel) (rounds : Nat) (ht : t.isValid = true) (n : Nat) :
    roundsFrom keys bucketSize maxRounds fuel rounds t ≠ .error (.notConverged n) := by
  intro heq
  rcases roundsFrom_cases keys hfits maxRounds fuel rounds ht with ⟨t', more, hb, _, _, hres⟩ | ⟨hle, _⟩
  · rcases checkSplittable_histogram hb.valid hb.splits_iff with ⟨key, _, hcheck⟩ | ⟨_, hcheck⟩
    all_goals
      rw [hcheck] at hres
      cases hres.symm.trans heq
  · have := hle depth (settlesIn_depth t _)
    omega

/-- The tree that is found is where the rounds end, and the number that comes with it is that of the rounds. -/
theorem rounds_of_roundsFrom (keys : List Nat) {bucketSize : Nat} (hfits : bucketSize * 512 < 2 ^ 64)
    {maxRounds fuel : Nat} (ht : t.isValid = true) {t' : Leaves depth} {counts : Array Nat} {n : Nat}
    (h : roundsFrom keys bucketSize maxRounds fuel 0 t = .ok (t', counts, n)) :
    Rounds keys bucketSize n t t' ∧ t'.round (t'.histogram keys) bucketSize = .ok none := by
  rcases roundsFrom_cases keys hfits maxRounds fuel 0 ht with ⟨t'', more, hbalanced, _, hrounds, hres⟩ | ⟨_, hres⟩
  · rw [hres] at h
    cases hcheck : t''.checkSplittable (t''.histogram keys) bucketSize <;> rw [hcheck] at h <;> cases h
    rw [Nat.zero_add]
    exact ⟨hrounds, round_of_isBalanced hbalanced.valid keys hfits hbalanced⟩
  · cases hres.symm.trans h

/-- Balancing on one rank is rounds from the root. -/
theorem balanceFrom_eq_roundsFrom (backend : Backend) {keys : Array Nat} (hkeys : Sorted.Ascending keys)
    {bucketSize : Nat} (hfits : bucketSize * 512 < 2 ^ 64) (maxRounds fuel rounds : Nat) (ht : t.isValid = true) :
    balanceFrom backend keys bucketSize maxRounds fuel t (t.counts backend keys) =
      (roundsFrom keys.toList bucketSize maxRounds fuel rounds t).map fun (t', counts, _) => (t', counts) := by
  induction fuel generalizing rounds t with
  | zero => rfl
  | succ fuel ih =>
    rw [balanceFrom, roundsFrom, counts_eq_histogram backend ht hkeys]
    by_cases hbalanced : t.IsBalanced keys.toList bucketSize
    · rw [round_of_isBalanced ht keys.toList hfits hbalanced]
      simp only [bind, Except.bind]
      cases t.checkSplittable (t.histogram keys.toList) bucketSize <;> rfl
    · obtain ⟨t', hround, ht', _⟩ := round_of_not_isBalanced ht keys.toList hfits hbalanced
      rw [hround]
      exact ih (rounds + 1) ht'

/-! ## What balancing returns -/

theorem keyCount_perm {a b : List Nat} (h : a.Perm b) (n : Node) : n.keyCount depth a = n.keyCount depth b := h.countP_eq _

theorem histogram_perm {a b : List Nat} (h : a.Perm b) : t.histogram a = t.histogram b := by
  simp only [histogram, keyCount_perm h]

theorem IsBalanced.perm {keys keys' : List Nat} {bucketSize : Nat} (h : t.IsBalanced keys bucketSize)
    (hperm : keys.Perm keys') : t.IsBalanced keys' bucketSize where
  valid := h.valid
  splits_iff n hn := keyCount_perm hperm n ▸ h.splits_iff n hn

/-- What balancing may return for some keys, the number of rounds apart. -/
structure IsVerdict (keys : List Nat) (bucketSize maxRounds : Nat)
    (verdict : Except Imbalance (Leaves depth × Array Nat)) : Prop where
  /-- A tree that is returned is balanced and comes with the exact counts. In whatever order the keys are taken, there is
  no other such tree. -/
  canonical : ∀ t counts, verdict = .ok (t, counts) → t.IsBalanced keys bucketSize ∧ counts = t.histogram keys ∧
    ∀ keys' t', keys'.Perm keys → t'.IsBalanced keys' bucketSize → t' = t ∧ t'.histogram keys' = counts
  /-- If the rounds do not run out, failures are due to a key that occurs too often. -/
  fails_iff : verdict ≠ .error (.notConverged maxRounds) →
    ((∃ cause, verdict = .error cause) ↔ ∃ key < bound depth, bucketSize < keys.count key)
  /-- The failure names the first such key and how often it occurs. -/
  names : ∀ cause, verdict = .error cause → cause ≠ .notConverged maxRounds →
    ∃ key, FirstCrowdedKey depth keys bucketSize key ∧ cause = .unsplittable key (keys.count key) bucketSize

theorem isVerdict_notConverged (keys : List Nat) (bucketSize maxRounds : Nat) :
    IsVerdict keys bucketSize maxRounds (.error (.notConverged maxRounds) : Except Imbalance (Leaves depth × Array Nat)) where
  canonical _ _ h := nomatch h
  fails_iff h := absurd rfl h
  names _ h hne := absurd (Except.error.inj h).symm hne

theorem isVerdict_unsplittable {keys : List Nat} {bucketSize key : Nat} (maxRounds : Nat)
    (h : FirstCrowdedKey depth keys bucketSize key) :
    IsVerdict keys bucketSize maxRounds
      (.error (.unsplittable key (keys.count key) bucketSize) : Except Imbalance (Leaves depth × Array Nat)) where
  canonical _ _ hok := nomatch hok
  fails_iff _ := ⟨fun _ => ⟨key, h.1, h.2.1⟩, fun _ => ⟨_, rfl⟩⟩
  names _ hcause _ := ⟨key, h, (Except.error.inj hcause).symm⟩

theorem IsBalanced.isVerdict {keys : List Nat} {bucketSize : Nat} (h : t.IsBalanced keys bucketSize) (maxRounds : Nat)
    (hfew : ∀ key < bound depth, keys.count key ≤ bucketSize) :
    IsVerdict keys bucketSize maxRounds (.ok (t, t.histogram keys)) where
  canonical t₁ counts hok := by
    cases hok
    refine ⟨h, rfl, fun keys' t' hperm hbalanced => ?_⟩
    obtain rfl : t' = t := (hbalanced.perm hperm).unique h
    exact ⟨rfl, histogram_perm hperm⟩
  fails_iff _ := by
    constructor
    · rintro ⟨_, hcause⟩
      cases hcause
    · rintro ⟨key, hkey, hmany⟩
      exact absurd (hfew key hkey) (Nat.not_le.2 hmany)
  names _ hcause _ := nomatch hcause

/-- What rounds with exact counts return. -/
theorem isVerdict_roundsFrom (keys : List Nat) {bucketSize : Nat} (hfits : bucketSize * 512 < 2 ^ 64)
    (maxRounds fuel rounds : Nat) (ht : t.isValid = true) : IsVerdict keys bucketSize maxRounds
      ((roundsFrom keys bucketSize maxRounds fuel rounds t).map fun (t', counts, _) => (t', counts)) := by
  rcases roundsFrom_cases keys hfits maxRounds fuel rounds ht with ⟨t', more, hb, _, _, heq⟩ | ⟨_, heq⟩
  · rcases checkSplittable_histogram hb.valid hb.splits_iff with ⟨key, hfirst, hcheck⟩ | ⟨hfew, hcheck⟩
    · rw [heq, hcheck]
      exact isVerdict_unsplittable maxRounds hfirst
    · rw [heq, hcheck]
      exact hb.isVerdict maxRounds hfew
  · rw [heq]
    exact isVerdict_notConverged keys bucketSize maxRounds

/-- The root alone is balanced for no more keys than a bucket holds. -/
theorem isBalanced_root {keys : List Nat} {bucketSize : Nat} (hfew : keys.length ≤ bucketSize) :
    (root : Leaves depth).IsBalanced keys bucketSize where
  valid := isValid_root depth
  splits_iff n hn := by
    refine iff_of_false (fun ⟨i, hi, hfirst, hstop⟩ => ?_) fun ⟨_, hmany⟩ => ?_
    · obtain rfl | rfl : i = 0 ∨ i = 1 := Nat.le_one_iff_eq_zero_or_eq_one.1 hi
      · exact Nat.not_lt_zero _ hfirst
      · exact absurd (Nat.lt_of_lt_of_le hstop hn.stop_le) (Nat.lt_irrefl _)
    · exact absurd (Nat.lt_of_lt_of_le hmany (Nat.le_trans List.countP_le_length hfew)) (Nat.lt_irrefl _)

/-- For no more keys than a bucket holds rounds end at the root at once. -/
theorem roundsFrom_root {keys : List Nat} {bucketSize : Nat} (hfits : bucketSize * 512 < 2 ^ 64)
    (hfew : keys.length ≤ bucketSize) (maxRounds fuel rounds : Nat) :
    roundsFrom keys bucketSize maxRounds (fuel + 1) rounds (root : Leaves depth) =
      .ok (root, (root : Leaves depth).histogram keys, rounds) := by
  have hbalanced : (root : Leaves depth).IsBalanced keys bucketSize := isBalanced_root hfew
  rcases checkSplittable_histogram hbalanced.valid hbalanced.splits_iff with ⟨key, ⟨_, hmany, _⟩, _⟩ | ⟨_, hcheck⟩
  · exact absurd (Nat.lt_of_lt_of_le hmany (Nat.le_trans List.count_le_length hfew)) (Nat.lt_irrefl _)
  · rw [hbalanced.roundsFrom_eq hfits, hcheck]
    rfl

end Leaves

end CurvePartition
