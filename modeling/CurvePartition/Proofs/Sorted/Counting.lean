-- SUMMARY: What binary search counts: the position of a bound in an ascending array is the number of smaller values.
import CurvePartition.Sorted.Search

/-!
# Counting by search

In an ascending array the values below a bound come first, so the position at which they end is how many there are.
-/

namespace CurvePartition

namespace Sorted

/-- Whether values ascend, equal ones allowed. -/
def Ascending (values : Array Nat) : Prop := values.toList.Pairwise (· ≤ ·)

instance (values : Array Nat) : Decidable (Ascending values) := inferInstanceAs (Decidable (List.Pairwise _ _))

variable {values : Array Nat}

theorem Ascending.getD_le (h : Ascending values) {i j : Nat} (hij : i ≤ j) (hj : j < values.size) :
    values.getD i 0 ≤ values.getD j 0 := by
  rcases Nat.eq_or_lt_of_le hij with rfl | hlt
  · exact Nat.le_refl _
  · have := List.pairwise_iff_getElem.1 h i j (by simp; omega) (by simpa using hj) hlt
    simpa [Array.getD, hj, Nat.lt_trans hlt hj] using this

/-- A property of exactly the first `n` entries is counted by `n`. -/
theorem countP_eq_of_iff_lt {τ : Type} {p : τ → Bool} {l : List τ} {n : Nat} (hn : n ≤ l.length)
    (h : ∀ i (hi : i < l.length), p l[i] = true ↔ i < n) : l.countP p = n := by
  have htake : (l.take n).countP p = n := by
    rw [List.countP_eq_length.2, List.length_take, Nat.min_eq_left hn]
    intro a ha
    obtain ⟨i, hi, rfl⟩ := List.getElem_of_mem ha
    rw [List.length_take] at hi
    rw [List.getElem_take]
    exact (h i (by omega)).2 (by omega)
  have hdrop : (l.drop n).countP p = 0 := by
    refine List.countP_eq_zero.2 fun a ha => ?_
    obtain ⟨i, hi, rfl⟩ := List.getElem_of_mem ha
    rw [List.length_drop] at hi
    rw [List.getElem_drop, h _ (by omega)]
    omega
  rw [← List.take_append_drop n l, List.countP_append, htake, hdrop]
  rfl

/-- Lists in strict order with the same members are equal. -/
theorem eq_of_mem_iff {τ : Type} {r : τ → τ → Prop} (asymm : ∀ a b, r a b → ¬ r b a) {l l' : List τ}
    (h : l.Pairwise r) (h' : l'.Pairwise r) (hmem : ∀ a, a ∈ l ↔ a ∈ l') : l = l' := by
  have irrefl : ∀ {a b : τ}, r a b → a ≠ b := fun {a b} hab heq => asymm a b hab (heq ▸ heq ▸ hab)
  have hperm := (List.perm_ext_iff_of_nodup (h.imp irrefl) (h'.imp irrefl)).2 hmem
  exact hperm.eq_of_pairwise (fun a b _ _ hab hba => absurd hba (asymm a b hab)) h h'

/-- The search finds the end of the first part on which the property holds. -/
theorem boundary_eq {p : Nat → Bool} {lo hi n : Nat} (hlo : lo ≤ n) (hhi : n ≤ hi)
    (h : ∀ i, lo ≤ i → i < hi → (p i = true ↔ i < n)) : boundary p lo hi = n := by
  have hmem := boundary_mem p (Nat.le_trans hlo hhi)
  have mono : ∀ i j, lo ≤ i → i ≤ j → j < hi → p j = true → p i = true := fun i j hi hij hj hp =>
    (h i hi (by omega)).2 (Nat.lt_of_le_of_lt hij ((h j (by omega) hj).1 hp))
  rcases Nat.lt_trichotomy (boundary p lo hi) n with hlt | heq | hlt
  · have hp := (h _ hmem.1 (by omega)).2 hlt
    exact absurd ((boundary_spec p mono _ hmem.1 (by omega)).1 hp) (Nat.lt_irrefl _)
  · exact heq
  · have hp := (boundary_spec p mono n hlo (by omega)).2 hlt
    exact absurd ((h n hlo (by omega)).1 hp) (Nat.lt_irrefl _)

theorem lowerBound_le (values : Array Nat) (bound : Nat) : lowerBound values bound ≤ values.size :=
  (boundary_mem _ (Nat.zero_le _)).2

/-- The search separates the values below the bound from the others. -/
theorem lt_lowerBound_iff (h : Ascending values) {bound i : Nat} (hi : i < values.size) :
    i < lowerBound values bound ↔ values.getD i 0 < bound := by
  have mono : ∀ i j, 0 ≤ i → i ≤ j → j < values.size → decide (values.getD j 0 < bound) = true →
      decide (values.getD i 0 < bound) = true := by
    intro i j _ hij hj hlt
    simp only [decide_eq_true_eq] at hlt ⊢
    exact Nat.lt_of_le_of_lt (h.getD_le hij hj) hlt
  have := boundary_spec _ mono i (Nat.zero_le _) hi
  rw [lowerBound, ← this, decide_eq_true_eq]

/-- The position of a bound is the number of values below. -/
theorem lowerBound_eq_countP (h : Ascending values) (bound : Nat) :
    lowerBound values bound = values.toList.countP (· < bound) := by
  refine (countP_eq_of_iff_lt (by simpa using lowerBound_le values bound) fun i hi => ?_).symm
  have hi' : i < values.size := by simpa using hi
  rw [lt_lowerBound_iff h hi', decide_eq_true_eq]
  simp [Array.getD, hi']

/-- Values below a bound are those below a smaller one and those in between. -/
theorem countP_lt_add {a b : Nat} (hab : a ≤ b) (l : List Nat) :
    l.countP (· < a) + l.countP (fun k => a ≤ k ∧ k < b) = l.countP (· < b) := by
  induction l with
  | nil => rfl
  | cons k l ih =>
    simp only [List.countP_cons, decide_eq_true_eq]
    split <;> split <;> split <;> omega

/-- The number of values between two bounds is the difference of their positions. -/
theorem lowerBound_sub (h : Ascending values) {a b : Nat} (hab : a ≤ b) :
    lowerBound values b - lowerBound values a = values.toList.countP (fun k => a ≤ k ∧ k < b) := by
  rw [lowerBound_eq_countP h, lowerBound_eq_countP h, ← countP_lt_add hab]
  exact Nat.add_sub_cancel_left _ _

end Sorted

end CurvePartition
