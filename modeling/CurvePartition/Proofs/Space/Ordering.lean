-- SUMMARY: The laws of comparison and of zeros that machine numbers obey, and what follows for the larger and the smaller of values in order.
import CurvePartition.Scalar

/-!
# Values in order

A value is in order if it equals itself, which every machine number but the unordered ones does. Values in order are
totally ordered, and `Scalar.max` and `Scalar.min` choose between them as one expects.
-/

namespace CurvePartition

namespace Scalar

/-- The laws of comparison. Values in order are totally ordered. -/
structure LawfulComparison (α : Type) [Scalar α] : Prop where
  trans : ∀ {a b c : α}, a ≤ b → b ≤ c → a ≤ c
  total : ∀ {a b : α}, a ≤ a → b ≤ b → a ≤ b ∨ b ≤ a
  lt_iff : ∀ {a b : α}, a < b ↔ a ≤ b ∧ ¬ b ≤ a
  /-- Only values in order compare. -/
  left : ∀ {a b : α}, a ≤ b → a ≤ a
  right : ∀ {a b : α}, a ≤ b → b ≤ b

/-- The laws of comparison, and that a product with a positive factor keeps the order. Machine numbers obey them, as
rounding keeps the order. -/
structure LawfulOrder (α : Type) [Scalar α] : Prop where
  trans : ∀ {a b c : α}, a ≤ b → b ≤ c → a ≤ c
  total : ∀ {a b : α}, a ≤ a → b ≤ b → a ≤ b ∨ b ≤ a
  lt_iff : ∀ {a b : α}, a < b ↔ a ≤ b ∧ ¬ b ≤ a
  /-- Only values in order compare. -/
  left : ∀ {a b : α}, a ≤ b → a ≤ a
  right : ∀ {a b : α}, a ≤ b → b ≤ b
  le_infinity : ∀ {a : α}, a ≤ a → a ≤ infinity
  mul_le_mul : ∀ {a b c : α}, 0 < c → 0 < a → a ≤ b → a * c ≤ b * c

namespace LawfulComparison

variable {α : Type} [Scalar α] (h : LawfulComparison α) {a b c : α}
include h

theorem not_lt_iff (ha : a ≤ a) (hb : b ≤ b) : ¬ a < b ↔ b ≤ a := by
  rw [h.lt_iff]
  constructor
  · intro hnot
    rcases h.total ha hb with hab | hba
    · exact Decidable.byContradiction fun hba => hnot ⟨hab, hba⟩
    · exact hba
  · intro hba hlt
    exact hlt.2 hba

theorem lt_of_not_le (ha : a ≤ a) (hb : b ≤ b) (hnot : ¬ b ≤ a) : a < b :=
  h.lt_iff.2 ⟨(h.total ha hb).resolve_right hnot, hnot⟩

theorem lt_of_le_of_lt (hab : a ≤ b) (hbc : b < c) : a < c := by
  obtain ⟨hle, hnot⟩ := h.lt_iff.1 hbc
  exact h.lt_iff.2 ⟨h.trans hab hle, fun hca => hnot (h.trans hca hab)⟩

theorem lt_of_lt_of_le (hab : a < b) (hbc : b ≤ c) : a < c := by
  obtain ⟨hle, hnot⟩ := h.lt_iff.1 hab
  exact h.lt_iff.2 ⟨h.trans hle hbc, fun hca => hnot (h.trans hbc hca)⟩

theorem max_cases (ha : a ≤ a) (hb : b ≤ b) : max a b = b ∧ a ≤ b ∨ max a b = a ∧ b ≤ a := by
  by_cases hlt : a < b
  · exact .inl ⟨max_of_lt hlt, (h.lt_iff.1 hlt).1⟩
  · exact .inr ⟨max_of_not_lt ha hlt, (h.not_lt_iff ha hb).1 hlt⟩

theorem min_cases (ha : a ≤ a) (hb : b ≤ b) : min a b = b ∧ b ≤ a ∨ min a b = a ∧ a ≤ b := by
  by_cases hlt : b < a
  · exact .inl ⟨min_of_lt hlt, (h.lt_iff.1 hlt).1⟩
  · exact .inr ⟨min_of_not_lt ha hlt, (h.not_lt_iff hb ha).1 hlt⟩

theorem le_max_left (ha : a ≤ a) (hb : b ≤ b) : a ≤ max a b := by
  rcases h.max_cases ha hb with ⟨heq, hle⟩ | ⟨heq, _⟩
  · rwa [heq]
  · rwa [heq]

theorem le_max_right (ha : a ≤ a) (hb : b ≤ b) : b ≤ max a b := by
  rcases h.max_cases ha hb with ⟨heq, _⟩ | ⟨heq, hle⟩
  · rwa [heq]
  · rwa [heq]

theorem max_le (hac : a ≤ c) (hbc : b ≤ c) : max a b ≤ c := by
  rcases h.max_cases (h.left hac) (h.left hbc) with ⟨heq, _⟩ | ⟨heq, _⟩
  · rwa [heq]
  · rwa [heq]

theorem le_min (hca : c ≤ a) (hcb : c ≤ b) : c ≤ min a b := by
  rcases h.min_cases (h.right hca) (h.right hcb) with ⟨heq, _⟩ | ⟨heq, _⟩
  · rwa [heq]
  · rwa [heq]

theorem max_le_max {a' b' : α} (ha : a ≤ a') (hb : b ≤ b') : max a b ≤ max a' b' :=
  h.max_le (h.trans ha (h.le_max_left (h.right ha) (h.right hb))) (h.trans hb (h.le_max_right (h.right ha) (h.right hb)))

theorem min_le_min {a' b' : α} (ha : a ≤ a') (hb : b ≤ b') : min a b ≤ min a' b' := by
  refine h.le_min ?_ ?_
  · rcases h.min_cases (h.left ha) (h.left hb) with ⟨heq, hle⟩ | ⟨heq, _⟩
    · rw [heq]
      exact h.trans hle ha
    · rwa [heq]
  · rcases h.min_cases (h.left ha) (h.left hb) with ⟨heq, _⟩ | ⟨heq, hle⟩
    · rwa [heq]
    · rw [heq]
      exact h.trans hle hb

/-- The smallest of some values does not grow when none of them does. -/
theorem foldl_min_le_foldl_min {τ : Type} {f g : τ → α} (l : List τ) {a a' : α} (ha : a ≤ a') (hfg : ∀ x ∈ l, f x ≤ g x) :
    l.foldl (fun least x => min least (f x)) a ≤ l.foldl (fun least x => min least (g x)) a' := by
  induction l generalizing a a' with
  | nil => exact ha
  | cons y l ih =>
    rw [List.foldl_cons, List.foldl_cons]
    exact ih (h.min_le_min ha (hfg y List.mem_cons_self)) fun x hx => hfg x (List.mem_cons_of_mem y hx)

/-- The larger of two values in order is in order. -/
theorem max_self (ha : a ≤ a) (hb : b ≤ b) : max a b ≤ max a b := h.right (h.le_max_left ha hb)

/-- The smallest of a start and some values is one of them, and not larger than any. -/
theorem foldl_min {τ : Type} (f : τ → α) (l : List τ) (ha : a ≤ a) (hf : ∀ x ∈ l, f x ≤ f x) :
    l.foldl (fun least x => min least (f x)) a ≤ a ∧
      (∀ x ∈ l, l.foldl (fun least x => min least (f x)) a ≤ f x) ∧
      (l.foldl (fun least x => min least (f x)) a = a ∨
        ∃ x ∈ l, l.foldl (fun least x => min least (f x)) a = f x) := by
  induction l generalizing a with
  | nil => exact ⟨ha, by simp, .inl rfl⟩
  | cons y l ih =>
    have hy := hf y (by simp)
    have hmem : ∀ x ∈ l, f x ≤ f x := fun x hx => hf x (List.mem_cons_of_mem y hx)
    rw [List.foldl_cons]
    -- The start of what is left is the smaller of the start and the first value.
    have hstart : min a (f y) ≤ a ∧ min a (f y) ≤ f y ∧ (min a (f y) = a ∨ min a (f y) = f y) := by
      rcases h.min_cases ha hy with ⟨heq, hle⟩ | ⟨heq, hle⟩
      · rw [heq]
        exact ⟨hle, hy, .inr rfl⟩
      · rw [heq]
        exact ⟨ha, hle, .inl rfl⟩
    obtain ⟨hle, hall, hone⟩ := ih (h.left hstart.1) hmem
    refine ⟨h.trans hle hstart.1, fun x hx => ?_, ?_⟩
    · rcases List.mem_cons.1 hx with rfl | hx
      · exact h.trans hle hstart.2.1
      · exact hall x hx
    · rcases hone with heq | ⟨x, hx, heq⟩
      · rcases hstart.2.2 with hmin | hmin
        · exact .inl (heq.trans hmin)
        · exact .inr ⟨y, by simp, heq.trans hmin⟩
      · exact .inr ⟨x, List.mem_cons_of_mem y hx, heq⟩

/-- The largest of a start and some values is not smaller than any. -/
theorem le_foldl_max {τ : Type} (f : τ → α) (l : List τ) (ha : a ≤ a) (hf : ∀ x ∈ l, f x ≤ f x) :
    a ≤ l.foldl (fun most x => max most (f x)) a ∧ ∀ x ∈ l, f x ≤ l.foldl (fun most x => max most (f x)) a := by
  induction l generalizing a with
  | nil => exact ⟨ha, by simp⟩
  | cons y l ih =>
    have hy := hf y (by simp)
    obtain ⟨hle, hall⟩ := ih (h.max_self ha hy) fun x hx => hf x (List.mem_cons_of_mem y hx)
    rw [List.foldl_cons]
    refine ⟨h.trans (h.le_max_left ha hy) hle, fun x hx => ?_⟩
    rcases List.mem_cons.1 hx with rfl | hx
    · exact h.trans (h.le_max_right ha hy) hle
    · exact hall x hx

/-- A value in order is not larger than the larger one of it and anything else. -/
theorem le_max_of_left (ha : a ≤ a) (b : α) : a ≤ max a b := by
  by_cases hb : b ≤ b
  · exact h.le_max_left ha hb
  · have hnot : ¬ a < b := fun hlt => hb (h.right (h.lt_iff.1 hlt).1)
    rwa [max_of_not_lt ha hnot]

theorem le_max_of_right (a : α) (hb : b ≤ b) : b ≤ max a b := by
  by_cases ha : a ≤ a
  · exact h.le_max_right ha hb
  · have : max a b = b := by simp [max, isUnordered, ha]
    rwa [this]

/-- What is compared with zero last is not negative, whatever comes before. -/
theorem zero_le_max (hzero : (0 : α) ≤ 0) (a : α) : 0 ≤ max a 0 := by
  by_cases hself : a ≤ a
  · exact h.le_max_right hself hzero
  · have : max a 0 = 0 := by simp [max, isUnordered, hself]
    rwa [this]

end LawfulComparison

section LawfulOrder

variable {α : Type} [Scalar α] (h : LawfulOrder α)
include h

theorem LawfulOrder.comparison : LawfulComparison α := ⟨h.trans, h.total, h.lt_iff, h.left, h.right⟩

theorem LawfulOrder.infinity_le {a : α} : a ≤ a → (infinity : α) ≤ infinity := fun ha => h.right (h.le_infinity ha)

end LawfulOrder

/-! ## Rounding -/

/-- Whether a value is in order. -/
abbrev InOrder {α : Type} [Scalar α] (a : α) : Prop := a ≤ a

/-- The laws of rounding: it keeps the order, and what is not negative. They leave open what an operation does whose result is
unordered. Machine numbers obey them. -/
structure LawfulRounding (α : Type) [Scalar α] : Prop extends LawfulComparison α where
  infinity : InOrder (infinity : α)
  add_le_add : ∀ {a b a' b' : α}, a ≤ a' → b ≤ b' → InOrder (a + b) → InOrder (a' + b') → a + b ≤ a' + b'
  sub_le_sub : ∀ {a b a' b' : α}, a ≤ a' → b' ≤ b → InOrder (a - b) → InOrder (a' - b') → a - b ≤ a' - b'
  mul_le_mul : ∀ {a b a' b' : α}, 0 ≤ a → a ≤ a' → 0 ≤ b → b ≤ b' → InOrder (a * b) → InOrder (a' * b') →
    a * b ≤ a' * b'
  sqrt_le_sqrt : ∀ {a a' : α}, a ≤ a' → InOrder (sqrt a) → InOrder (sqrt a') → sqrt a ≤ sqrt a'
  ofNat_le_ofNat : ∀ {m n : Nat}, m ≤ n → (ofNat m : α) ≤ ofNat n
  zero_le_ofNat : ∀ n : Nat, (0 : α) ≤ ofNat n
  sub_nonneg : ∀ {a b : α}, a ≤ b → InOrder (b - a) → 0 ≤ b - a
  div_nonneg : ∀ {a : α} {n : Nat}, 0 ≤ a → InOrder (a / ofNat n) → 0 ≤ a / ofNat n

section Choice

variable {α : Type} [Scalar α]

theorem max_eq_or (a b : α) : max a b = a ∨ max a b = b := by
  unfold max
  split
  · exact .inr rfl
  · exact .inl rfl

/-- The largest of a start and some values is one of them. -/
theorem foldl_max_mem (l : List α) (a : α) : l.foldl max a ∈ a :: l := by
  induction l generalizing a with
  | nil => exact List.mem_singleton_self a
  | cons b l ih =>
    rw [List.foldl_cons]
    rcases List.mem_cons.1 (ih (max a b)) with heq | hmem
    · rcases max_eq_or a b with hmax | hmax
      · rw [heq, hmax]
        exact List.mem_cons_self
      · rw [heq, hmax]
        exact List.mem_cons_of_mem _ List.mem_cons_self
    · exact List.mem_cons_of_mem _ (List.mem_cons_of_mem _ hmem)

end Choice

/-! ## Zeros -/

section Zeros

variable {α : Type} [Scalar α] {a b c a' b' : α}

/-- Whether a value equals zero, whatever its sign. -/
def IsZero (a : α) : Prop := a ≤ 0 ∧ 0 ≤ a

/-- The laws of zeros: differences of finite values have the sign that their order tells, and zeros make zeros. -/
structure LawfulZero (α : Type) [Scalar α] : Prop where
  sub_nonpos : ∀ {a b : α}, isFinite a = true → isFinite b = true → a ≤ b → a - b ≤ 0
  add : ∀ {a b : α}, IsZero a → IsZero b → IsZero (a + b)
  mul : ∀ {a b : α}, IsZero a → IsZero b → IsZero (a * b)
  sqrt : ∀ {a : α}, IsZero a → IsZero (sqrt a)

/-- Whether two values are the same, but for the sign of a zero. -/
def Alike (a b : α) : Prop := a = b ∨ IsZero a ∧ IsZero b

theorem Alike.refl (a : α) : Alike a a := .inl rfl

theorem Alike.symm (h : Alike a b) : Alike b a := h.imp Eq.symm And.symm

/-- There is one value of each size but zero. -/
theorem Alike.eq (h : Alike a b) (hb : ¬ IsZero b) : a = b := h.resolve_right fun hzero => hb hzero.2

/-! ## Signs of zeros -/

/-- The laws of signs: values that are not larger than each other are alike, finite values lie between the bounds of all of
them, a change of the sign turns the order around, and the sign of a zero makes no difference but for signs of zeros, unless
something is divided by it. No difference of two finite values that differ is rounded to zero. Machine numbers obey them. -/
structure LawfulSigns (α : Type) [Scalar α] : Prop extends LawfulOrder α where
  antisymm : ∀ {a b : α}, a ≤ b → b ≤ a → Alike a b
  lowest_le : ∀ {a : α}, isFinite a = true → lowest ≤ a
  le_highest : ∀ {a : α}, isFinite a = true → a ≤ highest
  not_isZero_highest : ¬ IsZero (highest : α)
  isFinite_of_isZero : ∀ {a : α}, IsZero a → isFinite a = true
  neg_le_neg : ∀ {a b : α}, a ≤ b → -b ≤ -a
  neg_neg : ∀ {a : α}, a ≤ a → - -a = a
  neg : ∀ {a : α}, IsZero a → IsZero (-a)
  add : ∀ {a b a' b' : α}, Alike a a' → Alike b b' → Alike (a + b) (a' + b')
  sub : ∀ {a b a' b' : α}, Alike a a' → Alike b b' → Alike (a - b) (a' - b')
  mul : ∀ {a b a' b' : α}, Alike a a' → Alike b b' → Alike (a * b) (a' * b')
  div : ∀ {a b a' : α}, Alike a a' → Alike (a / b) (a' / b)
  sqrt : ∀ {a a' : α}, Alike a a' → Alike (sqrt a) (sqrt a')
  not_isZero_sub : ∀ {a b : α}, isFinite a = true → isFinite b = true → a < b → ¬ IsZero (b - a)

theorem LawfulOrder.le_of_alike (h : LawfulOrder α) (ha : Alike a a') (hb : Alike b b') (hab : a ≤ b) : a' ≤ b' := by
  have hleft : a' ≤ b := by
    rcases ha with rfl | ⟨ha, ha'⟩
    · exact hab
    · exact h.trans ha'.1 (h.trans ha.2 hab)
  rcases hb with rfl | ⟨hb, hb'⟩
  · exact hleft
  · exact h.trans hleft (h.trans hb.1 hb'.2)

namespace LawfulSigns

variable (h : LawfulSigns α)
include h

theorem le_self (ha : isFinite a = true) : a ≤ a := h.left (h.le_highest ha)

theorem eq_highest (hle : highest ≤ a) (ha : isFinite a = true) : a = highest :=
  (h.antisymm (h.le_highest ha) hle).eq h.not_isZero_highest

theorem eq_lowest (hle : a ≤ lowest) (ha : isFinite a = true) : a = lowest :=
  (h.antisymm hle (h.lowest_le ha)).eq fun hzero => h.not_isZero_highest
    (h.neg_neg (h.right (h.le_highest ha)) ▸ h.neg hzero)

section Alike

variable (ha : Alike a a') (hb : Alike b b')
include ha

theorem neg_alike : Alike (-a) (-a') := by
  rcases ha with rfl | ⟨ha, ha'⟩
  · exact .refl _
  · exact .inr ⟨h.neg ha, h.neg ha'⟩

theorem isFinite_eq : isFinite a = isFinite a' := by
  rcases ha with rfl | ⟨ha, ha'⟩
  · rfl
  · rw [h.isFinite_of_isZero ha, h.isFinite_of_isZero ha']

include hb

theorem le_alike_iff : a ≤ b ↔ a' ≤ b' := ⟨h.le_of_alike ha hb, h.le_of_alike ha.symm hb.symm⟩

theorem lt_alike_iff : a < b ↔ a' < b' := by
  rw [h.lt_iff, h.lt_iff, h.le_alike_iff ha hb, h.le_alike_iff hb ha]

theorem max_alike : Alike (max a b) (max a' b') := by
  have hiff : a < b ∨ isUnordered a ↔ a' < b' ∨ isUnordered a' := by
    simp only [isUnordered, h.lt_alike_iff ha hb, h.le_alike_iff ha ha]
  unfold max
  by_cases hlt : a < b ∨ isUnordered a
  · rwa [if_pos hlt, if_pos (hiff.1 hlt)]
  · rwa [if_neg hlt, if_neg fun hlt' => hlt (hiff.2 hlt')]

theorem min_alike : Alike (min a b) (min a' b') := by
  have hiff : b < a ∨ isUnordered a ↔ b' < a' ∨ isUnordered a' := by
    simp only [isUnordered, h.lt_alike_iff hb ha, h.le_alike_iff ha ha]
  unfold min
  by_cases hlt : b < a ∨ isUnordered a
  · rwa [if_pos hlt, if_pos (hiff.1 hlt)]
  · rwa [if_neg hlt, if_neg fun hlt' => hlt (hiff.2 hlt')]

omit hb in
theorem abs_alike : Alike (abs a) (abs a') := by
  unfold abs
  by_cases hlt : a < 0
  · rw [if_pos hlt, if_pos ((h.lt_alike_iff ha (.refl 0)).1 hlt)]
    exact h.neg_alike ha
  · rwa [if_neg hlt, if_neg fun hlt' => hlt ((h.lt_alike_iff ha (.refl 0)).2 hlt')]

end Alike

end LawfulSigns

end Zeros

/-- The largest of some values. -/
structure IsMost {α : Type} [Scalar α] (P : α → Prop) (m : α) : Prop where
  mem : P m
  le : ∀ x, P x → x ≤ m

theorem LawfulSigns.most_unique {α : Type} [Scalar α] (h : LawfulSigns α) {P : α → Prop} {m n : α} (hm : IsMost P m)
    (hn : IsMost P n) : Alike m n := h.antisymm (hn.le m hm.mem) (hm.le n hn.mem)

end Scalar

end CurvePartition
