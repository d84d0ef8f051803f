-- SUMMARY: Bits of the Hilbert transform: turns and the Gray code undo themselves, and higher bits of a result depend on no lower bits.
import CurvePartition.Curve.Hilbert

/-!
# Bits of the Hilbert transform

A turn is described by what it does to each bit: the bits from its level upwards stay, and the bits below are inverted
on one axis or change places between two axes, depending on a bit that stays. So a turn undoes itself, and coordinates
that agree from some bit upwards still do so after it.
-/

namespace CurvePartition

namespace Triple

/-- Whether two triples have the same bits from bit `m` upwards. -/
def Agree (m : Nat) (c c' : Triple Nat) : Prop :=
  ∀ a i, m ≤ i → (c.get a).testBit i = (c'.get a).testBit i

theorem ext_testBit {c c' : Triple Nat} (h : ∀ a i, (c.get a).testBit i = (c'.get a).testBit i) : c = c' :=
  ext_get fun a => Nat.eq_of_testBit_eq (h a)

/-- Coordinates below `2 ^ n` have no bits from `n` upwards. -/
theorem testBit_of_le {n i : Nat} {c : Triple Nat} (h : ∀ a, c.get a < 2 ^ n) (hi : n ≤ i) (a : Axis) :
    (c.get a).testBit i = false :=
  Nat.testBit_lt_two_pow (Nat.lt_of_lt_of_le (h a) (Nat.pow_le_pow_right (by decide) hi))

/-- Coordinates that agree lie in the same interval of length `2 ^ m`. -/
theorem Agree.div_eq {m : Nat} {c c' : Triple Nat} (h : c.Agree m c') (a : Axis) :
    c.get a / 2 ^ m = c'.get a / 2 ^ m := by
  refine Nat.eq_of_testBit_eq fun i => ?_
  rw [Nat.testBit_div_two_pow, Nat.testBit_div_two_pow]
  exact h a (i + m) (Nat.le_add_left m i)

end Triple

namespace Hilbert

open Triple

/-! ## Turns -/

/-- What a turn does to a bit: nothing from its level upwards. Below, it inverts the first axis or lets two axes change
places. -/
theorem testBit_turn (j : Nat) (axis : Axis) (c : Triple Nat) (a : Axis) (i : Nat) :
    ((turn j axis c).get a).testBit i =
      if i < j then
        if (c.get axis).testBit j then (c.get a).testBit i ^^ decide (a = .x)
        else if a = .x then (c.get axis).testBit i
        else if a = axis then (c.get .x).testBit i
        else (c.get a).testBit i
      else (c.get a).testBit i := by
  unfold turn
  by_cases hbit : (c.get axis).testBit j
  · simp only [hbit, if_true]
    cases a <;> simp [Triple.get, Nat.testBit_xor, Nat.testBit_two_pow_sub_one]
    by_cases hi : i < j <;> simp [hi]
  · simp only [hbit]
    cases axis <;> cases a <;>
      simp [Triple.get, Triple.set] <;> by_cases hi : i < j <;> simp [hi, Bool.xor_left_comm]

/-- A turn undoes itself. -/
theorem turn_turn (j : Nat) (axis : Axis) (c : Triple Nat) : turn j axis (turn j axis c) = c := by
  refine ext_testBit fun a i => ?_
  have hlevel : ((turn j axis c).get axis).testBit j = (c.get axis).testBit j := by
    rw [testBit_turn, if_neg (Nat.lt_irrefl j)]
  rw [testBit_turn, hlevel]
  by_cases hi : i < j
  · simp only [if_pos hi]
    by_cases hbit : (c.get axis).testBit j
    · simp [hbit, testBit_turn, hi]
    · simp only [if_neg hbit]
      cases axis <;> cases a <;> simp [testBit_turn, hi, hbit]
  · rw [if_neg hi, testBit_turn, if_neg hi]

/-- Turns look at no lower bits for the higher ones. -/
theorem agree_turn {m : Nat} {c c' : Triple Nat} (h : c.Agree m c') (j : Nat) (axis : Axis) :
    (turn j axis c).Agree m (turn j axis c') := by
  intro a i hi
  rw [testBit_turn, testBit_turn]
  by_cases hj : i < j
  · rw [if_pos hj, if_pos hj, h axis j (by omega), h a i hi, h axis i hi, h .x i hi]
  · rw [if_neg hj, if_neg hj, h a i hi]

/-- Turns below bit `n` stay below it. -/
theorem turn_lt {n j : Nat} (hj : j ≤ n) {c : Triple Nat} (h : ∀ a, c.get a < 2 ^ n) (axis a : Axis) :
    (turn j axis c).get a < 2 ^ n := by
  refine Nat.lt_pow_two_of_testBit _ fun i hi => ?_
  rw [testBit_turn, if_neg (by omega)]
  exact testBit_of_le h hi a

theorem turnsBack_turns (j : Nat) (c : Triple Nat) : turnsBack j (turns j c) = c := by
  rw [turnsBack, turns, turn_turn, turn_turn, turn_turn]

theorem turns_turnsBack (j : Nat) (c : Triple Nat) : turns j (turnsBack j c) = c := by
  rw [turns, turnsBack, turn_turn, turn_turn, turn_turn]

/-- Turns of all levels are undone in the opposite order. -/
theorem wind_unwind (n : Nat) (c : Triple Nat) : wind n (unwind n c) = c := by
  induction n generalizing c with
  | zero => rfl
  | succ n ih => rw [unwind, wind, ih, turnsBack_turns]

/-- Turns of all levels undo those in the opposite order. -/
theorem unwind_wind (n : Nat) (c : Triple Nat) : unwind n (wind n c) = c := by
  induction n with
  | zero => rfl
  | succ n ih => rw [wind, unwind, turns_turnsBack, ih]

theorem agree_wind {m : Nat} {c c' : Triple Nat} (h : c.Agree m c') (n : Nat) : (wind n c).Agree m (wind n c') := by
  induction n with
  | zero => exact h
  | succ n ih => exact agree_turn (agree_turn (agree_turn ih _ _) _ _) _ _

theorem agree_unwind {m : Nat} {c c' : Triple Nat} (h : c.Agree m c') (n : Nat) :
    (unwind n c).Agree m (unwind n c') := by
  induction n generalizing c c' with
  | zero => exact h
  | succ n ih => exact ih (agree_turn (agree_turn (agree_turn h _ _) _ _) _ _)

theorem unwind_lt {n : Nat} (k : Nat) (hk : k ≤ n) {c : Triple Nat} (h : ∀ a, c.get a < 2 ^ n) (a : Axis) :
    (unwind k c).get a < 2 ^ n := by
  induction k generalizing c with
  | zero => exact h a
  | succ k ih => exact ih (by omega) (turn_lt hk (turn_lt hk (turn_lt hk h .x) .y) .z)

theorem wind_lt {n : Nat} (k : Nat) (hk : k ≤ n) {c : Triple Nat} (h : ∀ a, c.get a < 2 ^ n) (a : Axis) :
    (wind k c).get a < 2 ^ n := by
  induction k generalizing a with
  | zero => exact h a
  | succ k ih =>
    have hrest := ih (Nat.le_of_succ_le hk)
    exact turn_lt hk (turn_lt hk (turn_lt hk hrest .z) .y) .x a

/-! ## The Gray code -/

theorem parityMask_lt (n v : Nat) : parityMask n v < 2 ^ n := by
  induction n with
  | zero => simp [parityMask]
  | succ n ih =>
    refine Nat.xor_lt_two_pow ?_ (Nat.lt_of_lt_of_le ih (Nat.pow_le_pow_right (by decide) (Nat.le_succ n)))
    have := Nat.two_pow_pos (n + 1)
    split <;> omega

/-- A set bit inverts the mask below it. -/
theorem testBit_parityMask_succ (n v i : Nat) : (parityMask (n + 1) v).testBit i =
    ((v.testBit (n + 1) && decide (i < n + 1)) ^^ (parityMask n v).testBit i) := by
  rw [parityMask, Nat.testBit_xor]
  by_cases hv : v.testBit (n + 1)
  · simp [hv, Nat.testBit_two_pow_sub_one]
  · simp [hv]

/-- Each bit of the mask is the next bit of the number combined with the next bit of the mask. -/
theorem testBit_parityMask (n v i : Nat) :
    (parityMask n v).testBit i = (decide (i < n) && (v.testBit (i + 1) ^^ (parityMask n v).testBit (i + 1))) := by
  induction n with
  | zero => simp [parityMask]
  | succ n ih =>
    have hnone : ∀ k, n ≤ k → (parityMask n v).testBit k = false := fun k hk =>
      Nat.testBit_lt_two_pow (Nat.lt_of_lt_of_le (parityMask_lt n v) (Nat.pow_le_pow_right (by decide) hk))
    rw [testBit_parityMask_succ, testBit_parityMask_succ]
    rcases Nat.lt_trichotomy i n with hi | rfl | hi
    · rw [ih]
      simp [hi, Nat.lt_succ_of_lt hi]
      cases v.testBit (n + 1) <;> simp
    · simp [hnone]
    · simp [hnone i (by omega), show ¬ i < n + 1 by omega]

/-- A bit of the mask depends on higher bits of the number only. -/
theorem testBit_parityMask_congr {m v v' : Nat} (h : ∀ i, m ≤ i → v.testBit i = v'.testBit i) (n : Nat) {i : Nat}
    (hi : m ≤ i) : (parityMask n v).testBit i = (parityMask n v').testBit i := by
  induction n with
  | zero => rfl
  | succ n ih =>
    rw [testBit_parityMask_succ, testBit_parityMask_succ, ih]
    by_cases hlt : i < n + 1
    · rw [h (n + 1) (by omega)]
    · rw [decide_eq_false hlt, Bool.and_false, Bool.and_false]

/-- The Gray code is undone on coordinates of its number of bits. -/
theorem ungray_gray {n : Nat} {c : Triple Nat} (h : ∀ a, c.get a < 2 ^ (n + 1)) : ungray (gray n c) = c := by
  have hz : c.z ^^^ (c.y ^^^ c.x) < 2 ^ (n + 1) :=
    Nat.xor_lt_two_pow (h .z) (Nat.xor_lt_two_pow (h .y) (h .x))
  have hmask : (c.z ^^^ (c.y ^^^ c.x) ^^^ parityMask n (c.z ^^^ (c.y ^^^ c.x))) >>> 1 =
      parityMask n (c.z ^^^ (c.y ^^^ c.x)) := by
    refine Nat.eq_of_testBit_eq fun i => ?_
    rw [Nat.testBit_shiftRight, Nat.testBit_xor, testBit_parityMask n _ i, Nat.add_comm 1 i]
    by_cases hi : i < n
    · simp [hi]
    · have hle : 2 ^ (n + 1) ≤ 2 ^ (i + 1) := Nat.pow_le_pow_right (by decide) (by omega)
      have hmask := Nat.lt_of_lt_of_le (parityMask_lt n (c.z ^^^ (c.y ^^^ c.x)))
        (Nat.pow_le_pow_right (by decide) (by omega : n ≤ i + 1))
      rw [Nat.testBit_lt_two_pow (Nat.lt_of_lt_of_le hz hle), Nat.testBit_lt_two_pow hmask]
      simp [hi]
  refine ext_testBit fun a i => ?_
  cases a <;> simp only [ungray, gray, hmask, Triple.get, Nat.testBit_xor]
  · cases c.x.testBit i <;> simp
  · cases c.x.testBit i <;> cases c.y.testBit i <;> simp
  · cases c.x.testBit i <;> cases c.y.testBit i <;> simp

/-- The mask is the only number below `2 ^ n` with these bits. -/
theorem eq_parityMask {n v m : Nat}
    (h : ∀ i, m.testBit i = (decide (i < n) && (v.testBit (i + 1) ^^ m.testBit (i + 1)))) : m = parityMask n v := by
  -- Both have the same bits from the highest one down.
  have above : ∀ d i, n ≤ i + d → m.testBit i = (parityMask n v).testBit i := by
    intro d
    induction d with
    | zero =>
      intro i hi
      rw [Nat.add_zero] at hi
      rw [h, testBit_parityMask, decide_eq_false (Nat.not_lt.2 hi), Bool.false_and, Bool.false_and]
    | succ d ih =>
      intro i hi
      rw [h, testBit_parityMask, ih (i + 1) (by omega)]
  exact Nat.eq_of_testBit_eq fun i => above n i (Nat.le_add_left n i)

/-- Undoing the Gray code is undone by it on coordinates of its number of bits. -/
theorem gray_ungray {n : Nat} {c : Triple Nat} (h : ∀ a, c.get a < 2 ^ (n + 1)) : gray n (ungray c) = c := by
  have hmask : c.z >>> 1 = parityMask n (c.z ^^^ (c.z >>> 1)) := by
    refine eq_parityMask fun i => ?_
    rw [Nat.testBit_xor, Nat.testBit_shiftRight, Nat.testBit_shiftRight, Nat.add_comm 1 i, Bool.xor_assoc, Bool.xor_self,
      Bool.xor_false]
    by_cases hi : i < n
    · rw [decide_eq_true hi, Bool.true_and]
    · have hle : 2 ^ (n + 1) ≤ 2 ^ (i + 1) := Nat.pow_le_pow_right (by decide) (by omega)
      have hz : c.z < 2 ^ (i + 1) := Nat.lt_of_lt_of_le (h .z) hle
      rw [decide_eq_false hi, Bool.false_and, Nat.testBit_lt_two_pow hz]
  have hy : c.y ^^^ c.x ^^^ (c.x ^^^ c.z >>> 1) = c.y ^^^ c.z >>> 1 := by
    rw [Nat.xor_assoc, ← Nat.xor_assoc c.x, Nat.xor_self, Nat.zero_xor]
  have hz : c.z ^^^ c.y ^^^ (c.y ^^^ c.z >>> 1) = c.z ^^^ c.z >>> 1 := by
    rw [Nat.xor_assoc, ← Nat.xor_assoc c.y, Nat.xor_self, Nat.zero_xor]
  simp only [gray, ungray, hy, hz, ← hmask, Nat.xor_assoc, Nat.xor_self, Nat.xor_zero]

theorem agree_ungray {m : Nat} {c c' : Triple Nat} (h : c.Agree m c') : (ungray c).Agree m (ungray c') := by
  intro a i hi
  have hx : c.x.testBit i = c'.x.testBit i := h .x i hi
  have hy : c.y.testBit i = c'.y.testBit i := h .y i hi
  have hz : c.z.testBit i = c'.z.testBit i := h .z i hi
  have hnext : c.z.testBit (1 + i) = c'.z.testBit (1 + i) := h .z (1 + i) (by omega)
  cases a <;> simp only [ungray, Triple.get, Nat.testBit_xor, Nat.testBit_shiftRight, hx, hy, hz, hnext]

theorem agree_gray {m : Nat} {c c' : Triple Nat} (h : c.Agree m c') (n : Nat) : (gray n c).Agree m (gray n c') := by
  have hx : ∀ i, m ≤ i → c.x.testBit i = c'.x.testBit i := h .x
  have hy : ∀ i, m ≤ i → c.y.testBit i = c'.y.testBit i := h .y
  have hz : ∀ i, m ≤ i → c.z.testBit i = c'.z.testBit i := h .z
  have hlast : ∀ i, m ≤ i → (c.z ^^^ (c.y ^^^ c.x)).testBit i = (c'.z ^^^ (c'.y ^^^ c'.x)).testBit i := by
    intro i hi
    simp only [Nat.testBit_xor, hx i hi, hy i hi, hz i hi]
  intro a i hi
  cases a <;> simp only [gray, Triple.get, Nat.testBit_xor, testBit_parityMask_congr hlast n hi, hx i hi, hy i hi, hz i hi]

theorem gray_lt {n m : Nat} (hn : n ≤ m) {c : Triple Nat} (h : ∀ a, c.get a < 2 ^ m) (a : Axis) :
    (gray n c).get a < 2 ^ m := by
  have hmask : ∀ v, parityMask n v < 2 ^ m := fun v =>
    Nat.lt_of_lt_of_le (parityMask_lt n v) (Nat.pow_le_pow_right (by decide) hn)
  have hy : c.y ^^^ c.x < 2 ^ m := Nat.xor_lt_two_pow (h .y) (h .x)
  have hz : c.z ^^^ (c.y ^^^ c.x) < 2 ^ m := Nat.xor_lt_two_pow (h .z) hy
  cases a
  · exact Nat.xor_lt_two_pow (h .x) (hmask _)
  · exact Nat.xor_lt_two_pow hy (hmask _)
  · exact Nat.xor_lt_two_pow hz (hmask _)

theorem ungray_lt {m : Nat} {c : Triple Nat} (h : ∀ a, c.get a < 2 ^ m) (a : Axis) : (ungray c).get a < 2 ^ m := by
  have hhalf : c.z >>> 1 < 2 ^ m := Nat.lt_of_le_of_lt (Nat.shiftRight_le c.z 1) (h .z)
  cases a
  · exact Nat.xor_lt_two_pow (h .x) hhalf
  · exact Nat.xor_lt_two_pow (h .y) (h .x)
  · exact Nat.xor_lt_two_pow (h .z) (h .y)

/-! ## The transform -/

/-- Curling undoes straightening on a grid of the same depth. -/
theorem curl_straighten {depth : Nat} {c : Triple Nat} (h : ∀ a, c.get a < 2 ^ depth) :
    curl depth (straighten depth c) = c := by
  have hdepth : 2 ^ depth ≤ 2 ^ (depth - 1 + 1) := Nat.pow_le_pow_right (by decide) (by omega)
  rw [curl, straighten, ungray_gray, wind_unwind]
  exact fun a => unwind_lt _ (Nat.le_succ _) (fun a => Nat.lt_of_lt_of_le (h a) hdepth) a

/-- Straightening undoes curling on a grid of the same depth. -/
theorem straighten_curl {depth : Nat} {c : Triple Nat} (h : ∀ a, c.get a < 2 ^ depth) :
    straighten depth (curl depth c) = c := by
  have hdepth : 2 ^ depth ≤ 2 ^ (depth - 1 + 1) := Nat.pow_le_pow_right (by decide) (by omega)
  rw [straighten, curl, unwind_wind, gray_ungray fun a => Nat.lt_of_lt_of_le (h a) hdepth]

theorem straighten_lt {depth : Nat} {c : Triple Nat} (h : ∀ a, c.get a < 2 ^ depth) (a : Axis) :
    (straighten depth c).get a < 2 ^ depth :=
  gray_lt (Nat.sub_le _ _) (unwind_lt _ (Nat.sub_le _ _) h) a

theorem curl_lt {depth : Nat} {c : Triple Nat} (h : ∀ a, c.get a < 2 ^ depth) (a : Axis) :
    (curl depth c).get a < 2 ^ depth :=
  wind_lt _ (Nat.sub_le _ _) (ungray_lt h) a

theorem agree_curl {m depth : Nat} {c c' : Triple Nat} (h : c.Agree m c') :
    (curl depth c).Agree m (curl depth c') := agree_wind (agree_ungray h) _

theorem agree_straighten {m depth : Nat} {c c' : Triple Nat} (h : c.Agree m c') :
    (straighten depth c).Agree m (straighten depth c') := agree_gray (agree_unwind h _) _

end Hilbert

end CurvePartition
