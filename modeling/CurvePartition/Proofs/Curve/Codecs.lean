-- SUMMARY: Codecs of keys: encoding and decoding are inverse on both curves and both key widths, and weaving coordinates by masks on whole words gives the same keys as digit by digit.
import CurvePartition.Proofs.Curve.Cells

/-!
# Codecs of keys

Coordinates are woven into a key, and taken out of it again, by a few shifts and masks on whole words (`Triple.weave`,
`Triple.unweave`). A step copies all bits by one distance and a mask keeps those that have arrived, so what becomes of a word is
what becomes of its single bits. That is the same as interleaving digit by digit (`Triple.weave_eq`, `Triple.unweave_eq`), and on
both curves keys and cells name each other (`Curve.codec_bijective`).
-/

namespace CurvePartition

namespace Triple

/-! ## Weaving by masks -/

/-- Puts a copy of the bits of a word `shift` places higher and keeps the bits of the mask. -/
def spreadStep (shift mask x : Nat) : Nat := (x ||| x <<< shift) &&& mask

/-- Puts a copy of the bits of a word `shift` places lower and keeps the bits of the mask. -/
def gatherStep (shift mask x : Nat) : Nat := (x ^^^ x >>> shift) &&& mask

/-- The lowest 21 bits of a word, with two zero bits after each. -/
def spread (v : Nat) : Nat :=
  spreadStep 2 0x1249249249249249 <| spreadStep 4 0x10c30c30c30c30c3 <| spreadStep 8 0x100f00f00f00f00f <|
    spreadStep 16 0x001f0000ff0000ff <| spreadStep 32 0x001f00000000ffff <| v &&& 0x1fffff

/-- Every third bit of a word of 63 bits, from the lowest one on. -/
def gather (v : Nat) : Nat :=
  gatherStep 32 0x1fffff <| gatherStep 16 0x001f00000000ffff <| gatherStep 8 0x001f0000ff0000ff <|
    gatherStep 4 0x100f00f00f00f00f <| gatherStep 2 0x10c30c30c30c30c3 <| v &&& 0x1249249249249249

/-! ### Bits that move -/

theorem spreadStep_or (shift mask a b : Nat) :
    spreadStep shift mask (a ||| b) = spreadStep shift mask a ||| spreadStep shift mask b := by
  simp only [spreadStep, Nat.shiftLeft_or_distrib, ← Nat.and_or_distrib_right]
  congr 1
  ac_rfl

theorem spread_or (a b : Nat) : spread (a ||| b) = spread a ||| spread b := by
  simp only [spread, Nat.and_or_distrib_right, spreadStep_or]

theorem gatherStep_xor (shift mask a b : Nat) :
    gatherStep shift mask (a ^^^ b) = gatherStep shift mask a ^^^ gatherStep shift mask b := by
  simp only [gatherStep, Nat.shiftRight_xor_distrib, ← Nat.and_xor_distrib_right]
  congr 1
  ac_rfl

theorem gather_xor (a b : Nat) : gather (a ^^^ b) = gather a ^^^ gather b := by
  simp only [gather, Nat.and_xor_distrib_right, gatherStep_xor]

/-- A word without bits from `n` upwards does not share bit `n`. -/
theorem two_pow_or_eq_xor {n w : Nat} (h : w < 2 ^ n) : 2 ^ n ||| w = 2 ^ n ^^^ w := by
  refine Nat.eq_of_testBit_eq fun i => ?_
  rw [Nat.testBit_or, Nat.testBit_xor]
  by_cases hi : n = i
  · rw [← hi, Nat.testBit_lt_two_pow h, Bool.or_false, Bool.xor_false]
  · rw [Nat.testBit_two_pow_of_ne hi, Bool.false_or, Bool.false_xor]

/-- A word is its highest bit and the rest. -/
theorem exists_eq_two_pow_or {n v : Nat} (h : v < 2 ^ (n + 1)) (hn : ¬ v < 2 ^ n) : ∃ w < 2 ^ n, v = 2 ^ n ||| w := by
  rw [Nat.pow_succ] at h
  have hrest : v - 2 ^ n < 2 ^ n := by omega
  refine ⟨v - 2 ^ n, hrest, ?_⟩
  have hor := Nat.two_pow_add_eq_or_of_lt hrest 1
  rw [Nat.mul_one] at hor
  omega

theorem testBit_spread_of_lt {n v : Nat} (hn : n ≤ 21) (hv : v < 2 ^ n) (i : Nat) :
    (spread v).testBit i = (decide (i % 3 = 0) && v.testBit (i / 3)) := by
  have hpow : ∀ n < 21, spread (2 ^ n) = 2 ^ (3 * n) := by decide +kernel
  induction n generalizing v with
  | zero => simp [Nat.lt_one_iff.1 hv, show spread 0 = 0 by decide]
  | succ n ih =>
    by_cases hlt : v < 2 ^ n
    · exact ih (Nat.le_of_succ_le hn) hlt
    obtain ⟨w, hw, rfl⟩ := exists_eq_two_pow_or hv hlt
    have hplace : (3 * n = i) = (i % 3 = 0 ∧ n = i / 3) := propext (by omega)
    rw [spread_or, hpow n hn, Nat.testBit_or, Nat.testBit_or, ih (Nat.le_of_succ_le hn) hw, Nat.testBit_two_pow,
      Nat.testBit_two_pow, Bool.and_or_distrib_left]
    simp only [hplace, Bool.decide_and]

theorem testBit_gather_of_lt {n v : Nat} (hn : n ≤ 63) (hv : v < 2 ^ n) (i : Nat) :
    (gather v).testBit i = (decide (i < 21) && v.testBit (3 * i)) := by
  have hpow : ∀ n < 63, gather (2 ^ n) = if n % 3 = 0 then 2 ^ (n / 3) else 0 := by decide +kernel
  induction n generalizing v with
  | zero => simp [Nat.lt_one_iff.1 hv, show gather 0 = 0 by decide]
  | succ n ih =>
    by_cases hlt : v < 2 ^ n
    · exact ih (Nat.le_of_succ_le hn) hlt
    obtain ⟨w, hw, rfl⟩ := exists_eq_two_pow_or hv hlt
    have hplace : (if n % 3 = 0 then 2 ^ (n / 3) else 0).testBit i = (decide (i < 21) && (2 ^ n).testBit (3 * i)) := by
      rw [Nat.testBit_two_pow, ← Bool.decide_and]
      split
      · rw [Nat.testBit_two_pow, decide_eq_decide]
        omega
      · rw [Nat.zero_testBit, eq_comm, decide_eq_false_iff_not]
        omega
    rw [two_pow_or_eq_xor hw, gather_xor, hpow n hn, Nat.testBit_xor, Nat.testBit_xor, ih (Nat.le_of_succ_le hn) hw, hplace,
      Bool.and_xor_distrib_left]

/-- The lowest 21 bits of a word go to every third place. -/
theorem testBit_spread (v i : Nat) : (spread v).testBit i = (decide (i % 3 = 0 ∧ i / 3 < 21) && v.testBit (i / 3)) := by
  have hlow : spread (v % 2 ^ 21) = spread v := by
    simp only [spread, show (0x1fffff : Nat) = 2 ^ 21 - 1 by rfl, Nat.and_two_pow_sub_one_eq_mod, Nat.mod_mod]
  rw [← hlow, testBit_spread_of_lt (Nat.le_refl 21) (Nat.mod_lt _ (by decide)), Nat.testBit_mod_two_pow, ← Bool.and_assoc,
    ← Bool.decide_and]

/-- The bits at every third place of a word go next to each other. -/
theorem testBit_gather (v i : Nat) : (gather v).testBit i = (decide (i < 21) && v.testBit (3 * i)) := by
  have hlow : gather (v % 2 ^ 63) = gather v := by
    rw [gather, ← Nat.and_two_pow_sub_one_eq_mod, Nat.and_assoc]
    rfl
  rw [← hlow, testBit_gather_of_lt (Nat.le_refl 63) (Nat.mod_lt _ (by decide)), Nat.testBit_mod_two_pow, ← Bool.and_assoc,
    ← Bool.decide_and]
  congr 1
  exact decide_eq_decide.2 (by omega)

theorem testBit_interleave (n : Nat) (c : Triple Nat) (a : Axis) (i : Nat) :
    (interleave n c).testBit (3 * i + place a) = (decide (i < n) && (c.get a).testBit i) := by
  induction n generalizing c i with
  | zero => simp [interleave]
  | succ n ih =>
    have hlow := c.lowDigit_lt
    cases i with
    | zero =>
      simp only [interleave, lowDigit, Nat.zero_lt_succ, decide_true, Bool.true_and, Nat.mul_zero, Nat.zero_add,
        Nat.testBit_eq_decide_div_mod_eq, decide_eq_decide]
      cases a <;> simp only [place, get, Nat.reducePow, Nat.div_one] <;> omega
    | succ i =>
      have hhigh : interleave (n + 1) c / 2 ^ 3 = interleave n (c.map (· / 2)) := by
        rw [interleave]
        omega
      rw [show 3 * (i + 1) + place a = 3 * i + place a + 3 by omega, ← Nat.testBit_div_two_pow, hhigh, ih, get_map,
        Nat.testBit_div_two, decide_eq_decide.2 Nat.succ_lt_succ_iff.symm]

/-- The words of three coordinates woven into one. -/
def weave (c : Triple Nat) : Nat := spread c.x <<< 2 ||| spread c.y <<< 1 ||| spread c.z

/-- The three words that are woven into one. -/
def unweave (key : Nat) : Triple Nat := ⟨gather (key >>> 2), gather (key >>> 1), gather key⟩

theorem testBit_spread_shiftLeft {s p : Nat} (hs : s < 3) (hp : p < 3) (v i : Nat) :
    (spread v <<< s).testBit (3 * i + p) = (decide (p = s) && (decide (i < 21) && v.testBit i)) := by
  rw [Nat.testBit_shiftLeft, testBit_spread]
  by_cases h : p = s
  · subst h
    simp [Nat.mul_mod_right]
  · rw [decide_eq_false h, Bool.false_and, ← Bool.and_assoc, Bool.and_eq_false_imp]
    intro hplace
    simp only [Bool.and_eq_true, decide_eq_true_eq] at hplace
    omega

theorem exists_place (j : Nat) : ∃ a, j = 3 * (j / 3) + place a := by
  have hmod : j % 3 = 0 ∨ j % 3 = 1 ∨ j % 3 = 2 := by omega
  rcases hmod with h | h | h
  · exact ⟨.z, by simp only [place]; omega⟩
  · exact ⟨.y, by simp only [place]; omega⟩
  · exact ⟨.x, by simp only [place]; omega⟩

/-- Weaving words is interleaving bits. -/
theorem weave_eq (c : Triple Nat) : weave c = interleave 21 c := by
  refine Nat.eq_of_testBit_eq fun j => ?_
  obtain ⟨a, ha⟩ := exists_place j
  have hz : spread c.z = spread c.z <<< 0 := rfl
  rw [ha, testBit_interleave, weave, Nat.testBit_or, Nat.testBit_or, hz, testBit_spread_shiftLeft, testBit_spread_shiftLeft,
    testBit_spread_shiftLeft]
  all_goals cases a <;> simp [place, get]

theorem unweave_eq (key : Nat) : unweave key = deinterleave 21 key := by
  refine ext_testBit fun a i => ?_
  rw [testBit_deinterleave]
  cases a <;> simp only [unweave, get, place, testBit_gather, Nat.testBit_shiftRight, Nat.add_comm, Nat.zero_add]

end Triple

namespace Curve

open Triple

/-- On both curves and for both key widths, each cell of the grid has a key of its own and each key a cell of its own. The words
of the coordinates are woven into the key and out of it. -/
theorem codec_bijective (curve : Curve) (width : KeyWidth) :
    (∀ c : Triple Nat, (∀ a, c.get a < 2 ^ width.depth) →
      curve.decode width.depth (curve.encode width.depth c) = c ∧ curve.encode width.depth c < Key.bound width.depth) ∧
    (∀ k < Key.bound width.depth,
      curve.encode width.depth (curve.decode width.depth k) = k ∧ ∀ a, (curve.decode width.depth k).get a < 2 ^ width.depth) ∧
    (∀ c : Triple Nat, weave c = interleave coordinateBits c) ∧ ∀ k, unweave k = deinterleave coordinateBits k :=
  ⟨fun _ hc => ⟨curve.decode_encode width.depth_le hc, curve.encode_lt hc⟩,
    fun _ hk => ⟨curve.encode_decode width.depth_le hk, curve.decode_lt hk⟩, weave_eq, unweave_eq⟩

/-- The last cell of the finest grid, and the last key. -/
theorem codec_bijective_last : (∀ a, (Triple.replicate (2 ^ 21 - 1)).get a < 2 ^ KeyWidth.wide.depth) ∧
    hilbert.decode 21 (hilbert.encode 21 (.replicate (2 ^ 21 - 1))) = .replicate (2 ^ 21 - 1) ∧
    8 ^ 21 - 1 < Key.bound KeyWidth.wide.depth ∧ hilbert.encode 21 (hilbert.decode 21 (8 ^ 21 - 1)) = 8 ^ 21 - 1 := by
  have hc : ∀ a, (Triple.replicate (2 ^ 21 - 1)).get a < 2 ^ KeyWidth.wide.depth := fun a => by cases a <;> decide
  have hk : 8 ^ 21 - 1 < Key.bound KeyWidth.wide.depth := by decide
  have h := codec_bijective hilbert .wide
  exact ⟨hc, (h.1 _ hc).1, hk, (h.2.1 _ hk).1⟩

end Curve

end CurvePartition
