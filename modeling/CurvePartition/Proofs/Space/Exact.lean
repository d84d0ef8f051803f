-- SUMMARY: Exact numbers as scalars: the reals with two infinities, whose operations on finite numbers are those of the reals, and messages that hold them.
import Mathlib.Algebra.Order.Round
import Mathlib.Analysis.Real.Sqrt
import Mathlib.Data.EReal.Inv
import Mathlib.Tactic.Linarith
import CurvePartition.Proofs.Cluster.Exchanges
import CurvePartition.Proofs.Space.Intervals
import CurvePartition.Proofs.Space.Ordering

/-!
# Exact scalars

Geometry without rounding. Finite numbers are the reals, so positions, bounds of cells and distances are exact; the
two infinities are the start of a minimum and of a maximum. On finite numbers each operation of `Scalar` is the
operation of the reals, which the `coe` lemmas say.
-/

namespace CurvePartition

namespace Exact

/-- The whole number nearest to a real, halves away from zero. -/
noncomputable def roundAway (x : ℝ) : ℤ := if 0 ≤ x then ⌊x + 1 / 2⌋ else ⌈x - 1 / 2⌉

theorem roundAway_eq_nearest (x : ℝ) : roundAway x = Interval.nearest x := (Interval.nearest_eq x).symm

theorem abs_sub_roundAway (x : ℝ) : |x - roundAway x| ≤ 1 / 2 := by
  rw [roundAway_eq_nearest]
  exact Interval.abs_sub_nearest x

end Exact

open Classical in
noncomputable instance : Scalar EReal where
  decideLT := inferInstance
  decideLE := inferInstance
  ofNat n := ((n : ℝ) : EReal)
  sqrt x := (Real.sqrt x.toReal : ℝ)
  floor x := ((⌊x.toReal⌋ : ℝ) : EReal)
  round x := ((Exact.roundAway x.toReal : ℝ) : EReal)
  wholePart x := ⌊x.toReal⌋₊
  isFinite x := x ≠ ⊥ ∧ x ≠ ⊤
  highest := ⊤
  infinity := ⊤

namespace Exact

theorem isFinite_iff {x : EReal} : Scalar.isFinite x = true ↔ ∃ r : ℝ, x = r := by
  simp only [Scalar.isFinite, decide_eq_true_eq]
  induction x with
  | bot => simp
  | top => simp
  | coe r => simp

/-- A finite number is a real. -/
theorem coe_toReal {x : EReal} (h : Scalar.isFinite x = true) : (x.toReal : EReal) = x := by
  obtain ⟨r, rfl⟩ := isFinite_iff.1 h
  rfl

/-- The larger of two exact numbers is their maximum. -/
@[simp] theorem max_eq (x y : EReal) : Scalar.max x y = x ⊔ y := by
  by_cases h : x < y
  · rw [Scalar.max_of_lt h, sup_of_le_right h.le]
  · rw [Scalar.max_of_not_lt (le_refl x) h, sup_of_le_left (not_lt.1 h)]

/-- The smaller of two exact numbers is their minimum. -/
@[simp] theorem min_eq (x y : EReal) : Scalar.min x y = x ⊓ y := by
  by_cases h : y < x
  · rw [Scalar.min_of_lt h, inf_of_le_right h.le]
  · rw [Scalar.min_of_not_lt (le_refl x) h, inf_of_le_left (not_lt.1 h)]

theorem coe_sup (x y : ℝ) : (x : EReal) ⊔ y = ((x ⊔ y : ℝ) : EReal) := (EReal.coe_strictMono.monotone.map_sup x y).symm

theorem coe_inf (x y : ℝ) : (x : EReal) ⊓ y = ((x ⊓ y : ℝ) : EReal) := (EReal.coe_strictMono.monotone.map_inf x y).symm

theorem coe_div (x y : ℝ) : (x : EReal) / y = ((x / y : ℝ) : EReal) := (EReal.coe_div x y).symm

theorem sqrt_coe (x : ℝ) : Scalar.sqrt (x : EReal) = (Real.sqrt x : ℝ) := rfl

theorem floor_coe (x : ℝ) : Scalar.floor (x : EReal) = ((⌊x⌋ : ℝ) : EReal) := rfl

theorem round_coe (x : ℝ) : Scalar.round (x : EReal) = ((roundAway x : ℝ) : EReal) := rfl

theorem wholePart_coe (x : ℝ) : Scalar.wholePart (x : EReal) = ⌊x⌋₊ := rfl

theorem ofNat_eq (n : Nat) : (Scalar.ofNat n : EReal) = ((n : ℝ) : EReal) := rfl

/-- Exact numbers obey the laws of comparison, and all of them are in order. -/
theorem lawfulOrder : Scalar.LawfulOrder EReal where
  trans := le_trans
  total _ _ := le_total _ _
  lt_iff := lt_iff_le_not_ge
  left _ := le_refl _
  right _ := le_refl _
  le_infinity _ := le_top
  mul_le_mul hc _ hab := mul_le_mul_of_nonneg_right hab hc.le

theorem isZero_iff {x : EReal} : Scalar.IsZero x ↔ x = 0 :=
  ⟨fun h => le_antisymm h.1 h.2, fun h => ⟨h.le, h.ge⟩⟩

/-- There is one exact zero. -/
theorem lawfulZero : Scalar.LawfulZero EReal where
  sub_nonpos ha hb hle := by
    obtain ⟨x, rfl⟩ := isFinite_iff.1 ha
    obtain ⟨y, rfl⟩ := isFinite_iff.1 hb
    rw [← EReal.coe_sub, ← EReal.coe_zero, EReal.coe_le_coe_iff]
    exact sub_nonpos.2 (EReal.coe_le_coe_iff.1 hle)
  add ha hb := by
    rw [isZero_iff] at ha hb ⊢
    rw [ha, hb, add_zero]
  mul ha hb := by
    rw [isZero_iff] at ha hb ⊢
    rw [ha, hb, mul_zero]
  sqrt ha := by
    rw [isZero_iff] at ha ⊢
    rw [ha, ← EReal.coe_zero, sqrt_coe, Real.sqrt_zero]

theorem alike_iff {x y : EReal} : Scalar.Alike x y ↔ x = y :=
  or_iff_left_of_imp fun ⟨hx, hy⟩ => (isZero_iff.1 hx).trans (isZero_iff.1 hy).symm

/-- The one exact zero has no sign, and differences are exact. -/
theorem lawfulSigns : Scalar.LawfulSigns EReal where
  toLawfulOrder := lawfulOrder
  antisymm hab hba := .inl (le_antisymm hab hba)
  lowest_le _ := le_of_eq_of_le EReal.neg_top bot_le
  le_highest _ := le_top
  not_isZero_highest := fun h => EReal.top_ne_zero (isZero_iff.1 h)
  isFinite_of_isZero h := isZero_iff.1 h ▸ isFinite_iff.2 ⟨0, EReal.coe_zero.symm⟩
  neg_le_neg := EReal.neg_le_neg_iff.2
  neg_neg _ := neg_neg _
  neg h := by rw [isZero_iff.1 h, neg_zero, isZero_iff]
  add ha hb := by rw [alike_iff.1 ha, alike_iff.1 hb]; exact .refl _
  sub ha hb := by rw [alike_iff.1 ha, alike_iff.1 hb]; exact .refl _
  mul ha hb := by rw [alike_iff.1 ha, alike_iff.1 hb]; exact .refl _
  div ha := by rw [alike_iff.1 ha]; exact .refl _
  sqrt ha := by rw [alike_iff.1 ha]; exact .refl _
  not_isZero_sub ha hb hlt := by
    obtain ⟨x, rfl⟩ := isFinite_iff.1 ha
    obtain ⟨y, rfl⟩ := isFinite_iff.1 hb
    rw [isZero_iff, ← EReal.coe_sub, EReal.coe_eq_zero, sub_eq_zero]
    exact fun heq => absurd hlt (heq ▸ lt_irrefl _)

/-! ## Messages -/

/-- A symbol of a message of exact numbers. -/
inductive Symbol where
  | word (n : Nat)
  | scalar (x : EReal)

/-- The number that a symbol spells, zero for a scalar. -/
def Symbol.toWord : Symbol → Nat
  | .word n => n
  | .scalar _ => 0

/-- The scalar that a symbol spells, zero for a word. -/
noncomputable def Symbol.toScalar : Symbol → EReal
  | .word _ => 0
  | .scalar x => x

end Exact

/-- Each symbol of a spelling holds the number itself. -/
noncomputable instance : Wire EReal Exact.Symbol where
  spellWord width n := List.replicate width (.word n)
  readWord symbols := (symbols.head?.map Exact.Symbol.toWord).getD 0
  spellScalar x := List.replicate Wire.scalarWidth (.scalar x)
  readScalar symbols := (symbols.head?.map Exact.Symbol.toScalar).getD 0

instance : Wire.LawfulWords EReal Exact.Symbol where
  length_spellWord _ _ := List.length_replicate
  readWord_spellWord width n h := by
    cases width with
    | zero => exact (Nat.lt_one_iff.1 h).symm
    | succ w => rfl

instance : Wire.LawfulScalars EReal Exact.Symbol where
  length_spellScalar _ := List.length_replicate
  readScalar_spellScalar _ := rfl

end CurvePartition
