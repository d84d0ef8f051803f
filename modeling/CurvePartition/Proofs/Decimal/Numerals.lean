-- SUMMARY: Numerals as written are scanned as they are, counts read back, and every number of a document is written as such a numeral.
import CurvePartition.Decimal.Layout
import CurvePartition.Decimal.Reading

/-!
# Scanning numerals

A numeral without superfluous zeros in front (`Numeral.WellFormed`) is found again by `Numeral.scan`, whatever follows it, as long as
that does not go on like a numeral (`Numeral.scan_chars`). The digits that are written for counts and for numbers are of this kind: a
shortest decimal has no digits only if it is zero (`Decimal.ofFloat_regular`).
-/

namespace CurvePartition

namespace Numeral

variable {n : Numeral} {ds rest : List Char}

/-- Whether all characters are digits. -/
def AllDigits (ds : List Char) : Prop := ∀ c ∈ ds, c.isDigit = true

/-- Whether a numeral has digits where it has to, and no zero in front of its whole digits. -/
structure WellFormed (n : Numeral) : Prop where
  whole_digits : AllDigits n.whole
  whole_ne_nil : n.whole ≠ []
  no_zero : n.whole.head? = some '0' → n.whole = ['0']
  fraction_digits : AllDigits n.fraction
  exponent_digits : ∀ e, n.exponent = some e → AllDigits e.2 ∧ e.2 ≠ []

/-- Whether a text does not start with a digit. -/
def NoDigit (rest : List Char) : Prop := ∀ c, rest.head? = some c → c.isDigit = false

/-- Whether a text does not go on like a numeral. -/
structure Ends (rest : List Char) : Prop where
  noDigit : NoDigit rest
  noPoint : rest.head? ≠ some '.'
  noExponent : ∀ c, rest.head? = some c → c ≠ 'e' ∧ c ≠ 'E'

/-- Characters of a fraction. -/
def fractionChars : List Char → List Char
  | [] => []
  | digits => '.' :: digits

/-- Characters of a power of ten. -/
def exponentChars : Option (Bool × List Char) → List Char
  | none => []
  | some (negative, digits) => 'e' :: (if negative then '-' else '+') :: digits

theorem chars_eq (n : Numeral) : n.chars =
    (if n.negative then ['-'] else []) ++ (n.whole ++ (fractionChars n.fraction ++ exponentChars n.exponent)) := by
  rw [chars, List.append_assoc, List.append_assoc]
  rfl

theorem scanDigits_append_of_digits (h : AllDigits ds) (hrest : NoDigit rest) : scanDigits (ds ++ rest) = (ds, rest) := by
  have hstop : rest.takeWhile Char.isDigit = [] ∧ rest.dropWhile Char.isDigit = rest := by
    cases rest with
    | nil => exact ⟨rfl, rfl⟩
    | cons c rest => simp [hrest c rfl]
  rw [scanDigits, List.takeWhile_append_of_pos h, List.dropWhile_append_of_pos h, hstop.1, hstop.2, List.append_nil]

theorem scanWhole_append (h : n.WellFormed) (hrest : NoDigit rest) : scanWhole (n.whole ++ rest) = some (n.whole, rest) := by
  have hscan := scanDigits_append_of_digits h.whole_digits hrest
  obtain ⟨c, tail, hwhole⟩ := List.exists_cons_of_ne_nil h.whole_ne_nil
  by_cases hc : c = '0'
  · rw [h.no_zero (by rw [hwhole, hc]; rfl)]
    rfl
  · rw [hwhole] at hscan ⊢
    rw [scanWhole.eq_def]
    split
    · rename_i heq
      exact absurd (List.cons.inj heq).1 hc
    · rw [hscan]

theorem scanFraction_append (h : AllDigits ds) (hrest : NoDigit rest) (hpoint : rest.head? ≠ some '.') :
    scanFraction (fractionChars ds ++ rest) = some (ds, rest) := by
  cases ds with
  | nil =>
    rw [fractionChars, List.nil_append, scanFraction.eq_def]
    split
    · exact absurd rfl hpoint
    · rfl
  | cons c tail =>
    have hchars : fractionChars (c :: tail) ++ rest = '.' :: ((c :: tail) ++ rest) := rfl
    rw [hchars, scanFraction, scanDigits_append_of_digits h hrest]

theorem scanExponent_append {e : Option (Bool × List Char)} (h : ∀ d, e = some d → AllDigits d.2 ∧ d.2 ≠ []) (hrest : Ends rest) :
    scanExponent (exponentChars e ++ rest) = some (e, rest) := by
  cases e with
  | none =>
    cases rest with
    | nil => rfl
    | cons c rest =>
      obtain ⟨he, hE⟩ := hrest.noExponent c rfl
      rw [exponentChars, List.nil_append, scanExponent, if_neg (not_or_intro he hE)]
  | some d =>
    obtain ⟨negative, digits⟩ := d
    obtain ⟨hdigits, hne⟩ := h _ rfl
    have hsign : scanSign ((if negative then '-' else '+') :: (digits ++ rest)) = (negative, digits ++ rest) := by
      cases negative <;> rfl
    obtain ⟨c, tail, rfl⟩ := List.exists_cons_of_ne_nil hne
    rw [exponentChars, List.cons_append, List.cons_append, scanExponent, if_pos (.inl rfl), hsign]
    dsimp only
    rw [scanDigits_append_of_digits hdigits hrest.noDigit]

/-- The numeral behind a sign that was read. -/
def scanUnsigned (negative : Bool) (s : List Char) : Option (Numeral × List Char) := do
  let (whole, s) ← scanWhole s
  let (fraction, s) ← scanFraction s
  let (exponent, s) ← scanExponent s
  return (⟨negative, whole, fraction, exponent⟩, s)

theorem scanUnsigned_append (h : n.WellFormed) (hrest : Ends rest) :
    scanUnsigned n.negative (n.whole ++ (fractionChars n.fraction ++ (exponentChars n.exponent ++ rest))) = some (n, rest) := by
  have hexponent : NoDigit (exponentChars n.exponent ++ rest) ∧ (exponentChars n.exponent ++ rest).head? ≠ some '.' := by
    cases n.exponent with
    | none => exact ⟨hrest.noDigit, hrest.noPoint⟩
    | some d => exact ⟨fun c hc => by cases hc; rfl, by simp [exponentChars]⟩
  have hfraction : NoDigit (fractionChars n.fraction ++ (exponentChars n.exponent ++ rest)) := by
    cases n.fraction with
    | nil => exact hexponent.1
    | cons c tail => exact fun c hc => by cases hc; rfl
  rw [scanUnsigned, scanWhole_append h hfraction]
  simp only [Option.bind_eq_bind, Option.bind_some, Option.pure_def]
  rw [scanFraction_append h.fraction_digits hexponent.1 hexponent.2]
  simp only [Option.bind_some]
  rw [scanExponent_append h.exponent_digits hrest]
  rfl

/-- A numeral as written is scanned as it is. -/
theorem scan_chars (h : n.WellFormed) (hrest : Ends rest) : scan (n.chars ++ rest) = some (n, rest) := by
  have hscan : scan (n.chars ++ rest) =
      scanUnsigned n.negative (n.whole ++ (fractionChars n.fraction ++ (exponentChars n.exponent ++ rest))) := by
    rw [chars_eq]
    unfold scan
    simp only [List.append_assoc]
    cases n.negative with
    | true => rfl
    | false =>
      -- No digit is a sign.
      obtain ⟨c, tail, hc⟩ := List.exists_cons_of_ne_nil h.whole_ne_nil
      have hdigit := h.whole_digits c (hc ▸ List.mem_cons_self)
      rw [hc]
      simp only [Bool.false_eq_true, if_false, List.nil_append, List.cons_append]
      split
      · rename_i heq
        rw [(List.cons.inj heq).1] at hdigit
        cases hdigit
      · rfl
  exact hscan.trans (scanUnsigned_append h hrest)

/-- A numeral starts with its sign or a digit. -/
theorem WellFormed.exists_chars (h : n.WellFormed) : ∃ c s, n.chars = c :: s ∧ (c = '-' ∨ c.isDigit = true) := by
  obtain ⟨c, tail, hc⟩ := List.exists_cons_of_ne_nil h.whole_ne_nil
  rw [chars_eq, hc]
  cases n.negative with
  | true => exact ⟨'-', _, rfl, .inl rfl⟩
  | false => exact ⟨c, _, rfl, .inr (h.whole_digits c (hc ▸ List.mem_cons_self))⟩

/-! ## Digits of natural numbers -/

theorem allDigits_toString (n : Nat) : AllDigits (toString n).toList := fun c hc => by
  rw [Nat.toString_eq_repr, Nat.toList_repr] at hc
  exact Nat.isDigit_of_mem_toDigits (by decide) (by decide) hc

theorem toString_ne_nil (n : Nat) : (toString n).toList ≠ [] := by
  rw [Nat.toString_eq_repr, Nat.toList_repr]
  exact Nat.toDigits_ne_nil

/-- Only zero starts with a zero. -/
theorem head?_toString_ne_zero {n : Nat} (h : n ≠ 0) : (toString n).toList.head? ≠ some '0' := by
  rw [Nat.toString_eq_repr, Nat.toList_repr]
  induction n using Nat.strongRecOn with
  | _ n ih =>
    by_cases hlt : n < 10
    · simpa [Nat.toDigits_of_lt_base hlt] using h
    · rw [Nat.toDigits_of_base_le (by decide) (by omega)]
      obtain ⟨c, tail, hc⟩ := List.exists_cons_of_ne_nil (Nat.toDigits_ne_nil (n := n / 10) (b := 10))
      have hrest := ih (n / 10) (by omega) (by omega)
      rw [hc] at hrest ⊢
      exact hrest

theorem digitsValue_toString (n : Nat) : digitsValue (toString n).toList = n := by
  rw [Nat.toString_eq_repr, Nat.toList_repr, digitsValue]
  refine Eq.trans (congrArg (fun f => List.foldl f 0 _) ?_) (Nat.ofDigitChars_ten_toDigits (n := n))
  funext acc c
  rw [digitValue, Nat.mul_comm]

theorem wellFormed_ofNat (n : Nat) : (ofNat n).WellFormed where
  whole_digits := allDigits_toString n
  whole_ne_nil := toString_ne_nil n
  no_zero h := by
    by_cases hn : n = 0
    · rw [hn]
      rfl
    · exact absurd h (head?_toString_ne_zero hn)
  fraction_digits _ h := by cases h
  exponent_digits _ h := by cases h

/-- A count that fits into a word is read back. -/
theorem toCount?_ofNat {n : Nat} (h : n < 2 ^ 64) : (ofNat n).toCount? = some n := by
  have hvalue : digitsValue (ofNat n).whole = n := digitsValue_toString n
  rw [toCount?, if_neg (by simp [ofNat]), hvalue]
  exact if_neg (by rw [maxSignificand]; omega)

end Numeral

/-! ## Digits of numbers -/

namespace Decimal

open Numeral

variable {d : Decimal}

/-- Whether a decimal without digits is zero as it is written. -/
def Regular (d : Decimal) : Prop := d.digits = 0 → d.exponent = 0

theorem trimmed_regular (fuel : Nat) (h : d.Regular) : (trimmed fuel d).Regular := by
  induction fuel generalizing d with
  | zero => exact h
  | succ fuel ih =>
    rw [trimmed]
    split
    · exact ih fun hzero => absurd hzero (by dsimp only; omega)
    · exact h

/-- A point of the interval of a number is not zero. -/
theorem Binary.ne_zero_of_holds {b : Binary} {e : Int} {digits : Nat} (hb : b.mantissa ≠ 0) (h : b.holds e digits = true) :
    digits ≠ 0 := by
  rintro rfl
  have hbelow : 0 < b.below := by
    rw [below, centre]
    split <;> omega
  have hlo : 0 < b.below * b.scale e := Nat.mul_pos hbelow (Nat.mul_pos (Nat.pow_pos (by decide)) (Nat.pow_pos (by decide)))
  simp only [holds, Nat.zero_mul] at h
  split at h
  · have h := (of_decide_eq_true h).1
    omega
  · have h := (of_decide_eq_true h).1
    omega

theorem Binary.holds_of_neighbour {b : Binary} {tie : Tie} {e : Int} {digits : Nat} (h : b.neighbour tie e = some digits) :
    b.holds e digits = true := by
  unfold neighbour at h
  dsimp only at h
  split at h
  · cases h
  · exact Option.some.inj h ▸ ‹_›
  · exact Option.some.inj h ▸ ‹_›
  · rename_i hdown hup
    have hone : digits = b.centre * b.scale e / b.gridScale e ∨ digits = b.centre * b.scale e / b.gridScale e + 1 := by
      split at h
      · exact .inl (Option.some.inj h).symm
      · split at h
        · exact .inr (Option.some.inj h).symm
        · cases tie with
          | up => exact .inr (Option.some.inj h).symm
          | toEven =>
            dsimp only at h
            split at h
            · exact .inl (Option.some.inj h).symm
            · exact .inr (Option.some.inj h).symm
    rcases hone with rfl | rfl
    · exact hdown
    · exact hup

theorem ofFloat_regular (x : Float) (tie : Tie) : (ofFloat x tie).Regular := by
  unfold ofFloat
  dsimp only
  split
  · exact fun _ => rfl
  · rename_i hmantissa
    rw [Binary.shortest, trim]
    refine trimmed_regular _ ?_
    cases hhit : (Binary.ofBits x.toBits.toNat).firstHit tie ((List.range 17).map (· + 1)) with
    | none => exact fun _ => rfl
    | some d =>
      obtain ⟨count, _, hd⟩ := List.exists_of_findSome?_eq_some hhit
      obtain ⟨digits, hdigits, rfl⟩ := Option.map_eq_some_iff.1 hd
      exact fun hzero => absurd hzero (Binary.ne_zero_of_holds hmantissa (Binary.holds_of_neighbour hdigits))

theorem wellFormed_inPlace (h : d.Regular) {wholeFraction : List Char} (hfraction : AllDigits wholeFraction) :
    (d.inPlace wholeFraction).WellFormed := by
  have hdigits := allDigits_toString d.digits
  have hzeros : ∀ n, AllDigits (zeros n) := fun n c hc => (List.eq_of_mem_replicate hc).symm ▸ rfl
  have hnone : ∀ e, (none : Option (Bool × List Char)) = some e → AllDigits e.2 ∧ e.2 ≠ [] := fun _ h => by cases h
  have hfirst : (toString d.digits).toList.head? = some '0' → d.digits = 0 := fun hzero =>
    Decidable.byContradiction fun hne => head?_toString_ne_zero hne hzero
  unfold inPlace
  dsimp only
  split
  · refine ⟨fun c hc => ?_, ?_, fun hzero => ?_, hfraction, hnone⟩
    · exact (List.mem_append.1 hc).elim (hdigits c) (hzeros _ c)
    · exact List.append_ne_nil_of_left_ne_nil (toString_ne_nil _) _
    · obtain ⟨c, tail, hcons⟩ := List.exists_cons_of_ne_nil (toString_ne_nil d.digits)
      have hzero : (toString d.digits).toList.head? = some '0' := by
        rw [hcons] at hzero ⊢
        exact hzero
      rw [h (hfirst hzero), hfirst hzero]
      rfl
  · rename_i hneg
    split
    · rename_i hplaces
      refine ⟨fun c hc => hdigits c (List.mem_of_mem_take hc), fun hnil => ?_, fun hzero => ?_,
        fun c hc => hdigits c (List.mem_of_mem_drop hc), hnone⟩
      · have hlength := congrArg List.length hnil
        rw [List.length_take, List.length_nil] at hlength
        omega
      · rw [List.head?_take, if_neg (by omega)] at hzero
        exact absurd (h (hfirst hzero)) (by omega)
    · refine ⟨fun c hc => ?_, List.cons_ne_nil _ _, fun _ => rfl, fun c hc => ?_, hnone⟩
      · rw [List.mem_singleton.1 hc]
        rfl
      · exact (List.mem_append.1 hc).elim (hzeros _ c) (hdigits c)

theorem wellFormed_scientific (d : Decimal) : d.scientific.WellFormed := by
  have hdigits := allDigits_toString d.digits
  obtain ⟨c, tail, hcons⟩ := List.exists_cons_of_ne_nil (toString_ne_nil d.digits)
  rw [hcons] at hdigits
  refine ⟨?_, ?_, fun hzero => ?_, ?_, fun e he => ?_⟩ <;> simp only [scientific, hcons] at *
  · exact fun c' hc' => hdigits c' (List.mem_of_mem_take hc')
  · simp
  · simpa using hzero
  · exact fun c' hc' => hdigits c' (List.mem_of_mem_drop hc')
  · obtain rfl := Option.some.inj he
    exact ⟨allDigits_toString _, toString_ne_nil _⟩

/-- Every number is written as a numeral that is scanned as it is. -/
theorem wellFormed_numeral (layout : Layout) (hfraction : AllDigits layout.wholeFraction) (x : Float) :
    (numeral layout x).WellFormed := by
  have hplain : (if layout.inPlace (ofFloat x layout.tie).leading then (ofFloat x layout.tie).inPlace layout.wholeFraction
      else (ofFloat x layout.tie).scientific).WellFormed := by
    split
    · exact wellFormed_inPlace (ofFloat_regular x layout.tie) hfraction
    · exact wellFormed_scientific _
  exact ⟨hplain.1, hplain.2, hplain.3, hplain.4, hplain.5⟩

end Decimal

end CurvePartition
