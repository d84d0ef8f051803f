-- SUMMARY: The Hilbert curve is a walk over the grid: it starts in the corner at zero, and keys in a row are cells that share a face.
import CurvePartition.Proofs.Curve.Cells

/-!
# Neighbours on the Hilbert curve

The curve of a grid with one more level goes through eight copies of the curve before it, one for each octant
(`Hilbert.cell_succ`). The octants are visited along a Gray code. Inside an octant the curve is turned, which keeps neighbours
neighbours, and in every other octant it is walked backwards. A walk through a grid starts at zero and ends at the other end of
the first axis, so each copy ends beside the start of the next one, and by induction on the levels all keys in a row
are neighbours (`Hilbert.adjacent_cell`).
-/

namespace CurvePartition

open Key

/-! ## Cells of a grid -/

namespace Triple

variable {n : Nat} {c c' o p p' : Triple Nat}

/-- Whether two cells share a face: they differ by one on one axis and not at all on the others. -/
def Adjacent (c c' : Triple Nat) : Prop :=
  ∃ a, (c.get a + 1 = c'.get a ∨ c'.get a + 1 = c.get a) ∧ ∀ b, b ≠ a → c.get b = c'.get b

/-- The cell at a place of an octant, in a grid of octants with `n` bits for each axis. -/
def join (n : Nat) (octant place : Triple Nat) : Triple Nat := zipWith (fun high low => 2 ^ n * high + low) octant place

/-- The cell on the other side of a grid with `n` bits for each axis. -/
def opposite (n : Nat) (p : Triple Nat) : Triple Nat := p.map fun v => 2 ^ n - (v + 1)

theorem adjacent_iff : c.Adjacent c' ↔
    (c.x + 1 = c'.x ∨ c'.x + 1 = c.x) ∧ c.y = c'.y ∧ c.z = c'.z ∨
    (c.y + 1 = c'.y ∨ c'.y + 1 = c.y) ∧ c.x = c'.x ∧ c.z = c'.z ∨
    (c.z + 1 = c'.z ∨ c'.z + 1 = c.z) ∧ c.x = c'.x ∧ c.y = c'.y := by
  constructor
  · rintro ⟨a, hstep, hsame⟩
    cases a with
    | x => exact .inl ⟨hstep, hsame .y (by decide), hsame .z (by decide)⟩
    | y => exact .inr (.inl ⟨hstep, hsame .x (by decide), hsame .z (by decide)⟩)
    | z => exact .inr (.inr ⟨hstep, hsame .x (by decide), hsame .y (by decide)⟩)
  · rintro (⟨hstep, h₁, h₂⟩ | ⟨hstep, h₁, h₂⟩ | ⟨hstep, h₁, h₂⟩)
    · exact ⟨.x, hstep, fun b hb => by cases b <;> first | exact absurd rfl hb | assumption⟩
    · exact ⟨.y, hstep, fun b hb => by cases b <;> first | exact absurd rfl hb | assumption⟩
    · exact ⟨.z, hstep, fun b hb => by cases b <;> first | exact absurd rfl hb | assumption⟩

theorem Adjacent.symm (h : c.Adjacent c') : c'.Adjacent c := by
  obtain ⟨a, hstep, hsame⟩ := h
  exact ⟨a, hstep.symm, fun b hb => (hsame b hb).symm⟩

theorem Adjacent.join (h : p.Adjacent p') (n : Nat) (o : Triple Nat) : (join n o p).Adjacent (join n o p') := by
  obtain ⟨a, hstep, hsame⟩ := h
  refine ⟨a, ?_, fun b hb => ?_⟩
  · simp only [Triple.join, get_zipWith]
    omega
  · simp only [Triple.join, get_zipWith, hsame b hb]

theorem testBit_join (hp : ∀ a, p.get a < 2 ^ n) (o : Triple Nat) (a : Axis) (i : Nat) :
    ((join n o p).get a).testBit i = if i < n then (p.get a).testBit i else (o.get a).testBit (i - n) := by
  rw [join, get_zipWith, Nat.testBit_two_pow_mul_add _ (hp a)]

theorem testBit_opposite (hp : ∀ a, p.get a < 2 ^ n) (a : Axis) (i : Nat) :
    ((opposite n p).get a).testBit i = (decide (i < n) && !(p.get a).testBit i) := by
  rw [opposite, get_map, Nat.testBit_two_pow_sub_succ (hp a)]

theorem opposite_lt (n : Nat) (p : Triple Nat) (a : Axis) : (opposite n p).get a < 2 ^ n := by
  have := Nat.two_pow_pos n
  rw [opposite, get_map]
  omega

/-! ## Digits of a key -/

/-- The first digit of a key is its octant, the others are its place there. -/
theorem deinterleave_succ {n r : Nat} (o : Nat) (hr : r < 8 ^ n) :
    deinterleave (n + 1) (8 ^ n * o + r) = join n (deinterleave 1 o) (deinterleave n r) := by
  have hpow : (8 : Nat) ^ n = 2 ^ (3 * n) := by rw [Nat.pow_mul]
  rw [hpow] at hr ⊢
  refine ext_testBit fun a i => ?_
  have hplace : place a < 3 := by cases a <;> decide
  rw [testBit_join (deinterleave_lt n r), testBit_deinterleave, testBit_deinterleave, testBit_deinterleave,
    Nat.testBit_two_pow_mul_add _ hr]
  by_cases hi : i < n
  · rw [if_pos hi, if_pos (by omega), decide_eq_true hi, decide_eq_true (Nat.lt_succ_of_lt hi)]
  · rw [if_neg hi, if_neg (by omega), show 3 * i + place a - 3 * n = 3 * (i - n) + place a by omega]
    congr 1
    exact decide_eq_decide.2 (by omega)

/-- Keys counted from the other end are cells on the other side, before the curve is turned. -/
theorem deinterleave_opposite {n r : Nat} (hr : r < 8 ^ n) :
    deinterleave n (8 ^ n - (r + 1)) = opposite n (deinterleave n r) := by
  have hpow : (8 : Nat) ^ n = 2 ^ (3 * n) := by rw [Nat.pow_mul]
  rw [hpow] at hr ⊢
  refine ext_testBit fun a i => ?_
  have hplace : place a < 3 := by cases a <;> decide
  rw [testBit_opposite (deinterleave_lt n r), testBit_deinterleave, testBit_deinterleave, Nat.testBit_two_pow_sub_succ hr]
  by_cases hi : i < n
  · rw [decide_eq_true hi, decide_eq_true (show 3 * i + place a < 3 * n by omega)]
    simp
  · rw [decide_eq_false hi, Bool.false_and, Bool.false_and]

/-- A key of a coarser grid has no further digits. -/
theorem deinterleave_eq_of_lt {n d k : Nat} (hd : d ≤ n) (hk : k < 8 ^ d) : deinterleave n k = deinterleave d k := by
  refine ext_testBit fun a i => ?_
  by_cases hi : i < d
  · rw [testBit_deinterleave, testBit_deinterleave, decide_eq_true hi, decide_eq_true (Nat.lt_of_lt_of_le hi hd)]
  · rw [testBit_of_le (deinterleave_lt_of_lt hk) (Nat.not_lt.1 hi), testBit_of_le (deinterleave_lt d k) (Nat.not_lt.1 hi)]

end Triple

namespace Hilbert

open Triple

variable {n : Nat} {o p p' : Triple Nat}

/-! ## The curve inside an octant -/

theorem testBit_ungray_x (c : Triple Nat) (i : Nat) :
    ((ungray c).get .x).testBit i = ((c.get .x).testBit i ^^ (c.get .z).testBit (i + 1)) := by
  simp only [ungray, Triple.get, Nat.testBit_xor, Nat.testBit_shiftRight, Nat.add_comm 1 i]

theorem testBit_ungray_y (c : Triple Nat) (i : Nat) :
    ((ungray c).get .y).testBit i = ((c.get .y).testBit i ^^ (c.get .x).testBit i) := Nat.testBit_xor ..

theorem testBit_ungray_z (c : Triple Nat) (i : Nat) :
    ((ungray c).get .z).testBit i = ((c.get .z).testBit i ^^ (c.get .y).testBit i) := Nat.testBit_xor ..

/-- The place in an octant that is as far along the curve: an octant with an odd number is walked backwards. -/
def along (n : Nat) (o p : Triple Nat) : Triple Nat := if (o.get .z).testBit 0 then opposite n p else p

theorem along_lt (hp : ∀ a, p.get a < 2 ^ n) (o : Triple Nat) (a : Axis) : (along n o p).get a < 2 ^ n := by
  unfold along
  split
  · exact opposite_lt n p a
  · exact hp a

theorem testBit_along (hp : ∀ a, p.get a < 2 ^ n) (o : Triple Nat) (a : Axis) (i : Nat) :
    ((along n o p).get a).testBit i = ((p.get a).testBit i ^^ ((o.get .z).testBit 0 && decide (i < n))) := by
  unfold along
  by_cases hodd : (o.get .z).testBit 0
  · rw [if_pos hodd, testBit_opposite hp, hodd, Bool.true_and]
    by_cases hi : i < n
    · simp [hi]
    · simp [hi, testBit_of_le hp (Nat.not_lt.1 hi)]
  · rw [if_neg hodd, Bool.eq_false_iff.2 hodd, Bool.false_and, Bool.xor_false]

/-- The Gray code of a key is that of its octant, and that of its place there as the octant is walked. -/
theorem ungray_join (hp : ∀ a, p.get a < 2 ^ n) (o : Triple Nat) :
    ungray (join n o p) = join n (ungray o) (ungray (along n o p)) := by
  refine ext_testBit fun a i => ?_
  rw [testBit_join (ungray_lt (along_lt hp o))]
  by_cases hi : i < n
  · cases a <;>
      simp only [testBit_ungray_x, testBit_ungray_y, testBit_ungray_z, testBit_join hp, testBit_along hp, if_pos hi,
        decide_eq_true hi, Bool.and_true]
    -- The highest bit of a place on the first axis is combined with the octant's number.
    · by_cases hnext : i + 1 < n
      · rw [if_pos hnext, decide_eq_true hnext, Bool.and_true]
        cases (o.get .z).testBit 0 <;> simp
      · have hlast : i + 1 - n = 0 := by omega
        rw [if_neg hnext, decide_eq_false hnext, hlast, testBit_of_le hp (Nat.not_lt.1 hnext)]
        simp
    all_goals cases (o.get .z).testBit 0 <;> simp
  · cases a <;>
      simp only [testBit_ungray_x, testBit_ungray_y, testBit_ungray_z, testBit_join hp, if_neg hi]
    rw [if_neg (by omega), Nat.sub_add_comm (Nat.not_lt.1 hi)]

/-- A turn on a level inside the octants turns the places there. -/
theorem turn_join_of_lt {j : Nat} (hj : j < n) (hp : ∀ a, p.get a < 2 ^ n) (axis : Axis) (o : Triple Nat) :
    turn j axis (join n o p) = join n o (turn j axis p) := by
  refine ext_testBit fun a i => ?_
  rw [testBit_join (turn_lt (Nat.le_of_lt hj) hp axis)]
  by_cases hi : i < j
  · simp only [testBit_turn, testBit_join hp, if_pos hi, if_pos (Nat.lt_trans hi hj), if_pos hj]
  · simp only [testBit_turn, testBit_join hp, if_neg hi]

theorem wind_join {k : Nat} (hk : k ≤ n - 1) (hp : ∀ a, p.get a < 2 ^ n) (o : Triple Nat) :
    wind k (join n o p) = join n o (wind k p) := by
  induction k with
  | zero => rfl
  | succ k ih =>
    have hle : k + 1 ≤ n := by omega
    have hlt : k + 1 < n := by omega
    have hwind : ∀ a, (wind k p).get a < 2 ^ n := wind_lt k (Nat.le_of_succ_le hle) hp
    have hz : ∀ a, (turn (k + 1) .z (wind k p)).get a < 2 ^ n := turn_lt hle hwind .z
    have hy : ∀ a, (turn (k + 1) .y (turn (k + 1) .z (wind k p))).get a < 2 ^ n := turn_lt hle hz .y
    rw [wind, wind, ih (by omega), turnsBack, turnsBack, turn_join_of_lt hlt hwind, turn_join_of_lt hlt hz,
      turn_join_of_lt hlt hy]

/-- The curve through the octants, before the octants are turned. -/
theorem curl_join (hp : ∀ a, p.get a < 2 ^ n) (o : Triple Nat) :
    curl n (join n o p) = join n (ungray o) (curl n (along n o p)) := by
  rw [curl, curl, ungray_join hp, wind_join (Nat.le_refl _) (ungray_lt (along_lt hp o))]

/-- What the turn of an octant does to a place: it is mirrored on the first axis, or the first axis changes places
with another one. -/
def swing (n : Nat) (o : Triple Nat) (axis : Axis) (p : Triple Nat) : Triple Nat :=
  if (o.get axis).testBit 0 then { p with x := 2 ^ n - (p.x + 1) } else { p.set axis p.x with x := p.get axis }

/-- The turns of an octant, last axis first. -/
def orient (n : Nat) (o p : Triple Nat) : Triple Nat := swing n o .x (swing n o .y (swing n o .z p))

theorem swing_lt (hp : ∀ a, p.get a < 2 ^ n) (o : Triple Nat) (axis a : Axis) : (swing n o axis p).get a < 2 ^ n := by
  have hpos := Nat.two_pow_pos n
  have hx := hp .x
  have ha := hp a
  have haxis := hp axis
  unfold swing
  split
  · cases a <;> simp only [Triple.get] at ha ⊢ <;> omega
  · cases axis <;> cases a <;> simpa only [Triple.get, Triple.set]

/-- Neighbours stay neighbours when an axis is mirrored or two axes change places. -/
theorem adjacent_swing (h : p.Adjacent p') (hp : ∀ a, p.get a < 2 ^ n) (hp' : ∀ a, p'.get a < 2 ^ n) (o : Triple Nat)
    (axis : Axis) : (swing n o axis p).Adjacent (swing n o axis p') := by
  have hx := hp .x
  have hx' := hp' .x
  simp only [Triple.get] at hx hx'
  rw [adjacent_iff] at h ⊢
  unfold swing
  split
  · dsimp only
    rcases h with ⟨hstep, h₁, h₂⟩ | ⟨hstep, h₁, h₂⟩ | ⟨hstep, h₁, h₂⟩
    · exact .inl ⟨by omega, h₁, h₂⟩
    · exact .inr (.inl ⟨hstep, by omega, h₂⟩)
    · exact .inr (.inr ⟨hstep, by omega, h₂⟩)
  · rcases h with ⟨hstep, h₁, h₂⟩ | ⟨hstep, h₁, h₂⟩ | ⟨hstep, h₁, h₂⟩
    · cases axis with
      | x => exact .inl ⟨hstep, h₁, h₂⟩
      | y => exact .inr (.inl ⟨hstep, h₁, h₂⟩)
      | z => exact .inr (.inr ⟨hstep, h₂, h₁⟩)
    · cases axis with
      | x => exact .inr (.inl ⟨hstep, h₁, h₂⟩)
      | y => exact .inl ⟨hstep, h₁, h₂⟩
      | z => exact .inr (.inl ⟨hstep, h₂, h₁⟩)
    · cases axis with
      | x => exact .inr (.inr ⟨hstep, h₁, h₂⟩)
      | y => exact .inr (.inr ⟨hstep, h₂, h₁⟩)
      | z => exact .inl ⟨hstep, h₂, h₁⟩

theorem adjacent_orient (h : p.Adjacent p') (hp : ∀ a, p.get a < 2 ^ n) (hp' : ∀ a, p'.get a < 2 ^ n)
    (o : Triple Nat) : (orient n o p).Adjacent (orient n o p') := by
  have hz := adjacent_swing h hp hp' o .z
  have hy := adjacent_swing hz (swing_lt hp o .z) (swing_lt hp' o .z) o .y
  exact adjacent_swing hy (swing_lt (swing_lt hp o .z) o .y) (swing_lt (swing_lt hp' o .z) o .y) o .x

/-- A turn on the level of the octants turns each of them. -/
theorem turn_join (hp : ∀ a, p.get a < 2 ^ n) (axis : Axis) (o : Triple Nat) :
    turn n axis (join n o p) = join n o (swing n o axis p) := by
  refine ext_testBit fun a i => ?_
  rw [testBit_join (swing_lt hp o axis), testBit_turn]
  by_cases hi : i < n
  · have hx := Nat.testBit_two_pow_sub_succ (hp .x) i
    simp only [testBit_join hp, if_pos hi, if_neg (Nat.lt_irrefl n), Nat.sub_self, swing]
    by_cases hbit : (o.get axis).testBit 0
    · cases a <;> simp_all [Triple.get]
    · cases axis <;> cases a <;> simp_all [Triple.get, Triple.set]
  · simp only [testBit_join hp, if_neg hi]

theorem turnsBack_join (hp : ∀ a, p.get a < 2 ^ n) (o : Triple Nat) :
    turnsBack n (join n o p) = join n o (orient n o p) := by
  rw [turnsBack, turn_join hp, turn_join (swing_lt hp o .z), turn_join (swing_lt (swing_lt hp o .z) o .y), orient]

theorem curl_succ (n : Nat) (c : Triple Nat) : curl (n + 1) c = turnsBack n (curl n c) := by
  cases n with
  | succ n => rfl
  | zero =>
    -- There are no bits below the lowest one to turn.
    have hturn : ∀ axis c, turn 0 axis c = c := fun axis c => ext_testBit fun a i => by
      rw [testBit_turn, if_neg (Nat.not_lt_zero i)]
    rw [turnsBack, hturn, hturn, hturn]
    rfl

/-! ## The walk -/

/-- The cell with a key in a grid of `n` levels. -/
def cell (n k : Nat) : Triple Nat := curl n (deinterleave n k)

theorem cell_lt (n k : Nat) (a : Axis) : (cell n k).get a < 2 ^ n := curl_lt (deinterleave_lt n k) a

/-- The curve visits one octant after the other, and walks every other one backwards. -/
theorem cell_succ {o r : Nat} (hr : r < 8 ^ n) : cell (n + 1) (8 ^ n * o + r) =
    join n (ungray (deinterleave 1 o)) (orient n (ungray (deinterleave 1 o))
      (cell n (if o % 2 = 1 then 8 ^ n - (r + 1) else r))) := by
  have hodd : ((deinterleave 1 o).get .z).testBit 0 = decide (o % 2 = 1) := by
    rw [testBit_deinterleave]
    simp [place, Nat.testBit_zero]
  have halong : along n (deinterleave 1 o) (deinterleave n r) =
      deinterleave n (if o % 2 = 1 then 8 ^ n - (r + 1) else r) := by
    by_cases h : o % 2 = 1
    · simp only [along, hodd, h, decide_true, if_true, deinterleave_opposite hr]
    · simp only [along, hodd, h, decide_false, Bool.false_eq_true, if_false]
  rw [cell, deinterleave_succ o hr, curl_succ, curl_join (deinterleave_lt n r), halong]
  exact turnsBack_join (cell_lt n _) _

/-- The curve starts in the corner at zero. -/
theorem cell_zero (n : Nat) : cell n 0 = ⟨0, 0, 0⟩ := by
  induction n with
  | zero => rfl
  | succ n ih =>
    have hpos : 0 < 8 ^ n := Nat.pow_pos (by decide)
    have hfirst : cell (n + 1) (8 ^ n * 0 + 0) = _ := cell_succ hpos
    rw [Nat.mul_zero, if_neg (by decide), ih] at hfirst
    simpa [ungray, deinterleave, orient, swing, Triple.get, Triple.set, join, zipWith] using hfirst

/-- The curve ends at the other end of the first axis. -/
theorem cell_last (n : Nat) : cell n (8 ^ n - 1) = ⟨2 ^ n - 1, 0, 0⟩ := by
  induction n with
  | zero => rfl
  | succ n ih =>
    have hpos : 0 < 8 ^ n := Nat.pow_pos (by decide)
    have hkey : 8 ^ (n + 1) - 1 = 8 ^ n * 7 + (8 ^ n - 1) := by
      rw [Nat.pow_succ]
      omega
    rw [hkey, cell_succ (Nat.sub_one_lt_of_lt hpos), if_pos (by decide), Nat.sub_add_cancel hpos, Nat.sub_self, cell_zero]
    have htwo := Nat.two_pow_pos n
    simp [ungray, deinterleave, orient, swing, Triple.get, Triple.set, join, zipWith, Nat.pow_succ]
    omega

/-- An octant is left beside the start of the next one. -/
theorem adjacent_next_octant {n o : Nat} (ho : o < 7) :
    (cell (n + 1) (8 ^ n * o + (8 ^ n - 1))).Adjacent (cell (n + 1) (8 ^ n * (o + 1))) := by
  have hpos : 0 < 8 ^ n := Nat.pow_pos (by decide)
  have htwo := Nat.two_pow_pos n
  rw [← Nat.add_zero (8 ^ n * (o + 1)), cell_succ (Nat.sub_one_lt_of_lt hpos), cell_succ hpos, Nat.sub_add_cancel hpos,
    Nat.sub_self, Nat.zero_add]
  -- Of two octants in a row one is walked backwards, so both cells are at the same end of their walks.
  obtain rfl | rfl | rfl | rfl | rfl | rfl | rfl : o = 0 ∨ o = 1 ∨ o = 2 ∨ o = 3 ∨ o = 4 ∨ o = 5 ∨ o = 6 := by omega
  all_goals
    simp [adjacent_iff, cell_zero, cell_last, ungray, deinterleave, orient, swing, Triple.get, Triple.set, join, zipWith]
    omega

/-- Keys in a row are cells that share a face. -/
theorem adjacent_cell (n : Nat) {k : Nat} (hk : k + 1 < 8 ^ n) : (cell n k).Adjacent (cell n (k + 1)) := by
  induction n generalizing k with
  | zero => exact absurd hk (Nat.not_lt.2 (Nat.le_add_left 1 k))
  | succ n ih =>
    have hpos : 0 < 8 ^ n := Nat.pow_pos (by decide)
    rw [Nat.pow_succ] at hk
    obtain ⟨o, r, hr, rfl⟩ : ∃ o r, r < 8 ^ n ∧ k = 8 ^ n * o + r :=
      ⟨k / 8 ^ n, k % 8 ^ n, Nat.mod_lt k hpos, (Nat.div_add_mod k _).symm⟩
    rcases Nat.lt_or_eq_of_le (Nat.succ_le_of_lt hr) with hin | hlast
    -- In one octant the walk goes on as on the level before, forwards or backwards.
    · have hplaces : (cell n (if o % 2 = 1 then 8 ^ n - (r + 1) else r)).Adjacent
          (cell n (if o % 2 = 1 then 8 ^ n - (r + 1 + 1) else r + 1)) := by
        split
        · have hstep : 8 ^ n - (r + 1) = 8 ^ n - (r + 1 + 1) + 1 := by omega
          rw [hstep]
          exact (ih (by omega)).symm
        · exact ih hin
      rw [Nat.add_assoc, cell_succ hr, cell_succ hin]
      exact (adjacent_orient hplaces (cell_lt n _) (cell_lt n _) _).join n _
    · have hlt : o < 7 := by
        refine Nat.lt_of_mul_lt_mul_left (a := 8 ^ n) ?_
        omega
      have hr : r = 8 ^ n - 1 := by omega
      have hnext : 8 ^ n * o + r + 1 = 8 ^ n * (o + 1) := by
        rw [Nat.mul_succ]
        omega
      rw [hnext, hr]
      exact adjacent_next_octant hlt

end Hilbert

/-- On the Hilbert curve of both key widths, key zero is the cell in the corner, and two keys in a row are two cells that share a
face. -/
theorem Curve.hilbert_neighbours (width : KeyWidth) : hilbert.decode width.depth 0 = ⟨0, 0, 0⟩ ∧
    ∀ k, k + 1 < bound width.depth →
      (hilbert.decode width.depth k).Adjacent (hilbert.decode width.depth (k + 1)) := by
  have hcell : ∀ k < bound width.depth, hilbert.decode width.depth k = Hilbert.cell width.depth k := by
    intro k hk
    rw [decode, Hilbert.cell, Triple.deinterleave_eq_of_lt width.depth_le hk]
  refine ⟨?_, fun k hk => ?_⟩
  · rw [hcell 0 (bound_pos _), Hilbert.cell_zero]
  · rw [hcell k (Nat.lt_of_succ_lt hk), hcell (k + 1) hk]
    exact Hilbert.adjacent_cell width.depth hk

/-- The step from one half of the grid to the other one, at which all digits of the key change. -/
theorem Curve.hilbert_neighbours_halves : 4 * 8 ^ 20 - 1 + 1 < bound KeyWidth.wide.depth ∧
    hilbert.decode 21 (4 * 8 ^ 20 - 1) = ⟨2 ^ 20 - 1, 2 ^ 20, 0⟩ ∧
    hilbert.decode 21 (4 * 8 ^ 20 - 1 + 1) = ⟨2 ^ 20, 2 ^ 20, 0⟩ ∧
    (hilbert.decode 21 (4 * 8 ^ 20 - 1)).Adjacent (hilbert.decode 21 (4 * 8 ^ 20 - 1 + 1)) := by
  have hk : 4 * 8 ^ 20 - 1 + 1 < bound KeyWidth.wide.depth := by decide
  exact ⟨hk, by decide +kernel, by decide +kernel, (hilbert_neighbours .wide).2 _ hk⟩

end CurvePartition
