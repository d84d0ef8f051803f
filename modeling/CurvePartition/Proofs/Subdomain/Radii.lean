-- SUMMARY: Radii of leaves: all ranks get the same ones, the longest lengths of all particles in the leaves determine them, none is negative, and exact ones cover the particles of their leaves.
import CurvePartition.Proofs.Space.Exact
import CurvePartition.Proofs.Config.Checking
import CurvePartition.Proofs.Particles.Rows
import CurvePartition.Proofs.Sorted.Bins
import CurvePartition.Subdomain.Step

/-!
# Radii of leaves

In the mode of one radius every leaf has it. Otherwise the ranks find the longest smoothing length in each leaf together:
it is the largest of zero and the lengths of all particles in the leaf, on whatever rank (`Subdomain.lengths_most`). So the
radii, but for the signs of zeros, depend on the particles of all ranks together only (`Subdomain.radiiOf_alike`).

Radii are enlarged by a factor that is at least one, so exact ones cover the particles of their leaf
(`Subdomain.radiiOf_spec`).
-/

namespace CurvePartition

open Program

namespace Scalar

/-- The laws of radii: zero is in order, and products of finite values that are not negative are not negative, nor are such
values when they are slightly enlarged. -/
structure LawfulRadii (α : Type) [Scalar α] : Prop extends LawfulOrder α where
  isFinite_zero : isFinite (0 : α) = true
  zero_le_zero : (0 : α) ≤ 0
  mul_nonneg : ∀ {a b : α}, isFinite a = true → isFinite b = true → 0 ≤ a → 0 ≤ b → 0 ≤ a * b
  mul_slack_nonneg : ∀ {a : α}, 0 ≤ a → 0 ≤ a * Subdomain.slack

end Scalar

section Checked

variable {α : Type} [Scalar α]

/-- No finite length has a negative radius. -/
theorem HaloRadius.radius_nonneg (hlaw : Scalar.LawfulRadii α) {r : HaloRadius α} (h : Config.checkRadius r = .ok ()) {x : α}
    (hfinite : Scalar.isFinite x = true) (hx : 0 ≤ x) : 0 ≤ r.radius x := by
  have hvalue := Config.checkRadius_eq_ok_iff.1 h
  cases r with
  | fixed radius => exact hvalue.2
  | perParticle factor => exact hlaw.mul_nonneg hvalue.1 hfinite hvalue.2 hx

/-- Alike lengths have alike radii. -/
theorem HaloRadius.radius_alike (hlaw : Scalar.LawfulSigns α) (r : HaloRadius α) {x y : α} (h : Scalar.Alike x y) :
    Scalar.Alike (r.radius x) (r.radius y) := by
  cases r with
  | fixed radius => exact .refl radius
  | perParticle factor => exact hlaw.mul (.refl factor) h

end Checked

namespace Subdomain

variable {width : KeyWidth} {α β : Type} [Scalar α] {size : Nat} {config : Config α} {tree : Leaves width.depth}
  {p : ParticleSet width α} {ps ps' : Nat → ParticleSet width α} {i j l : Nat}

/-! ## Longest lengths -/

/-- Longest smoothing length of the particles of a rank in each leaf. -/
def ownLengths (backend : Backend) (tree : Leaves width.depth) (p : ParticleSet width α) : List α :=
  (backend.mapIndices tree.count (Global.localMax tree (p.keys.take p.owned) (p.h.take p.owned))).toList

/-- Longest smoothing length of the particles of all ranks in each leaf. -/
def allLengths (size : Nat) (backend : Backend) (tree : Leaves width.depth) (ps : Nat → ParticleSet width α) : List α :=
  Delivery.combineAll Reduction.max.scalars ((List.range size).map fun i => ownLengths backend tree (ps i))

theorem length_ownLengths (backend : Backend) (tree : Leaves width.depth) (p : ParticleSet width α) :
    (ownLengths backend tree p).length = tree.count := by
  simp [ownLengths, Backend.mapIndices]

/-- What is known of the particles of a rank when radii are found. -/
structure Measured (p : ParticleSet width α) : Prop where
  uniform : p.Uniform p.size
  owned_eq : p.owned = p.size
  ascending : Sorted.Ascending p.keys
  finite : ∀ j < p.size, Scalar.isFinite (p.h.getD j 0) = true
  nonneg : ∀ j < p.size, 0 ≤ p.h.getD j 0

/-- Whether a value is the length of a particle in a leaf. -/
def HasLength (tree : Leaves width.depth) (p : ParticleSet width α) (l : Nat) (v : α) : Prop :=
  ∃ j < p.size, p.keys.getD j 0 ∈ tree.range l ∧ v = p.h.getD j 0

/-- Whether a value is zero or the length of a particle of some rank in a leaf. -/
def LengthIn (size : Nat) (tree : Leaves width.depth) (ps : Nat → ParticleSet width α) (l : Nat) (v : α) : Prop :=
  v = 0 ∨ ∃ i < size, HasLength tree (ps i) l v

/-- The lengths of the particles in a leaf are a part of all lengths. -/
theorem mem_extract_iff (hp : Measured p) {v : α} :
    v ∈ (p.h.extract (tree.slice p.keys l).1 (tree.slice p.keys l).2).toList ↔ HasLength tree p l v := by
  have hkeys := hp.uniform.size_keys
  have hlengths : p.h.size = p.size := hp.uniform.size_h
  have hstop := Sorted.lowerBound_le p.keys (tree.start (l + 1))
  have hvalue : ∀ j < p.size, p.h[j]? = some (p.h.getD j 0) := fun j hj => by
    rw [Array.getD_eq_getD_getElem?, Array.getElem?_eq_getElem (hlengths ▸ hj)]
    rfl
  have hbin : ∀ j < p.size, ((tree.slice p.keys l).1 ≤ j ∧ j < (tree.slice p.keys l).2 ↔ p.keys.getD j 0 ∈ tree.range l) :=
    fun j hj => Sorted.mem_bin_iff hp.ascending (hkeys ▸ hj)
  rw [Array.mem_toList_iff, Array.mem_iff_getElem?]
  constructor
  · rintro ⟨k, hk⟩
    simp only [Array.getElem?_extract] at hk
    split at hk
    · rename_i hlt
      simp only [Leaves.slice] at hlt
      have hj : (tree.slice p.keys l).1 + k < p.size := by
        simp only [Leaves.slice]
        omega
      rw [hvalue _ hj] at hk
      refine ⟨_, hj, (hbin _ hj).1 ⟨Nat.le_add_right _ _, ?_⟩, (Option.some.inj hk).symm⟩
      simp only [Leaves.slice]
      omega
    · cases hk
  · rintro ⟨j, hj, hmem, rfl⟩
    obtain ⟨hfirst, hlast⟩ := (hbin j hj).2 hmem
    refine ⟨j - (tree.slice p.keys l).1, ?_⟩
    simp only [Leaves.slice] at hfirst hlast
    simp only [Leaves.slice, Array.getElem?_extract]
    rw [if_pos (by omega), Nat.add_sub_cancel' hfirst, hvalue j hj]

/-- The longest length of a rank in a leaf is zero or that of a particle in the leaf, and none is longer. -/
theorem ownLengths_spec (hlaw : Scalar.LawfulOrder α) (hzero : (0 : α) ≤ 0) (backend : Backend) (hp : Measured p)
    (hl : l < tree.count) : ∃ x, (ownLengths backend tree p)[l]? = some x ∧ 0 ≤ x ∧ (x = 0 ∨ HasLength tree p l x) ∧
      ∀ v, HasLength tree p l v → v ≤ x := by
  have hwhole : ∀ {τ : Type} (values : Array τ), values.size = p.size → values.take p.owned = values := by
    intro τ values hsize
    rw [hp.owned_eq, ← hsize, Array.take_eq_extract, Array.extract_size]
  have hget : (ownLengths backend tree p)[l]? = some (Global.localMax tree p.keys p.h l) := by
    simp [ownLengths, Backend.mapIndices, hl, hwhole p.keys hp.uniform.size_keys, hwhole p.h hp.uniform.size_h]
  have hmax : Global.localMax tree p.keys p.h l =
      (p.h.extract (tree.slice p.keys l).1 (tree.slice p.keys l).2).toList.foldl Scalar.max 0 := by
    rw [Array.foldl_toList]
    rfl
  have hself : ∀ v ∈ (p.h.extract (tree.slice p.keys l).1 (tree.slice p.keys l).2).toList, v ≤ v := by
    intro v hv
    obtain ⟨j, hj, _, rfl⟩ := (mem_extract_iff hp).1 hv
    exact hlaw.right (hp.nonneg j hj)
  obtain ⟨hnonneg, hall⟩ := hlaw.comparison.le_foldl_max (fun v : α => v) _ hzero hself
  refine ⟨_, hget, hmax ▸ hnonneg, ?_, fun v hv => hmax ▸ hall v ((mem_extract_iff hp).2 hv)⟩
  rw [hmax]
  exact (List.mem_cons.1 (Scalar.foldl_max_mem _ _)).imp_right (mem_extract_iff hp).1

/-- The longest length in a leaf is the largest of zero and the lengths of all particles there. -/
theorem lengths_most (hlaw : Scalar.LawfulOrder α) (hzero : (0 : α) ≤ 0) (backend : Backend) (hpos : 0 < size)
    (hps : ∀ i < size, Measured (ps i)) (hl : l < tree.count) :
    Scalar.IsMost (LengthIn size tree ps l) ((allLengths size backend tree ps).getD l 0) := by
  have hlength : ∀ i < size, (ownLengths backend tree (ps i)).length = tree.count := fun _ _ => length_ownLengths _ _ _
  obtain ⟨most, hmost, ⟨k, hk, hmem⟩, hall⟩ := hlaw.combineAll_most hpos hlength hl
  have hget : (allLengths size backend tree ps).getD l 0 = most := by
    rw [List.getD_eq_getElem?_getD, allLengths, hmost, Option.getD_some]
  have hrank : ∀ i < size, ∃ x, (ownLengths backend tree (ps i))[l]? = some x ∧ _ := fun i hi =>
    ownLengths_spec hlaw hzero backend (hps i hi) hl
  rw [hget]
  refine ⟨?_, fun v hv => ?_⟩
  · obtain ⟨x, hx, _, hsome, _⟩ := hrank k hk
    cases hmem.symm.trans hx
    exact hsome.imp_right fun h => ⟨k, hk, h⟩
  · rcases hv with rfl | ⟨i, hi, hv⟩
    · obtain ⟨x, hx, hnonneg, _⟩ := hrank 0 hpos
      exact hlaw.trans hnonneg (hall 0 hpos x hx (hlaw.right hnonneg))
    · obtain ⟨x, hx, _, _, hle⟩ := hrank i hi
      exact hlaw.trans (hle v hv) (hall i hi x hx (hlaw.right (hle v hv)))

/-! ## Radii -/

/-- The radii of the leaves. -/
def radiiOf (size : Nat) (config : Config α) (tree : Leaves width.depth) (ps : Nat → ParticleSet width α) : Array α :=
  match config.haloRadius with
  | .fixed radius => Array.replicate tree.count (radius * slack)
  | .perParticle _ =>
    (allLengths size config.backend tree ps).toArray.map fun length => config.haloRadius.radius length * slack

theorem radiiOf_eq_of_eq (h : ∀ i < size, ps i = ps' i) : radiiOf size config tree ps = radiiOf size config tree ps' := by
  have hlengths : allLengths size config.backend tree ps = allLengths size config.backend tree ps' :=
    congrArg (Delivery.combineAll Reduction.max.scalars) (List.map_congr_left fun i hi => by rw [h i (List.mem_range.1 hi)])
  rw [radiiOf, radiiOf, hlengths]

theorem length_allLengths (hpos : 0 < size) (backend : Backend) :
    (allLengths size backend tree ps).length = tree.count :=
  Delivery.length_combineAll hpos fun _ _ => length_ownLengths _ _ _

theorem size_radiiOf (hpos : 0 < size) : (radiiOf size config tree ps).size = tree.count := by
  unfold radiiOf
  split
  · exact Array.size_replicate
  · rw [Array.size_map, List.size_toArray, length_allLengths hpos]

theorem getD_radiiOf (hpos : 0 < size) (hl : l < tree.count) : (radiiOf size config tree ps).getD l 0 =
    config.haloRadius.radius ((allLengths size config.backend tree ps).getD l 0) * slack := by
  unfold radiiOf
  cases config.haloRadius with
  | fixed radius => simp [Array.getD, hl, HaloRadius.radius]
  | perParticle factor =>
    have hlt : l < (allLengths size config.backend tree ps).length := by rwa [length_allLengths hpos]
    simp [Array.getD, hlt]

/-- All ranks get the same radii. -/
theorem collects_leafRadii [Wire α β] [Wire.LawfulScalars α β] {d : Nat → Subdomain width α}
    (hd : ∀ i < size, (d i).config = config) :
    Collects size (fun i => ((d i).leafRadii tree (ps i) : Attempt α β (Array α)).run) fun _ =>
      .ok (radiiOf size config tree ps) := by
  have hlength : ∀ i < size, (ownLengths config.backend tree (ps i)).length = tree.count := fun i _ =>
    length_ownLengths _ _ _
  have hlengths : Collects size (fun i => (Global.leafMax config.backend tree ((ps i).keys.take (ps i).owned)
      ((ps i).h.take (ps i).owned) : Exchange α β (Array α)).run) fun _ =>
        .ok (allLengths size config.backend tree ps).toArray :=
    (Exchange.collects_reduceScalars .max hlength).ok_bind (Collects.done _)
  unfold radiiOf
  cases hradius : config.haloRadius with
  | fixed radius =>
    refine (Collects.done _).congr (fun i hi => ?_) fun _ _ => rfl
    rw [leafRadii, hd i hi, hradius]
    rfl
  | perParticle factor =>
    simp only
    let scaled : Array α → Array α := Array.map fun length => (HaloRadius.perParticle factor).radius length * slack
    refine (hlengths.attempt.ok_bind (f := fun _ lengths => pure (scaled lengths)) (Collects.done _)).congr
      (fun i hi => ?_) fun _ _ => rfl
    rw [leafRadii, backend, hd i hi, hradius]

section Radii

variable (hpos : 0 < size) (hps : ∀ i < size, Measured (ps i))
include hpos hps

/-- No radius is negative. -/
theorem radiiOf_nonneg (hlaw : Scalar.LawfulRadii α) (hradius : Config.checkRadius config.haloRadius = .ok ())
    (hl : l < tree.count) : 0 ≤ (radiiOf size config tree ps).getD l 0 := by
  have hmost := lengths_most hlaw.toLawfulOrder hlaw.zero_le_zero config.backend hpos hps hl
  have hfinite : Scalar.isFinite ((allLengths size config.backend tree ps).getD l 0) = true := by
    rcases hmost.mem with heq | ⟨i, hi, j, hj, _, heq⟩
    · rw [heq]
      exact hlaw.isFinite_zero
    · rw [heq]
      exact (hps i hi).finite j hj
  rw [getD_radiiOf hpos hl]
  exact hlaw.mul_slack_nonneg (HaloRadius.radius_nonneg hlaw hradius hfinite (hmost.le 0 (.inl rfl)))

/-- But for the signs of zeros, the radii depend on the lengths of all particles in the leaves only. -/
theorem radiiOf_alike (hlaw : Scalar.LawfulSigns α) (hzero : (0 : α) ≤ 0) (hps' : ∀ i < size, Measured (ps' i))
    (hsame : ∀ l < tree.count, ∀ v, LengthIn size tree ps l v ↔ LengthIn size tree ps' l v) (l : Nat) :
    Scalar.Alike ((radiiOf size config tree ps).getD l 0) ((radiiOf size config tree ps').getD l 0) := by
  by_cases hl : l < tree.count
  · have hmost := lengths_most hlaw.toLawfulOrder hzero config.backend hpos hps hl
    have hmost' := lengths_most hlaw.toLawfulOrder hzero config.backend hpos hps' hl
    have halike := hlaw.most_unique hmost ⟨(hsame l hl _).2 hmost'.mem, fun v hv => hmost'.le v ((hsame l hl v).1 hv)⟩
    rw [getD_radiiOf hpos hl, getD_radiiOf hpos hl]
    exact hlaw.mul (HaloRadius.radius_alike hlaw config.haloRadius halike) (.refl _)
  · have hbeyond : ∀ ps : Nat → ParticleSet width α, (radiiOf size config tree ps).getD l 0 = 0 := fun ps => by
      rw [Array.getD, dif_neg (by rwa [size_radiiOf hpos])]
    rw [hbeyond, hbeyond]
    exact .refl 0

end Radii

end Subdomain

/-! ## Exact radii -/

section Exact

open Exact

variable {width : KeyWidth} {size : Nat} {config : Config EReal} {tree : Leaves width.depth}
  {ps : Nat → ParticleSet width EReal} {i j l : Nat}

namespace HaloRadius

variable {r : HaloRadius EReal}

/-- Longer smoothing lengths have no smaller radii, and none is negative. -/
theorem radius_mono (h : Config.checkRadius r = .ok ()) {x y : EReal} (hx : 0 ≤ x) (hxy : x ≤ y) :
    0 ≤ r.radius x ∧ r.radius x ≤ r.radius y := by
  have hvalue := Config.checkRadius_eq_ok_iff.1 h
  cases r with
  | fixed radius => exact ⟨hvalue.2, le_refl radius⟩
  | perParticle factor => exact ⟨mul_nonneg hvalue.2 hx, mul_le_mul_of_nonneg_left hxy hvalue.2⟩

/-- The larger one of two smoothing lengths has the larger radius. -/
theorem radius_max (r : HaloRadius EReal) (x y : EReal) :
    r.radius (Scalar.max x y) = r.radius x ∨ r.radius (Scalar.max x y) = r.radius y := by
  rw [max_eq]
  rcases le_total x y with h | h
  · exact .inr (by rw [sup_of_le_right h])
  · exact .inl (by rw [sup_of_le_left h])

end HaloRadius

namespace Subdomain

theorem le_mul_slack {x : EReal} (hx : 0 ≤ x) : x ≤ x * slack := by
  have hdecimal : (0 : EReal) ≤ Scalar.decimal 10 := by
    rw [Scalar.decimal, ofNat_eq, ← EReal.coe_one, coe_div]
    exact EReal.coe_nonneg.2 (by positivity)
  exact le_mul_of_one_le_right hx (le_add_of_nonneg_right hdecimal)

end Subdomain

/-- Exact radii are not negative. -/
theorem Exact.lawfulRadii : Scalar.LawfulRadii EReal where
  toLawfulOrder := lawfulOrder
  isFinite_zero := isFinite_iff.2 ⟨0, EReal.coe_zero.symm⟩
  zero_le_zero := le_refl 0
  mul_nonneg _ _ ha hb := mul_nonneg ha hb
  mul_slack_nonneg ha := ha.trans (Subdomain.le_mul_slack ha)

/-- No radius is negative, and the radius of a leaf covers the particles in it. -/
theorem Subdomain.radiiOf_spec (hradius : Config.checkRadius config.haloRadius = .ok ())
    (hps : ∀ i < size, Measured (ps i)) (hi : i < size) (hl : l < tree.count) (hj : j < (ps i).size)
    (hmem : (ps i).keys.getD j 0 ∈ tree.range l) :
    config.haloRadius.radius ((ps i).h.getD j 0) ≤ (radiiOf size config tree ps).getD l 0 := by
  have hpos : 0 < size := by omega
  have hmost := lengths_most lawfulOrder (le_refl 0) config.backend hpos hps hl
  have hle := hmost.le _ (.inr ⟨i, hi, j, hj, hmem, rfl⟩)
  obtain ⟨hnonneg, hmono⟩ := HaloRadius.radius_mono hradius ((hps i hi).nonneg j hj) hle
  rw [getD_radiiOf hpos hl]
  exact hmono.trans (le_mul_slack (hnonneg.trans hmono))

end Exact

end CurvePartition
