-- SUMMARY: What a configuration has whose check succeeds: positive counts, finite numbers and a valid box.
import CurvePartition.Config.Basic
import CurvePartition.Proofs.Results

/-!
# Checked configurations

The checks of a configuration come one after the other, so all of them have succeeded where the last one does
(`Config.check_eq_ok_iff`). Then no number of the configuration is infinite or undefined (`Config.isFinite_of_check`).
-/

namespace CurvePartition

variable {α : Type}

theorem Triple.mem_toList_iff {t : Triple α} {v : α} : v ∈ t.toList ↔ ∃ a, v = t.get a := by
  refine ⟨fun h => ?_, fun ⟨a, h⟩ => ?_⟩
  · simp only [toList, List.mem_cons, List.not_mem_nil, or_false] at h
    rcases h with h | h | h
    · exact ⟨.x, h⟩
    · exact ⟨.y, h⟩
    · exact ⟨.z, h⟩
  · cases a <;> simp [toList, get, h]

/-- The numbers of a box. -/
def Box.numbers (b : Box α) : List α := b.lo.toList ++ b.hi.toList

/-- The number of a way to find radii. -/
def HaloRadius.number : HaloRadius α → α
  | fixed radius => radius
  | perParticle factor => factor

namespace Config

/-- The numbers of a configuration, but for its counts. -/
def numbers (c : Config α) : List α := c.haloRadius.number :: c.theta :: c.box.numbers

variable [Scalar α]

/-- What a configuration has whose check succeeds. -/
theorem check_eq_ok_iff (c : Config α) : c.check = .ok () ↔ 0 < c.bucketSize ∧ checkRadius c.haloRadius = .ok () ∧
    (Scalar.isFinite c.theta = true ∧ 0 < c.theta) ∧ 0 < c.maxRounds ∧ c.box.Valid := by
  have hcheck : c.check = (do
      (if c.bucketSize = 0 then throw (.config .zeroBucketSize) else pure ())
      checkRadius c.haloRadius
      (if !(Scalar.isFinite c.theta && decide (0 < c.theta)) then throw (.config (.badTheta c.theta)) else pure ())
      (if c.maxRounds = 0 then throw (.config .zeroIterations) else pure ())
      c.box.check) := by
    unfold check
    repeat' split
    all_goals rfl
  have hradius : ∀ {f : Unit → Except (Error α) Unit}, (checkRadius c.haloRadius >>= f) = .ok () ↔
      checkRadius c.haloRadius = .ok () ∧ f () = .ok () := bind_eq_ok.trans ⟨fun ⟨_, h⟩ => h, fun h => ⟨(), h⟩⟩
  rw [hcheck, guard_eq_ok, hradius, guard_eq_ok, guard_eq_ok, Box.check_eq_ok_iff]
  simp only [Bool.not_eq_true', Bool.not_eq_false, Bool.and_eq_true, decide_eq_true_eq, Nat.pos_iff_ne_zero, ne_eq]

theorem checkRadius_eq_ok_iff {r : HaloRadius α} : checkRadius r = .ok () ↔ Scalar.isFinite r.number = true ∧ 0 ≤ r.number := by
  have hlength : ∀ {v : α} {e : Error α}, (if isLength v then .ok () else .error e) = Except.ok () ↔
      Scalar.isFinite v = true ∧ 0 ≤ v := by
    intro v e
    have hgood : isLength v = true ↔ Scalar.isFinite v = true ∧ 0 ≤ v := by
      rw [isLength, Bool.and_eq_true, decide_eq_true_eq]
    rw [← hgood]
    split
    · exact iff_of_true rfl ‹_›
    · exact iff_of_false (fun h => by cases h) ‹_›
  cases r <;> exact hlength

/-- All numbers are finite where the check succeeds. -/
theorem isFinite_of_check {c : Config α} (h : c.check = .ok ()) {x : α} (hx : x ∈ c.numbers) : Scalar.isFinite x = true := by
  obtain ⟨_, hradius, ⟨htheta, _⟩, _, hbox⟩ := c.check_eq_ok_iff.1 h
  have hbounds : ∀ a, Scalar.isFinite (c.box.lo.get a) = true ∧ Scalar.isFinite (c.box.hi.get a) = true := fun a => by
    have haxis := hbox a
    rw [Box.isValidAxis, Bool.and_eq_true, Bool.and_eq_true] at haxis
    exact haxis.1
  rcases List.mem_cons.1 hx with rfl | hx
  · exact (checkRadius_eq_ok_iff.1 hradius).1
  rcases List.mem_cons.1 hx with rfl | hx
  · exact htheta
  rcases List.mem_append.1 hx with hx | hx
  · obtain ⟨a, rfl⟩ := Triple.mem_toList_iff.1 hx
    exact (hbounds a).1
  · obtain ⟨a, rfl⟩ := Triple.mem_toList_iff.1 hx
    exact (hbounds a).2

end Config

end CurvePartition
