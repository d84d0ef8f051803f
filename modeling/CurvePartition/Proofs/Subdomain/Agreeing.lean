-- SUMMARY: The verdicts that ranks come to before a step: they go on if the own particles of all are valid and all have the same digest of the layout, and else all stop.
import CurvePartition.Proofs.Cluster.Exchanges
import CurvePartition.Proofs.Particles.Rows
import CurvePartition.Proofs.Results
import CurvePartition.Subdomain.Validation

/-!
# Agreement before a step

The agreement of the ranks never fails to communicate (`Subdomain.collects_conclusion`). A rank goes on exactly if the checks of
all ranks succeeded and the largest of each trait is also the smallest one, so that all ranks have the same
(`Subdomain.conclusion_eq_ok_iff`). So either all ranks go on or all stop (`Subdomain.collects_agree`).
-/

namespace CurvePartition

open Program

variable {width : KeyWidth} {α β : Type} [Scalar α]

/-! ## Checks -/

namespace ParticleSet

variable {p : ParticleSet width α}

omit [Scalar α] in
theorem checkLength_eq_ok_iff {name : String} {expected found : Nat} :
    (checkLength name expected found : Except (Error α) Unit) = .ok () ↔ found = expected := by
  unfold checkLength
  split
  · exact iff_of_true rfl (Eq.symm ‹_›)
  · exact iff_of_false (fun h => nomatch h) fun h => absurd h.symm ‹_›

omit [Scalar α] in
/-- Columns pass the check exactly if they have one length. -/
theorem checkLengths_eq_ok_iff : p.checkLengths = .ok () ↔ p.Uniform p.size := by
  have hunit : ∀ {x : Except (Error α) Unit}, (∃ u, x = .ok u) ↔ x = .ok () := ⟨fun ⟨_, h⟩ => h, fun h => ⟨(), h⟩⟩
  have hbind : ∀ {x : Except (Error α) Unit} {f : Unit → Except (Error α) Unit}, (x >>= f) = .ok () ↔ x = .ok () ∧ f () = .ok () :=
    bind_eq_ok.trans ⟨fun ⟨_, h, hf⟩ => ⟨h, hf⟩, fun ⟨h, hf⟩ => ⟨(), h, hf⟩⟩
  unfold checkLengths
  rw [hbind, hbind, hbind, hbind, forM_eq_ok_iff, uniform_iff]
  simp only [checkLength_eq_ok_iff]
  refine and_congr_right fun _ => ?_
  exact ⟨fun ⟨hy, hz, hh, hrest⟩ => ⟨rfl, hy, hz, hh, hrest⟩, fun ⟨_, hy, hz, hh, hrest⟩ => ⟨hy, hz, hh, hrest⟩⟩

end ParticleSet

namespace Subdomain

variable {d : Subdomain width α} {place : Place} {p : ParticleSet width α}

/-- A rank's own checks succeed in its place, for columns of one length with particles that pass theirs. -/
theorem validate_eq_ok_iff : d.validate place p = .ok () ↔ place = d.place ∧ p.Uniform p.size ∧
    ∀ i < p.size, checkParticle d.box p i = .ok () := by
  by_cases hplace : place = d.place
  · rw [validate, if_neg (fun hne => hne hplace), ← ParticleSet.checkLengths_eq_ok_iff]
    refine (bind_eq_ok.trans ⟨fun ⟨_, h, hf⟩ => ⟨hplace, h, fun i hi => ?_⟩, fun ⟨_, h, hf⟩ => ⟨(), h, ?_⟩⟩)
    · exact forM_eq_ok_iff.1 hf i (List.mem_range.2 hi)
    · exact forM_eq_ok_iff.2 fun i hi => hf i (List.mem_range.1 hi)
  · rw [validate, if_pos hplace]
    exact iff_of_false (fun h => nomatch h) fun h => hplace h.1

/-! ## The common verdict -/

omit [Scalar α] in
/-- A rank whose own checks succeeded compares the words one after the other. -/
theorem verdict_ok (failed rows backend layout rows' backend' layout' : Nat) :
    verdict (.ok ()) failed rows backend layout rows' backend' layout' =
      ((if failed ≠ 0 then throw (.peerRejected (failed - 1)) else pure ()) >>= fun _ =>
        (if rows' ≠ rows then throw (.rowSizeMismatch rows' rows) else pure ()) >>= fun _ =>
        (if backend' ≠ backend then throw (.config .mixedBackends) else pure ()) >>= fun _ =>
        (if layout' ≠ layout then throw .layoutMismatch else pure ()) >>= pure : Except (Error α) Unit) := by
  unfold verdict
  repeat' split
  all_goals rfl

omit [Scalar α] in
/-- Ranks go on exactly if their own checks succeeded, no rank failed, and the largest and the smallest traits agree. -/
theorem verdict_eq_ok_iff {own : Except (Error α) Unit} {failed rows backend layout rows' backend' layout' : Nat} :
    verdict own failed rows backend layout rows' backend' layout' = .ok () ↔
      own = .ok () ∧ failed = 0 ∧ rows' = rows ∧ backend' = backend ∧ layout' = layout := by
  cases own with
  | error e => exact iff_of_false (fun h => nomatch h) fun h => nomatch h.1
  | ok u =>
    rw [verdict_ok, guard_eq_ok, guard_eq_ok, guard_eq_ok, guard_eq_ok]
    simp only [ne_eq, not_not, true_and]
    exact and_congr_right fun _ => and_congr_right fun _ => and_congr_right fun _ => and_iff_left rfl

/-- The words of a rank that are the same on all ranks that fit together. -/
def traits (d : Subdomain width α) (p : ParticleSet width α) : List Nat := [p.rowWidth, d.backend.id, p.fingerprint]

/-- The word of a rank that failed: its number, counted from one. -/
def failedWord (d : Subdomain width α) : Except (Error α) Unit → Nat
  | .ok () => 0
  | .error _ => d.place.rank + 1

/-- The words of a rank, whether it failed in front. -/
def words (d : Subdomain width α) (own : Except (Error α) Unit) (p : ParticleSet width α) : List Nat :=
  failedWord d own :: traits d p

section Words

variable {size : Nat} {d : Nat → Subdomain width α} {own : Nat → Except (Error α) Unit} {ps : Nat → ParticleSet width α}
omit [Scalar α]

theorem words_lt {i : Nat} (hplace : (d i).place.rank + 1 < 2 ^ 64) (hrows : (ps i).rowWidth < 2 ^ 64) :
    ∀ v ∈ words (d i) (own i) (ps i), v < 2 ^ 64 := by
  intro v hv
  simp only [words, traits, List.mem_cons, List.not_mem_nil, or_false] at hv
  rcases hv with rfl | rfl | rfl | rfl
  · cases own i with
    | ok u =>
      show 0 < 2 ^ 64
      decide
    | error e => exact hplace
  · exact hrows
  · cases (d i).backend <;> decide
  · exact (Digest.ofBytes (ps i).layoutBytes).toNat_lt

/-- The largest words of all ranks. -/
def largestWords (size : Nat) (d : Nat → Subdomain width α) (own : Nat → Except (Error α) Unit) (ps : Nat → ParticleSet width α) :
    List Nat :=
  Delivery.combineAll Reduction.max.words ((List.range size).map fun s => words (d s) (own s) (ps s))

/-- The smallest traits of all ranks. -/
def smallestTraits (size : Nat) (d : Nat → Subdomain width α) (ps : Nat → ParticleSet width α) : List Nat :=
  Delivery.combineAll Reduction.min.words ((List.range size).map fun s => traits (d s) (ps s))

/-- The verdict of a rank on the words of all ranks. -/
def conclusion (size : Nat) (d : Nat → Subdomain width α) (own : Nat → Except (Error α) Unit) (ps : Nat → ParticleSet width α)
    (i : Nat) : Except (Error α) Unit :=
  let most := largestWords size d own ps
  let least := smallestTraits size d ps
  verdict (own i) (most.getD 0 0) (most.getD 1 0) (most.getD 2 0) (most.getD 3 0) (least.getD 0 0) (least.getD 1 0)
    (least.getD 2 0)

variable (hpos : 0 < size)
include hpos

/-- No rank failed exactly if the largest of the words for failed ranks is zero. -/
theorem getD_largestWords_zero_iff : (largestWords size d own ps).getD 0 0 = 0 ↔ ∀ s < size, own s = .ok () := by
  obtain ⟨hle, s, hs, hmost⟩ := Delivery.combineAll_max (f := fun s => words (d s) (own s) (ps s)) (n := 4) (j := 0) hpos
    (fun _ _ => rfl) (by decide)
  have hfailed : ∀ s, (words (d s) (own s) (ps s)).getD 0 0 = failedWord (d s) (own s) := fun _ => rfl
  rw [largestWords]
  constructor
  · intro hzero s hs
    have hbound := hle s hs
    rw [hzero, hfailed] at hbound
    cases hown : own s with
    | ok u => rfl
    | error e =>
      rw [hown] at hbound
      exact absurd hbound (Nat.not_succ_le_zero _)
  · intro hown
    rw [hfailed, hown s hs] at hmost
    exact hmost

/-- The largest and the smallest of a trait are the same exactly if all ranks have it in common. -/
theorem getD_smallestTraits_eq_iff {j : Nat} (hj : j < 3) :
    (smallestTraits size d ps).getD j 0 = (largestWords size d own ps).getD (j + 1) 0 ↔
      ∀ s < size, (traits (d s) (ps s)).getD j 0 = (traits (d 0) (ps 0)).getD j 0 := by
  obtain ⟨hle, s, hs, hmost⟩ := Delivery.combineAll_max (f := fun s => words (d s) (own s) (ps s)) (n := 4) (j := j + 1)
    hpos (fun _ _ => rfl) (Nat.succ_lt_succ hj)
  obtain ⟨hge, t, ht, hleast⟩ := Delivery.combineAll_min (f := fun s => traits (d s) (ps s)) hpos (fun _ _ => rfl) hj
  have htrait : ∀ s, (words (d s) (own s) (ps s)).getD (j + 1) 0 = (traits (d s) (ps s)).getD j 0 := fun _ => rfl
  simp only [htrait] at hle hmost
  rw [smallestTraits, largestWords]
  constructor
  · intro heq s hs
    have h₁ := hle s hs
    have h₂ := hle 0 hpos
    have h₃ := hge s hs
    have h₄ := hge 0 hpos
    omega
  · intro hsame
    exact hleast.trans ((hsame t ht).trans ((hsame s hs).symm.trans hmost.symm))

/-- A rank goes on exactly if all ranks checked their own particles with success and have the traits in common. -/
theorem conclusion_eq_ok_iff {i : Nat} (hi : i < size) : conclusion size d own ps i = .ok () ↔
    (∀ s < size, own s = .ok ()) ∧ ∀ s < size, traits (d s) (ps s) = traits (d 0) (ps 0) := by
  rw [conclusion, verdict_eq_ok_iff, getD_largestWords_zero_iff hpos, getD_smallestTraits_eq_iff hpos (j := 0) (by decide),
    getD_smallestTraits_eq_iff hpos (j := 1) (by decide), getD_smallestTraits_eq_iff hpos (j := 2) (by decide)]
  constructor
  · rintro ⟨_, hown, hrow, hbackend, hlayout⟩
    refine ⟨hown, fun s hs => ?_⟩
    have h₀ := hrow s hs
    have h₁ := hbackend s hs
    have h₂ := hlayout s hs
    simp only [traits, List.getD_cons_zero, List.getD_cons_succ] at h₀ h₁ h₂ ⊢
    rw [h₀, h₁, h₂]
  · rintro ⟨hown, hsame⟩
    have htrait : ∀ j, ∀ s < size, (traits (d s) (ps s)).getD j 0 = (traits (d 0) (ps 0)).getD j 0 := fun j s hs => by
      rw [hsame s hs]
    exact ⟨hown i hi, hown, htrait 0, htrait 1, htrait 2⟩

/-- Else every rank stops with some cause. -/
theorem exists_causes (hreject : ¬ ((∀ s < size, own s = .ok ()) ∧ ∀ s < size, traits (d s) (ps s) = traits (d 0) (ps 0))) :
    ∃ e : Nat → Error α, ∀ i < size, conclusion size d own ps i = .error (e i) := by
  have herror : ∀ i, ∃ e, i < size → conclusion size d own ps i = .error e := fun i => by
    cases hconclusion : conclusion size d own ps i with
    | error e => exact ⟨e, fun _ => rfl⟩
    | ok u => exact ⟨.layoutMismatch, fun hi => absurd ((conclusion_eq_ok_iff hpos hi).1 hconclusion) hreject⟩
  exact Classical.skolem.1 herror

end Words

section Agree

variable [Wire α β] [Wire.LawfulWords α β] {size : Nat} {d : Nat → Subdomain width α} {ps : Nat → ParticleSet width α}

/-- The ranks come to their verdicts, and no communication fails. -/
theorem collects_conclusion (d : Nat → Subdomain width α) (own : Nat → Except (Error α) Unit)
    (ps : Nat → ParticleSet width α) (hplace : ∀ i < size, (d i).place.rank + 1 < 2 ^ 64)
    (hrows : ∀ i < size, (ps i).rowWidth < 2 ^ 64) :
    Collects size (fun i => ((d i).agree (own i) (ps i) : Attempt α β Unit).run) (conclusion size d own ps) := by
  have hwords : ∀ s < size, (words (d s) (own s) (ps s)).length = 4 := fun _ _ => rfl
  have htraits : ∀ s < size, (traits (d s) (ps s)).length = 3 := fun _ _ => rfl
  have hwordsSmall : ∀ s < size, ∀ v ∈ words (d s) (own s) (ps s), v < 2 ^ 64 := fun s hs =>
    words_lt (hplace s hs) (hrows s hs)
  have htraitsSmall : ∀ s < size, ∀ v ∈ traits (d s) (ps s), v < 2 ^ 64 := fun s hs v hv =>
    hwordsSmall s hs v (List.mem_cons_of_mem _ hv)
  have hagree : ∀ i, ((d i).agree (own i) (ps i) : Attempt α β Unit) = (do
      let most ← Attempt.exchange (Exchange.reduceWords .max (words (d i) (own i) (ps i)))
      let least ← Attempt.exchange (Exchange.reduceWords .min (traits (d i) (ps i)))
      Attempt.ofExcept (verdict (own i) (most.getD 0 0) (most.getD 1 0) (most.getD 2 0) (most.getD 3 0)
        (least.getD 0 0) (least.getD 1 0) (least.getD 2 0))) := by
    intro i
    cases own i <;> rfl
  simp only [hagree]
  exact (Exchange.collects_reduceWords .max hwords hwordsSmall).attempt.ok_bind
    ((Exchange.collects_reduceWords .min htraits htraitsSmall).attempt.ok_bind (Collects.done _))

/-- Either all ranks go on, as all checked their own particles with success and have the traits in common, or all stop. -/
theorem collects_agree (own : Nat → Except (Error α) Unit) (hpos : 0 < size) (hplace : ∀ i < size, (d i).place.rank + 1 < 2 ^ 64)
    (hrows : ∀ i < size, (ps i).rowWidth < 2 ^ 64) :
    (Collects size (fun i => ((d i).agree (own i) (ps i) : Attempt α β Unit).run) (fun _ => .ok ()) ∧
      (∀ i < size, own i = .ok ()) ∧ ∀ i < size, traits (d i) (ps i) = traits (d 0) (ps 0)) ∨
    ∃ e : Nat → Error α,
      Collects size (fun i => ((d i).agree (own i) (ps i) : Attempt α β Unit).run) (fun i => .error (e i)) ∧
        ¬ ((∀ i < size, own i = .ok ()) ∧ ∀ i < size, traits (d i) (ps i) = traits (d 0) (ps 0)) := by
  have hcollects := collects_conclusion (β := β) d own ps hplace hrows
  by_cases hgood : (∀ i < size, own i = .ok ()) ∧ ∀ i < size, traits (d i) (ps i) = traits (d 0) (ps 0)
  · exact .inl ⟨hcollects.congr (fun _ _ => rfl) fun i hi => ((conclusion_eq_ok_iff hpos hi).2 hgood).symm, hgood⟩
  · obtain ⟨e, he⟩ := exists_causes hpos hgood
    exact .inr ⟨e, hcollects.congr (fun _ _ => rfl) fun i hi => (he i hi).symm, hgood⟩

end Agree

end Subdomain

end CurvePartition
