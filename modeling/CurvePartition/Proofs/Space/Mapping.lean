-- SUMMARY: Positions mapped into boxes: boxes with the same closed axes map in the same way, and without a periodic axis nothing moves.
import CurvePartition.Proofs.Results
import CurvePartition.Space.Box

/-!
# Positions mapped into boxes

Only the closed axes of a box, the periodic and the fixed ones, decide where a position is mapped and whether that fails.
The open axes follow the particles from step to step, so a position that can be mapped once can be mapped again
(`Box.SameClosed.normalize_eq`).
-/

namespace CurvePartition

namespace Box

variable {α : Type} [Scalar α] {b b' : Box α} {p q : Triple α}

/-- A position mapped into the box, or left where it is if that fails. -/
def moved (b : Box α) (p : Triple α) : Triple α :=
  match b.normalize p with
  | .ok q => q
  | .error _ => p

theorem moved_of_eq_ok (h : b.normalize p = .ok q) : b.moved p = q := by rw [moved, h]

/-- What decides whether a position can be mapped into a box: its boundary kinds and the bounds of its closed axes. -/
structure SameClosed (b b' : Box α) : Prop where
  boundaries : b'.boundaries = b.boundaries
  bounds : ∀ a, b.boundaries.get a ≠ .unbounded → b'.lo.get a = b.lo.get a ∧ b'.hi.get a = b.hi.get a

omit [Scalar α] in
theorem SameClosed.refl (b : Box α) : b.SameClosed b := ⟨rfl, fun _ _ => ⟨rfl, rfl⟩⟩

omit [Scalar α] in
theorem SameClosed.trans {b'' : Box α} (h : b.SameClosed b') (h' : b'.SameClosed b'') : b.SameClosed b'' where
  boundaries := h'.boundaries.trans h.boundaries
  bounds a ha := by
    have ha' : b'.boundaries.get a ≠ .unbounded := by rwa [h.boundaries]
    exact ⟨(h'.bounds a ha').1.trans (h.bounds a ha).1, (h'.bounds a ha').2.trans (h.bounds a ha).2⟩

omit [Scalar α] in
theorem SameClosed.symm (h : b.SameClosed b') : b'.SameClosed b where
  boundaries := h.boundaries.symm
  bounds a ha := by
    rw [h.boundaries] at ha
    exact ⟨(h.bounds a ha).1.symm, (h.bounds a ha).2.symm⟩

/-- Boxes with the same closed axes map coordinates in the same way. -/
theorem SameClosed.normalizeAxis_eq (h : b.SameClosed b') (a : Axis) {v w : α} (hv : b.normalizeAxis a v = .ok w) :
    b'.normalizeAxis a v = .ok w := by
  unfold normalizeAxis at hv ⊢
  dsimp only at hv ⊢
  split at hv
  · cases hv
  rename_i hfinite
  rw [if_neg hfinite, h.boundaries]
  cases hkind : b.boundaries.get a with
  | unbounded =>
    rw [hkind] at hv
    exact hv
  | periodic =>
    rw [hkind] at hv
    obtain ⟨hlo, hhi⟩ := h.bounds a (by simp [hkind])
    dsimp only
    rw [hlo, hhi]
    exact hv
  | fixed =>
    rw [hkind] at hv
    obtain ⟨hlo, hhi⟩ := h.bounds a (by simp [hkind])
    dsimp only
    rw [hlo, hhi]
    exact hv

theorem SameClosed.normalize_eq (h : b.SameClosed b') (hp : b.normalize p = .ok q) : b'.normalize p = .ok q := by
  obtain ⟨x, hx, hp⟩ := bind_eq_ok.1 hp
  obtain ⟨y, hy, hp⟩ := bind_eq_ok.1 hp
  obtain ⟨z, hz, hp⟩ := bind_eq_ok.1 hp
  rw [normalize, h.normalizeAxis_eq .x hx, h.normalizeAxis_eq .y hy, h.normalizeAxis_eq .z hz]
  exact hp

/-- A position that can be mapped into a box without periodic axis stays where it is. -/
theorem normalize_eq_self (hb : ∀ a, b.boundaries.get a ≠ .periodic) (hp : b.normalize p = .ok q) : q = p := by
  have haxis : ∀ a {v w : α}, b.normalizeAxis a v = .ok w → w = v := by
    intro a v w hv
    unfold normalizeAxis at hv
    dsimp only at hv
    split at hv
    · cases hv
    · split at hv
      · exact (Except.ok.inj hv).symm
      · exact absurd ‹_› (hb a)
      · split at hv
        · exact (Except.ok.inj hv).symm
        · cases hv
  obtain ⟨x, hx, hp⟩ := bind_eq_ok.1 hp
  obtain ⟨y, hy, hp⟩ := bind_eq_ok.1 hp
  obtain ⟨z, hz, hp⟩ := bind_eq_ok.1 hp
  cases hp
  rw [haxis _ hx, haxis _ hy, haxis _ hz]

end Box

end CurvePartition
