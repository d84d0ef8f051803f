-- SUMMARY: Results and their failures: what succeeded before a composition, a loop or an elementwise map did, and of what kind its failures are.

/-!
# Results

A composition of results succeeds exactly if its parts do. So from a success at the end one gets back to the success of each
step, and to the values in between. It fails in one kind of way only if its parts do (`FailsOnly`).
-/

namespace CurvePartition

variable {ε σ τ : Type}

theorem bind_eq_ok {x : Except ε σ} {f : σ → Except ε τ} {b : τ} : x >>= f = .ok b ↔ ∃ a, x = .ok a ∧ f a = .ok b := by
  cases x with
  | error e =>
    refine ⟨fun h => ?_, fun ⟨a, h, _⟩ => ?_⟩
    · cases h
    · cases h
  | ok a =>
    refine ⟨fun h => ⟨a, rfl, h⟩, fun ⟨a', h, hf⟩ => ?_⟩
    cases h
    exact hf

theorem guard_eq_ok {c : Prop} [Decidable c] {e : ε} {f : Unit → Except ε τ} {b : τ} :
    ((if c then throw e else pure ()) >>= f) = .ok b ↔ ¬ c ∧ f () = .ok b := by
  by_cases hc : c
  · rw [if_pos hc]
    exact iff_of_false (fun h => nomatch h) fun h => h.1 hc
  · rw [if_neg hc]
    exact (and_iff_right hc).symm

/-- A loop succeeds exactly if each round does. -/
theorem forM_eq_ok_iff {f : σ → Except ε Unit} {l : List σ} : l.forM f = .ok () ↔ ∀ a ∈ l, f a = .ok () := by
  induction l with
  | nil => exact iff_of_true rfl fun a ha => nomatch ha
  | cons b l ih =>
    rw [List.forall_mem_cons, ← ih]
    exact bind_eq_ok.trans ⟨fun ⟨_, h, hl⟩ => ⟨h, hl⟩, fun ⟨h, hl⟩ => ⟨(), h, hl⟩⟩

/-- An elementwise map succeeds if it does so on each element. -/
theorem mapM_of_eq_ok {f : σ → Except ε τ} {g : σ → τ} {l : List σ} (h : ∀ a ∈ l, f a = .ok (g a)) :
    l.mapM f = .ok (l.map g) := by
  induction l with
  | nil => rfl
  | cons b l ih =>
    rw [List.mapM_cons, h b List.mem_cons_self, ih fun a ha => h a (List.mem_cons_of_mem b ha)]
    rfl

/-- The values of a map that succeeds, one for each element. -/
theorem mapM_eq_ok {f : σ → Except ε τ} {l : List σ} {l' : List τ} (h : l.mapM f = .ok l') :
    l'.length = l.length ∧ ∀ (i : Nat) a, l[i]? = some a → ∃ b, l'[i]? = some b ∧ f a = .ok b := by
  induction l generalizing l' with
  | nil =>
    cases h
    refine ⟨rfl, fun i a ha => ?_⟩
    cases ha
  | cons c l ih =>
    rw [List.mapM_cons] at h
    obtain ⟨b, hb, h⟩ := bind_eq_ok.1 h
    obtain ⟨rest, hrest, h⟩ := bind_eq_ok.1 h
    cases h
    obtain ⟨hlength, hget⟩ := ih hrest
    refine ⟨congrArg (· + 1) hlength, fun i a ha => ?_⟩
    cases i with
    | zero =>
      cases ha
      exact ⟨b, rfl, hb⟩
    | succ i => exact hget i a ha

/-! ## Kinds of failures -/

/-- Whether a result fails in one kind of way only. -/
def FailsOnly (kind : ε → Prop) (r : Except ε τ) : Prop := ∀ e, r = .error e → kind e

namespace FailsOnly

variable {kind : ε → Prop}

theorem ok (a : τ) : FailsOnly kind (.ok a : Except ε τ) := fun _ h => by cases h

theorem error {e : ε} (h : kind e) : FailsOnly kind (.error e : Except ε τ) := fun _ he => Except.error.inj he ▸ h

theorem guard {c : Prop} [Decidable c] {e : ε} (h : kind e) :
    FailsOnly kind (if c then throw e else pure () : Except ε Unit) := by
  split
  · exact error h
  · exact ok _

theorem bind {x : Except ε σ} {f : σ → Except ε τ} (hx : FailsOnly kind x) (hf : ∀ a, FailsOnly kind (f a)) :
    FailsOnly kind (x >>= f) := by
  cases x with
  | ok a => exact hf a
  | error e => exact error (hx e rfl)

theorem forM {f : σ → Except ε PUnit} (h : ∀ a, FailsOnly kind (f a)) (l : List σ) : FailsOnly kind (l.forM f) := by
  induction l with
  | nil => exact ok _
  | cons a l ih => exact (h a).bind fun _ => ih

end FailsOnly

end CurvePartition
