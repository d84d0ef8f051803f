-- SUMMARY: Handling of a particle set by its owner: whatever operations and steps are made with it, in whatever order and whatever the calls to other ranks answer, the set stays rectangular and keeps its layout.
import CurvePartition.Proofs.Particles.Rectangular
import CurvePartition.Proofs.Subdomain.Leaving

/-!
# Handling particle sets

The owner of a particle set attaches properties, writes values, sorts, moves rows between ranks and makes whole steps. Nothing is
known here about the other ranks, so a call may fail at any place, and what was done to the set before stays done
(`Subdomain.Operation.perform`). After each operation all columns have one length (`Subdomain.handle_rectangular`).
-/

namespace CurvePartition

open Program

variable {width : KeyWidth} {α β : Type} [Scalar α]

namespace ParticleSet

/-- Whether a set is a table with given properties. -/
structure Keeps (layout : List (String × ElementKind)) (p : ParticleSet width α) : Prop where
  rectangular : p.Rectangular
  layout_eq : p.layout = layout

variable {layout : List (String × ElementKind)} {p p' : ParticleSet width α} {box : Box α}

omit [Scalar α] in
theorem Keeps.of_uniform (h : p.Keeps layout) {n : Nat} (hp' : p'.Uniform n) (howned : p'.owned ≤ n)
    (hlayout : p'.layout = p.layout) : p'.Keeps layout :=
  ⟨h.rectangular.of_layout_eq hp' howned hlayout, hlayout.trans h.layout_eq⟩

omit [Scalar α] in
theorem Keeps.truncate (h : p.Keeps layout) (n : Nat) : (p.truncate n).Keeps layout :=
  ⟨h.rectangular.truncate n, (p.layout_truncate n).trans h.layout_eq⟩

theorem Keeps.wrap (h : p.Keeps layout) (hwrap : p.wrap box = .ok p') : p'.Keeps layout := by
  obtain ⟨hsize, howned⟩ := size_wrap hwrap
  obtain ⟨positions, hpositions, hp'⟩ := bind_eq_ok.1 hwrap
  obtain rfl := Except.ok.inj hp'
  obtain ⟨hkeys, _, _, _, hh, hvalues⟩ := uniform_iff.1 h.rectangular.uniform
  have hlength : positions.length = p.size := by simpa [ParticleSet.positions] using (mapM_eq_ok hpositions).1
  refine h.of_uniform (uniform_iff.2 ⟨hkeys, ?_, ?_, ?_, hh, hvalues⟩) h.rectangular.owned_le rfl
  all_goals simp [withPositions, hlength]

theorem Keeps.withKeys (h : p.Keeps layout) (box : Box α) (curve : Curve) : (p.withKeys box curve).Keeps layout := by
  obtain ⟨_, hcolumns⟩ := uniform_iff.1 h.rectangular.uniform
  refine h.of_uniform (n := p.size) (uniform_iff.2 ⟨?_, hcolumns⟩) h.rectangular.owned_le rfl
  simp [ParticleSet.withKeys, positions]

theorem Keeps.sort (h : p.Keeps layout) (backend : Backend) : ∃ p', p.sort backend = .ok p' ∧ p'.Keeps layout := by
  obtain ⟨p', hsort, hp', hlayout⟩ := h.rectangular.sort backend
  exact ⟨p', hsort, hp', hlayout.trans h.layout_eq⟩

end ParticleSet

namespace Subdomain

variable [Wire α β] {layout : List (String × ElementKind)} {p : ParticleSet width α} {d : Subdomain width α}

/-! ## Moving rows -/

theorem keeps_redistribute (h : p.Keeps layout) (backend : Backend) (place : Place) (a : Assignment width.depth) :
    (p.redistribute backend place a : Attempt α β _).run.Every fun r => ∀ q, r = .ok q → q.Keeps layout := by
  refine (every_redistribute backend place a p).mono fun r hr q hq => ?_
  subst hq
  obtain ⟨⟨huniform, howned⟩, hlayout⟩ := hr
  exact h.of_uniform huniform (Nat.le_of_eq howned) hlayout

theorem keeps_fetchHalos (h : p.Keeps layout) (place : Place) (plan : HaloPlan) :
    ((p.withoutHalos plan).fetchHalos place plan : Attempt α β _).run.Every fun r => ∀ q, r = .ok q → q.Keeps layout := by
  have hown : (p.withoutHalos plan).Keeps layout := h.truncate plan.localCount
  refine (late_fetchHalos place plan (p.withoutHalos plan)).mono fun r hr q hq => ?_
  obtain ⟨huniform, howned, hlayout⟩ := hr.2 q hq
  -- No more own particles are left than the plan counts.
  have hle : (p.withoutHalos plan).owned ≤ plan.localCount := Nat.min_le_right _ _
  exact hown.of_uniform huniform (howned ▸ hle.trans (Nat.le_add_right _ _)) hlayout

/-! ## Steps -/

theorem keeps_gather (h : p.Keeps layout) (place : Place) :
    ((gather place : Stage width α β (Box α)).exec ⟨d, p⟩).Every fun r => r.2.particles.Keeps layout := by
  have hown : p.own.Keeps layout := h.truncate p.owned
  rw [exec_gather]
  refine Stage.every_attempt_bind (every_true _) (fun _ _ => ?_) fun _ _ => hown
  refine Stage.every_attempt_bind (every_true _) (fun box _ => ?_) fun _ _ => hown
  cases hwrap : p.own.wrap box with
  | error e => exact hown
  | ok w =>
    have hw := hown.wrap hwrap
    obtain ⟨s, hsort, hs⟩ := (hw.withKeys box d.config.curve).sort d.backend
    rw [Stage.exec_ofExcept_ok, Stage.exec_setParticles, hsort]
    exact hs

theorem keeps_distribute (h : p.Keeps layout) (place : Place) (box : Box α) :
    ((distribute place box : Stage width α β (Partition width α)).exec ⟨d, p⟩).Every fun r => r.2.particles.Keeps layout := by
  rw [exec_distribute]
  refine Stage.every_attempt_bind (every_true _) (fun (tree, counts, rounds) _ => ?_) fun _ _ => h
  dsimp only [afterTree]
  cases (Assignment.compute tree counts d.place.size : Except (Error α) _) with
  | error e => exact h
  | ok a =>
    rw [Stage.exec_ofExcept_ok]
    refine Stage.every_attempt_bind (keeps_redistribute h d.backend place a) (fun q hq => ?_) fun _ _ => h
    rw [afterMoving, Stage.exec_setParticles]
    exact Stage.every_attempt_bind (every_true _) (fun _ _ => hq q rfl) fun _ _ => hq q rfl

theorem keeps_connect (h : p.Keeps layout) (place : Place) (partition : Partition width α) :
    ((connect place partition : Stage width α β (Report α)).exec ⟨d, p⟩).Every fun r => r.2.particles.Keeps layout := by
  rw [exec_connect]
  cases (followed d partition).2 with
  | error e => exact h
  | ok rounds =>
    rw [Stage.exec_ofExcept_ok, afterFocus]
    refine Stage.every_attempt_bind (every_true _) (fun _ _ => ?_) fun _ _ => h
    rw [afterPlan, Stage.exec_setParticles]
    refine Stage.every_attempt_bind (keeps_fetchHalos h place _) (fun q hq => ?_) fun _ _ => h.truncate _
    rw [Stage.exec_setParticles]
    exact Stage.every_attempt_bind (every_true _) (fun _ _ => hq q rfl) fun _ _ => hq q rfl

/-- A step that succeeds, is rejected or fails in whatever call leaves a table with the same properties. -/
theorem keeps_step (h : p.Keeps layout) (place : Place) :
    (step place ⟨d, p⟩ : Program (Call.Answer : Call α β → Type) _).Every fun r => r.2.particles.Keeps layout := by
  have hstages : ((stages place : Stage width α β (Report α)).exec ⟨d, p⟩).Every fun r => r.2.particles.Keeps layout := by
    refine Stage.every_bind (keeps_gather h place) (fun box s hs => ?_) fun _ _ hs => hs
    refine Stage.every_bind (keeps_distribute hs place box) (fun q s hs => ?_) fun _ _ hs => hs
    exact keeps_connect hs place q
  rw [step_eq]
  refine hstages.bind fun r hr => ?_
  obtain ⟨result, s'⟩ := r
  cases result with
  | ok report => exact hr
  | error cause =>
    dsimp only
    split
    · exact fun _ => hr
    · exact hr

theorem keeps_refreshHalos (h : p.Keeps layout) (place : Place) :
    (refreshHalos place ⟨d, p⟩ : Program (Call.Answer : Call α β → Type) _).Every fun r => r.2.particles.Keeps layout := by
  show ((Stage.setParticles (p.withoutHalos d.plan) >>= fun _ =>
    Stage.attempt ((p.withoutHalos d.plan).fetchHalos place d.plan) >>= Stage.setParticles :
      Stage width α β Unit).exec ⟨d, p⟩).Every _
  rw [Stage.exec_setParticles]
  exact Stage.every_attempt_bind (keeps_fetchHalos h place d.plan) (fun q hq => hq q rfl) fun _ _ => h.truncate _

/-! ## Operations -/

/-- What the owner of a particle set may do with it. -/
inductive Operation (width : KeyWidth) (α : Type) where
  | attach (q : Property)
  | write (w : Write α)
  | sort (backend : Backend)
  | redistribute (backend : Backend) (a : Assignment width.depth)
  | exchangeHalos (plan : HaloPlan)
  /-- A whole step of the subdomain in use. -/
  | step
  /-- The halos of the last step once more. -/
  | refresh
  /-- Use another subdomain. -/
  | use (d : Subdomain width α)

/-- What an operation comes to, and the state it leaves. None is left if the set is lost. -/
abbrev Handled (width : KeyWidth) (α : Type) := Except (Error α) Unit × Option (StepState width α)

/-- The state with another set if there is one, and else as it was. -/
def taking (s : StepState width α) : Except (Error α) (ParticleSet width α) → Handled width α
  | .ok p => (.ok (), some { s with particles := p })
  | .error e => (.error e, some s)

namespace Operation

/-- Do it. A set that cannot take a property is lost. -/
def perform (place : Place) (s : StepState width α) :
    Operation width α → Program (Call.Answer : Call α β → Type) (Handled width α)
  | attach q => .done (match s.particles.withProperty q with
    | .ok p => (.ok (), some { s with particles := p })
    | .error e => (.error e, none))
  | write w => .done (.ok (), some { s with particles := s.particles.write w })
  | sort backend => .done (taking s (s.particles.sort backend))
  | redistribute backend a => (s.particles.redistribute backend place a).run >>= fun r => .done (taking s r)
  | exchangeHalos plan =>
    let own := s.particles.withoutHalos plan
    (own.fetchHalos place plan).run >>= fun r => .done (taking { s with particles := own } r)
  | step => Subdomain.step place s >>= fun r => .done (r.1.map fun _ => (), some r.2)
  | refresh => refreshHalos place s >>= fun r => .done (r.1, some r.2)
  | use d => .done (.ok (), some { s with subdomain := d })

omit [Scalar α] [Wire α β] in
/-- Names and kinds of the properties after an operation. -/
def layoutAfter (layout : List (String × ElementKind)) : Operation width α → List (String × ElementKind)
  | attach q => ParticleSet.layoutWith layout q
  | _ => layout

end Operation

/-- Whether an operation kept its set a table. -/
structure Operation.Keeps (op : Operation width α) (s : StepState width α) (r : Handled width α) : Prop where
  rectangular : ∀ s', r.2 = some s' → s'.particles.Rectangular
  layout_eq : ∀ s', r.2 = some s' → s'.particles.layout = op.layoutAfter s.particles.layout
  /-- A property is attached if it has one value for each particle. -/
  attach_eq : ∀ q, op = .attach q → r.1 =
    if s.particles.size = q.values.size then .ok () else .error (.lengthMismatch q.name s.particles.size q.values.size)
  lost : r.2 = none → ∃ q e, op = .attach q ∧ r.1 = .error e

section Operations

variable {op : Operation width α} {s s' : StepState width α} {r : Handled width α} {place : Place}

omit [Scalar α] [Wire α β] in
theorem Operation.Keeps.of_some (hop : ∀ q, op ≠ .attach q) (hr : r.2 = some s') (h : s'.particles.Keeps s.particles.layout) :
    op.Keeps s r := by
  have hlayout : op.layoutAfter s.particles.layout = s.particles.layout := by
    cases op with
    | attach q => exact absurd rfl (hop q)
    | _ => rfl
  refine ⟨fun t ht => ?_, fun t ht => ?_, fun q hq => absurd hq (hop q), fun hnone => ?_⟩
  · obtain rfl := Option.some.inj (hr.symm.trans ht)
    exact h.rectangular
  · obtain rfl := Option.some.inj (hr.symm.trans ht)
    exact h.layout_eq.trans hlayout.symm
  · cases hr.symm.trans hnone

omit [Scalar α] [Wire α β] in
theorem exists_taking {layout : List (String × ElementKind)} (hs : s.particles.Keeps layout)
    {result : Except (Error α) (ParticleSet width α)} (h : ∀ q, result = .ok q → q.Keeps layout) :
    ∃ s', (taking s result).2 = some s' ∧ s'.particles.Keeps layout := by
  cases result with
  | ok q => exact ⟨_, rfl, h q rfl⟩
  | error e => exact ⟨s, rfl, hs⟩

/-- Whatever the other ranks answer, an operation keeps its set a table, or loses it. -/
theorem every_perform (h : s.particles.Rectangular) (op : Operation width α) :
    (op.perform place s : Program (Call.Answer : Call α β → Type) _).Every (op.Keeps s) := by
  have hkeeps : s.particles.Keeps s.particles.layout := ⟨h, rfl⟩
  cases op with
  | attach q =>
    have heq := s.particles.withProperty_eq q
    by_cases hsize : s.particles.size = q.values.size
    · rw [if_pos hsize] at heq
      obtain ⟨hp, hlayout⟩ := h.withProperty heq
      rw [Operation.perform, heq]
      refine ⟨fun s' hs' => ?_, fun s' hs' => ?_, fun q' hq' => ?_, fun hnone => ?_⟩
      · exact Option.some.inj hs' ▸ hp
      · exact Option.some.inj hs' ▸ hlayout
      · obtain rfl := Operation.attach.inj hq'
        rw [if_pos hsize]
      · cases hnone
    · rw [if_neg hsize] at heq
      rw [Operation.perform, heq]
      refine ⟨fun s' hs' => ?_, fun s' hs' => ?_, fun q' hq' => ?_, fun _ => ⟨q, _, rfl, rfl⟩⟩
      · cases hs'
      · cases hs'
      · obtain rfl := Operation.attach.inj hq'
        rw [if_neg hsize]
  | write w =>
    obtain ⟨hw, hlayout⟩ := h.write w
    exact .of_some (by simp) rfl ⟨hw, hlayout⟩
  | sort backend =>
    obtain ⟨q, hsort, hq⟩ := hkeeps.sort backend
    obtain ⟨s', hs', hkept⟩ := exists_taking hkeeps fun q' hq' => Except.ok.inj (hsort.symm.trans hq') ▸ hq
    exact .of_some (by simp) hs' hkept
  | redistribute backend a =>
    refine (keeps_redistribute hkeeps backend place a).bind fun r hr => ?_
    obtain ⟨s', hs', hkept⟩ := exists_taking hkeeps hr
    exact .of_some (by simp) hs' hkept
  | exchangeHalos plan =>
    refine (keeps_fetchHalos hkeeps place plan).bind fun r hr => ?_
    obtain ⟨s', hs', hkept⟩ := exists_taking (s := { s with particles := s.particles.withoutHalos plan }) (hkeeps.truncate _) hr
    exact .of_some (by simp) hs' hkept
  | step => exact (keeps_step (d := s.subdomain) hkeeps place).bind fun r hr => .of_some (by simp) rfl hr
  | refresh => exact (keeps_refreshHalos (d := s.subdomain) hkeeps place).bind fun r hr => .of_some (by simp) rfl hr
  | use d => exact .of_some (by simp) rfl hkeeps

/-! ## Runs -/

variable (choose : List (Handled width α) → Operation width α)

/-- Operations one after the other after some results, the newest first. The owner chooses each by the results so far, and stops when
the set is lost. -/
def handle (place : Place) : Nat → List (Handled width α) → StepState width α →
    Program (Call.Answer : Call α β → Type) (List (Handled width α))
  | 0, past, _ => .done past
  | n + 1, past, s => (choose past).perform place s >>= fun r =>
    match r.2 with
    | some s' => handle place n (r :: past) s'
    | none => .done (r :: past)

/-- The state that the newest result left. -/
def stateOf (start : StepState width α) : List (Handled width α) → StepState width α
  | [] => start
  | r :: past => r.2.getD (stateOf start past)

/-- Whether each operation kept its set a table. -/
def AllKept (start : StepState width α) : List (Handled width α) → Prop
  | [] => True
  | r :: past => (choose past).Keeps (stateOf start past) r ∧ AllKept start past

/-- Whether all of a number of operations were made, as far as there was a set. -/
def Complete (n : Nat) (results : List (Handled width α)) : Prop :=
  results.length = n ∨ results.length < n ∧ ∃ r past, results = r :: past ∧ r.2 = none

variable {choose} {start : StepState width α} {n : Nat} {past : List (Handled width α)}

theorem every_handle (hs : (stateOf start past).particles.Rectangular) (hpast : AllKept choose start past) :
    (handle choose place n past (stateOf start past) : Program (Call.Answer : Call α β → Type) _).Every fun results =>
      AllKept choose start results ∧ Complete (n + past.length) results := by
  induction n generalizing past with
  | zero => exact ⟨hpast, .inl (Nat.zero_add _).symm⟩
  | succ n ih =>
    refine (every_perform hs (choose past)).bind fun r hr => ?_
    have hnext : AllKept choose start (r :: past) := ⟨hr, hpast⟩
    have hlength : n + (r :: past).length = n + 1 + past.length := by
      rw [List.length_cons]
      omega
    cases hleft : r.2 with
    | none =>
      refine ⟨hnext, ?_⟩
      rcases Nat.eq_zero_or_pos n with rfl | hn
      · exact .inl (by rw [← hlength, Nat.zero_add])
      · exact .inr ⟨by rw [← hlength]; omega, r, past, rfl, hleft⟩
    | some s' =>
      have hstate : stateOf start (r :: past) = s' := by rw [stateOf, hleft, Option.getD_some]
      have hrectangular : (stateOf start (r :: past)).particles.Rectangular := hstate ▸ hr.rectangular s' hleft
      have hrest := ih hrectangular hnext
      rwa [hstate, hlength] at hrest

/-- Making a set fails exactly if a length differs from that of the first coordinates, and names the first that does. Whatever is done
with a set that was made, and whatever the other ranks answer, after each operation it is a table. -/
theorem handle_rectangular (x y z h : Array α) (d : Subdomain width α) (place : Place)
    (choose : List (Handled width α) → Operation width α) (n : Nat) :
    let made : Except (Error α) (ParticleSet width α) := ParticleSet.make x y z h
    ((∃ e, made = .error e) ↔ ¬ (y.size = x.size ∧ z.size = x.size ∧ h.size = x.size)) ∧
      (∀ e, made = .error e → ∃ name found,
        (ParticleSet.lengths y z h).find? (fun c => x.size ≠ c.2) = some (name, found) ∧ e = .lengthMismatch name x.size found) ∧
      ∀ p, made = .ok p → p.Rectangular ∧ p.layout = [] ∧
        (handle choose place n [] ⟨d, p⟩ : Program (Call.Answer : Call α β → Type) _).Every fun results =>
          AllKept choose ⟨d, p⟩ results ∧ Complete n results := by
  refine ⟨ParticleSet.make_fails_iff, fun e he => ParticleSet.make_eq_error he, fun p hp => ?_⟩
  obtain ⟨hrectangular, hlayout⟩ := ParticleSet.rectangular_make hp
  have hstart : (stateOf ⟨d, p⟩ ([] : List (Handled width α))).particles.Rectangular := hrectangular
  exact ⟨hrectangular, hlayout, every_handle hstart trivial⟩

end Operations

end Subdomain

end CurvePartition
