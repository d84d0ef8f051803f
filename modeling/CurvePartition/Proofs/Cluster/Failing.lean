-- SUMMARY: Programs that give up at the first failure to communicate, and that exchanges and attempts are such programs.
import CurvePartition.Cluster.Attempt
import CurvePartition.Cluster.Mail

/-!
# Giving up

A program *fails fast* if a failed answer ends it at once, with a result that reports the failure. Such a program goes
on only along answers that did not fail. Exchanges and attempts are built from calls by composition only, which keeps the
property, and the actions that make up a call have it as well.
-/

namespace CurvePartition

namespace Program

variable {Op Op' : Type} {Answer : Op → Type} {Answer' : Op' → Type} {ρ σ τ ε : Type}
  {failure : ∀ op, Answer op → Option CommError} {failure' : ∀ op, Answer' op → Option CommError}

/-- Whether a program ends as soon as an answer fails, with a result that reports the failure. -/
inductive FailsFast (failure : ∀ op, Answer op → Option CommError) (failed : CommError → ρ → Prop) :
    Program Answer ρ → Prop where
  | done (r : ρ) : FailsFast failure failed (.done r)
  | call (op : Op) (next : Answer op → Program Answer ρ)
    (goesOn : ∀ a, failure op a = none → FailsFast failure failed (next a))
    (stops : ∀ a e, failure op a = some e → ∃ r, next a = .done r ∧ failed e r) :
    FailsFast failure failed (.call op next)

namespace FailsFast

variable {failed : CommError → ρ → Prop} {failed' : CommError → σ → Prop} {p : Program Answer ρ}

theorem mono {failed' : CommError → ρ → Prop} (h : p.FailsFast failure failed)
    (himp : ∀ e r, failed e r → failed' e r) : p.FailsFast failure failed' := by
  induction h with
  | done r => exact .done r
  | call op next _ stops ih =>
    refine .call op next ih fun a e he => ?_
    obtain ⟨r, hr, hf⟩ := stops a e he
    exact ⟨r, hr, himp e r hf⟩

/-- What follows an answer fails fast as well. -/
theorem next {op : Op} {f : Answer op → Program Answer ρ} (h : FailsFast failure failed (.call op f)) (a : Answer op) :
    (f a).FailsFast failure failed := by
  cases h with
  | call _ _ goesOn stops =>
    cases ha : failure op a with
    | none => exact goesOn a ha
    | some e =>
      obtain ⟨r, hr, _⟩ := stops a e ha
      rw [hr]
      exact .done r

theorem bind {f : ρ → Program Answer σ} (h : p.FailsFast failure failed)
    (hf : ∀ r, (f r).FailsFast failure failed')
    (hstop : ∀ e r, failed e r → ∃ r', f r = .done r' ∧ failed' e r') : (p >>= f).FailsFast failure failed' := by
  induction h with
  | done r => exact hf r
  | call op next _ stops ih =>
    refine .call op _ ih fun a e he => ?_
    obtain ⟨r, hr, hfail⟩ := stops a e he
    obtain ⟨r', hr', hfail'⟩ := hstop e r hfail
    exact ⟨r', by rw [hr]; exact hr', hfail'⟩

/-- Calls may be expanded into programs that fail fast with the failure of the call. -/
theorem expand {handler : ∀ op, Program Answer' (Answer op)} (h : p.FailsFast failure failed)
    (hhandler : ∀ op, (handler op).FailsFast failure' fun e a => failure op a = some e) :
    (p.expand handler).FailsFast failure' failed := by
  induction h with
  | done r => exact .done r
  | call op next _ stops ih =>
    -- An answer without failure goes on, one with a failure ends the program.
    refine (hhandler op).bind (fun a => ?_) fun e a he => ?_
    · cases ha : failure op a with
      | none => exact ih a ha
      | some e =>
        obtain ⟨r, hr, _⟩ := stops a e ha
        rw [hr]
        exact .done r
    · obtain ⟨r, hr, hfail⟩ := stops a e he
      exact ⟨r, by rw [hr]; rfl, hfail⟩

end FailsFast

/-! ## Programs with exceptions -/

/-- Whether a program throws the failure of an answer as soon as there is one. -/
def Throws (failure : ∀ op, Answer op → Option CommError) (inject : CommError → ε)
    (x : ExceptT ε (Program Answer) τ) : Prop :=
  FailsFast failure (fun e r => r = .error (inject e)) x.run

namespace Throws

variable {inject : CommError → ε} {x : ExceptT ε (Program Answer) τ}

theorem pure (a : τ) : Throws failure inject (pure a : ExceptT ε (Program Answer) τ) := FailsFast.done _

theorem throw (e : ε) : Throws failure inject (throw e : ExceptT ε (Program Answer) τ) := FailsFast.done _

theorem bind {f : τ → ExceptT ε (Program Answer) σ} (h : Throws failure inject x)
    (hf : ∀ a, Throws failure inject (f a)) : Throws failure inject (x >>= f) := by
  refine FailsFast.bind h (fun r => ?_) fun e r hr => ?_
  · cases r with
    | ok a => exact hf a
    | error e => exact .done _
  · subst hr
    exact ⟨_, rfl, rfl⟩

theorem forM {f : σ → ExceptT ε (Program Answer) PUnit} (l : List σ) (hf : ∀ a, Throws failure inject (f a)) :
    Throws failure inject (l.forM f) := by
  induction l with
  | nil => exact pure _
  | cons a l ih => exact (hf a).bind fun _ => ih

theorem mapM {f : σ → ExceptT ε (Program Answer) τ} (l : List σ) (hf : ∀ a, Throws failure inject (f a)) :
    Throws failure inject (l.mapM f) := by
  induction l with
  | nil => exact pure _
  | cons a l ih =>
    rw [List.mapM_cons]
    exact (hf a).bind fun _ => ih.bind fun _ => pure _

end Throws

end Program

open Program

/-! ## Actions -/

/-- The failure in the answer of an action. A rank that ends the run counts as failed itself. -/
def Action.failure {β : Type} : (a : Action β) → a.Answer → Option CommError
  | .post .., .error e | .take .., .error e => some e
  | .post .., .ok _ | .take .., .ok _ => none
  | .abort code, _ => some (.aborted 0 code)

namespace Delivery

variable {α β τ : Type}

theorem throws_post (dest : Nat) (tag : Int) (data : Message β) : Throws Action.failure id (post dest tag data) := by
  refine .call _ _ (fun _ _ => .done _) fun a e he => ⟨a, rfl, ?_⟩
  cases a with
  | ok => cases he
  | error => exact congrArg Except.error (Option.some.inj he)

theorem throws_take (source : Nat) (tag : Int) : Throws Action.failure id (take (β := β) source tag) := by
  refine .call _ _ (fun _ _ => .done _) fun a e he => ⟨a, rfl, ?_⟩
  cases a with
  | ok => cases he
  | error => exact congrArg Except.error (Option.some.inj he)

theorem throws_takeSized (source : Nat) (tag : Int) (length : Nat) :
    Throws Action.failure id (takeSized (β := β) source tag length) := by
  refine (throws_take source tag).bind fun data => ?_
  split
  · exact .pure _
  · exact .throw _

theorem throws_reduce (place : Place) (spell : τ → Message β) (read : Message β → τ) (combine : τ → τ → τ)
    (values : List τ) : Throws Action.failure id (reduce place spell read combine values) := by
  unfold reduce
  split
  · exact .pure _
  · refine (Throws.forM _ fun peer => throws_post peer _ _).bind fun _ => ?_
    refine (Throws.mapM _ fun source => ?_).bind fun _ => .pure _
    split
    · exact .pure _
    · exact (throws_takeSized source _ _).bind fun _ => .pure _

end Delivery

/-! ## Calls -/

/-- The failure in the answer of a call. -/
def Call.failure {α β : Type} : (c : Call α β) → c.Answer → Option CommError
  | .reduceWords .., .error e | .reduceScalars .., .error e | .expect .., .error e | .send .., .error e
  | .receive .., .error e | .finishSend .., .error e => some e
  | .reduceWords .., .ok _ | .reduceScalars .., .ok _ | .expect .., .ok _ | .send .., .ok _
  | .receive .., .ok _ | .finishSend .., .ok _ => none
  | .abort code, _ => some (.aborted 0 code)

/-- The actions of a call fail with the failure of the call. -/
theorem Call.failsFast_toActions {α β : Type} [Scalar α] [Wire α β] (place : Place) (c : Call α β) :
    (c.toActions place).FailsFast Action.failure fun e a => c.failure a = some e := by
  cases c with
  | reduceWords op values =>
    exact (Delivery.throws_reduce place _ _ op.words values).mono fun e r hr => by rw [hr]; rfl
  | reduceScalars op values =>
    exact (Delivery.throws_reduce place _ _ op.scalars values).mono fun e r hr => by rw [hr]; rfl
  | expect => exact .done _
  | send dest tag data => exact (Delivery.throws_post dest tag data).mono fun e r hr => by rw [hr]; rfl
  | receive source tag length =>
    exact (Delivery.throws_takeSized source tag length).mono fun e r hr => by rw [hr]; rfl
  | finishSend => exact .done _
  | abort code => exact .call _ _ (fun _ _ => .done _) fun a e he => ⟨a, rfl, he⟩

namespace Exchange

variable {α β τ : Type}

/-- One call throws its failure, provided that the answer is that failure. -/
theorem throws_call (c : Call α β) (answer : c.Answer → Except CommError τ)
    (h : ∀ a e, c.failure a = some e → answer a = .error e) :
    Throws Call.failure id (ExceptT.mk (.call c fun a => .done (answer a)) : Exchange α β τ) :=
  .call _ _ (fun _ _ => .done _) fun a e he => ⟨_, rfl, h a e he⟩

theorem throws_reduceWords (op : Reduction) (values : List Nat) :
    Throws Call.failure id (reduceWords (α := α) (β := β) op values) := by
  refine throws_call (.reduceWords op values) id fun a e he => ?_
  cases a with
  | ok => cases he
  | error => exact congrArg Except.error (Option.some.inj he)

theorem throws_reduceScalars (op : Reduction) (values : List α) :
    Throws Call.failure id (reduceScalars (β := β) op values) := by
  refine throws_call (.reduceScalars op values) id fun a e he => ?_
  cases a with
  | ok => cases he
  | error => exact congrArg Except.error (Option.some.inj he)

theorem throws_expect (source : Nat) (tag : Int) (length : Nat) :
    Throws Call.failure id (expect (α := α) (β := β) source tag length) := by
  refine throws_call (.expect source tag length) id fun a e he => ?_
  cases a with
  | ok => cases he
  | error => exact congrArg Except.error (Option.some.inj he)

theorem throws_send (dest : Nat) (tag : Int) (data : Message β) :
    Throws Call.failure id (send (α := α) dest tag data) := by
  refine throws_call (.send dest tag data) id fun a e he => ?_
  cases a with
  | ok => cases he
  | error => exact congrArg Except.error (Option.some.inj he)

theorem throws_receive (source : Nat) (tag : Int) (length : Nat) :
    Throws Call.failure id (receive (α := α) (β := β) source tag length) := by
  refine throws_call (.receive source tag length) id fun a e he => ?_
  cases a with
  | ok => cases he
  | error => exact congrArg Except.error (Option.some.inj he)

theorem throws_finishSend (dest : Nat) (tag : Int) :
    Throws Call.failure id (finishSend (α := α) (β := β) dest tag) := by
  refine throws_call (.finishSend dest tag) id fun a e he => ?_
  cases a with
  | ok => cases he
  | error => exact congrArg Except.error (Option.some.inj he)

theorem throws_messages (tag : Int) (outgoing : List (Nat × Message β)) (incoming : List (Nat × Nat)) :
    Throws Call.failure id (messages (α := α) tag outgoing incoming) := by
  have hreceive : ∀ p : Nat × Nat, Throws Call.failure id
      (if 0 < p.2 then receive (α := α) (β := β) p.1 tag p.2 else pure []) := by
    intro p
    split
    · exact throws_receive _ _ _
    · exact .pure _
  refine (Throws.forM _ fun _ => throws_expect _ tag _).bind fun _ => ?_
  refine (Throws.forM _ fun _ => throws_send _ tag _).bind fun _ => ?_
  refine (Throws.mapM _ hreceive).bind fun _ => ?_
  exact (Throws.forM _ fun _ => throws_finishSend _ tag).bind fun _ => .pure _

theorem throws_counts [Wire α β] (place : Place) (values : List Nat) :
    Throws Call.failure id (counts (α := α) (β := β) place values) :=
  (throws_messages _ _ _).bind fun _ => .pure _

end Exchange

/-- An attempt fails with the failure of its exchange. -/
theorem Attempt.throws_exchange {α β τ : Type} {e : Exchange α β τ} (h : Throws Call.failure id e) :
    Throws Call.failure Error.communication (Attempt.exchange e) := by
  refine FailsFast.bind h (fun r => ?_) fun e r hr => ?_
  · cases r <;> exact .done _
  · subst hr
    exact ⟨_, rfl, rfl⟩

theorem Attempt.throws_ofExcept {α β τ : Type} (r : Except (Error α) τ) :
    Throws Call.failure Error.communication (Attempt.ofExcept (β := β) r) := .done _

end CurvePartition
