-- SUMMARY: Programs of one rank as trees: a result, or a call whose answer decides how the program goes on; composition, expansion of calls, and the order in which programs end.
import CurvePartition.Naturals

/-!
# Programs

A program talks to the outside only by calls. `Program Answer ρ` is the tree of all its runs: at each node either
the result, or a call together with what follows for each possible answer. Nothing is said about where answers
come from. One way is to expand each call into a program of simpler calls (`Program.expand`), another to
run several programs against shared mail (`Cluster`).

A run follows a path of the tree, and every path ends: `Program.after_wf` says that going from a program to what
follows its first call is well founded.
-/

namespace CurvePartition

/-- A program that calls operations `Op` and ends with a result of type `ρ`. -/
inductive Program {Op : Type} (Answer : Op → Type) (ρ : Type) : Type where
  | done (result : ρ)
  | call (op : Op) (next : Answer op → Program Answer ρ)

namespace Program

variable {Op Op' : Type} {Answer : Op → Type} {Answer' : Op' → Type} {ρ σ τ : Type}

/-! ## Composition -/

/-- Go on with the result of a program. -/
def bind : Program Answer ρ → (ρ → Program Answer σ) → Program Answer σ
  | done r, f => f r
  | call op next, f => call op fun a => (next a).bind f

instance : Monad (Program Answer) where
  pure := done
  bind := bind

@[simp] theorem pure_eq (r : ρ) : (pure r : Program Answer ρ) = done r := rfl

@[simp] theorem done_bind (r : ρ) (f : ρ → Program Answer σ) : done r >>= f = f r := rfl

@[simp] theorem call_bind (op : Op) (next : Answer op → Program Answer ρ) (f : ρ → Program Answer σ) :
    call op next >>= f = call op fun a => next a >>= f := rfl

theorem bind_done (p : Program Answer ρ) : p >>= done = p := by
  induction p with
  | done r => rfl
  | call op next ih => simp only [call_bind, ih]

theorem bind_assoc (p : Program Answer ρ) (f : ρ → Program Answer σ) (g : σ → Program Answer τ) :
    p >>= f >>= g = p >>= fun r => f r >>= g := by
  induction p with
  | done r => rfl
  | call op next ih => simp only [call_bind, ih]

instance : LawfulMonad (Program Answer) :=
  LawfulMonad.mk' (Program Answer) bind_done (fun _ _ => rfl) bind_assoc

/-- One call, whose answer is the result. -/
def perform (op : Op) : Program Answer (Answer op) := call op done

/-! ## Expansion -/

/-- The program with each call replaced by a program that finds its answer. -/
def expand (handler : ∀ op, Program Answer' (Answer op)) : Program Answer ρ → Program Answer' ρ
  | done r => done r
  | call op next => handler op >>= fun a => (next a).expand handler

@[simp] theorem expand_perform (handler : ∀ op, Program Answer' (Answer op)) (op : Op) :
    (perform op).expand handler = handler op := by
  simp only [perform, expand]
  exact bind_done _

theorem expand_bind (handler : ∀ op, Program Answer' (Answer op)) (p : Program Answer ρ)
    (f : ρ → Program Answer σ) :
    (p >>= f).expand handler = p.expand handler >>= fun r => (f r).expand handler := by
  induction p with
  | done r => rfl
  | call op next ih => simp only [call_bind, expand, ih, bind_assoc]

/-! ## Order -/

/-- What a program becomes when its first call is answered. -/
inductive After : Program Answer ρ → Program Answer ρ → Prop where
  | answer (op : Op) (next : Answer op → Program Answer ρ) (a : Answer op) : After (next a) (call op next)

theorem after_wf : WellFounded (After : Program Answer ρ → Program Answer ρ → Prop) := by
  refine ⟨fun p => ?_⟩
  induction p with
  | done r => exact ⟨_, fun _ h => nomatch h⟩
  | call op next ih =>
    refine ⟨_, fun q h => ?_⟩
    cases h with
    | answer _ _ a => exact ih a

/-- One program of a list goes on, the others wait. -/
inductive OneAfter : List (Program Answer ρ) → List (Program Answer ρ) → Prop where
  | head {p q : Program Answer ρ} (rest : List (Program Answer ρ)) (h : After q p) : OneAfter (q :: rest) (p :: rest)
  | tail (p : Program Answer ρ) {rest rest' : List (Program Answer ρ)} (h : OneAfter rest' rest) :
    OneAfter (p :: rest') (p :: rest)

theorem oneAfter_wf : WellFounded (OneAfter : List (Program Answer ρ) → List (Program Answer ρ) → Prop) := by
  refine ⟨fun l => ?_⟩
  induction l with
  | nil => exact ⟨_, fun _ h => nomatch h⟩
  | cons p rest ih =>
    induction after_wf.apply p generalizing rest with
    | intro p _ ihp =>
      induction ih with
      | intro rest hrest ihr =>
        refine ⟨_, fun l' h => ?_⟩
        cases h with
        | head _ h => exact ihp _ h rest ⟨_, hrest⟩
        | tail _ h => exact ihr _ h

theorem oneAfter_set {l : List (Program Answer ρ)} {i : Nat} {p q : Program Answer ρ} (hi : l[i]? = some p)
    (h : After q p) : OneAfter (l.set i q) l := by
  induction l generalizing i with
  | nil => simp at hi
  | cons p' rest ih =>
    cases i with
    | zero =>
      simp only [List.getElem?_cons_zero, Option.some.injEq] at hi
      subst hi
      exact .head rest h
    | succ i => exact .tail p' (ih (by simpa using hi))

end Program

end CurvePartition
