-- SUMMARY: Clusters: the programs of all ranks with the mail between them, the steps they may make, and a run to the end in one order of steps.
import CurvePartition.Cluster.Mail

/-!
# Clusters

A cluster is a list of programs, one per rank, with their mail. `Cluster.Step` is what may happen next: some rank
acts, or some rank that waits for a message loses patience. `Cluster.run` makes steps until every rank is done: it lets
the first rank act that can, and only when none can it lets the first waiting rank lose patience. Each step goes
down one of the program trees, so every run ends.

`Mail.runAlone` runs one program while nobody else acts: what is not there will not come.
-/

namespace CurvePartition

/-- The programs of all ranks and their mail. -/
structure Cluster (β ρ : Type) where
  mail : Mail β
  ranks : List (Program (Action.Answer : Action β → Type) ρ)

namespace Cluster

variable {β ρ : Type}

/-- Programs at their start. -/
def start (ranks : List (Program (Action.Answer : Action β → Type) ρ)) : Cluster β ρ :=
  ⟨.empty ranks.length, ranks⟩

/-- What may happen next. -/
inductive Step : Cluster β ρ → Cluster β ρ → Prop where
  /-- A rank acts. -/
  | act {mail mail' : Mail β} {ranks : List (Program (Action.Answer : Action β → Type) ρ)} {i : Nat}
      {a : Action β} {next : a.Answer → Program Action.Answer ρ} {answer : a.Answer}
      (program : ranks[i]? = some (.call a next)) (acted : mail.act i a = some (answer, mail')) :
      Step ⟨mail, ranks⟩ ⟨mail', ranks.set i (next answer)⟩
  /-- A rank stops waiting for a message. -/
  | expire {mail : Mail β} {ranks : List (Program (Action.Answer : Action β → Type) ρ)} {i source : Nat}
      {tag : Int} {next : Except CommError (Message β) → Program Action.Answer ρ}
      (program : ranks[i]? = some (.call (.take source tag) next))
      (waiting : mail.act i (.take source tag) = none) :
      Step ⟨mail, ranks⟩ ⟨mail, ranks.set i (next (.error (.timeout source tag)))⟩

/-- The cluster after an action of a rank, if it can act. -/
def actAt (c : Cluster β ρ) (i : Nat) : Option (Cluster β ρ) :=
  match c.ranks[i]? with
  | some (.call a next) => (c.mail.act i a).map fun (answer, mail) => ⟨mail, c.ranks.set i (next answer)⟩
  | _ => none

/-- The cluster after a rank lost patience, if it waits. -/
def expireAt (c : Cluster β ρ) (i : Nat) : Option (Cluster β ρ) :=
  match c.ranks[i]? with
  | some (.call (.take source tag) next) =>
    match c.mail.act i (.take source tag) with
    | some _ => none
    | none => some { c with ranks := c.ranks.set i (next (.error (.timeout source tag))) }
  | _ => none

/-- The next step of a run, none if every rank is done. -/
def step? (c : Cluster β ρ) : Option (Cluster β ρ) :=
  match (List.range c.ranks.length).findSome? c.actAt with
  | some c' => some c'
  | none => (List.range c.ranks.length).findSome? c.expireAt

theorem step_of_actAt {c c' : Cluster β ρ} {i : Nat} (h : c.actAt i = some c') : Step c c' := by
  unfold actAt at h
  split at h
  case h_1 a next program =>
    obtain ⟨⟨answer, mail⟩, acted, rfl⟩ := Option.map_eq_some_iff.1 h
    exact .act program acted
  case h_2 => simp at h

theorem step_of_expireAt {c c' : Cluster β ρ} {i : Nat} (h : c.expireAt i = some c') : Step c c' := by
  unfold expireAt at h
  split at h
  case h_1 source tag next program =>
    split at h
    case h_1 => simp at h
    case h_2 waiting =>
      cases h
      exact .expire program waiting
  case h_2 => simp at h

/-- A run makes only steps that may happen. -/
theorem step_of_step? {c c' : Cluster β ρ} (h : c.step? = some c') : Step c c' := by
  unfold step? at h
  split at h
  case h_1 c'' hact =>
    cases h
    obtain ⟨i, _, hi⟩ := List.exists_of_findSome?_eq_some hact
    exact step_of_actAt hi
  case h_2 =>
    obtain ⟨i, _, hi⟩ := List.exists_of_findSome?_eq_some h
    exact step_of_expireAt hi

/-- A step goes down one of the program trees. -/
theorem Step.oneAfter {c c' : Cluster β ρ} (h : Step c c') : Program.OneAfter c'.ranks c.ranks := by
  cases h with
  | act program _ => exact Program.oneAfter_set program (.answer _ _ _)
  | expire program _ => exact Program.oneAfter_set program (.answer (Action.take _ _) _ _)

/-- All steps of a run. -/
def run (c : Cluster β ρ) : Cluster β ρ :=
  match _h : c.step? with
  | some c' => run c'
  | none => c
termination_by Program.oneAfter_wf.wrap c.ranks
decreasing_by exact (step_of_step? _h).oneAfter

/-- Results of the ranks that are done. -/
def results (c : Cluster β ρ) : List ρ :=
  c.ranks.filterMap fun
    | .done r => some r
    | .call .. => none

/-- Results of the programs of all ranks, each given its place, run together from empty mail. -/
def runAll {α : Type} [Scalar α] [Wire α β] (size : Nat)
    (program : Place → Program (Call.Answer : Call α β → Type) ρ) : List ρ :=
  (start ((List.range size).map fun rank =>
    (program ⟨rank, size⟩).expand (Call.toActions ⟨rank, size⟩))).run.results

end Cluster

/-- Result of a program of a rank while no other rank acts, and the mail it leaves. -/
def Mail.runAlone {β ρ : Type} (rank : Nat) : Program (Action.Answer : Action β → Type) ρ → Mail β → ρ × Mail β
  | .done r, m => (r, m)
  | .call (.post dest tag data) next, m =>
    let (answer, m') := m.post ⟨rank, dest, tag, data⟩
    runAlone rank (next answer) m'
  | .call (.take source tag) next, m =>
    match m.pick source rank tag with
    | some (data, m') => runAlone rank (next (.ok data)) m'
    | none => runAlone rank (next (.error (m.endError.getD (.timeout source tag)))) m
  | .call (.abort code) next, m => runAlone rank (next ()) (m.abort rank code)

end CurvePartition
