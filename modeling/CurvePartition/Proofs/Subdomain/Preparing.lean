-- SUMMARY: All that ranks find out before they connect: one partition for all with every row on its rank, or failures that all ranks have together.
import CurvePartition.Proofs.Subdomain.Distributing

/-!
# Preparing

The first two stages of a step are made by all ranks together. Either the ranks do not accept their particles, or all fail
with one cause (`Subdomain.PrepareFails`), or all get one partition and the rows that belong to them (`Subdomain.Prepared`).
No other result is possible, and none of them changes a subdomain (`Subdomain.collects_prepare`).
-/

namespace CurvePartition

open Program

variable {width : KeyWidth} {α β : Type} [Scalar α] {size i j : Nat}

namespace Subdomain

/-- The first two stages. -/
def prepare [Wire α β] (place : Place) : Stage width α β (Partition width α) :=
  gather place >>= distribute place

theorem stages_eq [Wire α β] (place : Place) :
    (stages place : Stage width α β (Report α)) = prepare place >>= connect place :=
  (LawfulMonad.bind_assoc (gather place) (distribute place) (connect place)).symm

/-- Why all ranks fail together in the first two stages, once they accepted their particles: there is no box, or no tree, or
no assignment. -/
def PrepareFails (size : Nat) (config : Config α) (box : Box α) (tree : Leaves width.depth)
    (ps : Nat → ParticleSet width α) (e : Error α) : Prop :=
  commonBox size config box ps = .error e ∨
    ∃ (box' : Box α) (s : Nat → ParticleSet width α) (order : Nat → List Nat), commonBox size config box ps = .ok box' ∧
      (∀ i < size, ParticleSet.Arranged box' config.curve (ps i).own (s i) (order i)) ∧
      divided size config (Global.allKeys size fun i => (s i).keys) tree = .error e

/-- What all ranks have before they connect, from the box and the tree of the last step: a partition, and on each rank the
rows whose keys are assigned to it. -/
structure Prepared (size : Nat) (config : Config α) (box : Box α) (tree : Leaves width.depth)
    (ps : Nat → ParticleSet width α) (p : Partition width α) (s : Nat → ParticleSet width α) (order : Nat → List Nat)
    (local' : Nat → ParticleSet width α) (origins : Nat → List (Nat × Nat)) : Prop where
  accepted : Accepted size box ps
  box_eq : commonBox size config box ps = .ok p.box
  arranged : ∀ i < size, ParticleSet.Arranged p.box config.curve (ps i).own (s i) (order i)
  divided_eq : divided size config (Global.allKeys size fun i => (s i).keys) tree = .ok (p.tree, p.counts, p.rounds, p.assignment)
  redistributed : ParticleSet.Redistributed size p.assignment s local' origins
  kinds_eq : ∀ i < size, (local' i).kinds = (ps 0).kinds
  ascending : ∀ i < size, Sorted.Ascending (local' i).keys
  radii_eq : p.radii = radiiOf size config p.tree local'

section Prepare

variable {config : Config α} {box : Box α} {tree : Leaves width.depth} {d : Nat → Subdomain width α}
  {ps : Nat → ParticleSet width α} (hd : Peers size config box tree d) (hps : Admissible size ps) [Wire α β]
  [Wire.LawfulWords α β] [Wire.LawfulScalars α β]
include hd hps

theorem collects_prepare (hpos : 0 < size) (hsize : size < 2 ^ 64) (hbucket : config.bucketSize * 512 < 2 ^ 64) :
    (¬ Accepted size box ps ∧ ∃ e : Nat → Error α,
      Collects size (fun i => (prepare ⟨i, size⟩ : Stage width α β (Partition width α)).exec ⟨d i, ps i⟩)
        fun i => (.error (e i), ⟨d i, (ps i).own⟩)) ∨
    (Accepted size box ps ∧ ∃ (e : Error α) (rest : Nat → ParticleSet width α), PrepareFails size config box tree ps e ∧
      Collects size (fun i => (prepare ⟨i, size⟩ : Stage width α β (Partition width α)).exec ⟨d i, ps i⟩)
        fun i => (.error e, ⟨d i, rest i⟩)) ∨
    ∃ (p : Partition width α) (s : Nat → ParticleSet width α) (order : Nat → List Nat)
      (local' : Nat → ParticleSet width α) (origins : Nat → List (Nat × Nat)),
      Prepared size config box tree ps p s order local' origins ∧
      Collects size (fun i => (prepare ⟨i, size⟩ : Stage width α β (Partition width α)).exec ⟨d i, ps i⟩)
        fun i => (.ok p, ⟨d i, local' i⟩) := by
  rcases collects_gather (β := β) hd hps hpos hsize with ⟨hnot, e, hgather⟩ | ⟨haccepted, ⟨e, hbox, hgather⟩ |
    ⟨box', s, order, hbox, hgather, harranged⟩⟩
  · exact .inl ⟨hnot, e, Stage.collects_bind_error hgather⟩
  · exact .inr (.inl ⟨haccepted, e, fun i => (ps i).own, .inl hbox, Stage.collects_bind_error hgather⟩)
  have hready := haccepted.ready hps harranged
  rcases collects_distribute (β := β) hd hready box' hbucket with ⟨e, hdivided, hdistribute⟩ |
    ⟨t, counts, rounds, a, local', origins, hdivided, hdistribute, hredistributed, hlocal⟩
  · exact .inr (.inl ⟨haccepted, e, s, .inr ⟨box', s, order, hbox, harranged, hdivided⟩,
      Stage.collects_bind hgather hdistribute⟩)
  · refine .inr (.inr ⟨⟨box', t, counts, rounds, a, radiiOf size config t local'⟩, s, order, local', origins, ?_,
      Stage.collects_bind hgather hdistribute⟩)
    exact ⟨haccepted, hbox, harranged, hdivided, hredistributed, fun i hi => (hlocal i hi).1, fun i hi => (hlocal i hi).2,
      rfl⟩

/-- With a bucket that is too large no rank gets a partition: all fail, or no rank accepts its particles. -/
theorem every_prepare_of_too_large (hpos : 0 < size) (hsize : size < 2 ^ 64) (hbucket : 2 ^ 64 ≤ config.bucketSize * 512)
    {rs : Nat → Except (Error α) (Report α) × StepState width α}
    (h : Succeeds size (fun i => (stages ⟨i, size⟩ : Stage width α β (Report α)).exec ⟨d i, ps i⟩) rs) :
    (∃ e : Nat → Error α, ∀ i < size, rs i = (.error (e i), ⟨d i, (ps i).own⟩)) ∨
      ∀ i < size, ∃ e, (rs i).1 = .error e ∧ e.isFatal = true := by
  have hstages : ∀ i, (stages ⟨i, size⟩ : Stage width α β (Report α)).exec ⟨d i, ps i⟩ =
      (gather ⟨i, size⟩).exec ⟨d i, ps i⟩ >>= Stage.andThen fun box => distribute ⟨i, size⟩ box >>= connect ⟨i, size⟩ :=
    fun i => Stage.exec_bind _ _ _
  simp only [hstages] at h
  have hfailed : ∀ {e : Nat → Error α}, Collects size (fun i => (gather ⟨i, size⟩ :
      Stage width α β (Box α)).exec ⟨d i, ps i⟩) (fun i => (.error (e i), ⟨d i, (ps i).own⟩)) →
      ∀ i < size, rs i = (.error (e i), ⟨d i, (ps i).own⟩) := fun hgather i hi =>
    (Collects.done _).succeeds.unique (h.after (k := fun i => Stage.andThen fun box => distribute ⟨i, size⟩ box >>=
      connect ⟨i, size⟩) hgather) hi
  rcases collects_gather (β := β) hd hps hpos hsize with ⟨_, e, hgather⟩ | ⟨_, ⟨e, _, hgather⟩ | ⟨box', s, _, _, hgather, _⟩⟩
  · exact .inl ⟨e, hfailed hgather⟩
  · exact .inl ⟨fun _ => e, hfailed hgather⟩
  · refine .inr fun i hi => ?_
    have hrest := h.after (k := fun i => Stage.andThen fun box => distribute ⟨i, size⟩ box >>= connect ⟨i, size⟩) hgather
    have hlarge : 2 ^ 64 ≤ (d i).config.bucketSize * 512 := by rwa [hd.config_eq i hi]
    have htree : (d i).tree.isValid = true := by
      rw [hd.tree_eq i hi]
      exact hd.tree_valid
    -- No tree is found, so nothing of what follows is reached.
    have htoo := every_balancedTree_of_too_large (β := β) (s i).keys hlarge htree
    have hdistribute : ((distribute ⟨i, size⟩ box' : Stage width α β (Partition width α)).exec ⟨d i, s i⟩).Every
        fun r => ∃ e, r.1 = .error e ∧ e.isFatal = true := by
      rw [exec_distribute]
      exact Stage.every_bind (Stage.every_attempt htoo) (fun _ _ ⟨⟨_, h, _⟩, _⟩ => nomatch h)
        fun _ _ ⟨⟨e, h, hfatal⟩, _⟩ => ⟨e, congrArg Except.error (Except.error.inj h), hfatal⟩
    have hevery : ((distribute ⟨i, size⟩ box' >>= connect ⟨i, size⟩ : Stage width α β (Report α)).exec ⟨d i, s i⟩).Every
        fun r => ∃ e, r.1 = .error e ∧ e.isFatal = true :=
      Stage.every_bind hdistribute (fun _ _ ⟨_, h, _⟩ => nomatch h)
        fun _ _ ⟨e, h, hfatal⟩ => ⟨e, congrArg Except.error (Except.error.inj h), hfatal⟩
    exact hrest.every hi hevery

end Prepare

end Subdomain

end CurvePartition
