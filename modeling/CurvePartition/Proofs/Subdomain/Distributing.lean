-- SUMMARY: The stages up to the radii on all ranks: one tree, one assignment and one set of radii for all, and every particle on the rank that its leaf is assigned to, or one fatal failure.
import CurvePartition.Proofs.Particles.Conserving
import CurvePartition.Proofs.Subdomain.Gathering
import CurvePartition.Proofs.Subdomain.Radii
import CurvePartition.Proofs.Subdomain.Trees

/-!
# Distributing

The keys of all ranks together determine the tree of a step and its assignment (`Subdomain.divided`). Either they have
none, which is fatal on all ranks, or all ranks get the same ones with the same radii, and redistribution puts every row on
its rank (`Subdomain.collects_distribute`).
-/

namespace CurvePartition

open Program

variable {width : KeyWidth} {α β : Type} [Scalar α] {size i j : Nat}

namespace Subdomain

/-- The tree of a step with its counts and rounds, and its assignment, for the keys of all ranks. -/
def divided (size : Nat) (config : Config α) (keys : List Nat) (tree : Leaves width.depth) :
    Except (Error α) (Leaves width.depth × Array Nat × Nat × Assignment width.depth) := do
  let (t, counts, rounds) ← refinedFrom α size keys config.bucketSize config.maxRounds tree
  let assignment ← Assignment.compute t counts size
  return (t, counts, rounds, assignment)

/-- What is known of the sets of all ranks that are distributed. -/
structure Ready (size : Nat) (kinds : List (Option ElementKind)) (s : Nat → ParticleSet width α) : Prop where
  filled : ∀ i < size, (s i).Filled kinds (s i).size
  countable : Global.Countable size fun i => (s i).keys
  key_lt : ∀ i < size, ∀ k ∈ (s i).keys.toList, k < Key.bound width.depth
  length_spec : ∀ i < size, ∀ j < (s i).size, Scalar.isFinite ((s i).h.getD j 0) = true ∧ 0 ≤ (s i).h.getD j 0

section Ready

variable {config : Config α} {box box' : Box α} {ps s ps' : Nat → ParticleSet width α} {order : Nat → List Nat}
  {origins : Nat → List (Nat × Nat)} {kinds : List (Option ElementKind)}

omit [Scalar α] in
theorem size_own_le (p : ParticleSet width α) : p.own.size ≤ p.owned := p.size_own ▸ Nat.min_le_left _ _

/-- The ranks have no more keys than own particles. -/
theorem length_allKeys_le
    (hs : ∀ i < size, ParticleSet.Arranged box' config.curve (ps i).own (s i) (order i)) :
    (Global.allKeys size fun i => (s i).keys).length ≤ ((List.range size).map fun i => (ps i).owned).sum := by
  have hlength : (Global.allKeys size fun i => (s i).keys).length =
      ((List.range size).map fun i => (ps i).own.size).sum := by
    rw [Global.allKeys, List.length_flatMap]
    refine congrArg List.sum (List.map_congr_left fun i hi => ?_)
    rw [Array.length_toList, (hs i (List.mem_range.1 hi)).uniform.size_keys]
  rw [hlength]
  exact List.sum_le_sum fun i _ => size_own_le _

/-- Sets that the ranks accepted are ready once they are arranged. -/
theorem Accepted.ready (h : Accepted size box ps) (hps : Admissible size ps)
    (hs : ∀ i < size, ParticleSet.Arranged box' config.curve (ps i).own (s i) (order i)) :
    Ready size (ps 0).kinds s := by
  have hsize : ∀ i < size, (s i).size = (ps i).own.size := fun i hi => (hs i hi).uniform.size_eq
  have hfilled : ∀ i < size, (ps i).own.Filled (ps 0).kinds (ps i).own.size := by
    intro i hi
    refine ⟨ParticleSet.kinds_eq_of_layout_eq ((ps i).layout_own.trans (h.layout_eq i hi)), (h.valid i hi).uniform,
      fun j hj => ?_⟩
    have hlt : j < (ps i).owned := Nat.lt_of_lt_of_le hj (size_own_le _)
    exact ParticleSet.rowFits_of_eq (ParticleSet.row_own hlt) (ParticleSet.kinds_truncate _ _) (hps.fits i hi j hlt)
  refine ⟨fun i hi => ?_, ⟨fun i hi => (hs i hi).ascending, Nat.lt_of_le_of_lt (length_allKeys_le hs) hps.total_lt⟩,
    fun i hi k hk => ?_, fun i hi j hj => ?_⟩
  · rw [hsize i hi]
    exact (hs i hi).filled (hfilled i hi)
  · obtain ⟨j, hj, rfl⟩ := Array.mem_iff_getElem.1 (Array.mem_toList_iff.1 hk)
    have hlt : j < (ps i).own.size := (hs i hi).uniform.size_keys ▸ hj
    simpa [Array.getD, hj] using (hs i hi).key_lt hlt
  · obtain ⟨k, _, hk, hrow⟩ := (hs i hi).exists_row (hsize i hi ▸ hj)
    rw [ParticleSet.placed_data, ParticleSet.row_eq] at hrow
    simp only [List.cons.injEq, Entry.scalar.injEq] at hrow
    rw [hrow.2.2.2.2.1]
    exact (h.valid i hi).length_spec hk

/-- Redistributed sets are measured when the radii are found. -/
theorem Ready.measured (h : Ready size kinds s) {a : Assignment width.depth}
    (hredistributed : ParticleSet.Redistributed size a s ps' origins)
    (hascending : ∀ i < size, Sorted.Ascending (ps' i).keys) (hi : i < size) : Measured (ps' i) := by
  have hsize : (ps' i).size = (origins i).length := (hredistributed.uniform i hi).size_eq
  have hlength : ∀ j < (ps' i).size, Scalar.isFinite ((ps' i).h.getD j 0) = true ∧ 0 ≤ (ps' i).h.getD j 0 := by
    intro j hj
    obtain ⟨_, _, hvalue⟩ := ParticleSet.fields_eq_of_row_eq (hredistributed.row_eq hi (hsize ▸ hj))
    obtain ⟨hs, hk, _⟩ := (hredistributed.mem_iff i hi _).1 (List.getElem_mem (hsize ▸ hj))
    rw [hvalue]
    exact h.length_spec _ hs _ hk
  exact ⟨hsize ▸ hredistributed.uniform i hi, (hredistributed.owned_eq i hi).trans hsize.symm, hascending i hi,
    fun j hj => (hlength j hj).1, fun j hj => (hlength j hj).2⟩

end Ready

/-- What follows the redistribution. -/
def afterMoving (d : Subdomain width α) (box : Box α) (t : Leaves width.depth) (counts : Array Nat) (rounds : Nat)
    (a : Assignment width.depth) (p : ParticleSet width α) : Stage width α β (Partition width α) := do
  Stage.setParticles p
  let radii ← Stage.attempt (d.leafRadii t p)
  return ⟨box, t, counts, rounds, a, radii⟩

/-- What follows the assignment. -/
def afterAssignment [Wire α β] (place : Place) (d : Subdomain width α) (p : ParticleSet width α) (box : Box α)
    (t : Leaves width.depth) (counts : Array Nat) (rounds : Nat) (a : Assignment width.depth) :
    Stage width α β (Partition width α) :=
  Stage.attempt (p.redistribute d.backend place a) >>= afterMoving d box t counts rounds a

/-- What follows the tree. -/
def afterTree [Wire α β] (place : Place) (d : Subdomain width α) (p : ParticleSet width α) (box : Box α)
    (t : Leaves width.depth) (counts : Array Nat) (rounds : Nat) : Stage width α β (Partition width α) :=
  Stage.ofExcept (Assignment.compute t counts d.place.size) >>= afterAssignment place d p box t counts rounds

theorem exec_distribute [Wire α β] (place : Place) (box : Box α) (d : Subdomain width α) (p : ParticleSet width α) :
    (distribute place box : Stage width α β (Partition width α)).exec ⟨d, p⟩ =
      (Stage.attempt (d.balancedTree p.keys) >>= fun (t, counts, rounds) => afterTree place d p box t counts rounds).exec
        ⟨d, p⟩ := rfl

section Distribute

variable {config : Config α} {box : Box α} {tree t : Leaves width.depth} {d : Nat → Subdomain width α}
  {s : Nat → ParticleSet width α} {kinds : List (Option ElementKind)} {keys : List Nat} {counts : Array Nat} {rounds : Nat}
  {a : Assignment width.depth}

omit [Scalar α] in
theorem divided_of_error {e : Error α} (h : refinedFrom α size keys config.bucketSize config.maxRounds tree = .error e) :
    divided size config keys tree = .error e := by
  rw [divided, h]
  rfl

omit [Scalar α] in
theorem divided_of_ok (h : refinedFrom α size keys config.bucketSize config.maxRounds tree = .ok (t, counts, rounds)) :
    divided size config keys tree = (Assignment.compute t counts size).map fun a => (t, counts, rounds, a) := by
  rw [divided, h]
  cases hcompute : (Assignment.compute t counts size : Except (Error α) _) with
  | error e =>
    show (Assignment.compute t counts size >>= _) = _
    rw [hcompute]
    rfl
  | ok a =>
    show (Assignment.compute t counts size >>= _) = _
    rw [hcompute]
    rfl

omit [Scalar α] in
theorem divided_eq_ok {r : Leaves width.depth × Array Nat × Nat × Assignment width.depth}
    (h : divided size config keys tree = .ok r) :
    refinedFrom α size keys config.bucketSize config.maxRounds tree = .ok (r.1, r.2.1, r.2.2.1) ∧
      (Assignment.compute r.1 r.2.1 size : Except (Error α) _) = .ok r.2.2.2 := by
  obtain ⟨⟨t, counts, rounds⟩, hrefined, h⟩ := bind_eq_ok.1 h
  obtain ⟨a, hcompute, h⟩ := bind_eq_ok.1 h
  cases h
  exact ⟨hrefined, hcompute⟩

omit [Scalar α] in
/-- For the same keys in any order a tree is found again from itself, with the same assignment, unless the rounds that merge
it back to the balanced tree run out. -/
theorem divided_again (hbucket : config.bucketSize * 512 < 2 ^ 64) (htree : tree.isValid = true)
    (h : divided size config keys tree = .ok (t, counts, rounds, a)) {keys' : List Nat} (hperm : keys'.Perm keys) :
    ∃ balanced : Leaves width.depth, ∃ k ≤ width.depth, balanced.IsBalanced keys' config.bucketSize ∧
      Leaves.Rounds keys' config.bucketSize k t balanced ∧ (size ≤ balanced.count → k = 0) ∧
      (k < config.maxRounds → divided size config keys' t = .ok (t, counts, k, a)) ∧
      (config.maxRounds ≤ k → divided size config keys' t = .error (.imbalance (.notConverged config.maxRounds))) := by
  obtain ⟨hrefined, hcompute⟩ := divided_eq_ok h
  obtain ⟨balanced, k, hk, hbalanced, hrounds, hzero, hfound, hlost⟩ := refinedFrom_again hbucket htree hrefined hperm
  refine ⟨balanced, k, hk, hbalanced, hrounds, hzero, fun hlt => ?_, fun hle => divided_of_error (hlost hle)⟩
  rw [divided_of_ok (hfound hlt), hcompute]
  rfl

omit [Scalar α] in
/-- With more rounds than a tree is deep, neither the order of the keys nor the tree of the last step matters. -/
theorem divided_congr (hbucket : config.bucketSize * 512 < 2 ^ 64) (hrounds : width.depth < config.maxRounds)
    {keys' : List Nat} {tree' : Leaves width.depth} (htree : tree.isValid = true) (htree' : tree'.isValid = true)
    (hperm : keys'.Perm keys) :
    (∃ e, divided size config keys tree = .error e ∧ divided size config keys' tree' = .error e) ∨
    ∃ (t : Leaves width.depth) (counts : Array Nat) (n n' : Nat) (a : Assignment width.depth),
      divided size config keys tree = .ok (t, counts, n, a) ∧ divided size config keys' tree' = .ok (t, counts, n', a) := by
  rcases refinedFrom_congr (α := α) size hbucket hrounds htree htree' hperm with ⟨e, he, he'⟩ |
    ⟨t, counts, n, n', h, h'⟩
  · exact .inl ⟨e, divided_of_error he, divided_of_error he'⟩
  · rw [divided_of_ok h, divided_of_ok h']
    cases (Assignment.compute t counts size : Except (Error α) (Assignment width.depth)) with
    | error e => exact .inl ⟨e, rfl, rfl⟩
    | ok a => exact .inr ⟨t, counts, n, n', a, rfl, rfl⟩

omit [Scalar α] in
/-- The tree of a step is valid, has the counts of all keys, and its assignment gives each rank leaves of it. -/
theorem divided_spec (hbucket : config.bucketSize * 512 < 2 ^ 64) (htree : tree.isValid = true)
    (h : divided size config keys tree = .ok (t, counts, rounds, a)) : t.isValid = true ∧ counts = t.histogram keys ∧
      a.Tiles t ∧ a.ranks = size := by
  obtain ⟨hrefined, hcompute⟩ := divided_eq_ok h
  obtain ⟨hvalid, hcounts⟩ := refinedFrom_spec hbucket htree hrefined
  exact ⟨hvalid, hcounts, Assignment.tiles_compute hvalid hcompute⟩

omit [Scalar α] in
/-- For no more keys than a bucket holds the root is refined and assigned, if that gives a leaf for every rank. -/
theorem divided_root (hbucket : config.bucketSize * 512 < 2 ^ 64) (hfew : keys.length ≤ config.bucketSize)
    (hrounds : 0 < config.maxRounds) (hpos : 0 < size)
    (hroom : size ≤ ((Leaves.root : Leaves width.depth).refine size).count) :
    ∃ (t : Leaves width.depth) (counts : Array Nat) (a : Assignment width.depth),
      divided size config keys .root = .ok (t, counts, 0, a) := by
  obtain ⟨⟨t, counts, rounds⟩, hrefined⟩ : ∃ r, r = refined size keys ((.root : Leaves width.depth),
    (Leaves.root : Leaves width.depth).histogram keys, 0) := ⟨_, rfl⟩
  have hzero : rounds = 0 := by
    have h := congrArg (fun r => r.2.2) hrefined
    unfold refined at h
    dsimp only at h
    split at h <;> exact h
  have hcount : size ≤ t.count := by
    have h := congrArg (fun r => r.1.count) hrefined
    rw [count_refined] at h
    exact h ▸ hroom
  obtain ⟨a, ha⟩ : ∃ a, (Assignment.compute t counts size : Except (Error α) (Assignment width.depth)) = .ok a := by
    rw [Assignment.compute, if_neg (by omega)]
    exact ⟨_, rfl⟩
  refine ⟨t, counts, a, ?_⟩
  rw [divided_of_ok ((refinedFrom_root hbucket hfew hrounds).trans (congrArg Except.ok hrefined.symm)), ha, hzero]
  rfl

variable (hd : Peers size config box tree d) (hs : Ready size kinds s) [Wire α β] [Wire.LawfulWords α β]
  [Wire.LawfulScalars α β]
include hd hs

/-- All ranks stop for one cause, or they get one partition and each the rows whose keys are assigned to it. -/
theorem collects_distribute (box' : Box α) (hbucket : config.bucketSize * 512 < 2 ^ 64) :
    (∃ e, divided size config (Global.allKeys size fun i => (s i).keys) tree = .error e ∧
      Collects size (fun i => (distribute ⟨i, size⟩ box' : Stage width α β (Partition width α)).exec ⟨d i, s i⟩)
        fun i => (.error e, ⟨d i, s i⟩)) ∨
    ∃ (t : Leaves width.depth) (counts : Array Nat) (rounds : Nat) (a : Assignment width.depth)
      (ps' : Nat → ParticleSet width α) (origins : Nat → List (Nat × Nat)),
      divided size config (Global.allKeys size fun i => (s i).keys) tree = .ok (t, counts, rounds, a) ∧
      Collects size (fun i => (distribute ⟨i, size⟩ box' : Stage width α β (Partition width α)).exec ⟨d i, s i⟩)
        (fun i => (.ok ⟨box', t, counts, rounds, a, radiiOf size config t ps'⟩, ⟨d i, ps' i⟩)) ∧
      ParticleSet.Redistributed size a s ps' origins ∧
      ∀ i < size, (ps' i).kinds = kinds ∧ Sorted.Ascending (ps' i).keys := by
  simp only [exec_distribute]
  have htree := collects_balancedTree (α := α) (β := β) hs.countable hd.tree_valid hbucket
    fun i hi => ⟨hd.tree_eq i hi, hd.config_eq i hi, by rw [hd.place_eq i hi]⟩
  cases hrefined : refinedFrom α size (Global.allKeys size fun i => (s i).keys) config.bucketSize config.maxRounds tree with
  | error e =>
    rw [hrefined] at htree
    exact .inl ⟨e, divided_of_error hrefined, Stage.collects_bind_error (Stage.collects_attempt htree)⟩
  | ok refined =>
    obtain ⟨t, counts, rounds⟩ := refined
    rw [hrefined] at htree
    obtain ⟨hvalid, _⟩ := refinedFrom_spec hbucket hd.tree_valid hrefined
    have hdivided : divided size config (Global.allKeys size fun i => (s i).keys) tree =
        (Assignment.compute t counts size).map fun a => (t, counts, rounds, a) := divided_of_ok hrefined
    cases hcompute : (Assignment.compute t counts size : Except (Error α) (Assignment width.depth)) with
    | error e =>
      rw [hcompute] at hdivided
      refine .inl ⟨e, hdivided, Stage.collects_bind (Stage.collects_attempt htree) ?_⟩
      refine Stage.collects_bind_error (Stage.collects_ofExcept.congr (fun i hi => ?_) fun _ _ => rfl)
      rw [hd.place_eq i hi, hcompute]
    | ok a =>
      rw [hcompute] at hdivided
      obtain ⟨htiles, hranks⟩ := Assignment.tiles_compute hvalid hcompute
      obtain ⟨ps', origins, hcollects, hredistributed, hps'⟩ := ParticleSet.collects_redistribute (β := β) htiles hranks
        hs.filled (fun i hi => hs.countable.ascending i hi) hs.key_lt (fun _ => config.backend) fun i hi => by
          rw [← (hs.filled i hi).uniform.size_keys]
          exact hs.countable.size_lt hi
      have hmoved : Collects size (fun i => ((s i).redistribute (d i).backend ⟨i, size⟩ a : Attempt α β _).run)
          fun i => .ok (ps' i) := by
        refine hcollects.congr (fun i hi => ?_) fun _ _ => rfl
        rw [backend, hd.config_eq i hi]
      have hradii : Collects size (fun i => ((d i).leafRadii t (ps' i) : Attempt α β (Array α)).run) fun _ =>
          .ok (radiiOf size config t ps') := collects_leafRadii hd.config_eq
      have hrest : Collects size (fun i => (afterMoving (d i) box' t counts rounds a (ps' i) :
          Stage width α β (Partition width α)).exec ⟨d i, s i⟩)
          fun i => (.ok ⟨box', t, counts, rounds, a, radiiOf size config t ps'⟩, ⟨d i, ps' i⟩) :=
        Stage.collects_bind (x := fun i => Stage.setParticles (ps' i)) (Collects.done _)
          (Stage.collects_bind (Stage.collects_attempt hradii) (Collects.done _))
      refine .inr ⟨t, counts, rounds, a, ps', origins, hdivided, Stage.collects_bind (Stage.collects_attempt htree) ?_,
        hredistributed, hps'⟩
      refine Stage.collects_bind (v := fun _ => a) (Stage.collects_ofExcept.congr (fun i hi => ?_) fun _ _ => rfl)
        (Stage.collects_bind (Stage.collects_attempt hmoved) hrest)
      rw [hd.place_eq i hi, hcompute]

end Distribute

end Subdomain

end CurvePartition
