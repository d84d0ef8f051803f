-- SUMMARY: Steps that find no balanced tree: on three or more ranks the first one can end the run before another one has found out, and cuts it off.
import CurvePartition.Proofs.Subdomain.Finishing
import CurvePartition.Proofs.Subdomain.Outcomes

/-!
# Steps without a tree

All ranks find out from the same counts that there is no balanced tree. The last they do before is a reduction. The first rank
is done with it when it has the counts of all others, which may still have to post theirs to each other. So it can end the run
before they have found out (`Subdomain.Peers.exists_overtakes`).
-/

namespace CurvePartition

open Program

/-- With more rounds than the tree is deep a key that occurs too often is found. -/
theorem Leaves.roundsFrom_of_crowded {depth bucketSize key : Nat} {t : Leaves depth} {keys : List Nat}
    (hfits : bucketSize * 512 < 2 ^ 64) (ht : t.isValid = true) {maxRounds : Nat} (hrounds : depth < maxRounds)
    (hkey : key < Key.bound depth) (hmany : bucketSize < keys.count key) : ∃ first, FirstCrowdedKey depth keys bucketSize first ∧
      roundsFrom keys bucketSize maxRounds maxRounds 0 t = .error (.unsplittable first (keys.count first) bucketSize) := by
  have hverdict := isVerdict_roundsFrom keys hfits maxRounds maxRounds 0 ht
  have hfound : roundsFrom keys bucketSize maxRounds maxRounds 0 t ≠ .error (.notConverged maxRounds) :=
    roundsFrom_ne_notConverged keys hfits hrounds 0 ht maxRounds
  cases h : roundsFrom keys bucketSize maxRounds maxRounds 0 t with
  | ok r =>
    rw [h] at hverdict
    obtain ⟨cause, hcause⟩ := (hverdict.fails_iff fun heq => nomatch heq).2 ⟨key, hkey, hmany⟩
    cases hcause
  | error cause =>
    rw [h] at hverdict hfound
    obtain ⟨first, hfirst, rfl⟩ := hverdict.names cause rfl fun heq => hfound (congrArg Except.error heq)
    exact ⟨first, hfirst, rfl⟩

variable {α β : Type} [Scalar α] [Wire α β] [Wire.LawfulWords α β] {size : Nat}

namespace Global

variable {depth : Nat} {keys : Nat → Array Nat} (hkeys : Countable size keys) (backend : Nat → Backend) {t : Leaves depth}
  (ht : t.isValid = true) (hthree : 3 ≤ size)
include hkeys ht hthree

/-- The first rank can have the counts of all ranks while another one still has to post its own. -/
theorem overtakes_counts : Overtakes size
    (fun rank => (Attempt.exchange (counts (backend rank) t (keys rank)) : Attempt α β (Array Nat)).run)
    (.ok (t.histogram (allKeys size keys))) := by
  have hlength : ∀ rank < size, (t.counts (backend rank) (keys rank)).toList.length = t.count := fun rank _ => by simp
  obtain ⟨r, hr⟩ := Exchange.overtakes_reduceWords (α := α) (β := β) .sum hlength hthree
  have hcounts : Overtakes size
      (fun rank => (Attempt.exchange (counts (backend rank) t (keys rank)) : Attempt α β (Array Nat)).run) (.ok r.toArray) :=
    (hr.ok_bind rfl).bind rfl
  rwa [hcounts.eq_of_collects (collects_counts hkeys backend ht).attempt] at hcounts

/-- So it can have the result of balancing. -/
theorem overtakes_counts_balanceFrom {bucketSize : Nat} (hfits : bucketSize * 512 < 2 ^ 64) (maxRounds fuel rounds : Nat) :
    ∃ r, Overtakes size (fun rank => (Attempt.exchange (counts (backend rank) t (keys rank)) >>= fun leafCounts =>
      balanceFrom (backend rank) (keys rank) bucketSize maxRounds fuel rounds t leafCounts : Attempt α β _).run) r := by
  have hcounts := overtakes_counts (α := α) (β := β) hkeys backend ht hthree
  induction fuel generalizing rounds t with
  | zero => exact ⟨_, hcounts.ok_bind rfl⟩
  | succ fuel ih =>
    by_cases hbalanced : t.IsBalanced (allKeys size keys) bucketSize
    · have hround := Leaves.round_of_isBalanced ht (allKeys size keys) hfits hbalanced
      obtain ⟨r, hr⟩ : ∃ r, (balanceFrom (backend 0) (keys 0) bucketSize maxRounds (fuel + 1) rounds t
          (t.histogram (allKeys size keys)) : Attempt α β (Leaves depth × Array Nat × Nat)).run = .done r := by
        rw [balanceFrom, round, hround]
        cases t.checkSplittable (t.histogram (allKeys size keys)) bucketSize <;> exact ⟨_, rfl⟩
      exact ⟨r, hcounts.ok_bind hr⟩
    · obtain ⟨t', hround, ht', _⟩ := Leaves.round_of_not_isBalanced ht (allKeys size keys) hfits hbalanced
      obtain ⟨r, hr⟩ := ih ht' (rounds + 1) (overtakes_counts hkeys backend ht' hthree)
      refine ⟨r, (collects_counts hkeys backend ht).attempt.overtakes (hr.congr fun rank _ => ?_)⟩
      exact congrArg ExceptT.run (balanceFrom_of_round_some _ _ _ _ _ hround)

theorem overtakes_balance {bucketSize : Nat} (hfits : bucketSize * 512 < 2 ^ 64) (maxRounds : Nat) : Overtakes size
    (fun rank => (balance (backend rank) (keys rank) bucketSize maxRounds t : Attempt α β _).run)
    ((Leaves.roundsFrom (allKeys size keys) bucketSize maxRounds maxRounds 0 t).mapError .imbalance) := by
  obtain ⟨r, hr⟩ := overtakes_counts_balanceFrom (α := α) (β := β) hkeys backend ht hthree hfits maxRounds maxRounds 0
  have hbalance : Overtakes size (fun rank => (balance (backend rank) (keys rank) bucketSize maxRounds t : Attempt α β _).run) r :=
    hr
  rwa [hbalance.eq_of_collects (collects_balance hkeys backend ht hfits maxRounds)] at hbalance

end Global

variable {width : KeyWidth}

namespace Stage

variable {σ τ : Type} {x : Nat → Stage width α β σ} {f : Nat → σ → Stage width α β τ} {s s' : Nat → StepState width α}
omit [Wire.LawfulWords α β]

/-- What all ranks do together before. -/
theorem overtakes_bind {v : Nat → σ} {r : Except (Error α) τ × StepState width α}
    (h : Collects size (fun i => (x i).exec (s i)) fun i => (.ok (v i), s' i))
    (hf : Overtakes size (fun i => (f i (v i)).exec (s' i)) r) : Overtakes size (fun i => (x i >>= f i).exec (s i)) r := by
  simp only [exec_bind]
  exact h.overtakes hf

/-- What fails fails whatever would follow. -/
theorem overtakes_bind_error {e : Error α} {t : StepState width α}
    (h : Overtakes size (fun i => (x i).exec (s i)) (.error e, t)) :
    Overtakes size (fun i => (x i >>= f i).exec (s i)) (.error e, t) := by
  simp only [exec_bind]
  exact h.bind rfl

theorem overtakes_attempt {a : Nat → Attempt α β τ} {r : Except (Error α) τ} (h : Overtakes size (fun i => (a i).run) r) :
    Overtakes size (fun i => (attempt (a i) : Stage width α β τ).exec (s i)) (r, s 0) := h.bind rfl

end Stage

namespace Subdomain

variable [Wire.LawfulScalars α β] {config : Config α} {box box' : Box α} {tree : Leaves width.depth}
  {d : Nat → Subdomain width α} {ps : Nat → ParticleSet width α}

/-- Ranks that accept their particles and have a box but no tree stop with one cause. On three or more ranks the first one can do
so while another one still has to post a message. -/
theorem Peers.exists_overtakes (hd : Peers size config box tree d) (hps : Admissible size ps) (hsize : size < 2 ^ 64)
    (hbucket : config.bucketSize * 512 < 2 ^ 64) (haccepted : Accepted size box ps) (hbox : commonBox size config box ps = .ok box')
    (hthree : 3 ≤ size) : ∃ (s : Nat → ParticleSet width α) (order : Nat → List Nat),
      (∀ i < size, ParticleSet.Arranged box' config.curve (ps i).own (s i) (order i)) ∧
      ∀ cause, Leaves.roundsFrom (Global.allKeys size fun i => (s i).keys) config.bucketSize config.maxRounds config.maxRounds 0
        tree = .error cause →
        Collects size (fun i => (stages ⟨i, size⟩ : Stage width α β (Report α)).exec ⟨d i, ps i⟩)
          (fun i => (.error (.imbalance cause), ⟨d i, s i⟩)) ∧
        Overtakes size (fun i => (stages ⟨i, size⟩ : Stage width α β (Report α)).exec ⟨d i, ps i⟩)
          (.error (.imbalance cause), ⟨d 0, s 0⟩) := by
  have hpos : 0 < size := by omega
  rcases collects_gather (β := β) hd hps hpos hsize with ⟨hnot, _⟩ | ⟨_, ⟨e, herror, _⟩ |
    ⟨b, s, order, hb, hgather, harranged⟩⟩
  · exact absurd haccepted hnot
  · cases hbox.symm.trans herror
  cases hbox.symm.trans hb
  refine ⟨s, order, harranged, fun cause hcause => ?_⟩
  have hready := haccepted.ready hps harranged
  have htree : Overtakes size (fun i => ((d i).balancedTree (s i).keys : Attempt α β _).run) (.error (.imbalance cause)) := by
    have hbalance := Global.overtakes_balance (α := α) (β := β) hready.countable (fun _ => config.backend) hd.tree_valid hthree
      hbucket config.maxRounds
    rw [hcause] at hbalance
    refine Overtakes.error_bind (hbalance.congr fun i hi => ?_)
    rw [backend, hd.config_eq i hi, hd.tree_eq i hi]
  have hrefined : refinedFrom α size (Global.allKeys size fun i => (s i).keys) config.bucketSize config.maxRounds tree =
      .error (.imbalance cause) := by
    rw [refinedFrom, hcause]
    rfl
  rcases collects_distribute (β := β) hd hready box' hbucket with ⟨e, hdivided, hdistribute⟩ | ⟨_, _, _, _, _, _, hdivided, _⟩
  · cases (divided_of_error hrefined).symm.trans hdivided
    refine ⟨Stage.collects_bind hgather (Stage.collects_bind_error hdistribute), Stage.overtakes_bind hgather ?_⟩
    refine Stage.overtakes_bind_error ?_
    simp only [exec_distribute]
    exact Stage.overtakes_bind_error (Stage.overtakes_attempt htree)
  · cases (divided_of_error hrefined).symm.trans hdivided

/-! ## Three particles at one place -/

/-- The unit cube between walls, with buckets for one particle. -/
noncomputable def crowded : Config EReal := { walled 64 with bucketSize := 1 }

/-- A particle of each rank, all in the center of the cube. -/
noncomputable def centered (rank : Nat) : ParticleSet .narrow EReal := single (((1 / 2 : ℚ) : ℝ) : EReal) rank

theorem check_crowded : crowded.check = .ok () := by
  obtain ⟨_, hrest⟩ := (Config.check_eq_ok_iff _).1 (check_walled (show 0 < 64 by decide))
  exact (Config.check_eq_ok_iff _).2 ⟨Nat.one_pos, hrest⟩

theorem make_crowded : ∀ i < 3, make ⟨i, 3⟩ crowded.backend crowded = .ok (initial ⟨i, 3⟩ crowded : Subdomain .narrow EReal) :=
  fun _ hi => make_of_check check_crowded hi

theorem admissible_centered : Admissible 3 centered := admissible_single (by decide) _ (by decide)

theorem valid_centered (rank : Nat) : (centered rank).own.Valid crowded.box := valid_single (by norm_num) 64 rank

/-- Arranged in the cube, all have one key. -/
theorem exists_key_centered {s : Nat → ParticleSet .narrow EReal} {order : Nat → List Nat}
    (h : ∀ i < 3, ParticleSet.Arranged crowded.box crowded.curve (centered i).own (s i) (order i)) :
    ∃ key < Key.bound KeyWidth.narrow.depth, (Global.allKeys 3 fun i => (s i).keys) = [key, key, key] := by
  have hlt : (centered 0).keyIn crowded.box crowded.curve 0 < Key.bound KeyWidth.narrow.depth := Box.encode_lt _ _ _ _
  have hkeys : ∀ i < 3, (s i).keys = #[(centered 0).keyIn crowded.box crowded.curve 0] := fun i hi => by
    have hsize : (centered i).own.size = 1 := by rw [centered, own_single]; rfl
    obtain ⟨j, hj, hkey⟩ := (h i hi).getD_keys (i := 0) (by rw [hsize]; exact Nat.one_pos)
    have hj : j < 1 := hsize ▸ List.mem_range.1 ((h i hi).perm.mem_iff.1 (List.mem_of_getElem? hj))
    obtain rfl := Nat.lt_one_iff.1 hj
    have hlength : (s i).keys.size = 1 := (h i hi).uniform.size_keys.trans hsize
    refine Array.ext (hlength.trans rfl) fun j hj _ => ?_
    obtain rfl : j = 0 := by omega
    rw [Array.getD_eq_getD_getElem?, Array.getElem?_eq_getElem hj, Option.getD_some] at hkey
    exact hkey
  exact ⟨_, hlt, by simp [Global.allKeys, List.range_succ, hkeys]⟩

/-- So no rank gets a tree, and the first rank can find this out while another one still has to post a message. -/
theorem exists_stages_centered : ∃ (key : Nat) (s : Nat → ParticleSet .narrow EReal),
    Collects 3 (fun i => (stages ⟨i, 3⟩ : Stage .narrow EReal Exact.Symbol (Report EReal)).exec
      ⟨initial ⟨i, 3⟩ crowded, centered i⟩)
      (fun i => (.error (.imbalance (.unsplittable key 3 1)), ⟨initial ⟨i, 3⟩ crowded, s i⟩)) ∧
    Overtakes 3 (fun i => (stages ⟨i, 3⟩ : Stage .narrow EReal Exact.Symbol (Report EReal)).exec
      ⟨initial ⟨i, 3⟩ crowded, centered i⟩) (.error (.imbalance (.unsplittable key 3 1)), ⟨initial ⟨0, 3⟩ crowded, s 0⟩) := by
  have hd := peers_initial (by decide) make_crowded
  have hbucket : crowded.bucketSize * 512 < 2 ^ 64 := show 1 * 512 < 2 ^ 64 by decide
  have hwalls : ∀ a, crowded.box.boundaries.get a ≠ .unbounded := fun a => by cases a <;> exact Boundary.noConfusion
  obtain ⟨s, order, harranged, hstages⟩ := hd.exists_overtakes (β := Exact.Symbol) admissible_centered (by decide) hbucket
    ⟨fun i _ => valid_centered i, fun _ _ => rfl⟩ (Global.fitted_of_closed hd.box_valid hwalls) (by decide)
  obtain ⟨key, hkey, hkeys⟩ := exists_key_centered harranged
  have hcount : ∀ k, [key, key, key].count k = if key = k then 3 else 0 := fun k => by
    by_cases h : key = k <;> simp [h]
  obtain ⟨first, ⟨_, hmany, _⟩, hfound⟩ := Leaves.roundsFrom_of_crowded hbucket hd.tree_valid
    (show KeyWidth.narrow.depth < crowded.maxRounds from show KeyWidth.narrow.depth < 64 by decide) hkey
    (show 1 < [key, key, key].count key by rw [hcount, if_pos rfl]; decide)
  obtain rfl : key = first := by
    by_contra hne
    rw [hcount, if_neg hne] at hmany
    exact Nat.not_lt_zero _ hmany
  rw [hcount, if_pos rfl, ← hkeys] at hfound
  exact ⟨key, s, hstages _ hfound⟩

/-- If it ends the run then, it cuts the other rank off. -/
theorem exists_cut_off_centered : ∃ (key : Nat) (results : Nat → Except (Error EReal) (Report EReal) × StepState .narrow EReal),
    CompletesInTurns (β := Exact.Symbol) 3 (fun i => ⟨initial ⟨i, 3⟩ crowded, centered i⟩) results ∧
      (results 0).1 = .error (.imbalance (.unsplittable key 3 1)) ∧
      ∃ j < 3, (results j).1 = .error (.communication (.aborted 0 2)) := by
  obtain ⟨key, s, hcollects, hovertakes⟩ := exists_stages_centered
  obtain ⟨results, hrun, hzero, hcut⟩ := exists_cut_off hcollects.succeeds hovertakes rfl
  exact ⟨key, results, hrun, hzero, hcut⟩

end Subdomain

end CurvePartition
