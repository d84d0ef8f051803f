-- SUMMARY: On three or more ranks the first one can be done with a reduction while another one still has a message to post, which it cannot if the run is ended.
import CurvePartition.Proofs.Cluster.Ending

/-!
# Ranks that overtake others

A rank is done with a reduction when it has the contributions of all ranks. Each of them may still have to post its contribution
to other ranks (`Delivery.overtaking_reduce`). If the first rank ends the run now, these posts fail, and the ranks that make
them are cut off (`Cluster.exists_cut_off`).
-/

namespace CurvePartition

open Program Relation

variable {β ρ σ τ : Type} {size : Nat}

/-- Whether the first rank can come to a result while another rank still has to post a message. -/
def Overtaking (size : Nat) (ps : Nat → Program (Action.Answer : Action β → Type) ρ) (r : ρ) : Prop :=
  ∃ n d, Net.Run n ⟨.empty size, (List.range size).map ps⟩ d ∧ d.ranks[0]? = some (.done r) ∧
    ∃ (j dest : Nat) (tag : Int) (data : Message β) (next : Except CommError Unit → Program Action.Answer ρ),
      d.ranks[j]? = some (.call (.post dest tag data) next) ∧ dest < size

section Compose

variable {ps : Nat → Program (Action.Answer : Action β → Type) σ} {k : Nat → σ → Program (Action.Answer : Action β → Type) ρ}

theorem Overtaking.congr {ps' : Nat → Program (Action.Answer : Action β → Type) σ} {r : σ} (h : Overtaking size ps r)
    (hps : ∀ i < size, ps' i = ps i) : Overtaking size ps' r := by
  have hmap : (List.range size).map ps' = (List.range size).map ps :=
    List.map_congr_left fun i hi => hps i (List.mem_range.1 hi)
  rw [Overtaking, hmap]
  exact h

/-- What the first rank does on its own with its result. -/
theorem Overtaking.bind {r : σ} {r' : ρ} (h : Overtaking size ps r) (hk : k 0 r = .done r') :
    Overtaking size (fun i => ps i >>= k i) r' := by
  obtain ⟨n, d, hrun, hzero, j, dest, tag, data, next, hj, hdest⟩ := h
  have hbind := hrun.bind k
  rw [mapIdx_map_range] at hbind
  refine ⟨n, _, hbind, ?_, j, dest, tag, data, fun x => next x >>= k j, ?_, hdest⟩
  · rw [List.getElem?_mapIdx, hzero]
    exact congrArg some hk
  · rw [List.getElem?_mapIdx, hj]
    rfl

/-- What all ranks do together before. -/
theorem Collective.overtaking {rs : Nat → σ} {r : ρ} (h : Collective size ps rs) (h' : Overtaking size (fun i => k i (rs i)) r) :
    Overtaking size (fun i => ps i >>= k i) r := by
  obtain ⟨m, hfront⟩ := h ρ k
  obtain ⟨n, d, hrun, hrest⟩ := h'
  exact ⟨m + n, d, hfront.trans hrun, hrest⟩

/-- The result is the one of all runs. -/
theorem Overtaking.eq_of_collective {rs : Nat → σ} {r : σ} (h : Overtaking size ps r) (h' : Collective size ps rs) : r = rs 0 := by
  obtain ⟨n, d, hrun, hzero, _⟩ := h
  obtain ⟨m, hall⟩ := h'.exists_run
  obtain ⟨n', hrest⟩ := hall.after hrun
  exact (getElem?_map_range.1 (hrest.results_eq hzero)).2.symm

end Compose

/-! ## The other rank is cut off -/

theorem Net.Run.size_eq {n : Nat} {d e : Net β ρ} (h : Net.Run n d e) : e.channels.size = d.channels.size := by
  induction h with
  | refl => rfl
  | act first _ ih =>
    cases first with
    | act _ acts => exact ih.trans acts.size_eq

namespace Cluster

variable {ps : Nat → Program (Action.Answer : Action β → Type) ρ} {k : ρ → Program (Action.Answer : Action β → Type) ρ}
  {failed : CommError → ρ → Prop} {r : ρ} {code : Int}

/-- If the first rank ends the run as soon as it has its result, some other rank fails. -/
theorem exists_turns_of_overtaking (h : Overtaking size ps r) (hr : k r = .call (.abort code) fun _ => .done r)
    (hfast : ∀ i < size, (ps i).FailsFast Action.failure failed) :
    ∃ c' : Cluster β ρ, ReflTransGen Turn (start ((List.range size).map fun i => ps i >>= k)) c' ∧
      c'.ranks[0]? = some (.done r) ∧ ∃ (j : Nat) (r' : ρ), c'.ranks[j]? = some (k r') ∧ failed (.aborted 0 code) r' := by
  obtain ⟨n, d, hrun, hzero, j, dest, tag, data, next, hj, hdest⟩ := h
  have hne : 0 ≠ j := fun heq => by
    subst heq
    cases hzero.symm.trans hj
  have hbind := hrun.bind fun _ => k
  rw [mapIdx_map_range] at hbind
  obtain ⟨c, hturns, hnet, hended⟩ := Cluster.exists_turns
    (c := .start ((List.range size).map fun i => ps i >>= k)) (d := ⟨d.channels, d.ranks.mapIdx fun _ p => p >>= k⟩) rfl (by
      rw [net, start, Mail.channels_empty, List.length_map, List.length_range]
      exact hbind)
  have hranks : c.ranks = d.ranks.mapIdx fun _ p => p >>= k := congrArg Net.ranks hnet
  have hsize : c.mail.size = size := (congrArg (fun e : Net β ρ => e.channels.size) hnet).trans hrun.size_eq
  -- The first rank ends the run.
  have hfirst : c.ranks[0]? = some (.call (.abort code) fun _ => .done r) := by
    rw [hranks, List.getElem?_mapIdx, hzero]
    exact congrArg some hr
  have habort : Turn c ⟨c.mail.abort 0 code, c.ranks.set 0 (.done r)⟩ := turn_iff.2 ⟨0, .abort code, _, (), _, hfirst, rfl, rfl⟩
  have habout : (c.mail.abort 0 code).ended = some (0, code) := by
    rw [Mail.abort, hended]
    rfl
  -- So the other one cannot post its message.
  have hpost : (c.ranks.set 0 (.done r))[j]? = some (.call (.post dest tag data) fun x => next x >>= k) := by
    rw [List.getElem?_set_ne hne, hranks, List.getElem?_mapIdx, hj]
    rfl
  have hfails : Turn ⟨c.mail.abort 0 code, c.ranks.set 0 (.done r)⟩
      ⟨c.mail.abort 0 code, (c.ranks.set 0 (.done r)).set j (next (.error (.aborted 0 code)) >>= k)⟩ :=
    turn_iff.2 ⟨j, .post dest tag data, _, .error (.aborted 0 code), _, hpost,
      Mail.act_post_of_ended habout (Nat.lt_of_lt_of_eq hdest hsize.symm) data, rfl⟩
  have hprogram : (Program.call (.post dest tag data) next).FailsFast Action.failure failed :=
    forall_rank_of_run (fun _ p => p.FailsFast Action.failure failed) (fun _ _ _ x h => h.next x) hrun
      (fun i p hp => by
        obtain ⟨hi, rfl⟩ := getElem?_map_range.1 hp
        exact hfast i hi) j _ hj
  obtain ⟨r', hr', hfailed⟩ : ∃ r', next (.error (.aborted 0 code)) = .done r' ∧ failed (.aborted 0 code) r' := by
    cases hprogram with
    | call _ _ _ stops => exact stops _ _ rfl
  refine ⟨_, (hturns.tail habort).tail hfails, ?_, j, r', ?_, hfailed⟩
  · rw [List.getElem?_set_ne hne.symm, List.getElem?_set_self (List.getElem?_eq_some_iff.1 hfirst).1]
  · rw [List.getElem?_set_self (List.getElem?_eq_some_iff.1 hpost).1, hr']
    rfl

/-- Then the ranks can be done with a rank among them that was cut off. -/
theorem exists_cut_off (hk : Closes k) (h : Overtaking size ps r) (hr : k r = .call (.abort code) fun _ => .done r)
    (hfast : ∀ i < size, (ps i).FailsFast Action.failure failed)
    (hstuck : (start ((List.range size).map fun i => ps i >>= k) : Cluster β ρ).NeverStuck) :
    ∃ c' : Cluster β ρ, ReflTransGen Turn (start ((List.range size).map fun i => ps i >>= k)) c' ∧ c'.AllDone ∧
      c'.ranks[0]? = some (.done r) ∧ ∃ (j : Nat) (r' : ρ), c'.ranks[j]? = some (.done r') ∧ failed (.aborted 0 code) r' := by
  obtain ⟨c, hturns, hzero, j, r', hj, hfailed⟩ := exists_turns_of_overtaking h hr hfast
  obtain ⟨c', hrest, hdone⟩ := hstuck.exists_allDone hturns
  have hevery : (k r').Every (· = r') := by
    rcases hk r' with heq | ⟨code', heq⟩
    · rw [heq]
      rfl
    · rw [heq]
      exact fun _ => rfl
  obtain ⟨p, hp, hr'⟩ := every_of_steps (steps_of_turns hrest) hj hevery
  obtain ⟨r'', rfl⟩ := hdone p (List.mem_of_getElem? hp)
  obtain rfl : r'' = r' := hr'
  exact ⟨c', hturns.trans hrest, hdone, done_of_turns hrest hzero, j, r'', hp, hfailed⟩

end Cluster

/-! ## Reductions -/

namespace Delivery

/-- All other ranks have the first one as their first peer. -/
theorem exists_peers_eq_cons {i : Nat} (hpos : 0 < i) (hi : i < size) : ∃ rest, (Place.mk i size).peers = 0 :: rest := by
  cases size with
  | zero => exact absurd hi (Nat.not_lt_zero i)
  | succ n =>
    rw [Place.peers, List.range_succ_eq_map, List.filter_cons_of_pos (by simpa using Nat.ne_of_lt hpos)]
    exact ⟨_, rfl⟩

/-- On three or more ranks another one comes behind it. -/
theorem exists_peers_eq_cons_cons {i : Nat} (hpos : 0 < i) (hi : i < size) (hthree : 3 ≤ size) :
    ∃ dest < size, ∃ rest, (Place.mk i size).peers = 0 :: dest :: rest := by
  obtain ⟨rest, hrest⟩ := exists_peers_eq_cons hpos hi
  obtain ⟨third, hthird, hne, hnei⟩ : ∃ third < size, third ≠ 0 ∧ third ≠ i := by
    by_cases hone : i = 1
    · exact ⟨2, by omega, by omega, by omega⟩
    · exact ⟨1, by omega, by omega, by omega⟩
  have hmem : third ∈ 0 :: rest := hrest ▸ mem_peers_iff.2 ⟨hthird, hnei⟩
  cases rest with
  | nil => exact absurd (List.mem_singleton.1 hmem) hne
  | cons dest rest =>
    have hdest : dest ∈ (Place.mk i size).peers := hrest ▸ List.mem_cons_of_mem _ List.mem_cons_self
    exact ⟨dest, (mem_peers_iff.1 hdest).1, rest, hrest⟩

section Reduce

variable (spell : τ → Message β) (read : Message β → τ) (combine : τ → τ → τ) (values : Nat → List τ)

/-- What a rank posts to the first rank in a reduction. -/
def toFirst (i : Nat) : List (Nat × Message β) := if i = 0 then [] else [(0, (values i).flatMap spell)]

/-- What it posts to the others. -/
def toOthers (size i : Nat) : List (Nat × Message β) :=
  (if i = 0 then (Place.mk i size).peers else (Place.mk i size).peers.tail).map fun peer => (peer, (values i).flatMap spell)

/-- What it does when it has posted. -/
def combined (size i : Nat) : Delivery β (List τ) := do
  let contributions ← (List.range size).mapM fun source =>
    if source = i then return values i
    else do
      let data ← takeSized source reductionTag ((values i).flatMap spell).length
      return (Wire.chunks Wire.wordWidth (values i).length data).map read
  return combineAll combine contributions

/-- What it does when it has posted to the first rank. -/
def afterFirst (size i : Nat) : Delivery β (List τ) := do
  (toOthers spell values size i).forM fun p => post p.1 reductionTag p.2
  combined spell read combine values size i

variable {values}

theorem reduce_eq_toFirst {i : Nat} (hi : i < size) (hone : size ≠ 1) : reduce ⟨i, size⟩ spell read combine (values i) =
    (toFirst spell values i).forM (fun p => post p.1 reductionTag p.2) >>= fun _ =>
      afterFirst spell read combine values size i := by
  have hposts : (Place.mk i size).peers.map (fun peer => (peer, (values i).flatMap spell)) =
      toFirst spell values i ++ toOthers spell values size i := by
    unfold toFirst toOthers
    by_cases hzero : i = 0
    · rw [if_pos hzero, if_pos hzero, List.nil_append]
    · obtain ⟨rest, hrest⟩ := exists_peers_eq_cons (Nat.pos_of_ne_zero hzero) hi
      rw [if_neg hzero, if_neg hzero, hrest]
      rfl
  have hforM : (Place.mk i size).peers.forM (fun peer => post peer reductionTag ((values i).flatMap spell)) =
      (toFirst spell values i).forM (fun p => post p.1 reductionTag p.2) >>= fun _ =>
        (toOthers spell values size i).forM (fun p => post p.1 reductionTag p.2) := by
    simp only [List.forM_eq_forM]
    rw [← List.forM_append, ← hposts, List.forM_map]
  rw [reduce, if_neg hone]
  dsimp only
  rw [hforM, LawfulMonad.bind_assoc]
  rfl

/-- On three or more ranks the second one then has to post to a third one. -/
theorem exists_afterFirst_eq_post (hthree : 3 ≤ size) : ∃ dest < size, ∃ next,
    (afterFirst spell read combine values size 1).run = .call (.post dest reductionTag ((values 1).flatMap spell)) next := by
  obtain ⟨dest, hdest, rest, hpeers⟩ := exists_peers_eq_cons_cons (i := 1) Nat.one_pos (by omega) hthree
  have hothers : toOthers spell values size 1 = (dest, (values 1).flatMap spell) ::
      rest.map fun peer => (peer, (values 1).flatMap spell) := by
    rw [toOthers, if_neg Nat.one_ne_zero, hpeers]
    rfl
  rw [afterFirst, hothers]
  exact ⟨dest, hdest, _, rfl⟩

end Reduce

/-- When all others have posted to the first rank, it is done without them. -/
theorem solo_first (spell : τ → Message β) (read : Message β → τ) (combine : τ → τ → τ) {values : Nat → List τ} {n : Nat}
    (hlength : ∀ i < size, (values i).length = n) (hspell : ∀ i < size, ∀ v ∈ values i, (spell v).length = Wire.wordWidth)
    (hpos : 0 < size) : ∃ q r, Solo 0
      (.ofTable size reductionTag fun s d => if s < size then paired (toFirst spell values s) d else [])
      (afterFirst spell read combine values size 0).run q (.ok r) := by
  have hdest : ∀ p ∈ toOthers spell values size 0, p.1 < size := fun p hp => by
    rw [toOthers, if_pos rfl] at hp
    obtain ⟨peer, hpeer, rfl⟩ := List.mem_map.1 hp
    exact (mem_peers_iff.1 hpeer).1
  have htakes : Solo 0 (.ofTable size reductionTag fun s d => if s = 0 then
        (if s < size then paired (toFirst spell values s) d else []) ++ paired (toOthers spell values size 0) d
        else if s < size then paired (toFirst spell values s) d else [])
      ((List.range size).mapM fun source => if source = 0 then pure (values 0) else do
        let data ← takeSized source reductionTag ((values 0).flatMap spell).length
        return (Wire.chunks Wire.wordWidth (values 0).length data).map read).run _
      (.ok ((List.range size).map fun s => if s = 0 then values s else (values s).map fun v => read (spell v))) :=
    @solo_takes _ _ _ _ _ _ _ (fun s => if s = 0 then none else some (s, (values s).flatMap spell)) _ _ _
      (fun s _ hnone => ?_) (fun s hs s' m hsome q rest hq => ?_) fun s => ?_
  · exact ⟨_, _, (solo_posts (toOthers spell values size 0) hdest _).ok_bind (htakes.ok_bind (.pure _ _))⟩
  · have hs : s = 0 := by
      by_contra hne
      rw [if_neg hne] at hnone
      cases hnone
    rw [if_pos hs, if_pos hs, hs]
    rfl
  · have hne : s ≠ 0 := fun heq => by
      rw [if_pos heq] at hsome
      cases hsome
    rw [if_neg hne, Option.some.injEq, Prod.mk.injEq] at hsome
    obtain ⟨rfl, rfl⟩ := hsome
    rw [if_neg hne, if_neg hne]
    exact solo_contribution hlength hspell hpos (List.mem_range.1 hs) hq
  · rw [filterMap_eq_peers, paired_map_of_nodup (nodup_peers _) fun s => (values s).flatMap spell]
    by_cases hs : s = 0
    · subst hs
      have hself : 0 ∉ (Place.mk 0 size).peers := fun h => (mem_peers_iff.1 h).2 rfl
      rw [if_pos rfl, if_pos hpos, toFirst, if_pos rfl, toOthers, if_pos rfl,
        paired_map_of_nodup (nodup_peers _) fun _ => (values 0).flatMap spell, if_neg hself]
      rfl
    · rw [if_neg hs, toFirst, if_neg hs]
      by_cases hlt : s < size
      · rw [if_pos hlt, if_pos (mem_peers_iff.2 ⟨hlt, hs⟩), paired_cons, if_pos rfl, paired_nil]
      · rw [if_neg hlt, if_neg fun h => hlt (mem_peers_iff.1 h).1]

/-- Once all have posted to the first rank, it has what it needs, while the others still have to post to each other. -/
theorem overtaking_reduce (spell : τ → Message β) (read : Message β → τ) (combine : τ → τ → τ) {values : Nat → List τ} {n : Nat}
    (hlength : ∀ i < size, (values i).length = n) (hspell : ∀ i < size, ∀ v ∈ values i, (spell v).length = Wire.wordWidth)
    (hthree : 3 ≤ size) : ∃ r, Overtaking size (fun i => (reduce ⟨i, size⟩ spell read combine (values i)).run) (.ok r) := by
  have hpos : 0 < size := by omega
  have hdest : ∀ i < size, ∀ p ∈ toFirst spell values i, p.1 < size := fun i _ p hp => by
    unfold toFirst at hp
    split at hp
    · cases hp
    · rw [List.mem_singleton.1 hp]
      exact hpos
  -- The others post to the first rank, which then goes on alone.
  obtain ⟨m, hm⟩ := exists_run_of_solo (fun i hi => solo_posts_turn reductionTag (toFirst spell values) (hdest i hi)) fun i r =>
    ExceptT.bindCont (fun _ => afterFirst spell read combine values size i) r
  obtain ⟨q, r, hsolo⟩ := solo_first spell read combine hlength hspell hpos
  have hfirst : ((List.range size).map fun i => (afterFirst spell read combine values size i).run)[0]? =
      some ((afterFirst spell read combine values size 0).run >>= Program.done) := by
    rw [List.getElem?_map, List.getElem?_range hpos, bind_done]
    rfl
  obtain ⟨m', hm'⟩ := hsolo.run Program.done hfirst
  have hstart : (Channels.ofTable size reductionTag fun s d => if s < 0 then paired (toFirst spell values s) d else []) =
      .empty size := by simp
  have hprograms : ((List.range size).map fun i => (reduce ⟨i, size⟩ spell read combine (values i)).run) =
      (List.range size).map fun i => ((toFirst spell values i).forM fun p => post p.1 reductionTag p.2).run >>= fun r =>
        ExceptT.bindCont (fun _ => afterFirst spell read combine values size i) r := List.map_congr_left fun i hi => by
    rw [reduce_eq_toFirst spell read combine (List.mem_range.1 hi) (by omega)]
    rfl
  rw [hstart, ← hprograms] at hm
  obtain ⟨dest, hdest, next, hnext⟩ := exists_afterFirst_eq_post spell read combine hthree
  refine ⟨r, _, _, hm.trans hm', ?_, 1, dest, reductionTag, (values 1).flatMap spell, next, ?_, hdest⟩
  · rw [List.getElem?_set_self (by simpa using hpos)]
  · rw [List.getElem?_set_ne Nat.zero_ne_one, List.getElem?_map, List.getElem?_range (by omega), Option.map_some, hnext]

end Delivery

/-! ## Programs of calls -/

section Calls

variable {α : Type} [Scalar α] [Wire α β]

/-- Whether of programs of calls the first one can come to a result while another rank still has to post a message. -/
def Overtakes (size : Nat) (ps : Nat → Program (Call.Answer : Call α β → Type) ρ) (r : ρ) : Prop :=
  Overtaking size (fun i => (ps i).expand (Call.toActions ⟨i, size⟩)) r

namespace Overtakes

variable {ps : Nat → Program (Call.Answer : Call α β → Type) σ} {k : Nat → σ → Program (Call.Answer : Call α β → Type) ρ} {r : σ}

theorem congr {ps' : Nat → Program (Call.Answer : Call α β → Type) σ} (h : Overtakes size ps r) (hps : ∀ i < size, ps' i = ps i) :
    Overtakes size ps' r := Overtaking.congr h fun i hi => by rw [hps i hi]

theorem bind {r' : ρ} (h : Overtakes size ps r) (hk : k 0 r = .done r') : Overtakes size (fun i => ps i >>= k i) r' := by
  unfold Overtakes
  simp only [expand_bind]
  exact Overtaking.bind (k := fun i r => (k i r).expand (Call.toActions ⟨i, size⟩)) h (by
    rw [hk]
    rfl)

theorem ok_bind {ε : Type} {xs : Nat → ExceptT ε (Program (Call.Answer : Call α β → Type)) σ}
    {f : Nat → σ → ExceptT ε (Program (Call.Answer : Call α β → Type)) ρ} {a : σ} {r' : Except ε ρ}
    (h : Overtakes size (fun i => (xs i).run) (.ok a)) (hf : (f 0 a).run = .done r') :
    Overtakes size (fun i => (xs i >>= f i).run) r' := bind h hf

theorem error_bind {ε : Type} {xs : Nat → ExceptT ε (Program (Call.Answer : Call α β → Type)) σ}
    {f : Nat → σ → ExceptT ε (Program (Call.Answer : Call α β → Type)) ρ} {e : ε}
    (h : Overtakes size (fun i => (xs i).run) (.error e)) : Overtakes size (fun i => (xs i >>= f i).run) (.error e) := bind h rfl

theorem eq_of_collects {rs : Nat → σ} (h : Overtakes size ps r) (h' : Collects size ps rs) : r = rs 0 :=
  Overtaking.eq_of_collective h h'

end Overtakes

theorem Collects.overtakes {ps : Nat → Program (Call.Answer : Call α β → Type) σ} {rs : Nat → σ}
    {k : Nat → σ → Program (Call.Answer : Call α β → Type) ρ} {r : ρ} (h : Collects size ps rs)
    (h' : Overtakes size (fun i => k i (rs i)) r) : Overtakes size (fun i => ps i >>= k i) r := by
  unfold Overtakes
  simp only [expand_bind]
  exact Collective.overtaking h h'

theorem Exchange.overtakes_reduceWords [Wire.LawfulWords α β] (op : Reduction) {values : Nat → List Nat} {n : Nat}
    (hlength : ∀ i < size, (values i).length = n) (hthree : 3 ≤ size) :
    ∃ r, Overtakes size (fun i => (Exchange.reduceWords op (values i) : Exchange α β (List Nat)).run) (.ok r) := by
  obtain ⟨r, h⟩ := Delivery.overtaking_reduce (Wire.spellWord α Wire.wordWidth) (Wire.readWord α) op.words hlength
    (fun _ _ _ _ => Wire.LawfulWords.length_spellWord _ _) hthree
  exact ⟨r, Overtaking.congr h fun i _ => expand_perform _ _⟩

end Calls

end CurvePartition
