-- SUMMARY: Programs that send to other ranks only, so that of two ranks none is cut off when the other one ends the run.
import CurvePartition.Proofs.Cluster.Ending

/-!
# Sending to others

`Program.Calls` says of what kind all calls of a program are. Exchanges send no message to the rank itself, and neither do
attempts made of them. It follows for a cluster of two ranks that a rank that is done has got all its messages: one that it is sent
later would stay in its channel. So the other rank has nothing to post any more, and when the run ends finds all that it still
has to take (`Cluster.result_of_turns_of_two`).
-/

namespace CurvePartition

open Program Relation

namespace Program

variable {Op Op' : Type} {Answer : Op → Type} {Answer' : Op' → Type} {ρ σ τ ε : Type} {kind : Op → Prop}

/-- Whether all calls of a program are of one kind. -/
def Calls (kind : Op → Prop) : Program Answer ρ → Prop
  | .done _ => True
  | .call op next => kind op ∧ ∀ a, (next a).Calls kind

namespace Calls

theorem bind {p : Program Answer ρ} {f : ρ → Program Answer σ} (h : p.Calls kind) (hf : ∀ r, (f r).Calls kind) :
    (p >>= f).Calls kind := by
  induction p with
  | done r => exact hf r
  | call op next ih => exact ⟨h.1, fun a => ih a (h.2 a)⟩

theorem expand {kind' : Op' → Prop} {handler : ∀ op, Program Answer' (Answer op)} {p : Program Answer ρ} (h : p.Calls kind)
    (hhandler : ∀ op, kind op → (handler op).Calls kind') : (p.expand handler).Calls kind' := by
  induction p with
  | done r => trivial
  | call op next ih => exact (hhandler op h.1).bind fun a => ih a (h.2 a)

section Exceptions

variable {x : ExceptT ε (Program Answer) τ}

theorem pure (a : τ) : (pure a : ExceptT ε (Program Answer) τ).run.Calls kind := trivial

theorem throw (e : ε) : (throw e : ExceptT ε (Program Answer) τ).run.Calls kind := trivial

theorem ok_bind {f : τ → ExceptT ε (Program Answer) σ} (h : x.run.Calls kind) (hf : ∀ a, (f a).run.Calls kind) :
    (x >>= f).run.Calls kind := by
  refine Calls.bind h fun r => ?_
  cases r with
  | ok a => exact hf a
  | error e => trivial

theorem forM {f : σ → ExceptT ε (Program Answer) PUnit} {l : List σ} (hf : ∀ a ∈ l, (f a).run.Calls kind) :
    (l.forM f).run.Calls kind := by
  induction l with
  | nil => trivial
  | cons a l ih => exact (hf a List.mem_cons_self).ok_bind fun _ => ih fun b hb => hf b (List.mem_cons_of_mem a hb)

theorem mapM {f : σ → ExceptT ε (Program Answer) τ} {l : List σ} (hf : ∀ a ∈ l, (f a).run.Calls kind) :
    (l.mapM f).run.Calls kind := by
  induction l with
  | nil => trivial
  | cons a l ih =>
    rw [List.mapM_cons]
    exact (hf a List.mem_cons_self).ok_bind fun _ => (ih fun b hb => hf b (List.mem_cons_of_mem a hb)).ok_bind fun _ => trivial

end Exceptions

end Calls

end Program

/-! ## Messages to other ranks -/

/-- Whether an action posts nothing to a rank. -/
def Action.NotTo {β : Type} (rank : Nat) : Action β → Prop
  | .post dest .. => dest ≠ rank
  | .take .. | .abort .. => True

/-- Whether a call sends nothing to a rank. -/
def Call.NotTo {α β : Type} (rank : Nat) : Call α β → Prop
  | .send dest .. => dest ≠ rank
  | .reduceWords .. | .reduceScalars .. | .expect .. | .receive .. | .finishSend .. | .abort .. => True

section Exchanges

variable {α β τ : Type} {place : Place} {rank : Nat}

theorem Delivery.calls_reduce (place : Place) (spell : τ → Message β) (read : Message β → τ) (combine : τ → τ → τ)
    (values : List τ) : (reduce place spell read combine values).run.Calls (Action.NotTo place.rank) := by
  unfold reduce
  split
  · exact .pure _
  · refine Calls.ok_bind (Calls.forM fun peer hpeer => ⟨(mem_peers_iff.1 hpeer).2, fun _ => trivial⟩) fun _ => ?_
    refine Calls.ok_bind (Calls.mapM fun source _ => ?_) fun _ => .pure _
    split
    · exact .pure _
    · refine Calls.ok_bind (Calls.ok_bind ⟨trivial, fun _ => trivial⟩ fun data => ?_) fun _ => .pure _
      split
      · exact .pure _
      · exact .throw _

theorem Call.calls_toActions [Scalar α] [Wire α β] (place : Place) {c : Call α β} (h : c.NotTo place.rank) :
    (c.toActions place).Calls (Action.NotTo place.rank) := by
  cases c with
  | reduceWords op values => exact Delivery.calls_reduce place _ _ _ _
  | reduceScalars op values => exact Delivery.calls_reduce place _ _ _ _
  | expect => trivial
  | send dest tag data => exact ⟨h, fun _ => trivial⟩
  | receive source tag length =>
    refine Calls.ok_bind ⟨trivial, fun _ => trivial⟩ fun data => ?_
    split
    · exact .pure _
    · exact .throw _
  | finishSend => trivial
  | abort code => exact ⟨trivial, fun _ => trivial⟩

namespace Exchange

/-- A reduction is a call of its own, and up to the communicator. -/
theorem calls_reduceWords (op : Reduction) (values : List Nat) :
    (reduceWords op values : Exchange α β _).run.Calls (Call.NotTo rank) := ⟨trivial, fun _ => trivial⟩

theorem calls_reduceScalars (op : Reduction) (values : List α) :
    (reduceScalars op values : Exchange α β _).run.Calls (Call.NotTo rank) := ⟨trivial, fun _ => trivial⟩

theorem calls_messages (tag : Int) {outgoing : List (Nat × Message β)} (incoming : List (Nat × Nat))
    (h : ∀ p ∈ outgoing, p.1 ≠ rank) : (messages tag outgoing incoming : Exchange α β _).run.Calls (Call.NotTo rank) := by
  refine Calls.ok_bind (Calls.forM fun _ _ => ⟨trivial, fun _ => trivial⟩) fun _ => ?_
  refine Calls.ok_bind (Calls.forM fun p hp => ⟨h p (List.mem_filter.1 hp).1, fun _ => trivial⟩) fun _ => ?_
  refine Calls.ok_bind (Calls.mapM fun p _ => ?_) fun _ => ?_
  · dsimp only
    split
    · exact ⟨trivial, fun _ => trivial⟩
    · exact .pure _
  · exact Calls.ok_bind (Calls.forM fun _ _ => ⟨trivial, fun _ => trivial⟩) fun _ => .pure _

/-- Messages for the other ranks only. -/
theorem calls_messages_peers (tag : Int) (data : Nat → Message β) (incoming : List (Nat × Nat)) :
    (messages tag (place.peers.map fun peer => (peer, data peer)) incoming : Exchange α β _).run.Calls (Call.NotTo place.rank) := by
  refine calls_messages tag incoming fun p hp => ?_
  obtain ⟨peer, hpeer, rfl⟩ := List.mem_map.1 hp
  exact (Delivery.mem_peers_iff.1 hpeer).2

theorem calls_counts [Wire α β] (place : Place) (values : List Nat) :
    (counts place values : Exchange α β _).run.Calls (Call.NotTo place.rank) :=
  (calls_messages_peers _ _ _).ok_bind fun _ => .pure _

end Exchange

theorem Attempt.calls_exchange {e : Exchange α β τ} (h : e.run.Calls (Call.NotTo rank)) :
    (Attempt.exchange e).run.Calls (Call.NotTo rank) :=
  h.bind fun r => by cases r <;> trivial

end Exchanges

/-! ## Two ranks -/

section Two

variable {β ρ : Type} {n : Nat} {d e : Net β ρ} {dest source i : Nat} {tag : Int} {q : Channels β} {results : List ρ}

/-- A message for a rank that is done stays in its channel. -/
theorem Net.Run.queue_ne_nil (h : Net.Run n d e) (hdone : ∀ a next, d.ranks[dest]? ≠ some (.call a next))
    (hq : d.channels.queue source dest tag ≠ []) : e.channels.queue source dest tag ≠ [] := by
  induction h with
  | refl => exact hq
  | @act _ i _ _ _ first _ ih =>
    cases first with
    | @act q q' ranks a next x program acts =>
      have hne : i ≠ dest := fun heq => hdone a next (heq ▸ program)
      refine ih (fun a next => by rw [List.getElem?_set_ne hne]; exact hdone a next) ?_
      cases acts with
      | reject => exact hq
      | @post dest' tag' data valid =>
        by_cases heq : source = i ∧ dest = dest' ∧ tag = tag'
        · obtain ⟨rfl, rfl, rfl⟩ := heq
          rw [Channels.queue_set_self]
          exact List.append_ne_nil_of_right_ne_nil _ (List.cons_ne_nil _ _)
        · rw [Channels.queue_set_of_ne _ _ heq]
          exact hq
      | take waiting =>
        rw [Channels.queue_set_of_ne _ _ fun heq => hne heq.2.1.symm]
        exact hq

namespace Cluster

variable {c c' : Cluster β ρ} {k : ρ → Program (Action.Answer : Action β → Type) ρ}

/-- Of two ranks none is cut off, if all messages are taken in the end. -/
theorem stops_of_two {size : Nat} (h : Trails k (fun _ _ => False) c d) (hrun : Net.Run n d (Net.finished (.empty size) results))
    (htwo : d.ranks.length ≤ 2) (hothers : ∀ (i : Nat) p, d.ranks[i]? = some p → p.Calls (Action.NotTo i)) :
    Stops (fun _ _ => False) c.mail d := by
  intro i a next x s code program hended _ hblocked
  exfalso
  obtain ⟨r, _, hs, _⟩ := h.ender hended
  have hi := (List.getElem?_eq_some_iff.1 program).1
  have hother : ∀ j b next', d.ranks[j]? = some (.call b next') → j = i := fun j b next' hj => by
    have hjs : j ≠ s := fun heq => by
      subst heq
      cases hj.symm.trans hs
    have his : i ≠ s := fun heq => by
      subst heq
      cases program.symm.trans hs
    have hj := (List.getElem?_eq_some_iff.1 hj).1
    have hs := (List.getElem?_eq_some_iff.1 hs).1
    omega
  -- So the next action of the net is the one that failed.
  cases hrun with
  | refl =>
    rw [Net.finished, List.getElem?_map, Option.map_eq_some_iff] at program
    obtain ⟨_, _, hr⟩ := program
    cases hr
  | @act _ j _ _ _ first rest =>
    cases first with
    | @act q₁ q₂ ranks b next' y program' acts =>
      obtain rfl := hother j b next' program'
      cases program.symm.trans program'
      rcases hblocked with ⟨dest, tag, data, rfl, hvalid⟩ | hnot
      · have hne : j ≠ dest := Ne.symm (hothers j _ program).1
        cases acts with
        | reject _ _ invalid => exact absurd hvalid (Nat.not_lt.2 invalid)
        | post _ _ valid =>
          have hstays : (Channels.empty size : Channels β).queue j dest tag ≠ [] := by
            refine rest.queue_ne_nil (fun b next' hdest => ?_) ?_
            · rw [List.getElem?_set_ne hne] at hdest
              exact hne (hother dest b next' hdest).symm
            · rw [Channels.queue_set_self]
              exact List.append_ne_nil_of_right_ne_nil _ (List.cons_ne_nil _ _)
          exact hstays rfl
      · exact hnot _ _ acts

variable {ps : List (Program (Action.Answer : Action β → Type) ρ)}

/-- On no more than two ranks every rank that is done has its result of the net, if no rank sends anything to itself. -/
theorem result_of_turns_of_two {size : Nat} (hk : Closes k) (hended : c.mail.ended = none) (hranks : c.ranks = ps.map (· >>= k))
    (hrun : Net.Run n ⟨c.mail.channels, ps⟩ (Net.finished (.empty size) results)) (htwo : ps.length ≤ 2)
    (hothers : ∀ (i : Nat) p, ps[i]? = some p → p.Calls (Action.NotTo i)) (hturns : ReflTransGen Turn c c') {r : ρ}
    (hdone : c'.ranks[i]? = some (.done r)) : results[i]? = some r := by
  obtain ⟨d, m, hrun', h⟩ : ∃ d m, Net.Run m d (Net.finished (.empty size) results) ∧ Trails k (fun _ _ => False) c' d := by
    refine Trails.turns (fun d => d.ranks.length ≤ 2 ∧ ∀ (i : Nat) p, d.ranks[i]? = some p → p.Calls (Action.NotTo i)) hk
      (fun i d d' hd hact => ⟨?_, forall_rank_of_act _ (fun _ _ _ x h => h.2 x) hact hd.2⟩)
      (fun c d n hd htrails hrun => stops_of_two htrails hrun hd.1 hd.2) (.start hended hranks) hrun ⟨htwo, hothers⟩ hturns
    cases hact
    rw [List.length_set]
    exact hd.1
  rcases h.result_eq hk hrun' hdone with hresult | ⟨_, _, _, _, _, _, _, hfalse⟩
  · exact hresult
  · exact hfalse.elim

end Cluster

end Two

end CurvePartition
