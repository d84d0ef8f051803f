-- SUMMARY: Messages between single ranks: when all ranks send and receive together, every message arrives as it was sent.
import CurvePartition.Proofs.Cluster.Exchanges

/-!
# Messages between ranks

`Exchange.deliver` replaces the calls of an exchange by actions on the mail and is compatible with composition, so an
exchange is delivered part by part. In `Exchange.messages` every rank posts its full messages and then takes those for
it, which is one round (`collective_round`). Each rank gets what was sent to it, in the order of what it expects
(`Exchange.collects_messages_of_paired`).
-/

namespace CurvePartition

open Program

variable {α β σ τ : Type} [Scalar α] [Wire α β] {size : Nat}

namespace Exchange

/-- An exchange of a rank as actions on the mail. -/
def deliver (place : Place) (e : Exchange α β τ) : Delivery β τ := ExceptT.mk (e.run.expand (Call.toActions place))

theorem deliver_pure (place : Place) (a : τ) : deliver place (pure a : Exchange α β τ) = pure a := rfl

theorem deliver_bind (place : Place) (e : Exchange α β σ) (f : σ → Exchange α β τ) :
    deliver place (e >>= f) = deliver place e >>= fun a => deliver place (f a) := by
  refine (expand_bind (Call.toActions place) e.run _).trans (congrArg _ (funext fun r => ?_))
  cases r <;> rfl

theorem deliver_forM (place : Place) (f : σ → Exchange α β PUnit) (l : List σ) :
    deliver place (l.forM f) = l.forM fun a => deliver place (f a) := by
  induction l with
  | nil => rfl
  | cons a l ih =>
    refine (deliver_bind place (f a) fun _ => l.forM f).trans ?_
    rw [ih]
    rfl

theorem deliver_mapM (place : Place) (f : σ → Exchange α β τ) (l : List σ) :
    deliver place (l.mapM f) = l.mapM fun a => deliver place (f a) := by
  induction l with
  | nil => rfl
  | cons a l ih =>
    rw [List.mapM_cons, List.mapM_cons, deliver_bind]
    refine congrArg _ (funext fun b => ?_)
    rw [deliver_bind, ih]
    rfl

theorem deliver_send (place : Place) (dest : Nat) (tag : Int) (data : Message β) :
    deliver place (send (α := α) dest tag data) = Delivery.post dest tag data :=
  expand_perform (Call.toActions place) (Call.send dest tag data)

theorem deliver_receive (place : Place) (source : Nat) (tag : Int) (length : Nat) :
    deliver place (receive (α := α) (β := β) source tag length) = Delivery.takeSized source tag length :=
  expand_perform (Call.toActions place) (Call.receive source tag length)

theorem deliver_expect {place : Place} {source : Nat} (h : source < place.size) (tag : Int) (length : Nat) :
    deliver place (expect (α := α) (β := β) source tag length) = pure () := by
  refine (expand_perform (Call.toActions place) (Call.expect source tag length)).trans ?_
  exact congrArg Program.done (if_neg (Nat.not_le.2 h))

theorem deliver_finishSend (place : Place) (dest : Nat) (tag : Int) :
    deliver place (finishSend (α := α) (β := β) dest tag) = pure () :=
  expand_perform (Call.toActions place) (Call.finishSend dest tag)

/-- Nothing is left of parts that need no actions. -/
theorem forM_pure (l : List σ) {f : σ → Delivery β PUnit} (h : ∀ a ∈ l, f a = pure ⟨⟩) : l.forM f = pure ⟨⟩ := by
  induction l with
  | nil => rfl
  | cons a l ih =>
    refine (congrArg (· >>= fun _ => l.forM f) (h a List.mem_cons_self)).trans ?_
    exact ih fun b hb => h b (List.mem_cons_of_mem a hb)

/-- What is left of messages: a rank posts its full messages, and then takes those for it. -/
theorem deliver_messages (place : Place) (tag : Int) (outgoing : List (Nat × Message β)) {incoming : List (Nat × Nat)}
    (hincoming : ∀ p ∈ incoming, 0 < p.2 → p.1 < place.size) : deliver place (messages (α := α) tag outgoing incoming) =
      (outgoing.filter (!·.2.isEmpty)).forM (fun p => Delivery.post p.1 tag p.2) >>= fun _ =>
        incoming.mapM fun p => if 0 < p.2 then Delivery.takeSized p.1 tag p.2 else pure [] := by
  have hexpect : (incoming.filter (0 < ·.2)).forM (fun p => deliver place (expect (α := α) (β := β) p.1 tag p.2)) =
      pure ⟨⟩ :=
    forM_pure _ fun p hp =>
      deliver_expect (hincoming p (List.mem_filter.1 hp).1 (of_decide_eq_true (List.mem_filter.1 hp).2)) tag p.2
  have hfinish : (outgoing.filter (!·.2.isEmpty)).forM (fun p => deliver place (finishSend (α := α) (β := β) p.1 tag)) =
      pure ⟨⟩ :=
    forM_pure _ fun p _ => deliver_finishSend place p.1 tag
  have hsend : (fun p : Nat × Message β => deliver place (send (α := α) p.1 tag p.2)) =
      fun p => Delivery.post p.1 tag p.2 :=
    funext fun p => deliver_send place p.1 tag p.2
  have hreceive : (fun p : Nat × Nat => deliver place (if 0 < p.2 then receive (α := α) p.1 tag p.2 else return [])) =
      fun p => if 0 < p.2 then Delivery.takeSized p.1 tag p.2 else pure [] := by
    refine funext fun p => ?_
    split
    · exact deliver_receive place p.1 tag p.2
    · rfl
  unfold messages
  rw [deliver_bind, deliver_forM, hexpect, pure_bind, deliver_bind, deliver_forM, hsend]
  refine congrArg _ (funext fun _ => ?_)
  rw [deliver_bind, deliver_mapM, hreceive]
  refine Eq.trans (congrArg _ (funext fun received => ?_)) (bind_pure _)
  rw [deliver_bind, deliver_forM, hfinish, pure_bind, deliver_pure]

/-- The messages that are not empty. -/
def full (l : List (Nat × Message β)) : List (Nat × Message β) := l.filter (!·.2.isEmpty)

theorem mem_full_iff {l : List (Nat × Message β)} {p : Nat × Message β} : p ∈ full l ↔ p ∈ l ∧ p.2 ≠ [] := by
  simp [full, List.mem_filter]

theorem paired_full (l : List (Nat × Message β)) (rank : Nat) :
    paired (full l) rank = (paired l rank).filter (!·.isEmpty) := by
  rw [paired, paired, full, List.filter_map, List.filter_filter, List.filter_filter]
  simp only [Function.comp_def, Bool.and_comm]

/-- Ranks send messages and say in advance how long those are that they want. When the messages that answer a rank are those
that were sent to it, each source's in their order, it gets them in the order in which it asked. -/
theorem collects_messages_of_paired (tag : Int) (outgoing answered : Nat → List (Nat × Message β))
    (hdest : ∀ i < size, ∀ p ∈ full (outgoing i), p.1 < size) (hsource : ∀ i < size, ∀ p ∈ full (answered i), p.1 < size)
    (hpaired : ∀ i < size, ∀ s < size, paired (full (answered i)) s = paired (full (outgoing s)) i) :
    Collects size (fun i => (messages tag (outgoing i) ((answered i).map fun p => (p.1, p.2.length)) : Exchange α β _).run)
      fun i => .ok ((answered i).map Prod.snd) := by
  have hpos : ∀ {m : Message β}, 0 < m.length ↔ ¬ m.isEmpty = true := fun {m} => by cases m <;> simp
  have htake : ∀ p : Nat × Message β, (if p.2.isEmpty then none else some p) = Option.guard (fun p => !p.2.isEmpty) p := by
    intro p
    cases h : p.2.isEmpty <;> simp [Option.guard, h]
  have hround := collective_round size tag (fun i => full (outgoing i)) answered
    (fun _ p => if p.2.isEmpty then none else some p)
    (fun _ p => if 0 < p.2.length then Delivery.takeSized p.1 tag p.2.length else pure []) (fun _ p => p.2) hdest ?_ ?_ ?_ ?_
  · refine hround.congr (fun i hi => congrArg ExceptT.run ?_) fun _ _ => rfl
    refine (deliver_messages ⟨i, size⟩ tag (outgoing i) fun p hp hlt => ?_).trans ?_
    · obtain ⟨a, ha, rfl⟩ := List.mem_map.1 hp
      exact hsource i hi a (mem_full_iff.2 ⟨ha, fun h => by simp [h] at hlt⟩)
    · rw [List.mapM_map]
      rfl
  · intro i hi p hp s m hsome
    split at hsome
    · cases hsome
    · rename_i hne
      cases hsome
      exact hsource i hi (s, m) (mem_full_iff.2 ⟨hp, fun h => hne (List.isEmpty_iff.2 h)⟩)
  · intro i _ p _ hnone
    split at hnone
    · rename_i hempty
      rw [if_neg fun h => hpos.1 h hempty, List.isEmpty_iff.1 hempty]
      rfl
    · cases hnone
  · intro i _ p _ s m hsome q rest hq
    split at hsome
    · cases hsome
    · rename_i hne
      cases hsome
      rw [if_pos (hpos.2 hne)]
      exact Delivery.solo_takeSized hq
  · intro i hi s hs
    rw [← hpaired i hi s hs, full, ← List.filterMap_eq_filter]
    exact congrArg (fun f => paired ((answered i).filterMap f) s) (funext htake)

/-- When every rank sends a message to every other one and knows how long the messages for it are, each rank gets the
messages for it in the order of the ranks that sent them. -/
theorem collects_messages (tag : Int) (data : Nat → Nat → Message β) {lengths : Nat → Nat → Nat}
    (hlength : ∀ i < size, ∀ s < size, s ≠ i → lengths i s = (data s i).length) :
    Collects size (fun i => (messages tag ((Place.mk i size).peers.map fun d => (d, data i d))
      ((Place.mk i size).peers.map fun s => (s, lengths i s)) : Exchange α β _).run)
      fun i => .ok ((Place.mk i size).peers.map fun s => data s i) := by
  have hpeers : ∀ {f : Nat → Nat → Message β}, ∀ i < size,
      ∀ p ∈ full ((Place.mk i size).peers.map fun d => (d, f i d)), p.1 < size := by
    intro f i _ p hp
    obtain ⟨d, hd, rfl⟩ := List.mem_map.1 (mem_full_iff.1 hp).1
    exact (Delivery.mem_peers_iff.1 hd).1
  have hall := collects_messages_of_paired (α := α) tag (fun i => (Place.mk i size).peers.map fun d => (d, data i d))
    (fun i => (Place.mk i size).peers.map fun s => (s, data s i)) hpeers (@hpeers fun i s => data s i) fun i hi s hs => by
      rw [paired_full, paired_full, Delivery.paired_peers hi hs data]
  refine hall.congr (fun i hi => ?_) fun i _ => by rw [List.map_map]; rfl
  rw [List.map_map]
  refine congrArg (fun incoming => ExceptT.run (messages tag _ incoming)) (List.map_congr_left fun s hs => ?_)
  obtain ⟨hlt, hne⟩ := Delivery.mem_peers_iff.1 hs
  exact Prod.ext rfl (hlength i hi s hlt hne)

/-! ## One word for each rank -/

/-- The values of all ranks, put together from those of the other ranks and the own one. -/
theorem insert_peers {i : Nat} (hi : i < size) (f : Nat → τ) :
    ((Place.mk i size).peers.map f).take i ++ [f i] ++ ((Place.mk i size).peers.map f).drop i =
      (List.range size).map f := by
  obtain ⟨k, rfl⟩ := Nat.exists_eq_add_of_lt hi
  have hrange : List.range (i + k + 1) = List.range i ++ i :: (List.range k).map (i + 1 + ·) := by
    rw [show i + k + 1 = i + (k + 1) by omega, List.range_add, List.range_succ_eq_map]
    simp [Function.comp_def, Nat.add_assoc, Nat.add_comm 1]
  have hpeers : (Place.mk i (i + k + 1)).peers = List.range i ++ (List.range k).map (i + 1 + ·) := by
    rw [Place.peers, hrange, List.filter_append, List.filter_cons_of_neg (by simp)]
    congr 1
    · refine List.filter_eq_self.2 fun s hs => ?_
      have := List.mem_range.1 hs
      simp only [decide_eq_true_eq]
      omega
    · refine List.filter_eq_self.2 fun s hs => ?_
      obtain ⟨j, _, rfl⟩ := List.mem_map.1 hs
      simp only [decide_eq_true_eq]
      omega
  have hlength : ((List.range i).map f).length = i := by simp
  rw [hpeers, hrange, List.map_append, List.map_append, List.map_cons, List.take_left' hlength, List.drop_left' hlength,
    List.append_assoc, List.singleton_append]

/-- When every rank has a word for every other one, each rank gets the words for it in the order of the ranks. -/
theorem collects_counts [Wire.LawfulWords α β] {values : Nat → List Nat}
    (hsmall : ∀ i < size, ∀ v ∈ values i, v < 2 ^ 64) :
    Collects size (fun i => (counts ⟨i, size⟩ (values i) : Exchange α β _).run) fun i =>
      .ok ((List.range size).map fun s => (values s).getD i 0) := by
  have hword : ∀ s < size, ∀ i, (values s).getD i 0 < 256 ^ Wire.wordWidth := by
    intro s hs i
    rw [List.getD_eq_getElem?_getD]
    cases hv : (values s)[i]? with
    | none => exact Nat.pow_pos (by decide)
    | some v => exact Nat.lt_of_lt_of_le (hsmall s hs v (List.mem_of_getElem? hv)) (by decide)
  have hmessages : Collects size (fun i => (messages Purpose.counts.tag
      ((Place.mk i size).peers.map fun d => (d, Wire.spellWord α Wire.wordWidth ((values i).getD d 0)))
      ((Place.mk i size).peers.map fun s => (s, Wire.wordWidth)) : Exchange α β _).run) _ :=
    collects_messages Purpose.counts.tag (fun s d => Wire.spellWord α Wire.wordWidth ((values s).getD d 0))
      fun _ _ _ _ _ => (Wire.LawfulWords.length_spellWord _ _).symm
  refine (hmessages.ok_bind (Collects.done _)).congr (fun i _ => rfl) fun i hi => ?_
  have hread : (((Place.mk i size).peers.map fun s => Wire.spellWord α Wire.wordWidth ((values s).getD i 0)).map
      (Wire.readWord α)) = (Place.mk i size).peers.map fun s => (values s).getD i 0 := by
    rw [List.map_map]
    refine List.map_congr_left fun s hs => ?_
    exact Wire.LawfulWords.readWord_spellWord _ _ (hword s (Delivery.mem_peers_iff.1 hs).1 i)
  rw [hread, insert_peers hi]

end Exchange

end CurvePartition
