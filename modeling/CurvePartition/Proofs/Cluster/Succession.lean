-- SUMMARY: Programs that ranks make one after the other: when the first ones settle and nobody is done with the second ones before all have begun them, it makes no difference that the first ones were made.
import CurvePartition.Proofs.Cluster.Sending

/-!
# Programs one after the other

Ranks make programs that settle, and then others. Some rank may have begun its second program while another one is still at its
first one. As long as no rank can end the run before all have begun, this makes no difference: the ranks come to the same
results as with their second programs alone (`Cluster.reachesInTurns_bind_iff`).

A rank cannot go on too far when it has to take a message from each of the others first (`Awaits`), as in a reduction
(`Delivery.awaits_reduce`). The messages of the second programs come behind those of the first ones in every channel, so the
cluster can be taken apart into a net of the first programs and a cluster of the second ones (`Cluster.Composed`). Each turn is a
turn of one of them.
-/

namespace CurvePartition

open Program Relation

variable {β ρ σ τ : Type} {size i n : Nat}

/-! ## Waiting for a rank -/

/-- Whether a program, as long as it takes good messages, has to take one from rank `s` before it is done or ends the run. Up to
there it posts good messages only. -/
inductive Awaits (size : Nat) (good : Message β → Prop) (s : Nat) : Program (Action.Answer : Action β → Type) ρ → Prop
  | here (tag : Int) (next : Except CommError (Message β) → Program Action.Answer ρ) : Awaits size good s (.call (.take s tag) next)
  | post {dest : Nat} {tag : Int} {data : Message β} {next : Except CommError Unit → Program Action.Answer ρ} (valid : dest < size)
    (sent : good data) (rest : Awaits size good s (next (.ok ()))) : Awaits size good s (.call (.post dest tag data) next)
  | take {source : Nat} {tag : Int} {next : Except CommError (Message β) → Program Action.Answer ρ}
    (rest : ∀ data, good data → Awaits size good s (next (.ok data))) : Awaits size good s (.call (.take source tag) next)

namespace Awaits

variable {good : Message β → Prop} {s : Nat}

theorem bind {p : Program (Action.Answer : Action β → Type) σ} {f : σ → Program Action.Answer ρ} (h : Awaits size good s p) :
    Awaits size good s (p >>= f) := by
  induction h with
  | here tag next => exact .here tag _
  | post valid sent _ ih => exact .post valid sent ih
  | take _ ih => exact .take ih

theorem expand_bind {Op : Type} {Answer : Op → Type} {handler : ∀ op, Program (Action.Answer : Action β → Type) (Answer op)}
    {p : Program Answer σ} {f : σ → Program Answer ρ} (h : Awaits size good s (p.expand handler)) :
    Awaits size good s ((p >>= f).expand handler) := by
  rw [Program.expand_bind]
  exact h.bind

theorem ok_bind {x : Delivery β σ} {f : σ → Delivery β τ} (h : Awaits size good s x.run) : Awaits size good s (x >>= f).run :=
  Awaits.bind h

/-- Messages posted before. -/
theorem forM_post_bind {peers : List Nat} {tag : Int} {data : Message β} {x : Delivery β τ} (hpeers : ∀ peer ∈ peers, peer < size)
    (hdata : good data) (h : Awaits size good s x.run) :
    Awaits size good s ((peers.forM fun peer => Delivery.post peer tag data) >>= fun _ => x).run := by
  induction peers with
  | nil => exact h
  | cons peer peers ih =>
    exact .post (hpeers peer List.mem_cons_self) hdata (ih fun p hp => hpeers p (List.mem_cons_of_mem peer hp))

end Awaits

/-- Messages of good lengths that are taken from all ranks, one of which is `s`. -/
theorem Awaits.mapM_takeSized {f : Message β → τ} {own : τ} {tag : Int} {length rank s : Nat} (hne : s ≠ rank) {sources : List Nat}
    (hs : s ∈ sources) : Awaits size (fun data => data.length = length) s (sources.mapM fun source =>
      if source = rank then pure own else do
        let data ← Delivery.takeSized source tag length
        return f data : Delivery β (List τ)).run := by
  induction sources with
  | nil => cases hs
  | cons source sources ih =>
    rw [List.mapM_cons]
    by_cases heq : source = s
    · subst heq
      rw [if_neg hne]
      exact .here tag _
    have hrest := ih ((List.mem_cons.1 hs).resolve_left (Ne.symm heq))
    by_cases hown : source = rank
    · rw [if_pos hown]
      exact hrest.ok_bind
    · rw [if_neg hown]
      refine .take fun data hdata => ?_
      show Awaits size _ s (((if data.length = length then pure data else throw _ : Delivery β (Message β)) >>=
        fun data => pure (f data)) >>= fun first => sources.mapM _ >>= fun rest => pure (first :: rest)).run
      rw [if_pos hdata]
      exact hrest.ok_bind

/-- In a reduction every rank has to take a message from each of the others. -/
theorem Delivery.awaits_reduce {place : Place} {s : Nat} (hs : s < place.size) (hrank : place.rank < place.size)
    (hne : s ≠ place.rank) (spell : τ → Message β) (read : Message β → τ) (combine : τ → τ → τ) (values : List τ) :
    Awaits place.size (fun data => data.length = (values.flatMap spell).length) s (reduce place spell read combine values).run := by
  rw [reduce, if_neg (by omega)]
  exact Awaits.forM_post_bind (fun peer hpeer => (mem_peers_iff.1 hpeer).1) rfl
    (Awaits.mapM_takeSized hne (List.mem_range.2 hs)).ok_bind

theorem Exchange.awaits_reduceWords {α : Type} [Scalar α] [Wire α β] [Wire.LawfulWords α β] {place : Place} {s : Nat}
    (hs : s < place.size) (hrank : place.rank < place.size) (hne : s ≠ place.rank) (op : Reduction) {values : List Nat}
    (hlength : values.length = n) : Awaits place.size (fun data => data.length = n * Wire.wordWidth) s
      ((reduceWords op values : Exchange α β (List Nat)).run.expand (Call.toActions place)) := by
  have hmessage : (values.flatMap (Wire.spellWord α Wire.wordWidth)).length = n * Wire.wordWidth := by
    rw [← hlength]
    exact Wire.length_flatMap values fun _ _ => Wire.LawfulWords.length_spellWord _ _
  have hreduce := Delivery.awaits_reduce hs hrank hne (Wire.spellWord α Wire.wordWidth) (Wire.readWord α) op.words values
  have hexpand : (reduceWords op values : Exchange α β (List Nat)).run.expand (Call.toActions place) =
      (Delivery.reduce place (Wire.spellWord α Wire.wordWidth) (Wire.readWord α) op.words values).run := expand_perform _ _
  rwa [hmessage, ← hexpand] at hreduce

/-! ## Nets with a rank that is waited for -/

/-- Messages under way after one queue was replaced. -/
theorem Channels.mem_queue_set {q : Channels β} {source dest s d : Nat} {tag t : Int} {messages : List (Message β)} {m : Message β}
    (h : m ∈ (q.set source dest tag messages).queue s d t) : m ∈ messages ∨ m ∈ q.queue s d t := by
  simp only [set] at h
  split at h
  · exact .inl h
  · exact .inr h

/-- A net in which rank `s` has done nothing yet and all others have to wait for it. -/
structure Net.Barred (good : Message β → Prop) (s : Nat) (d : Net β ρ) : Prop where
  silent : ∀ dest tag, d.channels.queue s dest tag = []
  all_good : ∀ source dest tag, ∀ data ∈ d.channels.queue source dest tag, good data
  awaits : ∀ (i : Nat) p, d.ranks[i]? = some p → i ≠ s → Awaits d.channels.size good s p

namespace Net.Barred

variable {good : Message β → Prop} {s : Nat} {d d' : Net β ρ}

/-- The others go on waiting. -/
theorem act (h : Barred good s d) (hne : i ≠ s) (hact : Net.Act i d d') : Barred good s d' := by
  cases hact with
  | @act q q' ranks a next x program acts =>
    have hwaits : Awaits q.size good s (.call a next) := h.awaits i _ program hne
    have hothers : ∀ p', Awaits q.size good s p' → ∀ (j : Nat) p, (ranks.set i p')[j]? = some p → j ≠ s →
        Awaits q.size good s p := fun p' hp' j p hp hj => by
      by_cases hij : i = j
      · subst hij
        rw [List.getElem?_set_self (List.getElem?_eq_some_iff.1 program).1, Option.some.injEq] at hp
        exact hp ▸ hp'
      · rw [List.getElem?_set_ne hij] at hp
        exact h.awaits j p hp hj
    cases acts with
    | reject _ _ invalid =>
      cases hwaits with
      | post valid => exact absurd valid (Nat.not_lt.2 invalid)
    | @post dest tag data valid =>
      cases hwaits with
      | post _ sent rest =>
        refine ⟨fun dest' tag' => ?_, fun source dest' tag' m hm => ?_, hothers _ rest⟩
        · rw [Channels.queue_set_of_ne _ _ fun heq => hne heq.1.symm]
          exact h.silent dest' tag'
        · rcases Channels.mem_queue_set hm with hm | hm
          · rcases List.mem_append.1 hm with hm | hm
            · exact h.all_good _ _ _ m hm
            · exact List.mem_singleton.1 hm ▸ sent
          · exact h.all_good _ _ _ m hm
    | @take source tag data rest waiting =>
      have hgood : ∀ m ∈ data :: rest, good m := fun m hm => h.all_good source i tag m (waiting ▸ hm)
      have hnot : source ≠ s := fun heq => by
        subst heq
        cases (h.silent i tag).symm.trans waiting
      have hnext : Awaits q.size good s (next (.ok data)) := by
        cases hwaits with
        | here => exact absurd rfl hnot
        | take hrest => exact hrest data (hgood data List.mem_cons_self)
      refine ⟨fun dest' tag' => ?_, fun source' dest' tag' m hm => ?_, hothers _ hnext⟩
      · rw [Channels.queue_set_of_ne _ _ fun heq => hnot heq.1.symm]
        exact h.silent dest' tag'
      · rcases Channels.mem_queue_set hm with hm | hm
        · exact hgood m (List.mem_cons_of_mem data hm)
        · exact h.all_good _ _ _ m hm

/-- They do not end the run. -/
theorem not_abort (h : Barred good s d) (hne : i ≠ s) (code : Int) (next : Unit → Program (Action.Answer : Action β → Type) ρ) :
    d.ranks[i]? ≠ some (.call (.abort code) next) := fun hi => by
  cases h.awaits i _ hi hne

end Net.Barred

/-! ## Older and newer messages -/

section Messages

variable {a : Action β} {x : a.Answer}

theorem Channels.Acts.queue_ne_nil {q q' : Channels β} {source : Nat} {tag : Int} {x : Except CommError (Message β)}
    (h : q.Acts i (.take source tag) x q') : q.queue source i tag ≠ [] := by
  cases h with
  | take waiting => exact fun hnil => nomatch hnil.symm.trans waiting

/-- Queues that are made of others go on being so when both replace one. -/
theorem Channels.queue_set_of_eq {q e : Channels β} (f : Nat → Nat → Int → List (Message β) → List (Message β)) {source dest : Nat}
    {tag : Int} {messages messages' : List (Message β)} (hqueue : ∀ s d t, q.queue s d t = f s d t (e.queue s d t))
    (hset : messages = f source dest tag messages') (s d : Nat) (t : Int) :
    (q.set source dest tag messages).queue s d t = f s d t ((e.set source dest tag messages').queue s d t) := by
  by_cases heq : s = source ∧ d = dest ∧ t = tag
  · obtain ⟨rfl, rfl, rfl⟩ := heq
    rw [queue_set_self, queue_set_self, hset]
  · rw [queue_set_of_ne _ _ heq, queue_set_of_ne _ _ heq, hqueue]

/-- An action is one on the older messages, if the rank has posted no newer ones and there is an older one to take. -/
theorem Channels.Acts.of_append {q q' e : Channels β} {newer : Nat → Nat → Int → List (Message β)} (h : q.Acts i a x q')
    (hsize : e.size = q.size) (hqueue : ∀ s d t, q.queue s d t = e.queue s d t ++ newer s d t) (hown : ∀ d t, newer i d t = [])
    (hold : ∀ source tag, a = .take source tag → e.queue source i tag ≠ []) :
    ∃ e', e.Acts i a x e' ∧ ∀ s d t, q'.queue s d t = e'.queue s d t ++ newer s d t := by
  cases h with
  | reject tag data invalid =>
    refine ⟨e, ?_, hqueue⟩
    rw [← hsize] at invalid ⊢
    exact .reject tag data invalid
  | @post dest tag data valid =>
    refine ⟨_, .post tag data (hsize ▸ valid), queue_set_of_eq (fun s d t older => older ++ newer s d t) hqueue ?_⟩
    rw [hqueue, hown, List.append_nil, List.append_nil]
  | @take source tag data rest waiting =>
    rw [hqueue] at waiting
    obtain ⟨data', rest', hcons⟩ := List.exists_cons_of_ne_nil (hold source tag rfl)
    rw [hcons, List.cons_append] at waiting
    obtain ⟨rfl, rfl⟩ := List.cons.inj waiting
    exact ⟨_, .take hcons, queue_set_of_eq (fun s d t older => older ++ newer s d t) hqueue rfl⟩

/-- An action of a rank is one on the newer messages, if there are no older ones for it. -/
theorem Mail.exists_act_of_append {m m₁ m' : Mail β} {older : Nat → Nat → Int → List (Message β)} (h : m.act i a = some (x, m₁))
    (hsize : m'.size = m.size) (hended : m'.ended = m.ended)
    (hqueue : ∀ s d t, m.channels.queue s d t = older s d t ++ m'.channels.queue s d t) (hold : ∀ s t, older s i t = []) :
    ∃ m₁', m'.act i a = some (x, m₁') ∧ m₁.size = m.size ∧ m₁'.size = m.size ∧ m₁'.ended = m₁.ended ∧
      ∀ s d t, m₁.channels.queue s d t = older s d t ++ m₁'.channels.queue s d t := by
  obtain ⟨size₀, envelopes, ended₀⟩ := m
  obtain ⟨size, envelopes', ended⟩ := m'
  obtain rfl : size = size₀ := hsize
  obtain rfl : ended = ended₀ := hended
  cases a with
  | post dest tag data =>
    simp only [act, post] at h ⊢
    split at h
    case isTrue invalid =>
      cases h
      exact ⟨⟨size, envelopes', ended⟩, by rw [if_pos invalid]; rfl, rfl, rfl, rfl, hqueue⟩
    case isFalse valid =>
      rw [if_neg valid]
      cases ended with
      | some e =>
        cases h
        exact ⟨_, rfl, rfl, rfl, rfl, hqueue⟩
      | none =>
        cases h
        refine ⟨_, rfl, rfl, rfl, rfl, fun s d t => ?_⟩
        rw [channels_post ⟨size, envelopes, none⟩, channels_post ⟨size, envelopes', none⟩]
        refine Channels.queue_set_of_eq (fun s d t newer => older s d t ++ newer) hqueue ?_ s d t
        rw [hqueue, List.append_assoc]
  | take source tag =>
    have hsame := hqueue source i tag
    rw [hold, List.nil_append] at hsame
    simp only [act, pick_eq, hsame] at h ⊢
    cases hq : (channels ⟨size, envelopes', ended⟩).queue source i tag with
    | nil =>
      rw [hq] at h
      obtain ⟨error, herror, heq⟩ := Option.map_eq_some_iff.1 h
      cases heq
      exact ⟨⟨size, envelopes', ended⟩, Option.map_eq_some_iff.2 ⟨error, herror, rfl⟩, rfl, rfl, rfl, hqueue⟩
    | cons data rest =>
      rw [hq] at h
      cases h
      refine ⟨_, rfl, rfl, rfl, rfl, fun s d t => ?_⟩
      rw [channels_erase ⟨size, envelopes, ended⟩, channels_erase ⟨size, envelopes', ended⟩]
      refine Channels.queue_set_of_eq (fun s d t newer => older s d t ++ newer) hqueue ?_ s d t
      rw [hsame, hold, List.nil_append]
  | abort code =>
    cases h
    exact ⟨_, rfl, rfl, rfl, rfl, hqueue⟩

end Messages

/-- A message that a rank is about to take has been posted, or its sender is not done. -/
theorem Net.Run.queue_ne_nil_or_call {d : Net β ρ} {q : Channels β} {results : List ρ} {source : Nat} {tag : Int}
    {next : Except CommError (Message β) → Program Action.Answer ρ} (h : Net.Run n d (Net.finished q results))
    (hi : d.ranks[i]? = some (.call (.take source tag) next)) :
    d.channels.queue source i tag ≠ [] ∨ ∃ a next, d.ranks[source]? = some (.call a next) := by
  induction n generalizing d with
  | zero =>
    cases h
    rw [finished, List.getElem?_map, Option.map_eq_some_iff] at hi
    obtain ⟨_, _, hr⟩ := hi
    cases hr
  | succ n ih =>
    cases h with
    | @act _ j _ _ _ first rest =>
      cases first with
      | @act q₀ q₁ ranks a next' x program acts =>
        by_cases hsource : source = j
        · exact .inr ⟨a, next', hsource ▸ program⟩
        by_cases hij : i = j
        · subst hij
          cases program.symm.trans hi
          exact .inl acts.queue_ne_nil
        · have hsame : q₁.queue source i tag = q₀.queue source i tag := by
            cases acts with
            | reject => rfl
            | post => exact Channels.queue_set_of_ne _ _ fun heq => hsource heq.1
            | take => exact Channels.queue_set_of_ne _ _ fun heq => hij heq.2.1
          have hlater := ih rest (by rwa [List.getElem?_set_ne (Ne.symm hij)])
          rwa [hsame, List.getElem?_set_ne (Ne.symm hsource)] at hlater

/-! ## Clusters taken apart -/

namespace Cluster

variable {k : Nat → σ → Program (Action.Answer : Action β → Type) ρ} {rs : Nat → σ} {good : Message β → Prop}

/-- Where a cluster stands whose ranks make two programs, one after the other: what the net of the first ones has left to do,
and where a cluster of the second ones would stand, in which the ranks have begun that have. -/
structure Composed (k : Nat → σ → Program (Action.Answer : Action β → Type) ρ) (rs : Nat → σ) (good : Message β → Prop)
    (begun : Nat → Prop) (c : Cluster β ρ) (d : Net β σ) (e : Cluster β ρ) : Prop where
  size_eq : d.channels.size = c.mail.size
  size_eq' : e.mail.size = c.mail.size
  ended_eq : e.mail.ended = c.mail.ended
  queue_eq : ∀ s t tag, c.mail.channels.queue s t tag = d.channels.queue s t tag ++ e.mail.channels.queue s t tag
  length_eq : c.ranks.length = d.ranks.length
  length_eq' : e.ranks.length = d.ranks.length
  of_begun : ∀ i < d.ranks.length, begun i → d.ranks[i]? = some (.done (rs i)) ∧ c.ranks[i]? = e.ranks[i]?
  of_not_begun : ∀ i < d.ranks.length, ¬ begun i →
    (∃ p, d.ranks[i]? = some p ∧ c.ranks[i]? = some (p >>= k i)) ∧ e.ranks[i]? = some (k i (rs i))
  barred : ∀ i < d.ranks.length, ¬ begun i → e.net.Barred good i ∧ c.mail.ended = none

namespace Composed

variable {begun : Nat → Prop} {c c' e : Cluster β ρ} {d : Net β σ}

/-- A rank that has not begun its second program goes on with the first one. -/
theorem turn_first (h : Composed k rs good begun c d e) (hrun : Net.Run n d (Net.finished (.empty size) ((List.range size).map rs)))
    {a : Action β} {next : a.Answer → Program Action.Answer σ} (hi : d.ranks[i]? = some (.call a next)) {x : a.Answer} {m : Mail β}
    (acted : c.mail.act i a = some (x, m)) :
    ∃ d', Net.Act i d d' ∧ Composed k rs good begun ⟨m, c.ranks.set i (next x >>= k i)⟩ d' e := by
  have hlt : i < d.ranks.length := (List.getElem?_eq_some_iff.1 hi).1
  have hnot : ¬ begun i := fun hbegun => by cases hi.symm.trans (h.of_begun i hlt hbegun).1
  obtain ⟨hbarred, hended⟩ := h.barred i hlt hnot
  have ha : ∀ code, a ≠ .abort code := fun code heq => by
    subst heq
    exact hrun.not_abort code next hi
  obtain ⟨hacts, hended'⟩ := Mail.acts_of_act hended ha acted
  have hold : ∀ source tag, a = .take source tag → d.channels.queue source i tag ≠ [] := by
    rintro source tag rfl hnil
    obtain ⟨b, next', hsource⟩ := (hrun.queue_ne_nil_or_call hi).resolve_left fun hne => hne hnil
    -- A sender that is not done has posted nothing in its second program.
    have hlt' : source < d.ranks.length := (List.getElem?_eq_some_iff.1 hsource).1
    have hnot' : ¬ begun source := fun hbegun => by cases hsource.symm.trans (h.of_begun source hlt' hbegun).1
    have hqueue := h.queue_eq source i tag
    have hsilent : e.mail.channels.queue source i tag = [] := (h.barred source hlt' hnot').1.silent i tag
    rw [hnil, hsilent] at hqueue
    exact hacts.queue_ne_nil hqueue
  obtain ⟨q, hacts', hqueue⟩ := hacts.of_append (e := d.channels) h.size_eq h.queue_eq hbarred.silent hold
  refine ⟨_, .act hi hacts', ?_⟩
  exact {
    size_eq := hacts'.size_eq.trans (h.size_eq.trans hacts.size_eq.symm)
    size_eq' := h.size_eq'.trans hacts.size_eq.symm
    ended_eq := h.ended_eq.trans (hended.trans hended'.symm)
    queue_eq := hqueue
    length_eq := by simpa using h.length_eq
    length_eq' := by simpa using h.length_eq'
    of_begun := fun j hj hbegun => by
      have hne : i ≠ j := fun heq => hnot (heq ▸ hbegun)
      rw [List.getElem?_set_ne hne, List.getElem?_set_ne hne]
      exact h.of_begun j (by simpa using hj) hbegun
    of_not_begun := fun j hj hbegun => by
      have hj : j < d.ranks.length := by simpa using hj
      refine ⟨?_, (h.of_not_begun j hj hbegun).2⟩
      by_cases hij : i = j
      · subst hij
        exact ⟨next x, List.getElem?_set_self hlt, List.getElem?_set_self (h.length_eq ▸ hlt)⟩
      · rw [List.getElem?_set_ne hij, List.getElem?_set_ne hij]
        exact (h.of_not_begun j hj hbegun).1
    barred := fun j hj hbegun => ⟨(h.barred j (by simpa using hj) hbegun).1, hended'⟩ }

/-- A rank that is done with its first program goes on with the second one, or begins it. -/
theorem turn_second (h : Composed k rs good begun c d e)
    (hrun : Net.Run n d (Net.finished (.empty size) ((List.range size).map rs))) (hi : d.ranks[i]? = some (.done (rs i)))
    {a : Action β} {next : a.Answer → Program Action.Answer ρ} (program : c.ranks[i]? = some (.call a next)) {x : a.Answer}
    {m : Mail β} (acted : c.mail.act i a = some (x, m)) :
    ∃ e', Turn e e' ∧ Composed k rs good (fun j => j = i ∨ begun j) ⟨m, c.ranks.set i (next x)⟩ d e' := by
  have hlt : i < d.ranks.length := (List.getElem?_eq_some_iff.1 hi).1
  have hprogram : e.ranks[i]? = some (.call a next) := by
    by_cases hbegun : begun i
    · exact (h.of_begun i hlt hbegun).2.symm.trans program
    · obtain ⟨⟨p, hp, hc⟩, he⟩ := h.of_not_begun i hlt hbegun
      obtain rfl : p = .done (rs i) := Option.some.inj (hp.symm.trans hi)
      exact he.trans (hc.symm.trans program)
  -- No message of a first program is left for a rank that is done with it.
  have hold : ∀ s tag, d.channels.queue s i tag = [] := fun s tag => by
    by_contra hne
    exact hrun.queue_ne_nil (fun a next hcall => by cases hi.symm.trans hcall) hne rfl
  obtain ⟨m', acted', hsize, hsize', hended, hqueue⟩ := Mail.exists_act_of_append acted h.size_eq' h.ended_eq h.queue_eq hold
  refine ⟨_, turn_iff.2 ⟨i, a, next, x, m', hprogram, acted', rfl⟩, ?_⟩
  exact {
    size_eq := h.size_eq.trans hsize.symm
    size_eq' := hsize'.trans hsize.symm
    ended_eq := hended
    queue_eq := hqueue
    length_eq := by simpa using h.length_eq
    length_eq' := by simpa using h.length_eq'
    of_begun := fun j hj hbegun => by
      by_cases hij : i = j
      · subst hij
        rw [List.getElem?_set_self (h.length_eq ▸ hlt), List.getElem?_set_self (h.length_eq' ▸ hlt)]
        exact ⟨hi, rfl⟩
      · rw [List.getElem?_set_ne hij, List.getElem?_set_ne hij]
        exact h.of_begun j hj (hbegun.resolve_left (Ne.symm hij))
    of_not_begun := fun j hj hbegun => by
      have hij : i ≠ j := fun heq => hbegun (.inl heq.symm)
      rw [List.getElem?_set_ne hij, List.getElem?_set_ne hij]
      exact h.of_not_begun j hj fun hj => hbegun (.inr hj)
    barred := fun j hj hbegun => by
      have hij : i ≠ j := fun heq => hbegun (.inl heq.symm)
      obtain ⟨hbarred, hnone⟩ := h.barred j hj fun hj => hbegun (.inr hj)
      have ha : ∀ code, a ≠ .abort code := fun code heq => by
        subst heq
        exact hbarred.not_abort hij code next hprogram
      obtain ⟨_, hnone'⟩ := Mail.acts_of_act hnone ha acted
      obtain ⟨hacts, _⟩ := Mail.acts_of_act (h.ended_eq.trans hnone) ha acted'
      exact ⟨hbarred.act hij (.act hprogram hacts), hnone'⟩ }

/-- So each turn is one of the first or of the second programs. -/
theorem turn (h : Composed k rs good begun c d e) (hrun : Net.Run n d (Net.finished (.empty size) ((List.range size).map rs)))
    (hturn : Turn c c') : ∃ begun' d' m e', Composed k rs good begun' c' d' e' ∧
      Net.Run m d' (Net.finished (.empty size) ((List.range size).map rs)) ∧ ReflTransGen Turn e e' := by
  obtain ⟨i, a, next, x, m, program, acted, rfl⟩ := turn_iff.1 hturn
  have hlt : i < d.ranks.length := h.length_eq ▸ (List.getElem?_eq_some_iff.1 program).1
  have hi : d.ranks[i]? = some d.ranks[i] := List.getElem?_eq_getElem hlt
  cases hp : d.ranks[i] with
  | done r =>
    rw [hp] at hi
    obtain ⟨_, rfl⟩ := getElem?_map_range.1 (hrun.results_eq hi)
    obtain ⟨e', hturn, h'⟩ := h.turn_second hrun hi program acted
    exact ⟨_, d, n, e', h', hrun, .single hturn⟩
  | call b next' =>
    rw [hp] at hi
    have hnot : ¬ begun i := fun hbegun => by cases hi.symm.trans (h.of_begun i hlt hbegun).1
    obtain ⟨⟨p, hp', hc⟩, _⟩ := h.of_not_begun i hlt hnot
    obtain rfl : .call b next' = p := Option.some.inj (hi.symm.trans hp')
    cases program.symm.trans hc
    obtain ⟨d', hact, h'⟩ := h.turn_first hrun hi acted
    obtain ⟨n', _, hrun'⟩ := hrun.of_act hact
    exact ⟨begun, d', n', e, h', hrun', .refl⟩

theorem turns (h : Composed k rs good begun c d e) (hrun : Net.Run n d (Net.finished (.empty size) ((List.range size).map rs)))
    (hturns : ReflTransGen Turn c c') : ∃ begun' d' m e', Composed k rs good begun' c' d' e' ∧
      Net.Run m d' (Net.finished (.empty size) ((List.range size).map rs)) ∧ ReflTransGen Turn e e' := by
  induction hturns with
  | refl => exact ⟨begun, d, n, e, h, hrun, .refl⟩
  | tail _ hturn ih =>
    obtain ⟨_, d', m, e', h', hrun', hturns'⟩ := ih
    obtain ⟨begun'', d'', m', e'', h'', hrun'', hturns''⟩ := h'.turn hrun' hturn
    exact ⟨begun'', d'', m', e'', h'', hrun'', hturns'.trans hturns''⟩

/-- A rank that is done with both programs is so with the second one. -/
theorem done_eq (h : Composed k rs good begun c d e)
    (hrun : Net.Run n d (Net.finished (.empty size) ((List.range size).map rs))) {r : ρ} (hr : c.ranks[i]? = some (.done r)) :
    e.ranks[i]? = some (.done r) := by
  have hlt : i < d.ranks.length := h.length_eq ▸ (List.getElem?_eq_some_iff.1 hr).1
  by_cases hbegun : begun i
  · exact (h.of_begun i hlt hbegun).2.symm.trans hr
  · obtain ⟨⟨p, hp, hc⟩, he⟩ := h.of_not_begun i hlt hbegun
    cases p with
    | call b next => cases hc.symm.trans hr
    | done r' =>
      obtain ⟨_, rfl⟩ := getElem?_map_range.1 (hrun.results_eq hp)
      exact he.trans (hc.symm.trans hr)

end Composed

variable {ps : Nat → Program (Action.Answer : Action β → Type) σ}

/-- At first no rank has begun its second program. -/
theorem composed_start (hawaits : ∀ s < size, ∀ i < size, i ≠ s → Awaits size good s (k i (rs i))) :
    Composed k rs good (fun _ => False) (start ((List.range size).map fun i => ps i >>= k i))
      ⟨.empty size, (List.range size).map ps⟩ (start ((List.range size).map fun i => k i (rs i))) where
  size_eq := by simp [start, Mail.empty, Channels.empty]
  size_eq' := by simp [start]
  ended_eq := rfl
  queue_eq _ _ _ := rfl
  length_eq := by simp [start]
  length_eq' := by simp [start]
  of_begun _ _ h := h.elim
  of_not_begun i hi _ := by
    have hi : i < size := by simpa using hi
    exact ⟨⟨ps i, getElem?_map_range.2 ⟨hi, rfl⟩, getElem?_map_range.2 ⟨hi, rfl⟩⟩, getElem?_map_range.2 ⟨hi, rfl⟩⟩
  barred s hs _ := by
    have hs : s < size := by simpa using hs
    refine ⟨⟨fun _ _ => rfl, fun _ _ _ _ hm => (List.not_mem_nil hm).elim, fun i p hp hne => ?_⟩, rfl⟩
    obtain ⟨hi, rfl⟩ := getElem?_map_range.1 hp
    rw [net, channels_start]
    exact hawaits s hs i hi hne

/-- When the first programs settle, and with the second ones every rank has to wait for each of the others before it is done or
ends the run, both together come to what the second ones come to alone. -/
theorem reachesInTurns_bind_iff {results : Nat → ρ} (hps : Collective size ps rs)
    (hawaits : ∀ s < size, ∀ i < size, i ≠ s → Awaits size good s (k i (rs i))) :
    ReachesInTurns size (fun i => ps i >>= k i) results ↔ ReachesInTurns size (fun i => k i (rs i)) results := by
  obtain ⟨n, hrun⟩ := hps.exists_run
  constructor
  · rintro ⟨c, hturns, hdone⟩
    obtain ⟨_, d, m, e, h, hrun', hturns'⟩ := (composed_start hawaits).turns hrun hturns
    refine ⟨e, hturns', hdone ▸ List.ext_getElem? fun i => ?_⟩
    cases hc : c.ranks[i]? with
    | none =>
      rw [List.getElem?_eq_none_iff, h.length_eq, ← h.length_eq'] at hc
      exact List.getElem?_eq_none_iff.2 hc
    | some p =>
      obtain ⟨_, rfl⟩ := getElem?_map_range.1 (hdone ▸ hc)
      exact h.done_eq hrun' hc
  · rintro ⟨c, hturns, hdone⟩
    -- All ranks make their first programs before any of them begins the second one.
    obtain ⟨m, hfront⟩ := hps ρ k
    obtain ⟨⟨mail, ranks⟩, hturns', hnet, hended⟩ := Cluster.exists_turns
      (c := .start ((List.range size).map fun i => ps i >>= k i)) rfl (by
        rw [net, channels_start]
        exact hfront)
    have hmail : mail = .empty size := Mail.eq_empty hended (congrArg Net.channels hnet)
    have hranks : ranks = (List.range size).map fun i => k i (rs i) := congrArg Net.ranks hnet
    have hstart : (⟨mail, ranks⟩ : Cluster β ρ) = start ((List.range size).map fun i => k i (rs i)) := by
      rw [hmail, hranks, start, List.length_map, List.length_range]
    exact ⟨c, hturns'.trans (hstart ▸ hturns), hdone⟩

end Cluster

end CurvePartition
