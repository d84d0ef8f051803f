-- SUMMARY: Collective programs: rounds in which every rank posts messages and then takes those for it, and their composition.
import CurvePartition.Proofs.Cluster.Runs

/-!
# Rounds

Programs of all ranks are *collective* if together they come to results and leave no message behind
(`Collective`). In a round each rank first posts its messages and then takes those for it, whatever the order of the ranks it
takes them from (`collective_round`). To see that a round comes to its end, the ranks act one after the other, first all with
their posts and then all with what they take.
-/

namespace CurvePartition

open Program

variable {β ρ σ τ : Type} {i size : Nat} {tag : Int}

/-! ## Messages by rank -/

/-- What is paired with a rank, in its order. -/
def paired (l : List (Nat × τ)) (rank : Nat) : List τ := (l.filter (·.1 = rank)).map Prod.snd

@[simp] theorem paired_nil (rank : Nat) : paired ([] : List (Nat × τ)) rank = [] := rfl

theorem paired_cons (p : Nat × τ) (l : List (Nat × τ)) (rank : Nat) :
    paired (p :: l) rank = if p.1 = rank then p.2 :: paired l rank else paired l rank := by
  by_cases h : p.1 = rank <;> simp [paired, h]

theorem paired_eq_nil {l : List (Nat × τ)} {rank : Nat} (h : ∀ p ∈ l, p.1 ≠ rank) : paired l rank = [] := by
  rw [paired, List.map_eq_nil_iff, List.filter_eq_nil_iff]
  simpa using h

/-- One entry for each rank of a list. -/
theorem paired_map_of_nodup {l : List Nat} (hl : l.Nodup) (f : Nat → τ) (rank : Nat) :
    paired (l.map fun a => (a, f a)) rank = if rank ∈ l then [f rank] else [] := by
  induction l with
  | nil => rfl
  | cons a l ih =>
    obtain ⟨ha, hl⟩ := List.nodup_cons.1 hl
    rw [List.map_cons, paired_cons, ih hl]
    by_cases h : a = rank
    · subst h
      simp [ha]
    · simp [h, Ne.symm h]

namespace Channels

/-- Channels with the messages of a table, all with one tag. -/
def ofTable (size : Nat) (tag : Int) (table : Nat → Nat → List (Message β)) : Channels β where
  size := size
  queue s d t := if t = tag then table s d else []

@[simp] theorem ofTable_nil (size : Nat) (tag : Int) : (ofTable size tag fun _ _ => []) = (empty size : Channels β) := by
  refine Channels.ext rfl (funext fun s => funext fun d => funext fun t => ?_)
  simp [ofTable, empty]

theorem queue_ofTable (table : Nat → Nat → List (Message β)) (s d : Nat) :
    (ofTable size tag table).queue s d tag = table s d := if_pos rfl

/-- Other messages in one channel. -/
theorem set_ofTable (table : Nat → Nat → List (Message β)) (s d : Nat) (messages : List (Message β)) :
    (ofTable size tag table).set s d tag messages =
      ofTable size tag fun s' d' => if s' = s ∧ d' = d then messages else table s' d' := by
  refine Channels.ext rfl (funext fun s' => funext fun d' => funext fun t => ?_)
  simp only [set, ofTable]
  by_cases h : s' = s ∧ d' = d
  · by_cases ht : t = tag <;> simp [h, ht]
  · have h' : ¬ (s' = s ∧ d' = d ∧ t = tag) := fun hall => h ⟨hall.1, hall.2.1⟩
    simp [h, h']

end Channels

/-! ## One rank alone -/

/-- A program of a rank that comes to a result while nobody else acts. -/
inductive Solo (i : Nat) : Channels β → Program (Action.Answer : Action β → Type) τ → Channels β → τ → Prop where
  | done (q : Channels β) (r : τ) : Solo i q (.done r) q r
  | call {q q' q'' : Channels β} {a : Action β} {x : a.Answer} {next : a.Answer → Program Action.Answer τ} {r : τ}
    (first : q.Acts i a x q') (rest : Solo i q' (next x) q'' r) : Solo i q (.call a next) q'' r

namespace Solo

variable {q q' q'' : Channels β}

theorem bind {p : Program (Action.Answer : Action β → Type) σ} {f : σ → Program Action.Answer τ} {a : σ} {r : τ}
    (h : Solo i q p q' a) (h' : Solo i q' (f a) q'' r) : Solo i q (p >>= f) q'' r := by
  induction h with
  | done => exact h'
  | call first _ ih => exact .call first (ih h')

theorem ok_bind {x : Delivery β σ} {f : σ → Delivery β τ} {a : σ} {r : Except CommError τ}
    (h : Solo i q x.run q' (.ok a)) (h' : Solo i q' (f a).run q'' r) : Solo i q (x >>= f).run q'' r := bind h h'

theorem pure (q : Channels β) (a : τ) : Solo i q (pure a : Delivery β τ).run q (.ok a) := .done q _

/-- In the net the rank goes on with the result. -/
theorem run {p : Program (Action.Answer : Action β → Type) τ} {r : τ} (h : Solo i q p q' r)
    (k : τ → Program Action.Answer ρ) {ranks : List (Program Action.Answer ρ)} (hp : ranks[i]? = some (p >>= k)) :
    ∃ n, Net.Run n ⟨q, ranks⟩ ⟨q', ranks.set i (k r)⟩ := by
  induction h generalizing ranks with
  | done q r =>
    refine ⟨0, ?_⟩
    obtain ⟨hi, hget⟩ := List.getElem?_eq_some_iff.1 hp
    have hget' : ranks[i] = k r := hget
    rw [← hget', List.set_getElem_self]
    exact .refl _
  | @call _ _ _ a x next r first rest ih =>
    have hi := (List.getElem?_eq_some_iff.1 hp).1
    have hnext : (ranks.set i (next x >>= k))[i]? = some (next x >>= k) := List.getElem?_set_self hi
    obtain ⟨n, hn⟩ := ih hnext
    rw [List.set_set] at hn
    exact ⟨n + 1, .act (.act hp first) hn⟩

end Solo

/-! ## All ranks -/

theorem Net.Run.trans {m n : Nat} {c d e : Net β ρ} (h : Net.Run m c d) (h' : Net.Run n d e) : Net.Run (m + n) c e := by
  induction h with
  | refl => rwa [Nat.zero_add]
  | act first _ ih => rw [Nat.succ_add]; exact .act first (ih h')

/-- Whether programs of all ranks come to results and leave no message behind, whatever they go on with. -/
def Collective (size : Nat) (ps : Nat → Program (Action.Answer : Action β → Type) τ) (rs : Nat → τ) : Prop :=
  ∀ (ρ : Type) (k : Nat → τ → Program Action.Answer ρ), ∃ n,
    Net.Run n ⟨.empty size, (List.range size).map fun i => ps i >>= k i⟩
      ⟨.empty size, (List.range size).map fun i => k i (rs i)⟩

section Turns

variable {q : Nat → Channels β} {ps : Nat → Program (Action.Answer : Action β → Type) τ} {rs : Nat → τ}
  (h : ∀ i < size, Solo i (q i) (ps i) (q (i + 1)) (rs i)) (k : Nat → τ → Program (Action.Answer : Action β → Type) ρ)
include h

/-- The first ranks have had their turn. -/
theorem exists_run_of_solo_prefix (m : Nat) (hm : m ≤ size) :
    ∃ n, Net.Run n ⟨q 0, (List.range size).map fun i => ps i >>= k i⟩
      ⟨q m, (List.range size).map fun i => if i < m then k i (rs i) else ps i >>= k i⟩ := by
  induction m with
  | zero => exact ⟨0, by simpa using Net.Run.refl _⟩
  | succ m ih =>
    obtain ⟨n, hn⟩ := ih (Nat.le_of_succ_le hm)
    have hp : ((List.range size).map fun i => if i < m then k i (rs i) else ps i >>= k i)[m]? =
        some (ps m >>= k m) := by
      simp [List.getElem?_range (Nat.lt_of_succ_le hm)]
    obtain ⟨n', hn'⟩ := (h m hm).run (k m) hp
    have hset : ((List.range size).map fun i => if i < m then k i (rs i) else ps i >>= k i).set m (k m (rs m)) =
        (List.range size).map fun i => if i < m + 1 then k i (rs i) else ps i >>= k i := by
      refine List.ext_getElem (by simp) fun j h₁ h₂ => ?_
      rw [List.getElem_set]
      simp only [List.getElem_map, List.getElem_range]
      rcases Nat.lt_trichotomy m j with hlt | rfl | hlt
      · rw [if_neg (Nat.ne_of_lt hlt), if_neg (by omega), if_neg (by omega)]
      · rw [if_pos rfl, if_pos (Nat.lt_succ_self m)]
      · rw [if_neg (Nat.ne_of_gt hlt), if_pos hlt, if_pos (by omega)]
    rw [hset] at hn'
    exact ⟨n + n', hn.trans hn'⟩

/-- If each rank in turn comes to a result alone, all do. -/
theorem exists_run_of_solo : ∃ n, Net.Run n ⟨q 0, (List.range size).map fun i => ps i >>= k i⟩
    ⟨q size, (List.range size).map fun i => k i (rs i)⟩ := by
  obtain ⟨n, hn⟩ := exists_run_of_solo_prefix h k size (Nat.le_refl size)
  have hall : ((List.range size).map fun i => if i < size then k i (rs i) else ps i >>= k i) =
      (List.range size).map fun i => k i (rs i) :=
    List.map_congr_left fun i hi => if_pos (List.mem_range.1 hi)
  rw [hall] at hn
  exact ⟨n, hn⟩

end Turns

namespace Collective

variable {ps : Nat → Program (Action.Answer : Action β → Type) σ} {rs : Nat → σ}

theorem done (size : Nat) (rs : Nat → σ) : 
    Collective size (fun i => (.done (rs i) : Program (Action.Answer : Action β → Type) σ)) rs := fun _ _ => ⟨0, .refl _⟩

theorem bind {f : Nat → σ → Program (Action.Answer : Action β → Type) τ} {ss : Nat → τ} (h : Collective size ps rs)
    (h' : Collective size (fun i => f i (rs i)) ss) : Collective size (fun i => ps i >>= f i) ss := by
  intro ρ k
  obtain ⟨n, hn⟩ := h ρ fun i a => f i a >>= k i
  obtain ⟨n', hn'⟩ := h' ρ k
  simp only [bind_assoc]
  exact ⟨n + n', hn.trans hn'⟩

theorem ok_bind {xs : Nat → Delivery β σ} (f : Nat → σ → Delivery β τ) {ss : Nat → Except CommError τ}
    (h : Collective size (fun i => (xs i).run) fun i => .ok (rs i))
    (h' : Collective size (fun i => (f i (rs i)).run) ss) : Collective size (fun i => (xs i >>= f i).run) ss :=
  bind h h'

theorem congr {ps' : Nat → Program (Action.Answer : Action β → Type) σ} {rs' : Nat → σ} (h : Collective size ps rs)
    (hps : ∀ i < size, ps' i = ps i) (hrs : ∀ i < size, rs' i = rs i) : Collective size ps' rs' := by
  intro ρ k
  obtain ⟨n, hn⟩ := h ρ k
  have h₁ : ((List.range size).map fun i => ps' i >>= k i) = (List.range size).map fun i => ps i >>= k i :=
    List.map_congr_left fun i hi => by rw [hps i (List.mem_range.1 hi)]
  have h₂ : ((List.range size).map fun i => k i (rs' i)) = (List.range size).map fun i => k i (rs i) :=
    List.map_congr_left fun i hi => by rw [hrs i (List.mem_range.1 hi)]
  rw [h₁, h₂]
  exact ⟨n, hn⟩

/-- Programs that are collective run to their results. -/
theorem exists_run (h : Collective size ps rs) : ∃ n, Net.Run n ⟨.empty size, (List.range size).map ps⟩
    (Net.finished (.empty size) ((List.range size).map rs)) := by
  obtain ⟨n, hn⟩ := h σ fun _ => Program.done
  simp only [bind_done] at hn
  refine ⟨n, ?_⟩
  rw [Net.finished, List.map_map]
  exact hn

end Collective

/-! ## One round -/

/-- Posts of a rank: each channel from it gets its messages behind those that are there. -/
theorem solo_posts (posts : List (Nat × Message β)) (hdest : ∀ p ∈ posts, p.1 < size)
    (table : Nat → Nat → List (Message β)) :
    Solo i (.ofTable size tag table) (posts.forM fun p => Delivery.post p.1 tag p.2).run
      (.ofTable size tag fun s d => if s = i then table s d ++ paired posts d else table s d) (.ok ⟨⟩) := by
  induction posts generalizing table with
  | nil =>
    simp only [paired_nil, List.append_nil, ite_self]
    exact .pure _ _
  | cons p posts ih =>
    obtain ⟨dest, data⟩ := p
    have hvalid : dest < size := hdest _ List.mem_cons_self
    have hpost : Solo i (.ofTable size tag table) (Delivery.post dest tag data).run
        (.ofTable size tag fun s d => if s = i ∧ d = dest then table i dest ++ [data] else table s d) (.ok ()) := by
      refine .call ?_ (.done _ _)
      rw [← Channels.set_ofTable]
      have := (.post tag data hvalid : (Channels.ofTable size tag table).Acts i _ _ _)
      rwa [Channels.queue_ofTable] at this
    refine hpost.ok_bind ?_
    have hrest := ih (fun p hp => hdest p (List.mem_cons_of_mem _ hp))
      fun s d => if s = i ∧ d = dest then table i dest ++ [data] else table s d
    have htable : (fun s d => if s = i then table s d ++ paired ((dest, data) :: posts) d else table s d) =
        fun s d => if s = i then (if s = i ∧ d = dest then table i dest ++ [data] else table s d) ++ paired posts d
          else if s = i ∧ d = dest then table i dest ++ [data] else table s d := by
      funext s d
      rw [paired_cons]
      by_cases hs : s = i
      · by_cases hd : d = dest
        · subst hs hd
          simp
        · simp [hs, hd, Ne.symm hd]
      · simp [hs]
    rw [htable]
    exact hrest

/-- Takes of a rank that empty its channels. An item may also be found without taking anything. -/
theorem solo_takes {items : List σ} {take? : σ → Option (Nat × Message β)} {f : σ → Delivery β τ} {g : σ → τ}
    (table : Nat → Nat → List (Message β)) (hlocal : ∀ x ∈ items, take? x = none → (f x).run = .done (.ok (g x)))
    (htake : ∀ x ∈ items, ∀ s m, take? x = some (s, m) → ∀ (q : Channels β) rest, q.queue s i tag = m :: rest →
      Solo i q (f x).run (q.set s i tag rest) (.ok (g x)))
    (htable : ∀ s, table s i = paired (items.filterMap take?) s) :
    Solo i (.ofTable size tag table) (items.mapM f).run
      (.ofTable size tag fun s d => if d = i then [] else table s d) (.ok (items.map g)) := by
  induction items generalizing table with
  | nil =>
    have hempty : (fun s d => if d = i then [] else table s d) = table := by
      funext s d
      by_cases hd : d = i
      · rw [if_pos hd, hd, htable s, List.filterMap_nil, paired_nil]
      · rw [if_neg hd]
    rw [hempty]
    exact .pure _ _
  | cons x items ih =>
    rw [List.mapM_cons]
    have hlocal' := fun y hy => hlocal y (List.mem_cons_of_mem x hy)
    have htake' := fun y hy => htake y (List.mem_cons_of_mem x hy)
    cases hx : take? x with
    | none =>
      rw [List.filterMap_cons_none hx] at htable
      have hfirst : Solo i (.ofTable size tag table) (f x).run (.ofTable size tag table) (.ok (g x)) := by
        rw [hlocal x List.mem_cons_self hx]
        exact .done _ _
      exact hfirst.ok_bind ((ih table hlocal' htake' htable).ok_bind (.pure _ _))
    | some p =>
      obtain ⟨s, m⟩ := p
      rw [List.filterMap_cons_some hx] at htable
      have hfirst : Solo i (.ofTable size tag table) (f x).run (.ofTable size tag fun s' d =>
          if s' = s ∧ d = i then paired (items.filterMap take?) s else table s' d) (.ok (g x)) := by
        rw [← Channels.set_ofTable]
        refine htake x List.mem_cons_self s m hx _ _ ?_
        rw [Channels.queue_ofTable, htable s, paired_cons, if_pos rfl]
      have hrest := ih (fun s' d => if s' = s ∧ d = i then paired (items.filterMap take?) s else table s' d) hlocal' htake'
        fun s' => by
          by_cases hs : s' = s
          · rw [if_pos ⟨hs, rfl⟩, hs]
          · rw [if_neg fun h => hs h.1, htable s', paired_cons, if_neg (Ne.symm hs)]
      have hend : (fun s' d => if d = i then [] else table s' d) = fun s' d => if d = i then []
          else if s' = s ∧ d = i then paired (items.filterMap take?) s else table s' d := by
        funext s' d
        by_cases hd : d = i <;> simp [hd]
      rw [hend]
      exact hfirst.ok_bind (hrest.ok_bind (.pure _ _))

/-- Posts of a rank in its turn, when the ranks before it have posted theirs. -/
theorem solo_posts_turn (tag : Int) (posts : Nat → List (Nat × Message β)) (hdest : ∀ p ∈ posts i, p.1 < size) :
    Solo i (.ofTable size tag fun s d => if s < i then paired (posts s) d else [])
      ((posts i).forM fun p => Delivery.post p.1 tag p.2).run
      (.ofTable size tag fun s d => if s < i + 1 then paired (posts s) d else []) (.ok ⟨⟩) := by
  have h : Solo i (.ofTable size tag _) _ _ _ := solo_posts (posts i) hdest
    fun s d => if s < i then paired (posts s) d else []
  have htable : (fun s d => if s < i + 1 then paired (posts s) d else []) =
      fun s d => if s = i then (if s < i then paired (posts s) d else []) ++ paired (posts i) d
        else if s < i then paired (posts s) d else [] := by
    funext s d
    rcases Nat.lt_trichotomy s i with hlt | rfl | hlt
    · rw [if_pos (by omega), if_neg (by omega), if_pos hlt]
    · simp
    · rw [if_neg (by omega), if_neg (by omega), if_neg (by omega)]
  rw [htable]
  exact h

/-- Takes of a rank in its turn, when all have posted and the ranks before it have taken theirs. -/
theorem solo_takes_turn {posts : Nat → List (Nat × Message β)} {items : List σ} {take? : σ → Option (Nat × Message β)}
    {f : σ → Delivery β τ} {g : σ → τ} (hsource : ∀ x ∈ items, ∀ s m, take? x = some (s, m) → s < size)
    (hlocal : ∀ x ∈ items, take? x = none → (f x).run = .done (.ok (g x)))
    (htake : ∀ x ∈ items, ∀ s m, take? x = some (s, m) → ∀ (q : Channels β) rest, q.queue s i tag = m :: rest →
      Solo i q (f x).run (q.set s i tag rest) (.ok (g x)))
    (hpaired : ∀ s < size, paired (items.filterMap take?) s = paired (posts s) i) :
    Solo i (.ofTable size tag fun s d => if i ≤ d ∧ s < size then paired (posts s) d else []) (items.mapM f).run
      (.ofTable size tag fun s d => if i + 1 ≤ d ∧ s < size then paired (posts s) d else []) (.ok (items.map g)) := by
  have h : Solo i (.ofTable size tag _) _ _ _ := solo_takes
    (fun s d => if i ≤ d ∧ s < size then paired (posts s) d else []) hlocal htake fun s => by
      by_cases hs : s < size
      · rw [if_pos ⟨Nat.le_refl i, hs⟩, hpaired s hs]
      · -- No rank takes anything from outside the cluster.
        rw [if_neg fun h => hs h.2, paired_eq_nil fun p hp => ?_]
        obtain ⟨x, hx, hxp⟩ := List.mem_filterMap.1 hp
        exact fun heq => hs (heq ▸ hsource x hx p.1 p.2 hxp)
  have htable : (fun s d => if i + 1 ≤ d ∧ s < size then paired (posts s) d else []) =
      fun s d => if d = i then [] else if i ≤ d ∧ s < size then paired (posts s) d else [] := by
    funext s d
    by_cases hd : d = i
    · rw [if_pos hd, if_neg (by omega)]
    · have hiff : (i + 1 ≤ d ∧ s < size) ↔ (i ≤ d ∧ s < size) := by omega
      simp only [if_neg hd, hiff]
  rw [htable]
  exact h

/-- When all ranks have taken their messages, none is under way. -/
theorem ofTable_taken {posts : Nat → List (Nat × Message β)} (hdest : ∀ i < size, ∀ p ∈ posts i, p.1 < size) :
    (Channels.ofTable size tag fun s d => if size ≤ d ∧ s < size then paired (posts s) d else []) = .empty size := by
  rw [← Channels.ofTable_nil size tag]
  congr 1
  funext s d
  split
  case isFalse => rfl
  case isTrue h =>
    exact paired_eq_nil fun p hp heq => absurd (hdest s h.2 p hp) (Nat.not_lt.2 (heq ▸ h.1))

/-- A round: every rank posts its messages and then takes exactly those for it. It takes the messages of each rank in the order
in which they were posted. -/
theorem collective_round (size : Nat) (tag : Int) (posts : Nat → List (Nat × Message β)) (items : Nat → List σ)
    (take? : Nat → σ → Option (Nat × Message β)) (f : Nat → σ → Delivery β τ) (g : Nat → σ → τ)
    (hdest : ∀ i < size, ∀ p ∈ posts i, p.1 < size)
    (hsource : ∀ i < size, ∀ x ∈ items i, ∀ s m, take? i x = some (s, m) → s < size)
    (hlocal : ∀ i < size, ∀ x ∈ items i, take? i x = none → (f i x).run = .done (.ok (g i x)))
    (htake : ∀ i < size, ∀ x ∈ items i, ∀ s m, take? i x = some (s, m) → ∀ (q : Channels β) rest,
      q.queue s i tag = m :: rest → Solo i q (f i x).run (q.set s i tag rest) (.ok (g i x)))
    (hpaired : ∀ i < size, ∀ s < size, paired ((items i).filterMap (take? i)) s = paired (posts s) i) :
    Collective size
      (fun i => ((posts i).forM (fun p => Delivery.post p.1 tag p.2) >>= fun _ => (items i).mapM (f i)).run)
      fun i => .ok ((items i).map (g i)) := by
  intro ρ k
  obtain ⟨n₁, hn₁⟩ := exists_run_of_solo (fun i hi => solo_posts_turn tag posts (hdest i hi)) fun i r =>
    ExceptT.bindCont (fun _ => (items i).mapM (f i)) r >>= k i
  obtain ⟨n₂, hn₂⟩ := exists_run_of_solo
    (fun i hi => solo_takes_turn (hsource i hi) (hlocal i hi) (htake i hi) (hpaired i hi)) k
  have hstart : (Channels.ofTable size tag fun s d => if s < 0 then paired (posts s) d else []) = .empty size := by
    simp
  have hmiddle : (fun s d => if s < size then paired (posts s) d else []) =
      fun s d => if 0 ≤ d ∧ s < size then paired (posts s) d else [] := by
    simp
  rw [hstart, hmiddle] at hn₁
  rw [ofTable_taken hdest] at hn₂
  have hps : (fun i => ((posts i).forM (fun p => Delivery.post p.1 tag p.2) >>= fun _ => (items i).mapM (f i)).run >>= k i) =
      fun i => ((posts i).forM fun p => Delivery.post p.1 tag p.2).run >>= fun r =>
        ExceptT.bindCont (fun _ => (items i).mapM (f i)) r >>= k i :=
    funext fun i => Program.bind_assoc _ _ _
  rw [hps]
  exact ⟨n₁ + n₂, hn₁.trans hn₂⟩

end CurvePartition
