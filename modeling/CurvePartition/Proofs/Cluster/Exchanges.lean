-- SUMMARY: What all ranks get from exchanges that they make together: reductions and messages between single ranks.
import Mathlib.Tactic.ByContra
import CurvePartition.Cluster.Attempt
import CurvePartition.Proofs.Cluster.Rounds
import CurvePartition.Proofs.Space.Ordering

/-!
# Exchanges

`Program.Collects` speaks of programs of calls as `Collective` does of programs of actions. A reduction that all ranks
make gives each of them the combination of all contributions in the order of the ranks, and messages arrive as they
were sent, provided that words and scalars can be read back as they were spelled (`Wire.LawfulWords`,
`Wire.LawfulScalars`).
-/

namespace CurvePartition

open Program

namespace Wire

/-- Words that can be read back. -/
class LawfulWords (α : Type) (β : outParam Type) [Wire α β] : Prop where
  length_spellWord : ∀ width n, (spellWord α width n).length = width
  readWord_spellWord : ∀ width n, n < 256 ^ width → readWord α (spellWord α width n) = n

/-- Scalars that can be read back. -/
class LawfulScalars (α : Type) (β : outParam Type) [Wire α β] : Prop where
  length_spellScalar : ∀ x : α, (spellScalar x).length = scalarWidth
  readScalar_spellScalar : ∀ x : α, readScalar (spellScalar x) = x

instance : LawfulWords Float UInt8 where
  length_spellWord := Bytes.length_ofNat
  readWord_spellWord _ _ h := Bytes.toNat_ofNat h

/-- The pieces of a message of equal parts are the parts. -/
theorem chunks_flatMap {β τ : Type} {spell : τ → List β} {width : Nat} (l : List τ)
    (h : ∀ v ∈ l, (spell v).length = width) : chunks width l.length (l.flatMap spell) = l.map spell := by
  induction l with
  | nil => rfl
  | cons v l ih =>
    have hv : (spell v).length = width := h v List.mem_cons_self
    simp only [List.length_cons, chunks, List.flatMap_cons, List.map_cons]
    rw [← hv, List.take_left, List.drop_left, hv, ih fun w hw => h w (List.mem_cons_of_mem v hw)]

/-- A message of equal parts is read one part after the other. -/
theorem map_chunks_flatMap {β τ υ : Type} {spell : τ → List β} {width : Nat} (read : List β → υ) (l : List τ)
    (h : ∀ v ∈ l, (spell v).length = width) :
    (chunks width l.length (l.flatMap spell)).map read = l.map fun v => read (spell v) := by
  rw [chunks_flatMap l h, List.map_map]
  rfl

theorem length_flatMap {β τ : Type} {spell : τ → List β} {width : Nat} (l : List τ)
    (h : ∀ v ∈ l, (spell v).length = width) : (l.flatMap spell).length = l.length * width := by
  induction l with
  | nil => exact (Nat.zero_mul width).symm
  | cons v l ih =>
    rw [List.flatMap_cons, List.length_append, h v List.mem_cons_self, ih fun w hw => h w (List.mem_cons_of_mem v hw),
      List.length_cons, Nat.succ_mul, Nat.add_comm]

end Wire

variable {β σ τ : Type} {size : Nat}

namespace Delivery

theorem solo_take {i source : Nat} {tag : Int} {q : Channels β} {m : Message β} {rest : List (Message β)}
    (h : q.queue source i tag = m :: rest) : Solo i q (take source tag).run (q.set source i tag rest) (.ok m) :=
  .call (.take h) (.done _ _)

theorem solo_takeSized {i source : Nat} {tag : Int} {q : Channels β} {m : Message β} {rest : List (Message β)}
    (h : q.queue source i tag = m :: rest) :
    Solo i q (takeSized source tag m.length).run (q.set source i tag rest) (.ok m) := by
  refine (solo_take h).ok_bind ?_
  rw [if_pos rfl]
  exact .pure _ _

theorem nodup_peers (place : Place) : place.peers.Nodup := List.nodup_range.filter _

theorem mem_peers_iff {place : Place} {r : Nat} : r ∈ place.peers ↔ r < place.size ∧ r ≠ place.rank := by
  simp [Place.peers]

theorem mem_cons_peers_iff {i s : Nat} (hi : i < size) : s ∈ i :: (Place.mk i size).peers ↔ s < size := by
  rw [List.mem_cons, mem_peers_iff]
  constructor
  · rintro (rfl | h)
    · exact hi
    · exact h.1
  · intro hs
    by_cases heq : s = i
    · exact .inl heq
    · exact .inr ⟨hs, heq⟩

theorem nodup_cons_peers (i size : Nat) : (i :: (Place.mk i size).peers).Nodup :=
  List.nodup_cons.2 ⟨fun h => (mem_peers_iff.1 h).2 rfl, nodup_peers _⟩

theorem filterMap_eq_peers (i : Nat) (f : Nat → τ) :
    ((List.range size).filterMap fun s => if s = i then none else some (f s)) = (Place.mk i size).peers.map f := by
  rw [Place.peers, ← List.filterMap_eq_map, ← List.filterMap_eq_filter, List.filterMap_filterMap]
  refine congrArg (List.filterMap · _) (funext fun s => ?_)
  by_cases hs : s = i <;> simp [Option.guard, hs]

/-- A message from a rank to another one and its place among those that the other one gets. -/
theorem paired_peers {i s : Nat} (hi : i < size) (hs : s < size) (data : Nat → Nat → Message β) :
    paired ((Place.mk i size).peers.map fun s => (s, data s i)) s =
      paired ((Place.mk s size).peers.map fun d => (d, data s d)) i := by
  rw [paired_map_of_nodup (nodup_peers _) fun s => data s i, paired_map_of_nodup (nodup_peers _) (data s)]
  simp only [mem_peers_iff, hi, hs, true_and, ne_comm]

/-- A rank that is alone keeps its values. -/
theorem collective_reduce_alone (spell : τ → Message β) (read : Message β → τ) (combine : τ → τ → τ) (values : Nat → List τ) :
    Collective 1 (fun i => (reduce ⟨i, 1⟩ spell read combine (values i)).run) fun i => .ok (values i) := by
  refine (Collective.done 1 fun i => Except.ok (values i)).congr (fun i _ => ?_) fun _ _ => rfl
  rw [reduce, if_pos rfl]
  rfl

/-- A rank reads the contribution of another one, whose message has the length of its own. -/
theorem solo_contribution {spell : τ → Message β} {read : Message β → τ} {values : Nat → List τ} {n i s : Nat}
    (hlength : ∀ i < size, (values i).length = n) (hspell : ∀ i < size, ∀ v ∈ values i, (spell v).length = Wire.wordWidth)
    (hi : i < size) (hs : s < size) {q : Channels β} {rest : List (Message β)}
    (hq : q.queue s i reductionTag = (values s).flatMap spell :: rest) :
    Solo i q (do
      let data ← takeSized s reductionTag ((values i).flatMap spell).length
      return (Wire.chunks Wire.wordWidth (values i).length data).map read : Delivery β (List τ)).run
      (q.set s i reductionTag rest) (.ok ((values s).map fun v => read (spell v))) := by
  have hmessage : ∀ i < size, ((values i).flatMap spell).length = n * Wire.wordWidth := fun i hi => by
    rw [← hlength i hi]
    exact Wire.length_flatMap _ fun v hv => hspell i hi v hv
  rw [hmessage i hi, ← hmessage s hs]
  refine (solo_takeSized hq).ok_bind ?_
  rw [hlength i hi, ← hlength s hs, Wire.map_chunks_flatMap read _ (hspell s hs)]
  exact .pure _ _

/-- In a reduction every rank gets the combination of its own values with those it reads from the others. -/
theorem collective_reduce_read (spell : τ → Message β) (read : Message β → τ) (combine : τ → τ → τ)
    {values : Nat → List τ} {n : Nat} (hlength : ∀ i < size, (values i).length = n)
    (hspell : ∀ i < size, ∀ v ∈ values i, (spell v).length = Wire.wordWidth) :
    Collective size (fun i => (reduce ⟨i, size⟩ spell read combine (values i)).run) fun i =>
      .ok (combineAll combine ((List.range size).map fun s =>
        if s = i then values s else (values s).map fun v => read (spell v))) := by
  by_cases hone : size = 1
  · subst hone
    refine (collective_reduce_alone spell read combine values).congr (fun _ _ => rfl) fun i hi => ?_
    obtain rfl : i = 0 := Nat.lt_one_iff.1 hi
    rfl
  have hround := collective_round size reductionTag
    (fun i => (Place.mk i size).peers.map fun peer => (peer, (values i).flatMap spell)) (fun _ => List.range size)
    (fun i s => if s = i then none else some (s, (values s).flatMap spell))
    (fun i source => if source = i then pure (values i) else do
      let data ← takeSized source reductionTag ((values i).flatMap spell).length
      return (Wire.chunks Wire.wordWidth (values i).length data).map read)
    (fun i s => if s = i then values s else (values s).map fun v => read (spell v)) ?_ ?_ ?_ ?_ ?_
  · have hcombine := hround.ok_bind (fun _ contributions => pure (combineAll combine contributions)) (Collective.done _ _)
    refine hcombine.congr (fun i _ => ?_) fun _ _ => rfl
    rw [reduce, if_neg hone, LawfulMonad.bind_assoc]
    simp only [List.forM_eq_forM, List.forM_map]
  · intro i _ p hp
    obtain ⟨peer, hpeer, rfl⟩ := List.mem_map.1 hp
    exact (mem_peers_iff.1 hpeer).1
  · intro i _ x hx s m hsome
    split at hsome
    · cases hsome
    · cases hsome
      exact List.mem_range.1 hx
  · intro i _ s _ hnone
    have hs : s = i := by
      by_contra hne
      rw [if_neg hne] at hnone
      cases hnone
    rw [if_pos hs, if_pos hs, hs]
    rfl
  · intro i hi s hs s' m hsome q rest hq
    have hne : s ≠ i := fun heq => by
      rw [if_pos heq] at hsome
      cases hsome
    rw [if_neg hne, Option.some.injEq, Prod.mk.injEq] at hsome
    obtain ⟨rfl, rfl⟩ := hsome
    rw [if_neg hne, if_neg hne]
    exact solo_contribution hlength hspell hi (List.mem_range.1 hs) hq
  · intro i hi s hs
    rw [filterMap_eq_peers]
    exact paired_peers hi hs fun s _ => (values s).flatMap spell

/-- In a reduction of values that can be read back every rank gets the combination of what all ranks gave. -/
theorem collective_reduce (spell : τ → Message β) (read : Message β → τ) (combine : τ → τ → τ)
    {values : Nat → List τ} {n : Nat} (hlength : ∀ i < size, (values i).length = n)
    (hspell : ∀ i < size, ∀ v ∈ values i, (spell v).length = Wire.wordWidth ∧ read (spell v) = v) :
    Collective size (fun i => (reduce ⟨i, size⟩ spell read combine (values i)).run) fun _ =>
      .ok (combineAll combine ((List.range size).map values)) := by
  refine (collective_reduce_read spell read combine hlength fun i hi v hv => (hspell i hi v hv).1).congr
    (fun _ _ => rfl) fun i _ => congrArg (Except.ok ∘ combineAll combine) (List.map_congr_left fun s hs => ?_)
  split
  · rfl
  · exact (List.map_congr_left fun v hv => (hspell s (List.mem_range.1 hs) v hv).2).trans (List.map_id' _) |>.symm

end Delivery

/-! ## Programs of calls -/

variable {α ε : Type} [Scalar α] [Wire α β]

/-- Whether programs of calls, one for each rank, together come to results and leave no message behind. -/
def Collects (size : Nat) (ps : Nat → Program (Call.Answer : Call α β → Type) τ) (rs : Nat → τ) : Prop :=
  Collective size (fun i => (ps i).expand (Call.toActions ⟨i, size⟩)) rs

namespace Collects

theorem done (rs : Nat → τ) : Collects size (fun i => (.done (rs i) : Program (Call.Answer : Call α β → Type) τ)) rs :=
  Collective.done size rs

theorem bind {ps : Nat → Program (Call.Answer : Call α β → Type) σ} {rs : Nat → σ}
    {f : Nat → σ → Program (Call.Answer : Call α β → Type) τ} {ss : Nat → τ} (h : Collects size ps rs)
    (h' : Collects size (fun i => f i (rs i)) ss) : Collects size (fun i => ps i >>= f i) ss := by
  unfold Collects
  simp only [expand_bind]
  exact Collective.bind h h'

theorem ok_bind {xs : Nat → ExceptT ε (Program (Call.Answer : Call α β → Type)) σ} {rs : Nat → σ}
    {f : Nat → σ → ExceptT ε (Program (Call.Answer : Call α β → Type)) τ} {ss : Nat → Except ε τ}
    (h : Collects size (fun i => (xs i).run) fun i => .ok (rs i))
    (h' : Collects size (fun i => (f i (rs i)).run) ss) : Collects size (fun i => (xs i >>= f i).run) ss :=
  bind h h'

theorem congr {ps ps' : Nat → Program (Call.Answer : Call α β → Type) σ} {rs rs' : Nat → σ} (h : Collects size ps rs)
    (hps : ∀ i < size, ps' i = ps i) (hrs : ∀ i < size, rs' i = rs i) : Collects size ps' rs' :=
  Collective.congr h (fun i hi => by rw [hps i hi]) hrs

theorem attempt {es : Nat → Exchange α β τ} {rs : Nat → τ} (h : Collects size (fun i => (es i).run) fun i => .ok (rs i)) :
    Collects size (fun i => (Attempt.exchange (es i)).run) fun i => .ok (rs i) :=
  bind h (done _)

variable {program : Place → Program (Call.Answer : Call α β → Type) τ} {rs : Nat → τ}

theorem exists_run (h : Collects size (fun i => program ⟨i, size⟩) rs) : ∃ n,
    Net.Run n (Cluster.start ((List.range size).map fun rank =>
      (program ⟨rank, size⟩).expand (Call.toActions ⟨rank, size⟩))).net
      (Net.finished (.empty size) ((List.range size).map rs)) := by
  obtain ⟨n, hn⟩ := Collective.exists_run h
  refine ⟨n, ?_⟩
  rw [Cluster.net, Cluster.start, Mail.channels_empty, List.length_map, List.length_range]
  exact hn

/-- Run together, the programs come to their results. -/
theorem runAll_eq (h : Collects size (fun i => program ⟨i, size⟩) rs) :
    Cluster.runAll size program = (List.range size).map rs := by
  obtain ⟨n, hn⟩ := h.exists_run
  exact Cluster.results_run rfl hn

/-- In whatever order the ranks act and lose patience, a rank that is done has its result or reports a message that did
not arrive in time. -/
theorem result_of_steps {failed : CommError → τ → Prop} (h : Collects size (fun i => program ⟨i, size⟩) rs)
    (hfast : ∀ place, (program place).FailsFast Call.failure failed) {c : Cluster β τ}
    (hsteps : Relation.ReflTransGen Cluster.Step (Cluster.start ((List.range size).map fun rank =>
      (program ⟨rank, size⟩).expand (Call.toActions ⟨rank, size⟩))) c) {i : Nat} {r : τ}
    (hr : c.ranks[i]? = some (.done r)) : r = rs i ∨ ∃ source tag, failed (.timeout source tag) r := by
  obtain ⟨n, hn⟩ := h.exists_run
  have hall : ∀ p ∈ (List.range size).map fun rank => (program ⟨rank, size⟩).expand (Call.toActions ⟨rank, size⟩),
      p.FailsFast Action.failure failed := by
    intro p hp
    obtain ⟨rank, _, rfl⟩ := List.mem_map.1 hp
    exact (hfast _).expand (Call.failsFast_toActions _)
  rcases Cluster.result_of_steps rfl hall hn hsteps hr with hi | hfailed
  · rw [List.getElem?_map, Option.map_eq_some_iff] at hi
    obtain ⟨j, hj, rfl⟩ := hi
    obtain ⟨_, rfl⟩ := List.getElem?_eq_some_iff.1 hj
    exact .inl (by rw [List.getElem_range])
  · exact .inr hfailed

end Collects

/-- Whether the ranks of a cluster that make an attempt come to given results: all of them do if nobody loses patience,
and in every order of steps a rank that is done has its result or reports a message that did not arrive in time. -/
structure Attempt.ComesTo (size : Nat) (x : Place → Attempt α β τ) (rs : Nat → Except (Error α) τ) : Prop where
  runAll_eq : Cluster.runAll size (fun place => (x place).run) = (List.range size).map rs
  result_eq : ∀ c : Cluster β (Except (Error α) τ), Relation.ReflTransGen Cluster.Step
    (.start ((List.range size).map fun rank => (x ⟨rank, size⟩).run.expand (Call.toActions ⟨rank, size⟩))) c →
      ∀ (i : Nat) r, c.ranks[i]? = some (.done r) →
        r = rs i ∨ ∃ source tag, r = .error (.communication (.timeout source tag))

theorem Collects.comesTo {x : Place → Attempt α β τ} {rs : Nat → Except (Error α) τ}
    (h : Collects size (fun i => (fun place => (x place).run) ⟨i, size⟩) rs)
    (hthrows : ∀ place, Throws Call.failure Error.communication (x place)) : Attempt.ComesTo size x rs where
  runAll_eq := h.runAll_eq
  result_eq _ hsteps _ _ hr := h.result_of_steps hthrows hsteps hr

/-- A reduction of words gives every rank the combination of all contributions. -/
theorem Exchange.collects_reduceWords [Wire.LawfulWords α β] (op : Reduction) {values : Nat → List Nat} {n : Nat}
    (hlength : ∀ i < size, (values i).length = n) (hsmall : ∀ i < size, ∀ v ∈ values i, v < 2 ^ 64) :
    Collects size (fun i => (Exchange.reduceWords op (values i) : Exchange α β (List Nat)).run) fun _ =>
      .ok (Delivery.combineAll op.words ((List.range size).map values)) := by
  refine (Delivery.collective_reduce (Wire.spellWord α Wire.wordWidth) (Wire.readWord α) op.words hlength
    fun i hi v hv => ⟨?_, ?_⟩).congr (fun i _ => ?_) fun _ _ => rfl
  · exact Wire.LawfulWords.length_spellWord _ _
  · refine Wire.LawfulWords.readWord_spellWord _ _ (Nat.lt_of_lt_of_le (hsmall i hi v hv) ?_)
    decide
  · exact expand_perform _ _

/-- A reduction of words comes to an answer on every rank, also of words that cannot be read back. -/
theorem Exchange.collects_reduceWords_read [Wire.LawfulWords α β] (op : Reduction) {values : Nat → List Nat} {n : Nat}
    (hlength : ∀ i < size, (values i).length = n) :
    Collects size (fun i => (Exchange.reduceWords op (values i) : Exchange α β (List Nat)).run) fun i =>
      .ok (Delivery.combineAll op.words ((List.range size).map fun s =>
        if s = i then values s else (values s).map fun v => Wire.readWord α (Wire.spellWord α Wire.wordWidth v))) := by
  refine (Delivery.collective_reduce_read (Wire.spellWord α Wire.wordWidth) (Wire.readWord α) op.words hlength
    fun _ _ _ _ => Wire.LawfulWords.length_spellWord _ _).congr (fun i _ => ?_) fun _ _ => rfl
  exact expand_perform _ _

/-- A reduction of scalars gives every rank the combination of all contributions. -/
theorem Exchange.collects_reduceScalars [Wire.LawfulScalars α β] (op : Reduction) {values : Nat → List α} {n : Nat}
    (hlength : ∀ i < size, (values i).length = n) :
    Collects size (fun i => (Exchange.reduceScalars op (values i) : Exchange α β (List α)).run) fun _ =>
      .ok (Delivery.combineAll op.scalars ((List.range size).map values)) := by
  refine (Delivery.collective_reduce (Wire.spellScalar (α := α)) Wire.readScalar op.scalars hlength
    fun _ _ v _ => ⟨Wire.LawfulScalars.length_spellScalar v, Wire.LawfulScalars.readScalar_spellScalar v⟩).congr
      (fun i _ => ?_) fun _ _ => rfl
  exact expand_perform _ _

/-! ## Combined contributions -/

namespace Delivery

variable {τ : Type}

variable {le : τ → τ → Prop} {combine : τ → τ → τ} (hrefl : ∀ a, le a a)
  (htrans : ∀ {a b c}, le a b → le b c → le a c) (hleft : ∀ a b, le a (combine a b))
  (hright : ∀ a b, le b (combine a b))
include hrefl htrans hleft hright

theorem foldl_zipWith_bound {j n : Nat} (hj : j < n) (lists : List (List τ)) (hlength : ∀ l ∈ lists, l.length = n)
    {first : List τ} {a : τ} (hfirst : first.length = n) (ha : first[j]? = some a) :
    ∃ b, (lists.foldl (List.zipWith combine) first)[j]? = some b ∧ le a b ∧
      ∀ l ∈ lists, ∀ c, l[j]? = some c → le c b := by
  induction lists generalizing first a with
  | nil => exact ⟨a, ha, hrefl a, fun l hl => nomatch hl⟩
  | cons m lists ih =>
    have hm : m.length = n := hlength m List.mem_cons_self
    obtain ⟨c, hc⟩ : ∃ c, m[j]? = some c := ⟨_, List.getElem?_eq_getElem (hm ▸ hj)⟩
    obtain ⟨b, hb, hab, hall⟩ := ih (fun l hl => hlength l (List.mem_cons_of_mem m hl))
      (by simp [hfirst, hm] : (List.zipWith combine first m).length = n)
      (by rw [List.getElem?_zipWith, ha, hc] : (List.zipWith combine first m)[j]? = some (combine a c))
    refine ⟨b, hb, htrans (hleft a c) hab, fun l hl d hd => ?_⟩
    rcases List.mem_cons.1 hl with rfl | hl
    · cases hc.symm.trans hd
      exact htrans (hright a c) hab
    · exact hall l hl d hd

/-- If combining keeps a bound, each contribution is within the combination of all. -/
theorem combineAll_bound {j n : Nat} (hj : j < n) {lists : List (List τ)} (hlength : ∀ l ∈ lists, l.length = n)
    (hne : lists ≠ []) : ∃ b, (combineAll combine lists)[j]? = some b ∧ ∀ l ∈ lists, ∀ a, l[j]? = some a → le a b := by
  cases lists with
  | nil => exact absurd rfl hne
  | cons first rest =>
    have hfirst : first.length = n := hlength first List.mem_cons_self
    obtain ⟨b, hb, hab, hall⟩ := foldl_zipWith_bound hrefl htrans hleft hright hj rest
      (fun l hl => hlength l (List.mem_cons_of_mem first hl)) hfirst (List.getElem?_eq_getElem (hfirst ▸ hj))
    refine ⟨b, hb, fun l hl a ha => ?_⟩
    rcases List.mem_cons.1 hl with rfl | hl
    · cases (List.getElem?_eq_getElem (hfirst ▸ hj)).symm.trans ha
      exact hab
    · exact hall l hl a ha

end Delivery

theorem Delivery.length_combineAll {τ : Type} {combine : τ → τ → τ} {f : Nat → List τ} {size n : Nat} (hpos : 0 < size)
    (hlength : ∀ i < size, (f i).length = n) :
    (combineAll combine ((List.range size).map f)).length = n := by
  have fold : ∀ (rest : List (List τ)) (first : List τ), first.length = n → (∀ l ∈ rest, l.length = n) →
      (rest.foldl (List.zipWith combine) first).length = n := by
    intro rest
    induction rest with
    | nil => exact fun first hfirst _ => hfirst
    | cons l rest ih =>
      intro first hfirst hrest
      refine ih _ ?_ fun m hm => hrest m (List.mem_cons_of_mem l hm)
      rw [List.length_zipWith, hfirst, hrest l List.mem_cons_self, Nat.min_self]
  have hall : ∀ l ∈ (List.range size).map f, l.length = n := by
    intro l hl
    obtain ⟨i, hi, rfl⟩ := List.mem_map.1 hl
    exact hlength i (List.mem_range.1 hi)
  obtain ⟨first, rest, hlist⟩ : ∃ first rest, (List.range size).map f = first :: rest := by
    refine List.exists_cons_of_ne_nil fun hnil => ?_
    rw [List.map_eq_nil_iff, List.range_eq_nil] at hnil
    omega
  rw [hlist] at hall ⊢
  exact fold rest first (hall first List.mem_cons_self) fun l hl => hall l (List.mem_cons_of_mem first hl)

/-- If combining chooses, the combination of all contributions is one of them. -/
theorem Delivery.combineAll_mem {τ : Type} {combine : τ → τ → τ} (hchoose : ∀ a b, combine a b = a ∨ combine a b = b)
    {lists : List (List τ)} {j : Nat} {b : τ} (hb : (combineAll combine lists)[j]? = some b) :
    ∃ l ∈ lists, l[j]? = some b := by
  cases lists with
  | nil => cases hb
  | cons first rest =>
    have fold : ∀ (rest : List (List τ)) (first : List τ), (rest.foldl (List.zipWith combine) first)[j]? = some b →
        ∃ l ∈ first :: rest, l[j]? = some b := by
      intro rest
      induction rest with
      | nil => exact fun first hb => ⟨first, List.mem_singleton_self _, hb⟩
      | cons l rest ih =>
        intro first hb
        obtain ⟨m, hm, hmb⟩ := ih _ hb
        rcases List.mem_cons.1 hm with rfl | hm
        · obtain ⟨x, hx, y, hy, hxy⟩ : ∃ x, first[j]? = some x ∧ ∃ y, l[j]? = some y ∧ combine x y = b := by
            rw [List.getElem?_zipWith] at hmb
            cases hx : first[j]? <;> cases hy : l[j]? <;> simp_all
          rcases hchoose x y with heq | heq
          · exact ⟨first, List.mem_cons_self, hx.trans (by rw [← hxy, heq])⟩
          · exact ⟨l, List.mem_cons_of_mem _ List.mem_cons_self, hy.trans (by rw [← hxy, heq])⟩
        · exact ⟨m, List.mem_cons_of_mem _ (List.mem_cons_of_mem _ hm), hmb⟩
    exact fold rest first hb

section Bounds

variable {τ : Type} {f : Nat → List τ} {size n j : Nat}

/-- Where the combination chooses and keeps to one side of an order, the combined value is that of some contribution, and
all contributions are on that side of it. -/
theorem Delivery.combineAll_choice {combine : τ → τ → τ} {le : τ → τ → Prop} (hrefl : ∀ a, le a a)
    (htrans : ∀ {a b c}, le a b → le b c → le a c) (hleft : ∀ a b, le a (combine a b)) (hright : ∀ a b, le b (combine a b))
    (hchoose : ∀ a b, combine a b = a ∨ combine a b = b) (hpos : 0 < size) (hlength : ∀ i < size, (f i).length = n)
    (hj : j < n) (v : τ) :
    (∀ i < size, le ((f i).getD j v) ((combineAll combine ((List.range size).map f)).getD j v)) ∧
      ∃ i < size, (combineAll combine ((List.range size).map f)).getD j v = (f i).getD j v := by
  obtain ⟨b, hb, hbound⟩ := combineAll_bound hrefl htrans hleft hright hj
    (fun l hl => by
      obtain ⟨i, hi, rfl⟩ := List.mem_map.1 hl
      exact hlength i (List.mem_range.1 hi))
    (fun hnil => by
      rw [List.map_eq_nil_iff, List.range_eq_nil] at hnil
      omega : (List.range size).map f ≠ [])
  rw [List.getD_eq_getElem?_getD, hb]
  refine ⟨fun i hi => ?_, ?_⟩
  · have hget := List.getElem?_eq_getElem (hlength i hi ▸ hj)
    rw [List.getD_eq_getElem?_getD, hget]
    exact hbound _ (List.mem_map.2 ⟨i, List.mem_range.2 hi, rfl⟩) _ hget
  · obtain ⟨l, hl, hlb⟩ := combineAll_mem hchoose hb
    obtain ⟨i, hi, rfl⟩ := List.mem_map.1 hl
    exact ⟨i, List.mem_range.1 hi, by rw [List.getD_eq_getElem?_getD, hlb]⟩

variable {f : Nat → List Nat}

theorem Delivery.combineAll_max (hpos : 0 < size) (hlength : ∀ i < size, (f i).length = n) (hj : j < n) :
    (∀ i < size, (f i).getD j 0 ≤ (combineAll Reduction.max.words ((List.range size).map f)).getD j 0) ∧
      ∃ i < size, (combineAll Reduction.max.words ((List.range size).map f)).getD j 0 = (f i).getD j 0 :=
  combineAll_choice Nat.le_refl Nat.le_trans Nat.le_max_left Nat.le_max_right
    (fun a b => by
      show max a b = a ∨ max a b = b
      omega) hpos hlength hj 0

theorem Delivery.combineAll_min (hpos : 0 < size) (hlength : ∀ i < size, (f i).length = n) (hj : j < n) :
    (∀ i < size, (combineAll Reduction.min.words ((List.range size).map f)).getD j 0 ≤ (f i).getD j 0) ∧
      ∃ i < size, (combineAll Reduction.min.words ((List.range size).map f)).getD j 0 = (f i).getD j 0 :=
  @combineAll_choice Nat f size n j Reduction.min.words (fun a b => b ≤ a) Nat.le_refl
    (fun h h' => Nat.le_trans h' h) Nat.min_le_left Nat.min_le_right
    (fun a b => by
      show min a b = a ∨ min a b = b
      omega) hpos hlength hj 0

end Bounds

/-- The largest contributions of all ranks: one of them, and not smaller than any. -/
theorem Scalar.LawfulOrder.combineAll_most {α : Type} [Scalar α] (h : Scalar.LawfulOrder α) {f : Nat → List α} {size n j : Nat}
    (hpos : 0 < size) (hlength : ∀ i < size, (f i).length = n) (hj : j < n) :
    ∃ b, (Delivery.combineAll Reduction.max.scalars ((List.range size).map f))[j]? = some b ∧
      (∃ i < size, (f i)[j]? = some b) ∧ ∀ i < size, ∀ a, (f i)[j]? = some a → a ≤ a → a ≤ b := by
  obtain ⟨b, hb, hall⟩ := @Delivery.combineAll_bound α (fun x y => x ≤ x → y ≤ y ∧ x ≤ y) Reduction.max.scalars
    (fun _ hx => ⟨hx, hx⟩)
    (fun hxy hyz hx => ⟨(hyz (hxy hx).1).1, h.trans (hxy hx).2 (hyz (hxy hx).1).2⟩)
    (fun x y hx => ⟨h.right (h.comparison.le_max_of_left hx y), h.comparison.le_max_of_left hx y⟩)
    (fun x y hy => ⟨h.right (h.comparison.le_max_of_right x hy), h.comparison.le_max_of_right x hy⟩)
    j n hj ((List.range size).map f)
    (fun l hl => by
      obtain ⟨i, hi, rfl⟩ := List.mem_map.1 hl
      exact hlength i (List.mem_range.1 hi))
    fun hnil => by
      rw [List.map_eq_nil_iff, List.range_eq_nil] at hnil
      omega
  refine ⟨b, hb, ?_, fun i hi a ha hself => (hall (f i) (List.mem_map.2 ⟨i, List.mem_range.2 hi, rfl⟩) a ha hself).2⟩
  obtain ⟨l, hl, hlb⟩ := Delivery.combineAll_mem Scalar.max_eq_or hb
  obtain ⟨i, hi, rfl⟩ := List.mem_map.1 hl
  exact ⟨i, List.mem_range.1 hi, hlb⟩

end CurvePartition
