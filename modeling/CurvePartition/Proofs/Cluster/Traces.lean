-- SUMMARY: What a rank can have done when a call returns: one action for a send or a receive, and for a reduction a post to each peer and a message taken from each of them, up to the first failure.
import CurvePartition.Proofs.Cluster.Messages
import CurvePartition.Proofs.Cluster.Sessions

/-!
# Traces of calls

A *path* of a program is a list of answered calls along which it goes on (`Program.Path`). The paths of a call's actions
are all its traces, whatever other ranks do. A reduction is written as two loops that can be followed step by step
(`Delivery.run_reduce`): `Delivery.announcing` posts to one peer after the other, `Delivery.collecting` takes from one rank
after the other. Each loop ends with the first failure, and what it did until then is known (`Delivery.path_announcing`,
`Delivery.path_collecting`). `Delivery.Reduced` lists how a reduction can end, and `Call.Involves` the actions that each call
may consist of.
-/

namespace CurvePartition

namespace Program

variable {Op : Type} {Answer : Op → Type} {ρ : Type} {p q : Program Answer ρ} {r : ρ} {op : Op}
  {next : Answer op → Program Answer ρ} {trace : List (Σ op, Answer op)}

/-- What is left of a program after some calls with their answers. -/
inductive Path : Program Answer ρ → List (Σ op, Answer op) → Program Answer ρ → Prop where
  | refl (p : Program Answer ρ) : Path p [] p
  | call {op : Op} {next : Answer op → Program Answer ρ} {a : Answer op} {trace : List (Σ op, Answer op)}
    {q : Program Answer ρ} (rest : Path (next a) trace q) : Path (.call op next) (⟨op, a⟩ :: trace) q

/-- A path that goes on by one answer. -/
theorem Path.concat (h : Path p trace (.call op next)) (a : Answer op) : Path p (trace ++ [⟨op, a⟩]) (next a) := by
  generalize hq : Program.call op next = q at h
  induction h with
  | refl =>
    subst hq
    exact .call (.refl _)
  | call _ ih => exact .call (ih hq)

theorem path_done_iff : Path (.done r) trace q ↔ trace = [] ∧ q = .done r := by
  constructor
  · rintro ⟨⟩
    exact ⟨rfl, rfl⟩
  · rintro ⟨rfl, rfl⟩
    exact .refl _

theorem path_call_iff : Path (.call op next) trace q ↔
    (trace = [] ∧ q = .call op next) ∨ ∃ a trace', trace = ⟨op, a⟩ :: trace' ∧ Path (next a) trace' q := by
  constructor
  · rintro (_ | ⟨rest⟩)
    · exact .inl ⟨rfl, rfl⟩
    · exact .inr ⟨_, _, rfl, rest⟩
  · rintro (⟨rfl, rfl⟩ | ⟨a, trace', rfl, rest⟩)
    · exact .refl _
    · exact .call rest

theorem path_call_done_iff : Path (.call op next) trace (.done r) ↔
    ∃ a trace', trace = ⟨op, a⟩ :: trace' ∧ Path (next a) trace' (.done r) :=
  path_call_iff.trans (or_iff_right fun h => nomatch h.2)

end Program

open Program hiding bind_assoc

namespace Delivery

variable {α β τ : Type}

/-- The answer of a receive to what is taken. -/
def sized (source : Nat) (tag : Int) (length : Nat) : Except CommError (Message β) → Except CommError (Message β)
  | .ok data => if data.length = length then .ok data else .error (.sizeMismatch source tag length data.length)
  | .error error => .error error

theorem run_takeSized (source : Nat) (tag : Int) (length : Nat) : (takeSized source tag length : Delivery β _).run =
    .call (.take source tag) fun answer => .done (sized source tag length answer) := by
  refine congrArg (Program.call (Action.take source tag)) (funext fun answer => ?_)
  cases answer with
  | error error => rfl
  | ok data =>
    show (ite _ _ _ : Delivery β (Message β)).run = _
    rw [sized]
    split <;> rfl

theorem run_takeSized_bind (source : Nat) (tag : Int) (length : Nat) (k : Message β → Delivery β τ) :
    (takeSized source tag length >>= k).run = .call (.take source tag) fun answer =>
      match sized source tag length answer with
      | .ok data => (k data).run
      | .error error => .done (.error error) := by
  rw [ExceptT.run_bind, run_takeSized, call_bind]
  refine congrArg (Program.call (Action.take source tag)) (funext fun answer => ?_)
  rw [done_bind]
  cases sized source tag length answer <;> rfl

/-- A send is one post. -/
theorem trace_of_send [Scalar α] [Wire α β] {place : Place} {dest : Nat} {tag : Int} {data : Message β} {trace : List (Deed β)}
    {answer : Except CommError Unit}
    (h : Path ((Call.send dest tag data : Call α β).toActions place) trace (.done answer)) :
    trace = [⟨.post dest tag data, answer⟩] := by
  obtain ⟨answer', trace', rfl, hrest⟩ := path_call_done_iff.1 h
  obtain ⟨rfl, hr⟩ := path_done_iff.1 hrest
  cases hr
  rfl

/-- A receive is one take, and its answer is that of the take to a message of known length. -/
theorem trace_of_receive [Scalar α] [Wire α β] {place : Place} {source : Nat} {tag : Int} {length : Nat}
    {trace : List (Deed β)} {answer : Except CommError (Message β)}
    (h : Path ((Call.receive source tag length : Call α β).toActions place) trace (.done answer)) :
    ∃ taken, trace = [⟨.take source tag, taken⟩] ∧ answer = sized source tag length taken := by
  have hrun : (Call.receive source tag length : Call α β).toActions place =
      .call (.take source tag) fun taken => .done (sized source tag length taken) := run_takeSized source tag length
  rw [hrun] at h
  obtain ⟨taken, trace', rfl, hrest⟩ := path_call_done_iff.1 h
  obtain ⟨rfl, hr⟩ := path_done_iff.1 hrest
  cases hr
  exact ⟨taken, rfl, rfl⟩

/-! ## Reductions as loops -/

/-- Post a message to some ranks and go on. -/
def announcing (message : Message β) (next : Program (Action.Answer : Action β → Type) (Except CommError τ)) :
    List Nat → Program (Action.Answer : Action β → Type) (Except CommError τ)
  | [] => next
  | peer :: rest => .call (.post peer reductionTag message) fun
    | .ok _ => announcing message next rest
    | .error error => .done (.error error)

/-- Take the contributions of some ranks, each of a given length, and combine all contributions. -/
def collecting (rank : Nat) (read : Message β → τ) (combine : τ → τ → τ) (values : List τ) (length : Nat)
    (collected : List (List τ)) : List Nat → Program (Action.Answer : Action β → Type) (Except CommError (List τ))
  | [] => .done (.ok (combineAll combine collected))
  | source :: rest =>
    if source = rank then collecting rank read combine values length (collected ++ [values]) rest
    else .call (.take source reductionTag) fun answer =>
      match sized source reductionTag length answer with
      | .ok data =>
        collecting rank read combine values length
          (collected ++ [(Wire.chunks Wire.wordWidth values.length data).map read]) rest
      | .error error => .done (.error error)

variable {message : Message β} {read : Message β → τ} {combine : τ → τ → τ} {values : List τ} {rank length : Nat}
  {collected : List (List τ)}

theorem run_forM_post (k : Delivery β τ) (l : List Nat) :
    (l.forM (fun peer => post peer reductionTag message) >>= fun _ => k).run = announcing message k.run l := by
  induction l with
  | nil => rfl
  | cons peer rest ih =>
    rw [List.forM, bind_assoc]
    refine congrArg (Program.call (Action.post peer reductionTag message)) (funext fun answer => ?_)
    cases answer with
    | ok => exact ih
    | error error => rfl

theorem run_mapM_take (collected : List (List τ)) (l : List Nat) :
    ((l.mapM fun source =>
        if source = rank then (return values : Delivery β (List τ))
        else do
          let data ← takeSized source reductionTag length
          return (Wire.chunks Wire.wordWidth values.length data).map read) >>= fun contributions =>
      (return combineAll combine (collected ++ contributions))).run =
      collecting rank read combine values length collected l := by
  induction l generalizing collected with
  | nil =>
    rw [List.mapM_nil, pure_bind, List.append_nil]
    rfl
  | cons source rest ih =>
    rw [List.mapM_cons, bind_assoc, collecting]
    by_cases hown : source = rank
    · simp only [if_pos hown, pure_bind, bind_assoc]
      rw [← ih]
      simp only [List.append_assoc, List.singleton_append]
    · simp only [if_neg hown, bind_assoc, pure_bind]
      rw [run_takeSized_bind]
      refine congrArg (Program.call (Action.take source reductionTag)) (funext fun answer => ?_)
      cases sized source reductionTag length answer with
      | error error => rfl
      | ok data =>
        simp only [← ih, List.append_assoc, List.singleton_append]

/-- A reduction announces its values to all peers and then collects those of all ranks. -/
theorem run_reduce (place : Place) (spell : τ → Message β) (read : Message β → τ) (combine : τ → τ → τ) (values : List τ) :
    (reduce place spell read combine values).run = if place.size = 1 then .done (.ok values)
      else announcing (values.flatMap spell)
        (collecting place.rank read combine values (values.flatMap spell).length [] (List.range place.size)) place.peers := by
  unfold reduce
  split
  · rfl
  · rw [run_forM_post, ← run_mapM_take]
    rfl

theorem sized_eq_ok {source : Nat} {tag : Int} {answer : Except CommError (Message β)} {data : Message β}
    (h : sized source tag length answer = .ok data) : answer = .ok data ∧ data.length = length := by
  cases answer with
  | error error => cases h
  | ok data' =>
    rw [sized] at h
    split at h
    · cases h
      exact ⟨rfl, ‹_›⟩
    · cases h

theorem sized_eq_error {source : Nat} {tag : Int} {answer : Except CommError (Message β)} {error : CommError}
    (h : sized source tag length answer = .error error) : answer = .error error ∨
      ∃ data, answer = .ok data ∧ data.length ≠ length ∧ error = .sizeMismatch source tag length data.length := by
  cases answer with
  | error error' =>
    cases h
    exact .inl rfl
  | ok data =>
    rw [sized] at h
    split at h
    · cases h
    · cases h
      exact .inr ⟨data, rfl, ‹_›, rfl⟩

/-! ## Paths of the loops -/

/-- The post of a contribution. -/
def accepted (message : Message β) (peer : Nat) : Deed β :=
  ⟨.post peer reductionTag message, (.ok () : Except CommError Unit)⟩

/-- The take of a contribution. -/
def received (data : Nat → Message β) (source : Nat) : Deed β :=
  ⟨.take source reductionTag, (.ok (data source) : Except CommError (Message β))⟩

/-- The announcement is under way, or was refused by some peer, or has been made to all peers. -/
theorem path_announcing {next q : Program (Action.Answer : Action β → Type) (Except CommError τ)} {l : List Nat}
    {trace : List (Deed β)} (h : Path (announcing message next l) trace q) :
    (∃ done peer rest, l = done ++ peer :: rest ∧ trace = done.map (accepted message) ∧
      q = announcing message next (peer :: rest)) ∨
    (∃ done peer rest error, l = done ++ peer :: rest ∧ q = .done (.error error) ∧
      trace = done.map (accepted message) ++
        [⟨.post peer reductionTag message, (.error error : Except CommError Unit)⟩]) ∨
    ∃ trace', trace = l.map (accepted message) ++ trace' ∧ Path next trace' q := by
  induction l generalizing trace with
  | nil => exact .inr (.inr ⟨trace, rfl, h⟩)
  | cons peer rest ih =>
    rcases path_call_iff.1 h with ⟨rfl, rfl⟩ | ⟨answer, trace', rfl, hrest⟩
    · exact .inl ⟨[], peer, rest, rfl, rfl, rfl⟩
    cases answer with
    | error error =>
      obtain ⟨rfl, rfl⟩ := path_done_iff.1 hrest
      exact .inr (.inl ⟨[], peer, rest, error, rfl, rfl, rfl⟩)
    | ok =>
      rcases ih hrest with ⟨done, peer', rest', rfl, rfl, rfl⟩ | ⟨done, peer', rest', error, rfl, rfl, rfl⟩ |
        ⟨trace'', rfl, hnext⟩
      · exact .inl ⟨peer :: done, peer', rest', rfl, rfl, rfl⟩
      · exact .inr (.inl ⟨peer :: done, peer', rest', error, rfl, rfl, rfl⟩)
      · exact .inr (.inr ⟨trace'', rfl, hnext⟩)

/-- While contributions are collected, nothing is done but taking messages of reductions. -/
theorem mem_path_collecting {q : Program (Action.Answer : Action β → Type) (Except CommError (List τ))} {l : List Nat}
    {trace : List (Deed β)} (h : Path (collecting rank read combine values length collected l) trace q) :
    ∀ deed ∈ trace, ∃ source answer, deed = ⟨.take source reductionTag, answer⟩ := by
  induction l generalizing collected trace with
  | nil =>
    obtain ⟨rfl, _⟩ := path_done_iff.1 h
    exact fun deed hdeed => nomatch hdeed
  | cons source rest ih =>
    rw [collecting] at h
    split at h
    · exact ih h
    rcases path_call_iff.1 h with ⟨rfl, _⟩ | ⟨answer, trace', rfl, hrest⟩
    · exact fun deed hdeed => nomatch hdeed
    refine List.forall_mem_cons.2 ⟨⟨source, answer, rfl⟩, ?_⟩
    split at hrest
    · exact ih hrest
    · obtain ⟨rfl, _⟩ := path_done_iff.1 hrest
      exact fun deed hdeed => nomatch hdeed

/-- One more message, from a rank that has not sent any other one. -/
theorem map_received_update {data : Nat → Message β} {source : Nat} {first : Message β} {l : List Nat} (h : source ∉ l) :
    (source :: l).map (received (Function.update data source first)) =
      ⟨.take source reductionTag, (.ok first : Except CommError (Message β))⟩ :: l.map (received data) := by
  rw [List.map_cons, received, Function.update_self]
  refine congrArg (_ :: ·) (List.map_congr_left fun s hs => ?_)
  have hne : s ≠ source := fun heq => h (heq ▸ hs)
  rw [received, received, Function.update_of_ne hne]

/-- All contributions were taken, or the one of some rank could not be used. -/
theorem path_collecting {l : List Nat} (hl : l.Nodup) {trace : List (Deed β)} {r : Except CommError (List τ)}
    (h : Path (collecting rank read combine values length collected l) trace (.done r)) :
    (∃ data : Nat → Message β, (∀ s ∈ l, s ≠ rank → (data s).length = length) ∧
      trace = (l.filter (· ≠ rank)).map (received data) ∧
      r = .ok (combineAll combine (collected ++ l.map fun s =>
        if s = rank then values else (Wire.chunks Wire.wordWidth values.length (data s)).map read))) ∨
    ∃ (done : List Nat) (source : Nat) (rest : List Nat) (data : Nat → Message β) (answer : Except CommError (Message β))
      (error : CommError), l = done ++ source :: rest ∧ source ≠ rank ∧
      trace = (done.filter (· ≠ rank)).map (received data) ++ [⟨.take source reductionTag, answer⟩] ∧
      sized source reductionTag length answer = .error error ∧ r = .error error := by
  induction l generalizing collected trace with
  | nil =>
    obtain ⟨rfl, hr⟩ := path_done_iff.1 h
    cases hr
    exact .inl ⟨fun _ => [], fun s hs => (nomatch hs), rfl, by rw [List.map_nil, List.append_nil]⟩
  | cons source rest ih =>
    obtain ⟨hsource, hrest⟩ := List.nodup_cons.1 hl
    rw [collecting] at h
    by_cases hown : source = rank
    · rw [if_pos hown] at h
      have hskip : ∀ l, (source :: l).filter (· ≠ rank) = l.filter (· ≠ rank) := fun l =>
        List.filter_cons_of_neg (by simpa using hown)
      rcases ih hrest h with ⟨data, hlengths, rfl, rfl⟩ | ⟨done, source', rest', data, answer, error, rfl, hne, rfl, hbad, rfl⟩
      · refine .inl ⟨data, List.forall_mem_cons.2 ⟨fun hne => absurd hown hne, hlengths⟩, by rw [hskip], ?_⟩
        rw [List.map_cons, if_pos hown, List.append_assoc, List.singleton_append]
      · exact .inr ⟨source :: done, source', rest', data, answer, error, rfl, hne, by rw [hskip], hbad, rfl⟩
    · rw [if_neg hown] at h
      obtain ⟨answer, trace', rfl, hpath⟩ := path_call_done_iff.1 h
      have hkeep : ∀ l, (source :: l).filter (· ≠ rank) = source :: l.filter (· ≠ rank) := fun l =>
        List.filter_cons_of_pos (by simpa using hown)
      cases hsized : sized source reductionTag length answer with
      | error error =>
        rw [hsized] at hpath
        obtain ⟨rfl, hr⟩ := path_done_iff.1 hpath
        cases hr
        exact .inr ⟨[], source, rest, fun _ => [], answer, error, rfl, hown, rfl, hsized, rfl⟩
      | ok first =>
        rw [hsized] at hpath
        obtain ⟨rfl, hlength⟩ := sized_eq_ok hsized
        -- The table of messages gets one more entry, for a rank that does not come again.
        have hothers : ∀ (data : Nat → Message β), ∀ s ∈ rest, Function.update data source first s = data s := fun data s hs =>
          Function.update_of_ne (fun heq : s = source => hsource (heq ▸ hs)) _ _
        rcases ih hrest hpath with ⟨data, hlengths, rfl, rfl⟩ |
          ⟨done, source', rest', data, answer, error, rfl, hne, rfl, hbad, rfl⟩
        · refine .inl ⟨Function.update data source first, List.forall_mem_cons.2 ⟨fun _ => ?_, fun s hs hne => ?_⟩, ?_, ?_⟩
          · rw [Function.update_self, hlength]
          · rw [hothers data s hs, hlengths s hs hne]
          · rw [hkeep, map_received_update fun hmem => hsource (List.mem_filter.1 hmem).1]
          · rw [List.map_cons, if_neg hown, Function.update_self, List.append_assoc, List.singleton_append]
            refine congrArg (fun l => Except.ok (combineAll combine (collected ++ _ :: l))) (List.map_congr_left fun s hs => ?_)
            rw [hothers data s hs]
        · refine .inr ⟨source :: done, source', rest', Function.update data source first, answer, error, rfl, hne, ?_, hbad, rfl⟩
          rw [hkeep, map_received_update fun hmem => hsource (List.mem_append_left _ (List.mem_filter.1 hmem).1)]
          rfl

/-! ## Traces of reductions -/

/-- What a rank did in a reduction that returned, and what it returned. -/
inductive Reduced (place : Place) (message : Message β) (read : Message β → τ) (combine : τ → τ → τ) (values : List τ) :
    List (Deed β) → Except CommError (List τ) → Prop where
  /-- There is no other rank. -/
  | alone (single : place.size = 1) : Reduced place message read combine values [] (.ok values)
  /-- A peer was not to be reached. -/
  | refused {done rest : List Nat} {peer : Nat} {error : CommError} (peers : place.peers = done ++ peer :: rest) :
    Reduced place message read combine values (done.map (accepted message) ++
      [⟨.post peer reductionTag message, (.error error : Except CommError Unit)⟩]) (.error error)
  /-- The contribution of a rank did not come or could not be used. -/
  | stopped {done rest : List Nat} {source : Nat} {data : Nat → Message β} {answer : Except CommError (Message β)}
    {error : CommError} (sources : List.range place.size = done ++ source :: rest) (other : source ≠ place.rank)
    (bad : sized source reductionTag message.length answer = .error error) :
    Reduced place message read combine values (place.peers.map (accepted message) ++
      ((done.filter (· ≠ place.rank)).map (received data) ++ [⟨.take source reductionTag, answer⟩])) (.error error)
  | complete {data : Nat → Message β} (lengths : ∀ s ∈ place.peers, (data s).length = message.length) :
    Reduced place message read combine values (place.peers.map (accepted message) ++ place.peers.map (received data))
      (.ok (combineAll combine ((List.range place.size).map fun s =>
        if s = place.rank then values else (Wire.chunks Wire.wordWidth values.length (data s)).map read)))

variable {place : Place} {spell : τ → Message β} {trace : List (Deed β)}

theorem reduced_of_path {r : Except CommError (List τ)}
    (h : Path (reduce place spell read combine values).run trace (.done r)) :
    Reduced place (values.flatMap spell) read combine values trace r := by
  rw [run_reduce] at h
  split at h
  case isTrue single =>
    obtain ⟨rfl, hr⟩ := path_done_iff.1 h
    cases hr
    exact .alone single
  rcases path_announcing h with ⟨_, _, _, _, _, hr⟩ | ⟨done, peer, rest, error, peers, hr, rfl⟩ | ⟨trace', rfl, hpath⟩
  · cases hr
  · cases hr
    exact .refused peers
  rcases path_collecting List.nodup_range hpath with ⟨data, hlengths, rfl, rfl⟩ |
    ⟨done, source, rest, data, answer, error, sources, other, rfl, bad, rfl⟩
  · refine .complete fun s hs => ?_
    obtain ⟨hs, hne⟩ := mem_peers_iff.1 hs
    exact hlengths s (List.mem_range.2 hs) hne
  · exact .stopped sources other bad

/-! ## Actions of a call -/

/-- The actions of a reduction with a given contribution. -/
def Exchanges (message : Message β) : Action β → Prop
  | .post _ tag data => tag = reductionTag ∧ data = message
  | .take _ tag => tag = reductionTag
  | .abort _ => False

theorem exchanges_of_path {q : Program (Action.Answer : Action β → Type) (Except CommError (List τ))}
    (h : Path (reduce place spell read combine values).run trace q) :
    ∀ deed ∈ trace, Exchanges (values.flatMap spell) deed.1 := by
  have hposts : ∀ done : List Nat, ∀ deed ∈ done.map (accepted (values.flatMap spell)),
      Exchanges (values.flatMap spell) deed.1 := by
    intro done deed hdeed
    obtain ⟨peer, _, rfl⟩ := List.mem_map.1 hdeed
    exact ⟨rfl, rfl⟩
  rw [run_reduce] at h
  split at h
  · obtain ⟨rfl, _⟩ := path_done_iff.1 h
    exact fun deed hdeed => nomatch hdeed
  rcases path_announcing h with ⟨done, _, _, _, rfl, _⟩ | ⟨done, _, _, _, _, _, rfl⟩ | ⟨trace', rfl, hpath⟩
  · exact hposts done
  · exact List.forall_mem_append.2 ⟨hposts done, List.forall_mem_singleton.2 ⟨rfl, rfl⟩⟩
  · refine List.forall_mem_append.2 ⟨hposts place.peers, fun deed hdeed => ?_⟩
    obtain ⟨source, answer, rfl⟩ := mem_path_collecting hpath deed hdeed
    exact rfl

end Delivery

/-- The actions that a call may consist of. -/
def Call.Involves {α β : Type} [Scalar α] [Wire α β] : Call α β → Action β → Prop
  | .reduceWords _ values, a => Delivery.Exchanges (values.flatMap (Wire.spellWord α Wire.wordWidth)) a
  | .reduceScalars _ values, a => Delivery.Exchanges (values.flatMap (Wire.spellScalar (α := α))) a
  | .send dest tag data, a => a = .post dest tag data
  | .receive source tag _, a => a = .take source tag
  | .abort code, a => a = .abort code
  | .expect .., _ | .finishSend .., _ => False

theorem Call.involves_of_path {α β : Type} [Scalar α] [Wire α β] {place : Place} {call : Call α β} {trace : List (Deed β)}
    {q : Program (Action.Answer : Action β → Type) call.Answer} (h : Path (call.toActions place) trace q) :
    ∀ deed ∈ trace, call.Involves deed.1 := by
  -- A program of one action has one action in its traces.
  have hone : ∀ {a : Action β} {f : a.Answer → call.Answer}, call.toActions place = .call a (fun x => .done (f x)) →
      ∀ deed ∈ trace, deed.1 = a := by
    intro a f hcall deed hdeed
    rw [hcall] at h
    rcases path_call_iff.1 h with ⟨rfl, _⟩ | ⟨answer, trace', rfl, hrest⟩
    · exact nomatch hdeed
    · obtain ⟨rfl, _⟩ := path_done_iff.1 hrest
      rw [List.mem_singleton.1 hdeed]
  cases call with
  | reduceWords | reduceScalars => exact Delivery.exchanges_of_path h
  | send | abort => exact hone (f := id) rfl
  | receive source tag length => exact hone (Delivery.run_takeSized source tag length)
  | expect | finishSend =>
    obtain ⟨rfl, _⟩ := path_done_iff.1 h
    exact fun deed hdeed => nomatch hdeed

/-- Only a call to end the run does so. -/
theorem Call.eq_abort_of_involves {α β : Type} [Scalar α] [Wire α β] {call : Call α β} {code : Int}
    (h : call.Involves (.abort code)) : call = .abort code := by
  cases call with
  | abort =>
    cases h
    rfl
  | reduceWords | reduceScalars | send | receive | expect | finishSend => cases h

end CurvePartition
