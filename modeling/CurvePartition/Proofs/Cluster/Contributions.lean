-- SUMMARY: Contributions to reductions: what a reduction posts and takes however it ends, and what it combines if it succeeds.
import CurvePartition.Proofs.Cluster.Mailboxes

/-!
# Contributions

A rank posts its contribution to a reduction to all its peers and then takes theirs, one after the other in the order of the
ranks. A message of another length is taken and ends the reduction, and so does one that does not come; the messages of later
ranks stay where they are then. So the answer of a reduction tells whose messages it took (`Outcome.takes`), unless the run
has ended. That a reduction does what its answer tells is `Outcome.Made`, with one lemma for each way to end
(`Delivery.Reduced.made`).

The other ranks' contributions are read from their messages with the own length and kind (`Contribution.reread`), which gives
back what was sent if both are right (`Contribution.reread_message`). A reduction that succeeds combines them in the order of
the ranks (`Contribution.fold`).
-/

namespace CurvePartition

open Program

/-- What a rank gives to a reduction. -/
inductive Contribution (α : Type) where
  | words (op : Reduction) (values : List Nat)
  | scalars (op : Reduction) (values : List α)

namespace Contribution

variable {α β : Type}

section Messages

variable [Wire α β]

/-- The message to all peers. -/
def message : Contribution α → Message β
  | words _ values => values.flatMap (Wire.spellWord α Wire.wordWidth)
  | scalars _ values => values.flatMap (Wire.spellScalar (α := α))

/-- What a rank with a contribution reads from a message: as many values of its own kind. -/
def reread : Contribution α → Message β → Contribution α
  | words op values, data => words op ((Wire.chunks Wire.wordWidth values.length data).map (Wire.readWord α))
  | scalars op values, data => scalars op ((Wire.chunks Wire.wordWidth values.length data).map Wire.readScalar)

end Messages

/-- Whether two contributions are of one kind and to be combined in one way. -/
def Alike : Contribution α → Contribution α → Prop
  | words op _, words op' _ => op = op'
  | scalars op _, scalars op' _ => op = op'
  | _, _ => False

/-- Whether all words have 64 bits. -/
def Fits : Contribution α → Prop
  | words _ values => ∀ v ∈ values, v < 2 ^ 64
  | scalars .. => True

/-- Two contributions combined in the way of the first one. -/
def combine [Scalar α] : Contribution α → Contribution α → Contribution α
  | words op a, words _ b => words op (List.zipWith op.words a b)
  | scalars op a, scalars _ b => scalars op (List.zipWith op.scalars a b)
  | a, _ => a

/-- The contributions of all ranks combined in their order. -/
def fold [Scalar α] : List (Contribution α) → Option (Contribution α)
  | [] => none
  | first :: rest => some (rest.foldl combine first)

theorem fold_map [Scalar α] {τ : Type} {make : List τ → Contribution α} {f : τ → τ → τ}
    (hmake : ∀ a b, combine (make a) (make b) = make (List.zipWith f a b)) {l : List (List τ)} (hl : l ≠ []) :
    fold (l.map make) = some (make (Delivery.combineAll f l)) := by
  obtain ⟨first, rest, rfl⟩ := List.exists_cons_of_ne_nil hl
  rw [List.map_cons, fold, List.foldl_map, Delivery.combineAll, List.foldl_hom make fun a b => hmake a b]

/-- Values are read from a message as they were sent, if as many are expected. -/
theorem map_read_chunks {τ : Type} {spell : τ → Message β} {read : Message β → τ} {values values' : List τ}
    (hwidth : ∀ v, (spell v).length = Wire.wordWidth) (hread : ∀ v ∈ values', read (spell v) = v)
    (hlength : (values'.flatMap spell).length = (values.flatMap spell).length) :
    (Wire.chunks Wire.wordWidth values.length (values'.flatMap spell)).map read = values' := by
  rw [Wire.length_flatMap _ fun v _ => hwidth v, Wire.length_flatMap _ fun v _ => hwidth v] at hlength
  have hcount : values.length = values'.length := (Nat.eq_of_mul_eq_mul_right (by decide) hlength).symm
  rw [hcount, Wire.map_chunks_flatMap read _ fun v _ => hwidth v]
  exact (List.map_congr_left hread).trans (List.map_id' _)

/-- A contribution of the right kind and length is read as it was sent. -/
theorem reread_message [Wire α β] [Wire.LawfulWords α β] [Wire.LawfulScalars α β] {c c' : Contribution α} (halike : c.Alike c')
    (hfits : c'.Fits) (hlength : (c'.message : Message β).length = (c.message : Message β).length) :
    c.reread c'.message = c' := by
  match c, c', halike with
  | words op _, words _ _, rfl =>
    exact congrArg (words op) (map_read_chunks (fun v => Wire.LawfulWords.length_spellWord _ v)
      (fun v hv => Wire.LawfulWords.readWord_spellWord _ v (hfits v hv)) hlength)
  | scalars op _, scalars _ _, rfl =>
    exact congrArg (scalars op) (map_read_chunks Wire.LawfulScalars.length_spellScalar
      (fun v _ => Wire.LawfulScalars.readScalar_spellScalar v) hlength)

end Contribution

/-! ## Reductions and how they end -/

/-- A contribution, and what came of the reduction. -/
structure Outcome (α : Type) where
  contribution : Contribution α
  answer : Except CommError (Contribution α)

/-- The contribution that a call makes, if it is a reduction. -/
def Call.contribution? {α β : Type} : Call α β → Option (Contribution α)
  | .reduceWords op values => some (.words op values)
  | .reduceScalars op values => some (.scalars op values)
  | _ => none

/-- A call that was a reduction. -/
def Record.outcome? {α β : Type} : Record α β → Option (Outcome α)
  | ⟨.reduceWords op values, _, answer⟩ => some ⟨.words op values, Except.map (.words op) answer⟩
  | ⟨.reduceScalars op values, _, answer⟩ => some ⟨.scalars op values, Except.map (.scalars op) answer⟩
  | _ => none

theorem Record.contribution?_eq {α β : Type} (record : Record α β) :
    record.call.contribution? = record.outcome?.map Outcome.contribution := by
  obtain ⟨call, trace, answer⟩ := record
  cases call <;> rfl

/-- Whether a failure is the end of the run. -/
def CommError.IsAborted (error : CommError) : Prop := ∃ rank code, error = .aborted rank code

/-- Whether a reduction that ended this way, but not with the run, has taken the message of a rank. -/
def Outcome.takes {α : Type} (source : Nat) (o : Outcome α) : Bool :=
  match o.answer with
  | .ok _ => true
  | .error (.sizeMismatch peer ..) => source ≤ peer
  | .error (.timeout peer _) => source < peer
  | .error _ => false

/-- Whether an action reports the end of the run. -/
def Deed.Aborted {β : Type} (deed : Deed β) : Prop := ∃ error, deed.error = some error ∧ error.IsAborted

/-- Whether an action fails only for a reason that it can have between `size` ranks. -/
def Deed.Credible {β : Type} (size : Nat) (deed : Deed β) : Prop := ∀ error, deed.error = some error → error.IsAborted ∨
  (∃ dest tag data, deed.1 = .post dest tag data ∧ size ≤ dest) ∨
  ∃ source tag, deed.1 = .take source tag ∧ error = .timeout source tag

/-- A post to a rank that exists is refused only after the end of the run. -/
theorem Deed.Credible.isAborted_of_post {β : Type} {size dest : Nat} {tag : Int} {data : Message β} {error : CommError}
    (h : Deed.Credible size ⟨.post dest tag data, (.error error : Except CommError Unit)⟩) (hdest : dest < size) :
    error.IsAborted := by
  rcases h error rfl with haborted | ⟨_, _, _, heq, hsize⟩ | ⟨_, _, heq, _⟩
  · exact haborted
  · cases heq
    exact absurd hdest (Nat.not_lt.2 hsize)
  · cases heq

theorem Deed.Credible.cause_of_take {β : Type} {size source : Nat} {tag : Int} {error : CommError}
    (h : Deed.Credible size ⟨.take source tag, (.error error : Except CommError (Message β))⟩) :
    error.IsAborted ∨ error = .timeout source tag := by
  rcases h error rfl with haborted | ⟨_, _, _, heq, _⟩ | ⟨_, _, heq, herror⟩
  · exact .inl haborted
  · cases heq
  · cases heq
    exact .inr herror

open Delivery in
/-- What a reduction has done, as far as its answer tells. -/
structure Outcome.Made {α β : Type} [Scalar α] [Wire α β] (o : Outcome α) (place : Place) (trace : List (Deed β)) : Prop where
  /-- Its contribution is in all mailboxes, unless the run has ended. -/
  posts : ∀ peer ∈ place.peers, trace.filterMap (Deed.postedTo peer reductionTag) = [o.contribution.message] ∨
    trace.filterMap (Deed.postedTo peer reductionTag) = [] ∧ ∃ error, o.answer = .error error ∧ error.IsAborted
  takes : ∀ peer ∈ place.peers, (∀ error, o.answer = .error error → ¬ error.IsAborted) →
    (trace.filterMap (Deed.takenFrom peer reductionTag)).length = (o.takes peer).toNat
  /-- The result of success is made of one message from each peer. -/
  result : ∀ result, o.answer = .ok result → ∃ data : Nat → Message β,
    (∀ peer ∈ place.peers, trace.filterMap (Deed.takenFrom peer reductionTag) = [data peer] ∧
      (data peer).length = (o.contribution.message : Message β).length) ∧
    Contribution.fold ((List.range place.size).map fun s =>
      if s = place.rank then o.contribution else o.contribution.reread (data s)) = some result

namespace Delivery

variable {α β σ τ : Type} {place : Place} {message : Message β} {read : Message β → τ} {combine : τ → τ → τ}
  {values : List τ} {trace : List (Deed β)} {r : Except CommError (List τ)} {data : Nat → Message β} {peer : Nat} {l : List Nat}

theorem filterMap_eq_of_nodup (hl : l.Nodup) (f : Nat → σ) (a : Nat) :
    (l.filterMap fun b => if b = a then some (f b) else none) = if a ∈ l then [f a] else [] := by
  induction l with
  | nil => rfl
  | cons b l ih =>
    obtain ⟨hb, hl⟩ := List.nodup_cons.1 hl
    rw [List.filterMap_cons, ih hl]
    by_cases h : b = a
    · subst h
      simp [hb]
    · simp [h, Ne.symm h]

theorem posted_accepted (hl : l.Nodup) : (l.map (accepted message)).filterMap (Deed.postedTo peer reductionTag) =
    if peer ∈ l then [message] else [] := by
  rw [List.filterMap_map, ← filterMap_eq_of_nodup hl (fun _ => message)]
  exact congrArg (List.filterMap · l) (funext fun a => by simp [Deed.postedTo, accepted])

theorem posted_received : (l.map (received data)).filterMap (Deed.postedTo peer reductionTag) = [] := by
  rw [List.filterMap_map, List.filterMap_eq_nil_iff]
  exact fun _ _ => rfl

theorem taken_accepted : (l.map (accepted message)).filterMap (Deed.takenFrom peer reductionTag) = [] := by
  rw [List.filterMap_map, List.filterMap_eq_nil_iff]
  exact fun _ _ => rfl

theorem taken_received (hl : l.Nodup) : (l.map (received data)).filterMap (Deed.takenFrom peer reductionTag) =
    if peer ∈ l then [data peer] else [] := by
  rw [List.filterMap_map, ← filterMap_eq_of_nodup hl data]
  exact congrArg (List.filterMap · l) (funext fun a => by simp [Deed.takenFrom, received])

/-- The peers before some rank come first. -/
theorem mem_done_iff {done rest : List Nat} {source : Nat} (sources : List.range place.size = done ++ source :: rest)
    (hpeer : peer ∈ place.peers) : peer ∈ done.filter (· ≠ place.rank) ↔ peer < source := by
  obtain ⟨hsize, hne⟩ := mem_peers_iff.1 hpeer
  rw [List.mem_filter, and_iff_left (by simpa using hne)]
  have hsorted : (done ++ source :: rest).Pairwise (· < ·) := sources ▸ List.pairwise_lt_range
  obtain ⟨_, htail, hcross⟩ := List.pairwise_append.1 hsorted
  refine ⟨fun hmem => hcross _ hmem _ List.mem_cons_self, fun hlt => ?_⟩
  rcases List.mem_append.1 (sources ▸ List.mem_range.2 hsize) with hmem | hmem
  · exact hmem
  rcases List.mem_cons.1 hmem with rfl | hmem
  · exact absurd hlt (Nat.lt_irrefl _)
  · exact absurd ((List.pairwise_cons.1 htail).1 _ hmem) (Nat.lt_asymm hlt)

/-! ### How a reduction ends -/

variable [Scalar α] [Wire α β] {c result : Contribution α} {done rest : List Nat} {error : CommError}

theorem made_alone (single : place.size = 1) (hrank : place.rank < place.size) :
    Outcome.Made ⟨c, .ok c⟩ place ([] : List (Deed β)) := by
  have hzero : place.rank = 0 := by omega
  have hnone : ∀ peer, peer ∉ place.peers := by
    intro peer hpeer
    have := mem_peers_iff.1 hpeer
    omega
  refine ⟨fun peer hpeer => absurd hpeer (hnone peer), fun peer hpeer => absurd hpeer (hnone peer), fun result hresult => ?_⟩
  cases hresult
  refine ⟨fun _ => [], fun peer hpeer => absurd hpeer (hnone peer), ?_⟩
  rw [single, hzero]
  rfl

theorem made_refused (peers : place.peers = done ++ peer :: rest) (haborted : error.IsAborted) :
    Outcome.Made ⟨c, .error error⟩ place (done.map (accepted c.message) ++
      [⟨.post peer reductionTag c.message, (.error error : Except CommError Unit)⟩]) := by
  refine ⟨fun peer' _ => ?_, fun peer' _ hnot => absurd haborted (hnot _ rfl), fun result hresult => ?_⟩
  · rw [List.filterMap_append, posted_accepted (List.nodup_append.1 (peers ▸ nodup_peers place)).1]
    by_cases hmem : peer' ∈ done
    · rw [if_pos hmem]
      exact .inl rfl
    · rw [if_neg hmem]
      exact .inr ⟨rfl, error, rfl, haborted⟩
  · cases hresult

theorem made_stopped {source : Nat} {answer : Except CommError (Message β)}
    (sources : List.range place.size = done ++ source :: rest)
    (bad : sized source reductionTag (c.message : Message β).length answer = .error error)
    (hcause : answer = .error error → error.IsAborted ∨ error = .timeout source reductionTag) :
    Outcome.Made ⟨c, .error error⟩ place (place.peers.map (accepted c.message) ++
      ((done.filter (· ≠ place.rank)).map (received data) ++ [⟨.take source reductionTag, answer⟩])) := by
  refine ⟨fun peer hpeer => .inl ?_, fun peer hpeer hnot => ?_, fun result hresult => ?_⟩
  · rw [List.filterMap_append, posted_accepted (nodup_peers place), if_pos hpeer, List.filterMap_append, posted_received]
    rfl
  · have hdone : (done.filter (· ≠ place.rank)).Nodup :=
      (List.nodup_append.1 (sources ▸ List.nodup_range)).1.filter _
    rw [List.filterMap_append, List.filterMap_append, taken_accepted, taken_received hdone]
    simp only [mem_done_iff sources hpeer]
    rcases sized_eq_error bad with rfl | ⟨message', rfl, _, rfl⟩
    · -- The message did not come.
      obtain rfl := (hcause rfl).resolve_left (hnot error rfl)
      by_cases hlt : peer < source <;> simp [hlt, Outcome.takes, Deed.takenFrom]
    · -- The message was of another length.
      rcases Nat.lt_trichotomy peer source with hlt | rfl | hlt
      · simp [hlt, Nat.le_of_lt hlt, Outcome.takes, Deed.takenFrom, Nat.ne_of_gt hlt]
      · simp [Outcome.takes, Deed.takenFrom]
      · simp [Nat.not_lt.2 (Nat.le_of_lt hlt), Nat.not_le.2 hlt, Outcome.takes, Deed.takenFrom, Nat.ne_of_lt hlt]
  · cases hresult

theorem made_complete (lengths : ∀ s ∈ place.peers, (data s).length = (c.message : Message β).length)
    (hfold : Contribution.fold ((List.range place.size).map fun s => if s = place.rank then c else c.reread (data s)) =
      some result) :
    Outcome.Made ⟨c, .ok result⟩ place (place.peers.map (accepted c.message) ++ place.peers.map (received data)) := by
  have hpeers := nodup_peers place
  refine ⟨fun peer hpeer => .inl ?_, fun peer hpeer _ => ?_, fun result' hresult => ?_⟩
  · rw [List.filterMap_append, posted_accepted hpeers, posted_received, if_pos hpeer, List.append_nil]
  · rw [List.filterMap_append, taken_accepted, taken_received hpeers, if_pos hpeer]
    rfl
  · cases hresult
    refine ⟨data, fun peer hpeer => ⟨?_, lengths peer hpeer⟩, hfold⟩
    rw [List.filterMap_append, taken_accepted, taken_received hpeers, if_pos hpeer, List.nil_append]

/-- A reduction does what its answer tells. -/
theorem Reduced.made (make : List τ → Contribution α) (h : Reduced place (make values).message read combine values trace r)
    (hcredible : ∀ deed ∈ trace, deed.Credible place.size) (hrank : place.rank < place.size)
    (hread : ∀ data, (make values).reread data = make ((Wire.chunks Wire.wordWidth values.length data).map read))
    (hcombine : ∀ a b, (make a).combine (make b) = make (List.zipWith combine a b)) :
    Outcome.Made ⟨make values, r.map make⟩ place trace := by
  cases h with
  | alone single => exact made_alone single hrank
  | refused peers =>
    refine made_refused peers ((hcredible _ (List.mem_append_right _ (List.mem_singleton_self _))).isAborted_of_post ?_)
    exact (mem_peers_iff.1 (peers ▸ List.mem_append_right _ List.mem_cons_self)).1
  | stopped sources _ bad =>
    refine made_stopped sources bad fun hanswer => ?_
    have hlast := hcredible _ (List.mem_append_right _ (List.mem_append_right _ (List.mem_singleton_self _)))
    rw [hanswer] at hlast
    exact hlast.cause_of_take
  | @complete data lengths =>
    refine made_complete lengths ?_
    have hranks : List.range place.size ≠ [] := List.ne_nil_of_mem (List.mem_range.2 hrank)
    rw [← Contribution.fold_map hcombine (by simpa using hranks), List.map_map]
    refine congrArg Contribution.fold (List.map_congr_left fun s _ => ?_)
    rw [Function.comp_apply, apply_ite make, hread]

/-- A reduction under way has posted its message to a peer once or not at all. -/
theorem posted_of_path {spell : τ → Message β} {q : Program (Action.Answer : Action β → Type) (Except CommError (List τ))}
    (h : Path (reduce place spell read combine values).run trace q) :
    trace.filterMap (Deed.postedTo peer reductionTag) = [values.flatMap spell] ∨
      trace.filterMap (Deed.postedTo peer reductionTag) = [] := by
  have hposts : ∀ l : List Nat, l.Nodup → ∀ later : List (Deed β), later.filterMap (Deed.postedTo peer reductionTag) = [] →
      (l.map (accepted (values.flatMap spell)) ++ later).filterMap (Deed.postedTo peer reductionTag) = [values.flatMap spell] ∨
      (l.map (accepted (values.flatMap spell)) ++ later).filterMap (Deed.postedTo peer reductionTag) = [] := by
    intro l hl later hlater
    rw [List.filterMap_append, hlater, List.append_nil, posted_accepted hl]
    split
    · exact .inl rfl
    · exact .inr rfl
  have hpeers := nodup_peers place
  rw [run_reduce] at h
  split at h
  · obtain ⟨rfl, _⟩ := path_done_iff.1 h
    exact .inr rfl
  rcases path_announcing h with ⟨done, _, _, peers, rfl, _⟩ | ⟨done, _, _, _, peers, _, rfl⟩ | ⟨trace', rfl, hpath⟩
  · simpa using hposts done (List.nodup_append.1 (peers ▸ hpeers)).1 [] rfl
  · exact hposts done (List.nodup_append.1 (peers ▸ hpeers)).1 _ rfl
  · refine hposts _ hpeers _ (List.filterMap_eq_nil_iff.2 fun deed hdeed => ?_)
    obtain ⟨source, answer, rfl⟩ := mem_path_collecting hpath deed hdeed
    rfl

end Delivery

/-! ## Calls -/

section Calls

variable {α β : Type} [Scalar α] [Wire α β] {call : Call α β} {trace : List (Deed β)} {place : Place} {peer : Nat}

theorem Record.made {record : Record α β} {o : Outcome α}
    (h : Path (record.call.toActions place) record.trace (.done record.answer)) (ho : record.outcome? = some o)
    (hcredible : ∀ deed ∈ record.trace, deed.Credible place.size) (hrank : place.rank < place.size) :
    o.Made place record.trace := by
  obtain ⟨call, trace, answer⟩ := record
  cases call with
  | reduceWords op values =>
    cases ho
    exact Delivery.Reduced.made (.words op) (Delivery.reduced_of_path h) hcredible hrank (fun _ => rfl) fun _ _ => rfl
  | reduceScalars op values =>
    cases ho
    exact Delivery.Reduced.made (.scalars op) (Delivery.reduced_of_path h) hcredible hrank (fun _ => rfl) fun _ _ => rfl
  | expect | send | receive | finishSend | abort => cases ho

/-- A reduction that failed with the run was told of its end. -/
theorem Record.exists_aborted {record : Record α β} {o : Outcome α} {error : CommError}
    (h : Path (record.call.toActions place) record.trace (.done record.answer)) (ho : record.outcome? = some o)
    (herror : o.answer = .error error) (haborted : error.IsAborted) : ∃ deed ∈ record.trace, deed.Aborted := by
  obtain ⟨rank, code, rfl⟩ := haborted
  have hrecord : record.error = some (.aborted rank code) := by
    obtain ⟨call, trace, answer⟩ := record
    cases call with
    | reduceWords | reduceScalars =>
      cases ho
      cases answer with
      | ok => cases herror
      | error =>
        cases herror
        rfl
    | expect | send | receive | finishSend | abort => cases ho
  obtain ⟨deed, hdeed, heq⟩ := Record.exists_error h hrecord
  exact ⟨deed, hdeed, _, heq, rank, code, rfl⟩

/-- Whether a call leaves the tag of reductions to them. -/
def Call.Reserves : Call α β → Prop
  | .send _ tag _ | .receive _ tag _ => tag ≠ Delivery.reductionTag
  | _ => True

/-- A call has posted its contribution to a peer once or not at all, and no other message of reductions. -/
theorem Call.posted_of_path {q : Program (Action.Answer : Action β → Type) call.Answer}
    (h : Path (call.toActions place) trace q) (hreserves : call.Reserves) :
    trace.filterMap (Deed.postedTo peer Delivery.reductionTag) = (call.contribution?.map Contribution.message).toList ∨
      trace.filterMap (Deed.postedTo peer Delivery.reductionTag) = [] := by
  have hnone : (∀ deed ∈ trace, deed.postedTo peer Delivery.reductionTag = none) →
      trace.filterMap (Deed.postedTo peer Delivery.reductionTag) = [] := List.filterMap_eq_nil_iff.2
  have hinvolves := Call.involves_of_path h
  cases call with
  | reduceWords | reduceScalars => exact Delivery.posted_of_path h
  | send =>
    refine .inr (hnone ?_)
    rintro ⟨a, answer⟩ hdeed
    obtain rfl := hinvolves _ hdeed
    cases answer with
    | error => rfl
    | ok => exact if_neg fun heq => hreserves heq.2
  | receive | abort =>
    refine .inr (hnone ?_)
    rintro ⟨a, answer⟩ hdeed
    obtain rfl := hinvolves _ hdeed
    rfl
  | expect | finishSend => exact .inr (hnone fun deed hdeed => (hinvolves deed hdeed).elim)

/-- Only reductions take messages of reductions. -/
theorem Call.taken_of_path {q : Program (Action.Answer : Action β → Type) call.Answer}
    (h : Path (call.toActions place) trace q) (hreserves : call.Reserves) (hnone : call.contribution? = none) :
    trace.filterMap (Deed.takenFrom peer Delivery.reductionTag) = [] := by
  refine List.filterMap_eq_nil_iff.2 fun deed hdeed => ?_
  have hinvolves := Call.involves_of_path h deed hdeed
  obtain ⟨a, answer⟩ := deed
  cases call with
  | reduceWords | reduceScalars => cases hnone
  | send | abort =>
    cases hinvolves
    rfl
  | receive =>
    cases hinvolves
    cases answer with
    | error => rfl
    | ok => exact if_neg fun heq => hreserves heq.2
  | expect | finishSend => cases hinvolves

end Calls

end CurvePartition
