-- SUMMARY: Mail as channels, one queue for each sender, receiver and tag, and what the actions of a rank do to them.
import CurvePartition.Cluster.Mail

/-!
# Channels

The mail keeps the messages of all ranks in one list, whose order depends on the order in which the ranks act. What a
rank can see of it is only the order within a *channel*, the messages from one rank to another with one tag.
`Mail.channels` forgets the rest. While nobody ended the run, the mail answers as the channels do
(`Mail.acts_of_act`, `Mail.exists_act`), and actions of different ranks commute there (`Channels.Acts.comm`).
-/

namespace CurvePartition

/-- Messages under way, oldest first, by sender, receiver and tag. -/
@[ext]
structure Channels (β : Type) where
  /-- Number of ranks. -/
  size : Nat
  queue : Nat → Nat → Int → List (Message β)

namespace Channels

variable {β : Type}

/-- No messages between `size` ranks. -/
def empty (size : Nat) : Channels β := ⟨size, fun _ _ _ => []⟩

/-- The channels with another queue from `source` to `dest`. -/
def set (q : Channels β) (source dest : Nat) (tag : Int) (messages : List (Message β)) : Channels β where
  size := q.size
  queue s d t := if s = source ∧ d = dest ∧ t = tag then messages else q.queue s d t

/-- An action of a rank on the channels, with its answer. Nothing is said about the end of a run. -/
inductive Acts (rank : Nat) : Channels β → (a : Action β) → a.Answer → Channels β → Prop where
  | reject {q : Channels β} {dest : Nat} (tag : Int) (data : Message β) (invalid : q.size ≤ dest) :
    Acts rank q (.post dest tag data) (.error (.invalidRank dest q.size)) q
  | post {q : Channels β} {dest : Nat} (tag : Int) (data : Message β) (valid : dest < q.size) :
    Acts rank q (.post dest tag data) (.ok ()) (q.set rank dest tag (q.queue rank dest tag ++ [data]))
  | take {q : Channels β} {source : Nat} {tag : Int} {data : Message β} {rest : List (Message β)}
    (waiting : q.queue source rank tag = data :: rest) :
    Acts rank q (.take source tag) (.ok data) (q.set source rank tag rest)

variable {q q₁ q₂ : Channels β} {i j : Nat}

@[simp] theorem size_set (q : Channels β) (source dest : Nat) (tag : Int) (messages : List (Message β)) :
    (q.set source dest tag messages).size = q.size := rfl

@[simp] theorem queue_set_self (q : Channels β) (source dest : Nat) (tag : Int) (messages : List (Message β)) :
    (q.set source dest tag messages).queue source dest tag = messages := by
  simp [set]

theorem queue_set_of_ne (q : Channels β) {source dest s d : Nat} {tag t : Int} (messages : List (Message β))
    (h : ¬ (s = source ∧ d = dest ∧ t = tag)) :
    (q.set source dest tag messages).queue s d t = q.queue s d t := if_neg h

theorem set_set (q : Channels β) (source dest : Nat) (tag : Int) (m m' : List (Message β)) :
    (q.set source dest tag m).set source dest tag m' = q.set source dest tag m' := by
  refine Channels.ext rfl (funext fun s => funext fun d => funext fun t => ?_)
  simp only [set]
  split <;> rfl

theorem set_comm (q : Channels β) {source dest s d : Nat} {tag t : Int} (m m' : List (Message β))
    (h : ¬ (s = source ∧ d = dest ∧ t = tag)) :
    (q.set source dest tag m).set s d t m' = (q.set s d t m').set source dest tag m := by
  refine Channels.ext rfl (funext fun s' => funext fun d' => funext fun t' => ?_)
  simp only [set]
  split
  case isTrue h₁ =>
    obtain ⟨rfl, rfl, rfl⟩ := h₁
    rw [if_neg h]
  case isFalse => rfl

namespace Acts

variable {a b : Action β} {x x' : a.Answer} {y : b.Answer}

/-- The answer of an action and what it does are determined. -/
theorem unique (h₁ : Acts i q a x q₁) (h₂ : Acts i q a x' q₂) : x = x' ∧ q₁ = q₂ := by
  cases h₁ with
  | reject tag data invalid =>
    cases h₂ with
    | reject => exact ⟨rfl, rfl⟩
    | post _ _ valid => exact absurd valid (Nat.not_lt.2 invalid)
  | post tag data valid =>
    cases h₂ with
    | reject _ _ invalid => exact absurd valid (Nat.not_lt.2 invalid)
    | post => exact ⟨rfl, rfl⟩
  | take waiting =>
    cases h₂ with
    | take waiting' =>
      obtain ⟨rfl, rfl⟩ := List.cons.inj (waiting.symm.trans waiting')
      exact ⟨rfl, rfl⟩

/-- Another rank leaves an action its answer. A message that it posts comes behind the one that is taken. -/
theorem comm_post (hij : i ≠ j) {dest : Nat} {tag : Int} {data : Message β} (valid : dest < q.size)
    (h : Acts j q b y q₂) :
    Acts j (q.set i dest tag (q.queue i dest tag ++ [data])) b y
      (q₂.set i dest tag (q₂.queue i dest tag ++ [data])) := by
  cases h with
  | reject tag' data' invalid => exact .reject tag' data' invalid
  | post tag' data' valid' =>
    have hne : ∀ d t, ¬ (i = j ∧ dest = d ∧ tag = t) := fun _ _ h => hij h.1
    have hne' : ∀ d t, ¬ (j = i ∧ d = dest ∧ t = tag) := fun _ _ h => hij h.1.symm
    have := (.post tag' data' valid' : Acts j (q.set i dest tag (q.queue i dest tag ++ [data])) _ _ _)
    rw [queue_set_of_ne _ _ (hne' _ _), set_comm _ _ _ (hne' _ _)] at this
    rwa [queue_set_of_ne _ _ (hne _ _)]
  | @take source tag' data' rest waiting =>
    by_cases heq : source = i ∧ j = dest ∧ tag' = tag
    · obtain ⟨rfl, rfl, rfl⟩ := heq
      have hq : (q.set source j tag' (q.queue source j tag' ++ [data])).queue source j tag' =
          data' :: (rest ++ [data]) := by rw [queue_set_self, waiting, List.cons_append]
      have h := Acts.take hq
      rw [set_set] at h
      rw [set_set, queue_set_self]
      exact h
    · have hq : (q.set i dest tag (q.queue i dest tag ++ [data])).queue source j tag' = data' :: rest := by
        rw [queue_set_of_ne _ _ heq, waiting]
      have hne : ¬ (i = source ∧ dest = j ∧ tag = tag') := fun h => heq ⟨h.1.symm, h.2.1.symm, h.2.2.symm⟩
      have := Acts.take hq
      rw [set_comm _ _ _ heq] at this
      rwa [queue_set_of_ne _ _ hne]

theorem size_eq (h : Acts i q a x q₁) : q₁.size = q.size := by
  cases h <;> rfl

/-- Actions of different ranks commute. -/
theorem comm (hij : i ≠ j) (h₁ : Acts i q a x q₁) (h₂ : Acts j q b y q₂) :
    ∃ q₃, Acts j q₁ b y q₃ ∧ Acts i q₂ a x q₃ := by
  cases h₁ with
  | @reject dest tag data invalid =>
    have hinvalid : q₂.size ≤ dest := h₂.size_eq.symm ▸ invalid
    refine ⟨q₂, h₂, ?_⟩
    rw [← h₂.size_eq]
    exact .reject tag data hinvalid
  | post tag data valid =>
    exact ⟨_, h₂.comm_post hij valid, .post tag data (by rw [h₂.size_eq]; exact valid)⟩
  | @take source tag data rest waiting =>
    cases h₂ with
    | reject tag' data' invalid => exact ⟨_, .reject tag' data' invalid, .take waiting⟩
    | post tag' data' valid =>
      exact ⟨_, .post tag' data' valid, (Acts.take waiting).comm_post hij.symm valid⟩
    | @take source' tag' data' rest' waiting' =>
      have hne : ¬ (source' = source ∧ j = i ∧ tag' = tag) := fun h => hij h.2.1.symm
      have hne' : ¬ (source = source' ∧ i = j ∧ tag = tag') := fun h => hij h.2.1
      refine ⟨_, .take ((queue_set_of_ne q rest hne).trans waiting'), ?_⟩
      rw [set_comm q rest rest' hne]
      exact .take ((queue_set_of_ne q rest' hne').trans waiting)

end Acts

end Channels

/-! ## The channels of the mail -/

namespace Mail

variable {β : Type} {m m' : Mail β} {i : Nat}

/-- The mail without the order between channels. -/
def channels (m : Mail β) : Channels β where
  size := m.size
  queue s d t := (m.envelopes.filter (isFor s d t)).map Envelope.data

@[simp] theorem channels_empty (size : Nat) : (empty size : Mail β).channels = .empty size := rfl

theorem isFor_iff {source dest : Nat} {tag : Int} {e : Envelope β} :
    isFor source dest tag e = true ↔ e.source = source ∧ e.dest = dest ∧ e.tag = tag := by
  simp [isFor, and_assoc]

/-- Taking out the first entry with a property shortens the list of those entries. -/
theorem filter_eraseP {τ : Type} (p : τ → Bool) (l : List τ) : (l.eraseP p).filter p = (l.filter p).tail := by
  induction l with
  | nil => rfl
  | cons a l ih =>
    by_cases ha : p a = true
    · rw [List.eraseP_cons_of_pos ha, List.filter_cons_of_pos ha, List.tail_cons]
    · rw [List.eraseP_cons_of_neg ha, List.filter_cons_of_neg ha, List.filter_cons_of_neg ha, ih]

/-- It changes nothing for properties that exclude the first one. -/
theorem filter_eraseP_of_disjoint {τ : Type} {p r : τ → Bool} (h : ∀ a, p a = true → ¬ r a = true) (l : List τ) :
    (l.eraseP p).filter r = l.filter r := by
  induction l with
  | nil => rfl
  | cons a l ih =>
    by_cases ha : p a = true
    · rw [List.eraseP_cons_of_pos ha, List.filter_cons_of_neg (h a ha)]
    · rw [List.eraseP_cons_of_neg ha, List.filter_cons, List.filter_cons, ih]

theorem channels_post (m : Mail β) (source dest : Nat) (tag : Int) (data : Message β) :
    channels { m with envelopes := m.envelopes ++ [⟨source, dest, tag, data⟩] } =
      m.channels.set source dest tag (m.channels.queue source dest tag ++ [data]) := by
  refine Channels.ext rfl (funext fun s => funext fun d => funext fun t => ?_)
  by_cases h : s = source ∧ d = dest ∧ t = tag
  · obtain ⟨rfl, rfl, rfl⟩ := h
    have hfor : isFor s d t (⟨s, d, t, data⟩ : Envelope β) = true := isFor_iff.2 ⟨rfl, rfl, rfl⟩
    rw [Channels.queue_set_self]
    simp [channels, List.filter_append, hfor]
  · have hfor : ¬ isFor s d t (⟨source, dest, tag, data⟩ : Envelope β) = true := fun hf => by
      obtain ⟨h₁, h₂, h₃⟩ := isFor_iff.1 hf
      exact h ⟨h₁.symm, h₂.symm, h₃.symm⟩
    rw [Channels.queue_set_of_ne _ _ h]
    simp [channels, List.filter_append, hfor]

theorem channels_erase (m : Mail β) (source dest : Nat) (tag : Int) :
    channels { m with envelopes := m.envelopes.eraseP (isFor source dest tag) } =
      m.channels.set source dest tag (m.channels.queue source dest tag).tail := by
  refine Channels.ext rfl (funext fun s => funext fun d => funext fun t => ?_)
  by_cases h : s = source ∧ d = dest ∧ t = tag
  · obtain ⟨rfl, rfl, rfl⟩ := h
    rw [Channels.queue_set_self]
    simp only [channels, filter_eraseP, List.map_tail]
  · have hdisjoint : ∀ e : Envelope β, isFor source dest tag e = true → ¬ isFor s d t e = true := by
      intro e he he'
      obtain ⟨h₁, h₂, h₃⟩ := isFor_iff.1 he
      obtain ⟨h₁', h₂', h₃'⟩ := isFor_iff.1 he'
      exact h ⟨h₁'.symm.trans h₁, h₂'.symm.trans h₂, h₃'.symm.trans h₃⟩
    rw [Channels.queue_set_of_ne _ _ h]
    simp only [channels, filter_eraseP_of_disjoint hdisjoint]

/-- The oldest message of a channel. -/
theorem pick_eq (m : Mail β) (source dest : Nat) (tag : Int) : m.pick source dest tag =
    (m.channels.queue source dest tag).head?.map fun data =>
      (data, { m with envelopes := m.envelopes.eraseP (isFor source dest tag) }) := by
  rw [pick, ← List.head?_filter]
  simp only [channels, List.head?_map, Option.map_map]
  rfl

theorem endError_eq_none (hm : m.ended = none) : m.endError = none := by rw [endError, hm, Option.map_none]

/-- While nobody ended the run, an action on the mail is one on its channels. -/
theorem acts_of_act (hm : m.ended = none) {a : Action β} (ha : ∀ code, a ≠ .abort code) {x : a.Answer}
    (h : m.act i a = some (x, m')) : m.channels.Acts i a x m'.channels ∧ m'.ended = none := by
  cases a with
  | post dest tag data =>
    simp only [act, post, endError_eq_none hm] at h
    split at h
    case isTrue invalid =>
      cases h
      exact ⟨.reject tag data invalid, hm⟩
    case isFalse valid =>
      cases h
      rw [channels_post]
      exact ⟨.post tag data (Nat.not_le.1 valid), hm⟩
  | take source tag =>
    simp only [act, pick_eq, endError_eq_none hm, Option.map_none] at h
    cases hq : m.channels.queue source i tag with
    | nil => simp [hq] at h
    | cons data rest =>
      simp only [hq, List.head?_cons, Option.map_some, Option.some.injEq] at h
      cases h
      rw [channels_erase, hq]
      exact ⟨.take hq, hm⟩
  | abort code => exact absurd rfl (ha code)

/-- Conversely an action on the channels is one on the mail. -/
theorem exists_act (hm : m.ended = none) {a : Action β} {x : a.Answer} {q : Channels β}
    (h : m.channels.Acts i a x q) : ∃ m', m.act i a = some (x, m') ∧ m'.channels = q ∧ m'.ended = none := by
  cases h with
  | @reject dest tag data invalid =>
    refine ⟨m, ?_, rfl, hm⟩
    have invalid' : m.size ≤ dest := invalid
    simp only [act, post, if_pos invalid']
    rfl
  | @post dest tag data valid =>
    refine ⟨_, ?_, channels_post m i dest tag data, hm⟩
    have valid' : ¬ m.size ≤ dest := Nat.not_le.2 valid
    simp only [act, post, if_neg valid', endError_eq_none hm]
    rfl
  | @take source tag data rest waiting =>
    refine ⟨_, ?_, (channels_erase m source i tag).trans ?_, hm⟩
    · simp only [act, pick_eq, waiting, List.head?_cons, Option.map_some]
    · rw [waiting, List.tail_cons]

end Mail

end CurvePartition
