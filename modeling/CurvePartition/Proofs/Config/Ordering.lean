-- SUMMARY: A document is read as the same configuration whatever the order of the members of its objects, at any depth.
import Mathlib.Data.List.Forall2
import CurvePartition.Config.Document

/-!
# The order of members

Two documents are alike if they differ at most in the order of the members of their objects (`Json.Alike`). A reader respects the
relation if it makes no difference between alike documents. Fields are looked up by their names, so readers of records do so where the
readers of their fields do, up to the reader of configurations (`Config.respects_ofJson?`).
-/

namespace CurvePartition

/-! ## Related options -/

section Options

open List (Forall₂)

variable {α β γ δ : Type} {R : α → β → Prop} {S : γ → δ → Prop} {x : Option α} {y : Option β}

theorem rel_bind {f : α → Option γ} {g : β → Option δ} (h : Option.Rel R x y) (hfg : ∀ a b, R a b → Option.Rel S (f a) (g b)) :
    Option.Rel S (x >>= f) (y >>= g) := by
  cases h with
  | none => exact .none
  | some h => exact hfg _ _ h

theorem rel_imp {T : α → β → Prop} (h : Option.Rel R x y) (hRT : ∀ a b, R a b → T a b) : Option.Rel T x y := by
  cases h with
  | none => exact .none
  | some h => exact .some (hRT _ _ h)

theorem rel_comp {T : β → γ → Prop} {z : Option γ} (h : Option.Rel R x y) (h' : Option.Rel T y z) :
    Option.Rel (fun a c => ∃ b, R a b ∧ T b c) x z := by
  cases h with
  | none =>
    cases h'
    exact .none
  | some h =>
    cases h' with
    | some h' => exact .some ⟨_, h, h'⟩

theorem bind_eq_of_rel {f : α → Option γ} {g : β → Option γ} (h : Option.Rel R x y) (hfg : ∀ a b, R a b → f a = g b) :
    x >>= f = y >>= g := by
  cases h with
  | none => rfl
  | some h => exact hfg _ _ h

theorem rel_mapM {f : α → Option γ} {g : β → Option δ} {l : List α} {l' : List β} (h : Forall₂ R l l')
    (hfg : ∀ a b, R a b → Option.Rel S (f a) (g b)) : Option.Rel (Forall₂ S) (l.mapM f) (l'.mapM g) := by
  induction h with
  | nil => exact .some .nil
  | cons h _ ih =>
    rw [List.mapM_cons, List.mapM_cons]
    exact rel_bind (hfg _ _ h) fun c d hcd => rel_bind ih fun cs ds hrest => .some (.cons hcd hrest)

/-- An elementwise map fails in any order, or has its values in the order of the elements. -/
theorem mapM_perm {f : α → Option γ} {l l' : List α} (h : l.Perm l') : Option.Rel List.Perm (l.mapM f) (l'.mapM f) := by
  induction h with
  | nil => exact .some .nil
  | @cons a l l' _ ih =>
    rw [List.mapM_cons, List.mapM_cons]
    cases f a with
    | none => exact .none
    | some c =>
      show Option.Rel List.Perm (l.mapM f >>= fun cs => some (c :: cs)) (l'.mapM f >>= fun cs => some (c :: cs))
      exact rel_bind ih fun _ _ hrest => .some (List.Perm.cons c hrest)
  | swap a b l =>
    simp only [List.mapM_cons]
    cases f a with
    | none => cases f b <;> exact .none
    | some c =>
      cases f b with
      | none => exact .none
      | some d =>
        cases l.mapM f with
        | none => exact .none
        | some rest => exact .some (.swap c d rest)
  | trans _ _ ih ih' =>
    refine rel_imp (rel_comp ih ih') ?_
    rintro _ _ ⟨_, h, h'⟩
    exact h.trans h'

end Options

namespace Json

open List (Forall₂)

/-- Documents that differ at most in the order of the members of their objects. -/
inductive Alike : Json → Json → Prop
  | refl (j : Json) : Alike j j
  | array {items items' : List Json} (h : Forall₂ Alike items items') : Alike (array items) (array items')
  | object {members ordered members' : List (List Piece × Json)} (hperm : members.Perm ordered)
    (hnames : ordered.map Prod.fst = members'.map Prod.fst)
    (hvalues : Forall₂ Alike (ordered.map Prod.snd) (members'.map Prod.snd)) : Alike (object members) (object members')

/-- Members of the same name with alike documents. -/
def AlikeMember {α : Type} (m m' : α × Json) : Prop := m.1 = m'.1 ∧ Alike m.2 m'.2

/-- Alike members, in any order. -/
def AlikeMembers {α : Type} (members members' : List (α × Json)) : Prop :=
  ∃ ordered, members.Perm ordered ∧ Forall₂ AlikeMember ordered members'

/-- Whether a reader makes no difference between alike documents. -/
def Respects {α : Type} (read? : Json → Option α) : Prop := ∀ j j' : Json, Alike j j' → read? j = read? j'

variable {α : Type} {members ordered members' : List (List Piece × Json)} {fields fields' : List (String × Json)} {j j' : Json}
  {field field' : Option Json}

/-! ## Fields -/

theorem alikeMembers_of_alike (hperm : members.Perm ordered) (hnames : ordered.map Prod.fst = members'.map Prod.fst)
    (hvalues : Forall₂ Alike (ordered.map Prod.snd) (members'.map Prod.snd)) : AlikeMembers members members' := by
  rw [← List.forall₂_eq_eq_eq, List.forall₂_map_left_iff, List.forall₂_map_right_iff] at hnames
  rw [List.forall₂_map_left_iff, List.forall₂_map_right_iff] at hvalues
  exact ⟨ordered, hperm, hnames.mp (fun _ _ => And.intro) hvalues⟩

theorem named?_alike (h : AlikeMembers members members') : Option.Rel AlikeMembers (named? members) (named? members') := by
  obtain ⟨ordered, hperm, h⟩ := h
  refine rel_comp (mapM_perm hperm) (rel_mapM h ?_)
  rintro ⟨name, value⟩ ⟨name', value'⟩ ⟨hname, hvalue⟩
  obtain rfl : name = name' := hname
  show Option.Rel AlikeMember ((textOf name).map (·, value)) ((textOf name).map (·, value'))
  cases textOf name with
  | none => exact .none
  | some name => exact .some ⟨rfl, hvalue⟩

/-- Of alike members none, one or more are there. -/
theorem alikeMembers_cases {β : Type} {ms ms' : List (β × Json)} (h : AlikeMembers ms ms') :
    (ms = [] ∧ ms' = []) ∨ (∃ m m', ms = [m] ∧ ms' = [m'] ∧ AlikeMember m m') ∨
      ∃ m n l m' n' l', ms = m :: n :: l ∧ ms' = m' :: n' :: l' := by
  obtain ⟨ordered, hperm, h⟩ := h
  rcases h with _ | ⟨hm, _ | ⟨_, _⟩⟩
  · exact .inl ⟨hperm.eq_nil, rfl⟩
  · exact .inr (.inl ⟨_, _, hperm.eq_singleton, rfl, hm⟩)
  · have hlength := hperm.length_eq
    rcases ms with _ | ⟨m, _ | ⟨n, l⟩⟩
    · cases hlength
    · cases hlength
    · exact .inr (.inr ⟨m, n, l, _, _, _, rfl, rfl⟩)

theorem single?_alike (h : AlikeMembers fields fields') (name : String) :
    Option.Rel (Option.Rel Alike) (single? fields name) (single? fields' name) := by
  obtain ⟨ordered, hperm, h⟩ := h
  have hfilter : AlikeMembers (fields.filter (·.1 = name)) (fields'.filter (·.1 = name)) :=
    ⟨_, hperm.filter _, List.rel_filter (fun m m' hm => by simp [hm.1]) h⟩
  rw [single?, single?]
  rcases alikeMembers_cases hfilter with ⟨h, h'⟩ | ⟨m, m', h, h', hm⟩ | ⟨_, _, _, _, _, _, h, h'⟩
  · rw [h, h']
    exact .some .none
  · rw [h, h']
    exact .some (.some hm.2)
  · rw [h, h']
    exact .none

theorem fields?_alike (h : Alike j j') (names : List String) :
    Option.Rel (Forall₂ (Option.Rel Alike)) (j.fields? names) (j'.fields? names) := by
  have hrefl : ∀ field : Option Json, Option.Rel Alike field field := fun field => by
    cases field with
    | none => exact .none
    | some j => exact .some (.refl j)
  cases h with
  | refl =>
    cases j.fields? names with
    | none => exact .none
    | some fields => exact .some (List.forall₂_same.2 fun field _ => hrefl field)
  | @array items items' h =>
    rw [fields?, fields?, h.length_eq]
    split
    · exact .none
    · refine .some (List.rel_append ?_ (List.forall₂_same.2 fun field _ => hrefl field))
      rw [List.forall₂_map_left_iff, List.forall₂_map_right_iff]
      exact h.imp fun _ _ => .some
  | object hperm hnames hvalues =>
    refine rel_bind (named?_alike (alikeMembers_of_alike hperm hnames hvalues)) fun fields fields' h => ?_
    exact rel_mapM (List.forall₂_same.2 fun name _ => rfl) fun name _ heq => heq ▸ single?_alike h name

theorem fieldOr_alike {read? : Json → Option α} (hread : Respects read?) (standard : α) (h : Option.Rel Alike field field') :
    fieldOr standard read? field = fieldOr standard read? field' := by
  cases h with
  | none => rfl
  | some h => exact hread _ _ h

theorem required_alike {read? : Json → Option α} (hread : Respects read?) (h : Option.Rel Alike field field') :
    required read? field = required read? field' := by
  cases h with
  | none => rfl
  | some h => exact hread _ _ h

/-! ## Readers -/

theorem respects_count? : Respects count? := by
  intro j j' h
  cases h <;> rfl

theorem respects_float? : Respects float? := by
  intro j j' h
  cases h <;> rfl

theorem respects_triple? {item? : Json → Option α} (hitem : Respects item?) : Respects (triple? item?) := by
  intro j j' h
  cases h with
  | refl => rfl
  | object hperm h => rfl
  | array h =>
    rcases h with _ | ⟨hx, _ | ⟨hy, _ | ⟨hz, _ | _⟩⟩⟩
    · rfl
    · rfl
    · rfl
    · simp only [triple?, hitem _ _ hx, hitem _ _ hy, hitem _ _ hz]
    · rfl

theorem choice?_alike (h : Alike j j') :
    Option.Rel (fun c c' => c.1 = c'.1 ∧ Option.Rel Alike c.2 c'.2) j.choice? j'.choice? := by
  cases h with
  | refl =>
    cases j.choice? with
    | none => exact .none
    | some c =>
      refine .some ⟨rfl, ?_⟩
      cases c.2 with
      | none => exact .none
      | some j => exact .some (.refl j)
  | array h => exact .none
  | object hperm hnames hvalues =>
    rcases alikeMembers_cases (alikeMembers_of_alike hperm hnames hvalues) with ⟨rfl, rfl⟩ | ⟨m, m', rfl, rfl, hm⟩ |
      ⟨_, _, _, _, _, _, rfl, rfl⟩
    · exact .none
    · rw [choice?, choice?, hm.1]
      cases textOf m'.1 with
      | none => exact .none
      | some name => exact .some ⟨rfl, .some hm.2⟩
    · exact .none

theorem respects_plainChoice? (name : α → String) (all : List α) : Respects (plainChoice? name all) := by
  intro j j' h
  refine bind_eq_of_rel (choice?_alike h) ?_
  rintro ⟨s, parameters⟩ ⟨s', parameters'⟩ ⟨hname, h⟩
  obtain rfl : s = s' := hname
  cases h with
  | none => rfl
  | some h => cases h <;> rfl

end Json

open Json in
theorem Box.respects_ofJson? : Respects Box.ofJson? := by
  intro j j' h
  have hnumbers : Respects (triple? float?) := respects_triple? respects_float?
  have hkinds : Respects (triple? (plainChoice? Boundary.name Boundary.all)) := respects_triple? (respects_plainChoice? _ _)
  refine bind_eq_of_rel (fields?_alike h _) fun fields fields' h => ?_
  rcases h with _ | ⟨hlo, _ | ⟨hhi, _ | ⟨hboundaries, _ | _⟩⟩⟩ <;> try rfl
  simp only [required_alike hnumbers hlo, required_alike hnumbers hhi, required_alike hkinds hboundaries]

open Json in
theorem HaloRadius.respects_ofJson? : Respects HaloRadius.ofJson? := by
  intro j j' h
  refine bind_eq_of_rel (choice?_alike h) ?_
  rintro ⟨s, parameters⟩ ⟨s', parameters'⟩ ⟨hname, h⟩
  obtain rfl : s = s' := hname
  cases h with
  | none => rfl
  | @some parameters parameters' h =>
    by_cases hfixed : s = "fixed"
    · subst hfixed
      exact congrArg (· >>= fun radius => pure (fixed radius)) (respects_float? _ _ h)
    by_cases hfactor : s = "per_particle"
    · subst hfactor
      refine bind_eq_of_rel (fields?_alike h _) fun fields fields' h => ?_
      rcases h with _ | ⟨hfactor, _ | _⟩ <;> try rfl
      exact congrArg (· >>= fun factor => pure (perParticle factor)) (required_alike respects_float? hfactor)
    -- No other choice has parameters.
    simp [hfixed, hfactor]

open Json in
/-- A document is read as a configuration whatever the order of its members. -/
theorem Config.respects_ofJson? : Respects Config.ofJson? := by
  intro j j' h
  have hcurve : Respects (plainChoice? Curve.name Curve.all) := respects_plainChoice? _ _
  have hbackend : Respects (plainChoice? Backend.name Backend.all) := respects_plainChoice? _ _
  refine bind_eq_of_rel (fields?_alike h _) fun fields fields' h => ?_
  rcases h with _ | ⟨h₁, _ | ⟨h₂, _ | ⟨h₃, _ | ⟨h₄, _ | ⟨h₅, _ | ⟨h₆, _ | ⟨h₇, _ | _⟩⟩⟩⟩⟩⟩⟩ <;> try rfl
  simp only [fieldOr_alike respects_count? _ h₁, fieldOr_alike HaloRadius.respects_ofJson? _ h₂, fieldOr_alike hcurve _ h₃,
    fieldOr_alike hbackend _ h₄, fieldOr_alike respects_float? _ h₅, fieldOr_alike respects_count? _ h₆,
    fieldOr_alike Box.respects_ofJson? _ h₇]

end CurvePartition
