-- SUMMARY: Rectangular particle sets: columns of one length, of which the first rows are owned, and properties of different names; making, extending, editing, cutting and sorting sets keep them so.
import CurvePartition.Proofs.Particles.Moving

/-!
# Rectangular sets

A particle set is a table. `ParticleSet.Rectangular` says what that takes, and each operation on a single set keeps it. Names and
kinds of properties, the layout, only change when a property is attached.
-/

namespace CurvePartition

/-- A change of one value of a particle set. -/
inductive Write (α : Type) where
  | x (i : Nat) (value : α)
  | y (i : Nat) (value : α)
  | z (i : Nat) (value : α)
  | h (i : Nat) (value : α)
  | position (i : Nat) (value : Triple α)
  | property (name : String) (kind : ElementKind) (i value : Nat)

namespace ParticleSet

variable {width : KeyWidth} {α : Type} {p p' q : ParticleSet width α} {n : Nat}

/-- Whether all columns have one length, no more particles are owned than there are, and no two properties have one name. -/
structure Rectangular (p : ParticleSet width α) : Prop where
  uniform : p.Uniform p.size
  owned_le : p.owned ≤ p.size
  nodup_names : (p.properties.map Property.name).Nodup

/-- The set with one value changed. A property that is not there, or is of another kind, is left alone. -/
def write (p : ParticleSet width α) : Write α → ParticleSet width α
  | .x i value => { p with x := p.x.setIfInBounds i value }
  | .y i value => { p with y := p.y.setIfInBounds i value }
  | .z i value => { p with z := p.z.setIfInBounds i value }
  | .h i value => { p with h := p.h.setIfInBounds i value }
  | .position i value => p.setPosition i value
  | .property name kind i value => (p.setProperty? name kind i value).getD p

/-- Names and kinds of the properties after one more is attached. -/
def layoutWith (layout : List (String × ElementKind)) (q : Property) : List (String × ElementKind) :=
  layout.filter (fun l => l.1 ≠ q.name) ++ [(q.name, q.kind)]

theorem map_name_eq (p : ParticleSet width α) : p.properties.map Property.name = p.layout.map Prod.fst := by
  rw [layout, List.map_map]
  rfl

/-- What has the layout of a rectangular set needs no more than columns of one length. -/
theorem Rectangular.of_layout_eq (h : p.Rectangular) (hq : q.Uniform n) (howned : q.owned ≤ n) (hlayout : q.layout = p.layout) :
    q.Rectangular where
  uniform := hq.size_eq.symm ▸ hq
  owned_le := hq.size_eq.symm ▸ howned
  nodup_names := by
    rw [map_name_eq, hlayout, ← map_name_eq]
    exact h.nodup_names

/-! ## Making and extending -/

/-- What making a set compares with the number of its first coordinates. -/
def lengths (y z h : Array α) : List (String × Nat) := [("y", y.size), ("z", z.size), ("h", h.size)]

/-- Making a set compares all lengths with that of the first coordinates and reports the first that differs. -/
theorem make_eq (x y z h : Array α) : (make x y z h : Except (Error α) (ParticleSet width α)) =
    match (lengths y z h).find? fun c => x.size ≠ c.2 with
    | some (name, found) => .error (.lengthMismatch name x.size found)
    | none => .ok ⟨Array.replicate x.size 0, x, y, z, h, [], x.size⟩ := by
  unfold make checkLength lengths
  by_cases hy : x.size = y.size
  swap
  · simp [List.find?, hy, bind, Except.bind]
  by_cases hz : x.size = z.size
  swap
  · simp [List.find?, ← hy, hz, bind, Except.bind]
  by_cases hh : x.size = h.size
  · simp [List.find?, ← hy, ← hz, ← hh, bind, Except.bind, pure, Except.pure]
  · simp [List.find?, ← hy, ← hz, hh, bind, Except.bind]

theorem make_eq_error {x y z h : Array α} {e : Error α} (he : (make x y z h : Except (Error α) (ParticleSet width α)) = .error e) :
    ∃ name found, (lengths y z h).find? (fun c => x.size ≠ c.2) = some (name, found) ∧ e = .lengthMismatch name x.size found := by
  rw [make_eq] at he
  split at he
  · rename_i name found hfind
    exact ⟨name, found, hfind, (Except.error.inj he).symm⟩
  · cases he

theorem make_eq_ok {x y z h : Array α} (hp : make x y z h = .ok p) :
    p = ⟨Array.replicate x.size 0, x, y, z, h, [], x.size⟩ ∧ y.size = x.size ∧ z.size = x.size ∧ h.size = x.size := by
  rw [make_eq] at hp
  split at hp
  · cases hp
  · rename_i hnone
    have hsize : ∀ c ∈ lengths y z h, c.2 = x.size := fun c hc => by
      have hc := List.find?_eq_none.1 hnone c hc
      simp only [ne_eq, decide_not, Bool.not_eq_true', decide_eq_false_iff_not, not_not] at hc
      exact hc.symm
    simp only [lengths, List.forall_mem_cons] at hsize
    exact ⟨(Except.ok.inj hp).symm, hsize.1, hsize.2.1, hsize.2.2.1⟩

theorem make_fails_iff {x y z h : Array α} : (∃ e, (make x y z h : Except (Error α) (ParticleSet width α)) = .error e) ↔
    ¬ (y.size = x.size ∧ z.size = x.size ∧ h.size = x.size) := by
  constructor
  · rintro ⟨e, he⟩ ⟨hy, hz, hh⟩
    obtain ⟨name, found, hfind, -⟩ := make_eq_error he
    rw [lengths, hy, hz, hh] at hfind
    simp at hfind
  · intro hsizes
    cases hmake : (make x y z h : Except (Error α) (ParticleSet width α)) with
    | error e => exact ⟨e, rfl⟩
    | ok p => exact absurd (make_eq_ok hmake).2 hsizes

theorem rectangular_make {x y z h : Array α} (hp : make x y z h = .ok p) : p.Rectangular ∧ p.layout = [] := by
  obtain ⟨rfl, hy, hz, hh⟩ := make_eq_ok hp
  refine ⟨⟨uniform_iff.2 ⟨Array.size_replicate, rfl, hy, hz, hh, fun q hq => ?_⟩, Nat.le_refl _, List.nodup_nil⟩, rfl⟩
  cases hq

theorem withProperty_eq (p : ParticleSet width α) (q : Property) : p.withProperty q =
    if p.size = q.values.size then
      .ok { p with properties := p.properties.filter (fun r => r.name ≠ q.name) ++ [q] }
    else .error (.lengthMismatch q.name p.size q.values.size) := by
  unfold withProperty checkLength
  split <;> rfl

theorem Rectangular.withProperty {q : Property} (h : p.Rectangular) (hp : p.withProperty q = .ok p') :
    p'.Rectangular ∧ p'.layout = layoutWith p.layout q := by
  rw [withProperty_eq] at hp
  split at hp
  swap
  · cases hp
  rename_i hsize
  obtain rfl := Except.ok.inj hp
  obtain ⟨hkeys, hx, hy, hz, hh, hvalues⟩ := uniform_iff.1 h.uniform
  refine ⟨⟨uniform_iff.2 ⟨hkeys, hx, hy, hz, hh, fun r hr => ?_⟩, h.owned_le, ?_⟩, ?_⟩
  · rcases List.mem_append.1 hr with hr | hr
    · exact hvalues r (List.mem_of_mem_filter hr)
    · obtain rfl := List.mem_singleton.1 hr
      exact hsize.symm
  · rw [List.map_append, List.map_singleton, List.nodup_append]
    refine ⟨h.nodup_names.sublist (List.filter_sublist.map _), List.nodup_singleton _, fun a ha b hb => ?_⟩
    obtain ⟨r, hr, rfl⟩ := List.mem_map.1 ha
    obtain rfl := List.mem_singleton.1 hb
    exact of_decide_eq_true (List.mem_filter.1 hr).2
  · rw [layout, layoutWith, layout, List.map_append, List.filter_map]
    rfl

/-! ## Editing, cutting and sorting -/

theorem Rectangular.write (h : p.Rectangular) (w : Write α) : (p.write w).Rectangular ∧ (p.write w).layout = p.layout := by
  have huniform := uniform_iff.1 h.uniform
  have hsame : (p.write w).Uniform p.size ∧ (p.write w).owned = p.owned ∧ (p.write w).layout = p.layout := by
    cases w with
    | x | y | z | h | position =>
      refine ⟨uniform_iff.2 ?_, rfl, rfl⟩
      simpa [ParticleSet.write, setPosition] using huniform
    | property name kind i value =>
      rw [ParticleSet.write, setProperty?]
      cases p.property? name kind with
      | none => exact ⟨h.uniform, rfl, rfl⟩
      | some r =>
        obtain ⟨hkeys, hx, hy, hz, hh, hvalues⟩ := huniform
        refine ⟨uniform_iff.2 ⟨hkeys, hx, hy, hz, hh, fun q hq => ?_⟩, rfl, ?_⟩
        · obtain ⟨q', hq', rfl⟩ := List.mem_map.1 hq
          rw [← hvalues q' hq']
          split
          · exact Array.size_setIfInBounds
          · rfl
        · rw [layout, layout]
          simp only [Option.map_some, Option.getD_some, List.map_map]
          refine List.map_congr_left fun q' _ => ?_
          simp only [Function.comp_apply]
          split <;> rfl
  exact ⟨h.of_layout_eq hsame.1 (hsame.2.1 ▸ h.owned_le) hsame.2.2, hsame.2.2⟩

theorem Rectangular.truncate (h : p.Rectangular) (n : Nat) : (p.truncate n).Rectangular := by
  refine h.of_layout_eq (n := min n p.size) (fun c hc => ?_) ?_ (p.layout_truncate n)
  · rw [columns_truncate] at hc
    obtain ⟨c', hc', rfl⟩ := List.mem_map.1 hc
    rw [Column.size_truncate, h.uniform c' hc']
  · exact Nat.le_min.2 ⟨Nat.min_le_right _ _, (Nat.min_le_left _ _).trans h.owned_le⟩

theorem Rectangular.sort [Scalar α] (h : p.Rectangular) (backend : Backend) :
    ∃ p', p.sort backend = .ok p' ∧ p'.Rectangular ∧ p'.layout = p.layout := by
  obtain ⟨p', _, hsort, _, _, huniform, howned, hlayout, _⟩ := sort_spec backend h.uniform
  exact ⟨p', hsort, h.of_layout_eq huniform (howned ▸ h.owned_le) hlayout, hlayout⟩

end ParticleSet

end CurvePartition
