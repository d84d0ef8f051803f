-- SUMMARY: The first stages of all ranks: what they have in common between steps, when they accept their particles, and that they then get one box and sets arranged in it.
import CurvePartition.Proofs.Global.Bounds
import CurvePartition.Proofs.Particles.Placing
import CurvePartition.Proofs.Subdomain.Agreeing
import CurvePartition.Proofs.Subdomain.Stages

/-!
# Gathering

Between steps the ranks have a box and a tree in common (`Subdomain.Peers`). They go on with a step if the own particles of
each are valid and all have one layout (`Subdomain.Accepted`), which depends on the closed axes of the box only. Then the
box of all particles is found, and every rank arranges its own particles in it (`Subdomain.collects_gather`). These stages
change no subdomain.
-/

namespace CurvePartition

open Program

variable {width : KeyWidth} {α β : Type} [Scalar α] {size i j : Nat}

/-! ## Own particles -/

namespace ParticleSet

variable {p : ParticleSet width α} {box box' : Box α}

/-- The particles of a rank without halos. -/
def own (p : ParticleSet width α) : ParticleSet width α := p.truncate p.owned

/-- The coordinates on each axis. -/
def coordinates (p : ParticleSet width α) : Triple (Array α) := ⟨p.x, p.y, p.z⟩

omit [Scalar α] in
theorem size_truncate (p : ParticleSet width α) (n : Nat) : (p.truncate n).size = min n p.size :=
  Column.size_truncate n (.scalars p.x)

omit [Scalar α] in
theorem size_own (p : ParticleSet width α) : p.own.size = min p.owned p.size := p.size_truncate _

omit [Scalar α] in
@[simp] theorem layout_own (p : ParticleSet width α) : p.own.layout = p.layout := p.layout_truncate _

omit [Scalar α] in
@[simp] theorem owned_own (p : ParticleSet width α) : p.own.owned = p.owned := Nat.min_self _

theorem row_own (hj : j < p.owned) : p.own.row j = p.row j := row_truncate hj p

omit [Scalar α] in
theorem rowWidth_eq_of_layout_eq {q : ParticleSet width α} (h : p.layout = q.layout) : p.rowWidth = q.rowWidth :=
  rowWidth_eq (kinds_eq_of_layout_eq h)

omit [Scalar α] in
theorem fingerprint_eq_of_layout_eq {q : ParticleSet width α} (h : p.layout = q.layout) :
    p.fingerprint = q.fingerprint := by
  rw [fingerprint, fingerprint, layoutBytes, layoutBytes, h]

theorem mem_coordinates_iff (h : p.Uniform p.size) (a : Axis) {v : α} :
    v ∈ (p.coordinates.get a).toList ↔ ∃ j < p.size, (p.position j).get a = v := by
  obtain ⟨_, hx, hy, hz, _⟩ := uniform_iff.1 h
  have hmem : ∀ values : Array α, values.size = p.size → (v ∈ values.toList ↔ ∃ j < p.size, values.getD j 0 = v) := by
    intro values hsize
    rw [Array.mem_toList_iff, Array.mem_iff_getElem, ← hsize]
    refine exists_congr fun j => ⟨fun ⟨hj, heq⟩ => ⟨hj, ?_⟩, fun ⟨hj, heq⟩ => ⟨hj, ?_⟩⟩
    · rw [← heq]
      simp [Array.getD, hj]
    · rw [← heq]
      simp [Array.getD, hj]
  cases a
  · exact hmem p.x hx
  · exact hmem p.y hy
  · exact hmem p.z hz

/-- The elements of all particles of all ranks, without keys. -/
def allData (size : Nat) (ps : Nat → ParticleSet width α) : List (List (Entry α)) :=
  (List.range size).flatMap fun i => (List.range (ps i).size).map (ps i).data

theorem allData_congr {ps qs : Nat → ParticleSet width α} (h : ∀ i < size, ps i = qs i) : allData size ps = allData size qs :=
  List.flatMap_congr fun i hi => by rw [h i (List.mem_range.1 hi)]

omit [Scalar α] in
theorem allKeys_congr {ps qs : Nat → ParticleSet width α} (h : ∀ i < size, ps i = qs i) :
    (Global.allKeys size fun i => (ps i).keys) = Global.allKeys size fun i => (qs i).keys :=
  List.flatMap_congr fun i hi => congrArg (fun p => p.keys.toList) (h i (List.mem_range.1 hi))

/-- The keys of all ranks are those in their rows. -/
theorem allKeys_eq_map_rowKey {ps : Nat → ParticleSet width α} (h : ∀ i < size, (ps i).Uniform (ps i).size) :
    (Global.allKeys size fun i => (ps i).keys) = ((List.range size).flatMap fun i => (ps i).rows).map rowKey := by
  rw [Global.allKeys, List.map_flatMap]
  refine List.flatMap_congr fun i hi => ?_
  have hsize := (h i (List.mem_range.1 hi)).size_keys
  refine List.ext_getElem (by simp [rows, hsize]) fun j h₁ h₂ => ?_
  simp [rows, Array.getD, hsize, show j < (ps i).size by simpa [hsize] using h₁]

/-- Arranged rows are those of the particles of all ranks at their places. -/
theorem perm_rows_of_arranged {ps s : Nat → ParticleSet width α} {b : Box α} {curve : Curve} {order : Nat → List Nat}
    (h : ∀ i < size, Arranged b curve (ps i) (s i) (order i)) : ((List.range size).flatMap fun i => (s i).rows).Perm
      ((allData size ps).map (b.placed width.depth curve)) := by
  rw [allData, List.map_flatMap]
  exact .flatMap_left _ fun i hi => (h i (List.mem_range.1 hi)).perm_rows

/-- The coordinates of all ranks are elements of their particles. -/
theorem onAxis_iff {ps : Nat → ParticleSet width α} (h : ∀ i < size, (ps i).Uniform (ps i).size) (a : Axis) {v : α} :
    Global.OnAxis size (fun i => (ps i).coordinates) a v ↔ ∃ e ∈ allData size ps, e[a.index]? = some (.scalar v) := by
  have hentry : ∀ i j, ((ps i).data j)[a.index]? = some (.scalar (((ps i).position j).get a)) := fun i j => by
    rw [data_eq]
    cases a <;> rfl
  simp only [Global.OnAxis, allData, List.mem_flatMap, List.mem_map, List.mem_range]
  constructor
  · rintro ⟨i, hi, hv⟩
    obtain ⟨j, hj, rfl⟩ := (mem_coordinates_iff (h i hi) a).1 hv
    exact ⟨_, ⟨i, hi, j, hj, rfl⟩, hentry i j⟩
  · rintro ⟨_, ⟨i, hi, j, hj, rfl⟩, hv⟩
    rw [hentry, Option.some.injEq, Entry.scalar.injEq] at hv
    exact ⟨i, hi, (mem_coordinates_iff (h i hi) a).2 ⟨j, hj, hv⟩⟩

/-- Whether the particles of a set are valid in a box: columns of one length, and each particle passes its check. -/
structure Valid (box : Box α) (p : ParticleSet width α) : Prop where
  uniform : p.Uniform p.size
  checked : ∀ j < p.size, Subdomain.checkParticle box p j = .ok ()

theorem find?_fields_eq_none_iff {q : Triple α} :
    ((Subdomain.fields q).find? fun (_, value) => !Scalar.isFinite value) = none ↔ ∀ a, Scalar.isFinite (q.get a) = true := by
  rw [List.find?_eq_none]
  simp only [Subdomain.fields, List.mem_cons, List.not_mem_nil, or_false, forall_eq_or_imp, forall_eq, Bool.not_eq_true',
    Bool.not_eq_false]
  constructor
  · rintro ⟨hx, hy, hz⟩ a
    cases a
    · exact hx
    · exact hy
    · exact hz
  · exact fun h => ⟨h .x, h .y, h .z⟩

theorem checkParticle_eq_ok_iff : Subdomain.checkParticle box p j = .ok () ↔
    (Scalar.isFinite (p.h.getD j 0) = true ∧ 0 ≤ p.h.getD j 0) ∧
      (∀ a, Scalar.isFinite ((p.position j).get a) = true) ∧ ∃ q, box.normalize (p.position j) = .ok q := by
  unfold Subdomain.checkParticle
  by_cases hlength : Scalar.isFinite (p.h.getD j 0) = true ∧ 0 ≤ p.h.getD j 0
  swap
  · have hbad : (!(Scalar.isFinite (p.h.getD j 0) && decide (0 ≤ p.h.getD j 0))) = true := by
      rw [Bool.not_eq_true', Bool.and_eq_false_iff, decide_eq_false_iff_not, ← Bool.not_eq_true]
      exact not_and_or.1 hlength
    simp only [hbad, if_true]
    exact iff_of_false (fun h => by cases h) fun h => hlength h.1
  have hgood : (!(Scalar.isFinite (p.h.getD j 0) && decide (0 ≤ p.h.getD j 0))) = false := by
    rw [hlength.1, decide_eq_true hlength.2]
    rfl
  rw [← find?_fields_eq_none_iff, and_iff_right hlength]
  simp only [hgood]
  cases hfind : (Subdomain.fields (p.position j)).find? fun (_, value) => !Scalar.isFinite value with
  | some field => exact iff_of_false (fun h => by cases h) fun h => by cases h.1
  | none =>
    cases hnormal : box.normalize (p.position j) with
    | error e => exact iff_of_false (fun h => by cases h) fun h => by cases h.2.choose_spec
    | ok q => exact iff_of_true rfl ⟨rfl, q, rfl⟩

/-- Only the closed axes of a box decide which particles are valid. -/
theorem Valid.of_sameClosed (h : p.Valid box) (hclosed : box.SameClosed box') : p.Valid box' where
  uniform := h.uniform
  checked j hj := by
    obtain ⟨hlength, hfinite, q, hq⟩ := checkParticle_eq_ok_iff.1 (h.checked j hj)
    exact checkParticle_eq_ok_iff.2 ⟨hlength, hfinite, q, hclosed.normalize_eq hq⟩

section Valid

variable (h : p.Valid box)
include h

theorem Valid.finite_coordinates (a : Axis) : ∀ v ∈ (p.coordinates.get a).toList, Scalar.isFinite v = true := by
  intro v hv
  obtain ⟨j, hj, rfl⟩ := (mem_coordinates_iff h.uniform a).1 hv
  exact (checkParticle_eq_ok_iff.1 (h.checked j hj)).2.1 a

theorem Valid.normalize_eq_ok (hclosed : box.SameClosed box') (hj : j < p.size) :
    ∃ q, box'.normalize (p.position j) = .ok q := by
  obtain ⟨_, _, q, hq⟩ := checkParticle_eq_ok_iff.1 (h.checked j hj)
  exact ⟨q, hclosed.normalize_eq hq⟩

theorem Valid.length_spec (hj : j < p.size) : Scalar.isFinite (p.h.getD j 0) = true ∧ 0 ≤ p.h.getD j 0 :=
  (checkParticle_eq_ok_iff.1 (h.checked j hj)).1

end Valid

end ParticleSet

namespace Subdomain

/-! ## Common to all ranks -/

/-- What the subdomains of all ranks have in common between steps. -/
structure Peers (size : Nat) (config : Config α) (box : Box α) (tree : Leaves width.depth)
    (d : Nat → Subdomain width α) : Prop where
  place_eq : ∀ i < size, (d i).place = ⟨i, size⟩
  config_eq : ∀ i < size, (d i).config = config
  box_eq : ∀ i < size, (d i).box = box
  tree_eq : ∀ i < size, (d i).tree = tree
  focus_rank : ∀ i < size, (d i).focus.rank = i
  focus_theta : ∀ i < size, (d i).focus.theta = config.theta
  checked : config.check = .ok ()
  box_valid : box.Valid
  closed : config.box.SameClosed box
  tree_valid : tree.isValid = true

/-- Sets that the ranks can be given: words that can be spelled, few enough own particles to be counted, and no two layouts
with one digest. -/
structure Admissible (size : Nat) (ps : Nat → ParticleSet width α) : Prop where
  rowWidth_lt : ∀ i < size, (ps i).rowWidth < 2 ^ 64
  total_lt : ((List.range size).map fun i => (ps i).owned).sum < 2 ^ 64
  fits : ∀ i < size, ∀ j < (ps i).owned, (ps i).RowFits j
  layout_eq : ∀ i < size, ∀ k < size, (ps i).fingerprint = (ps k).fingerprint → (ps i).layout = (ps k).layout

/-- Whether the ranks go on with the particles they are given: the own ones are valid, and all have one layout. -/
structure Accepted (size : Nat) (box : Box α) (ps : Nat → ParticleSet width α) : Prop where
  valid : ∀ i < size, (ps i).own.Valid box
  layout_eq : ∀ i < size, (ps i).layout = (ps 0).layout

/-- The box of all particles that the ranks are given, from the one they had. -/
def commonBox (size : Nat) (config : Config α) (box : Box α) (ps : Nat → ParticleSet width α) : Except (Error α) (Box α) :=
  Global.fitted size (fun _ => config.backend) (fun i => (ps i).own.coordinates) box

/-- Every rank can arrange its own particles in a box with the same closed axes. -/
theorem Accepted.exists_arranged {box box' : Box α} {ps : Nat → ParticleSet width α} (h : Accepted size box ps)
    (config : Config α) (hclosed : box.SameClosed box') :
    ∃ (w s : Nat → ParticleSet width α) (order : Nat → List Nat), ∀ i < size, (ps i).own.wrap box' = .ok (w i) ∧
      ((w i).withKeys box' config.curve).sort config.backend = .ok (s i) ∧
      ParticleSet.Arranged box' config.curve (ps i).own (s i) (order i) := by
  have : Nonempty (ParticleSet width α) := ⟨ps 0⟩
  choose! w s order hs using fun i (hi : i < size) => ParticleSet.exists_arranged config.backend config.curve
    (h.valid i hi).uniform fun j hj => (h.valid i hi).normalize_eq_ok hclosed hj
  exact ⟨w, s, order, hs⟩

/-- What follows the agreement. -/
def afterAgreement (d : Subdomain width α) (p : ParticleSet width α) : Stage width α β (Box α) := do
  let box ← Stage.attempt (Global.boundingBox d.backend p.coordinates d.box)
  let wrapped ← Stage.ofExcept (p.wrap box)
  Stage.setParticles wrapped
  let sorted ← Stage.ofExcept ((wrapped.withKeys box d.config.curve).sort d.backend)
  Stage.setParticles sorted
  return box

theorem exec_gather [Wire α β] (place : Place) (d : Subdomain width α) (p : ParticleSet width α) :
    (gather place : Stage width α β (Box α)).exec ⟨d, p⟩ =
      (Stage.attempt (d.agree (d.validate place p.own) p.own) >>= fun _ => afterAgreement d p.own).exec ⟨d, p.own⟩ := rfl

section Gather

variable {config : Config α} {box box' : Box α} {tree : Leaves width.depth} {d : Nat → Subdomain width α}
  {ps s : Nat → ParticleSet width α} (hd : Peers size config box tree d) (hps : Admissible size ps)
include hd

theorem Peers.validate_eq_ok_iff (hi : i < size) :
    (d i).validate ⟨i, size⟩ (ps i).own = .ok () ↔ (ps i).own.Valid box := by
  rw [Subdomain.validate_eq_ok_iff, hd.place_eq i hi, hd.box_eq i hi]
  exact ⟨fun ⟨_, huniform, hchecked⟩ => ⟨huniform, hchecked⟩, fun h => ⟨rfl, h.uniform, h.checked⟩⟩

include hps in
theorem Peers.accepted_iff (hpos : 0 < size) : Accepted size box ps ↔
    (∀ i < size, (d i).validate ⟨i, size⟩ (ps i).own = .ok ()) ∧
      ∀ i < size, traits (d i) (ps i).own = traits (d 0) (ps 0).own := by
  have htraits : ∀ i < size, (traits (d i) (ps i).own = traits (d 0) (ps 0).own ↔ (ps i).layout = (ps 0).layout) := by
    intro i hi
    have hbackend : (d i).backend = (d 0).backend := by
      rw [backend, backend, hd.config_eq i hi, hd.config_eq 0 hpos]
    simp only [traits, List.cons.injEq, and_true, hbackend, true_and]
    have hsame : ∀ k, (ps k).own.fingerprint = (ps k).fingerprint := fun k =>
      ParticleSet.fingerprint_eq_of_layout_eq (ps k).layout_own
    constructor
    · rintro ⟨_, hprint⟩
      rw [hsame, hsame] at hprint
      exact hps.layout_eq i hi 0 hpos hprint
    · intro hlayout
      have hown : (ps i).own.layout = (ps 0).own.layout := by rw [ParticleSet.layout_own, hlayout, ParticleSet.layout_own]
      exact ⟨ParticleSet.rowWidth_eq_of_layout_eq hown, ParticleSet.fingerprint_eq_of_layout_eq hown⟩
  constructor
  · rintro ⟨hvalid, hlayout⟩
    exact ⟨fun i hi => (hd.validate_eq_ok_iff hi).2 (hvalid i hi), fun i hi => (htraits i hi).2 (hlayout i hi)⟩
  · rintro ⟨hvalid, hlayout⟩
    exact ⟨fun i hi => (hd.validate_eq_ok_iff hi).1 (hvalid i hi), fun i hi => (htraits i hi).1 (hlayout i hi)⟩

variable [Wire α β] [Wire.LawfulWords α β] [Wire.LawfulScalars α β]

include hps in
/-- Either the ranks stop as they do not accept the particles, or they look for the box of all particles. If they find none
they all stop for one cause, and otherwise every rank arranges its own particles in it. -/
theorem collects_gather (hpos : 0 < size) (hsize : size < 2 ^ 64) :
    (¬ Accepted size box ps ∧ ∃ e : Nat → Error α,
      Collects size (fun i => (gather ⟨i, size⟩ : Stage width α β (Box α)).exec ⟨d i, ps i⟩)
        fun i => (.error (e i), ⟨d i, (ps i).own⟩)) ∨
    Accepted size box ps ∧ ((∃ e, commonBox size config box ps = .error e ∧
        Collects size (fun i => (gather ⟨i, size⟩ : Stage width α β (Box α)).exec ⟨d i, ps i⟩)
          fun i => (.error e, ⟨d i, (ps i).own⟩)) ∨
      ∃ (box' : Box α) (s : Nat → ParticleSet width α) (order : Nat → List Nat), commonBox size config box ps = .ok box' ∧
        Collects size (fun i => (gather ⟨i, size⟩ : Stage width α β (Box α)).exec ⟨d i, ps i⟩)
          (fun i => (.ok box', ⟨d i, s i⟩)) ∧
        ∀ i < size, ParticleSet.Arranged box' config.curve (ps i).own (s i) (order i)) := by
  have hwidth : ∀ i < size, (ps i).own.rowWidth < 2 ^ 64 := fun i hi => by
    rw [ParticleSet.rowWidth_eq_of_layout_eq (ps i).layout_own]
    exact hps.rowWidth_lt i hi
  simp only [exec_gather]
  have hplace : ∀ i < size, (d i).place.rank + 1 < 2 ^ 64 := fun i hi => by
    rw [hd.place_eq i hi]
    exact Nat.lt_of_le_of_lt hi hsize
  rcases collects_agree (β := β) (fun i => (d i).validate ⟨i, size⟩ (ps i).own) hpos hplace hwidth with ⟨hagree, hgood⟩ | ⟨e, hagree, hbad⟩
  swap
  · exact .inl ⟨fun h => hbad ((hd.accepted_iff hps hpos).1 h), e, Stage.collects_bind_error (Stage.collects_attempt hagree)⟩
  have haccepted := (hd.accepted_iff hps hpos).2 hgood
  refine .inr ⟨haccepted, ?_⟩
  have hbox : Collects size (fun i => (Global.boundingBox (d i).backend (ps i).own.coordinates (d i).box :
      Attempt α β (Box α)).run) fun _ => commonBox size config box ps := by
    refine (Global.collects_boundingBox box).congr (fun i hi => ?_) fun _ _ => rfl
    rw [hd.box_eq i hi, backend, hd.config_eq i hi]
  cases hcommon : commonBox size config box ps with
  | error e =>
    refine .inl ⟨e, rfl, Stage.collects_bind (Stage.collects_attempt hagree) ?_⟩
    rw [hcommon] at hbox
    exact Stage.collects_bind_error (Stage.collects_attempt hbox)
  | ok box' =>
    obtain ⟨_, hclosed, _⟩ := Global.fitted_valid hd.box_valid hcommon
    obtain ⟨w, s, order, hs⟩ := haccepted.exists_arranged config hclosed
    refine .inr ⟨box', s, order, rfl, Stage.collects_bind (Stage.collects_attempt hagree) ?_, fun i hi => (hs i hi).2.2⟩
    rw [hcommon] at hbox
    refine Stage.collects_bind (Stage.collects_attempt hbox) ((Collects.done _).congr (fun i hi => ?_) fun _ _ => rfl)
    obtain ⟨hwrap, hsort, _⟩ := hs i hi
    simp only [hwrap, Stage.exec_ofExcept_ok, Stage.exec_setParticles, backend, hd.config_eq i hi, hsort]
    rfl

end Gather

end Subdomain

end CurvePartition
