-- SUMMARY: Particles before they move: each row is put into the box and gets the key of its position, then the rows are sorted by key.
import CurvePartition.Proofs.Particles.Moving
import CurvePartition.Proofs.Space.Signs
import CurvePartition.Proofs.Space.Points
import CurvePartition.Subdomain.Step

/-!
# Particles in the box

What happens to a row before it moves depends on the row and the box only: `Box.placed` maps its position into the box and
puts the key of this position in front. So wrapping, keys and sorting together reorder the placed rows by key
(`ParticleSet.Arranged`), and this never fails for positions that can be mapped into the box
(`ParticleSet.exists_arranged`).

With exact numbers `ParticleSet.Placed` says of a row that its position lies in the box, that its key is the one of this
position, and that its smoothing length is not negative. A row takes this along wherever it goes.
-/

namespace CurvePartition

/-- Keys of all positions fit into words of their kind. -/
theorem KeyWidth.bound_le (width : KeyWidth) : Key.bound width.depth ≤ 256 ^ width.kind.width := by
  cases width <;> decide

/-! ## Rows -/

namespace Box

variable {α : Type} [Scalar α]

theorem encode_lt (b : Box α) (depth : Nat) (curve : Curve) (p : Triple α) : b.encode depth curve p < Key.bound depth :=
  curve.encode_lt fun a => by
    rw [gridCoordinates, Triple.get_ofFn]
    exact gridCoordinate_lt ..

/-- The elements of a particle with its position mapped into the box, and the key of this position in front. -/
def placed (b : Box α) (depth : Nat) (curve : Curve) : List (Entry α) → List (Entry α)
  | .scalar x :: .scalar y :: .scalar z :: rest =>
    let q := b.moved ⟨x, y, z⟩
    .word (b.encode depth curve q) :: .scalar q.x :: .scalar q.y :: .scalar q.z :: rest
  | data => data

/-- Alike boxes place rows in the same way. -/
theorem Alike.placed_eq {b b' : Box α} (hlaw : Scalar.LawfulSigns α) (h : b.Alike b') (hb : b.Valid) (depth : Nat)
    (curve : Curve) : b'.placed depth curve = b.placed depth curve := by
  funext row
  unfold placed
  simp only [h.moved_eq, h.encode_eq hlaw hb]

end Box

namespace ParticleSet

variable {width : KeyWidth} {α : Type} [Scalar α] {b : Box α} {curve : Curve} {p s w : ParticleSet width α} {i n : Nat}
  {order : List Nat} {kinds : List (Option ElementKind)}

/-- The key that a particle gets. -/
def keyIn (b : Box α) (curve : Curve) (p : ParticleSet width α) (i : Nat) : Nat :=
  b.encode width.depth curve (b.moved (p.position i))

theorem placed_data (b : Box α) (curve : Curve) (p : ParticleSet width α) (i : Nat) :
    b.placed width.depth curve (p.data i) =
      .word (p.keyIn b curve i) :: .scalar (b.moved (p.position i)).x :: .scalar (b.moved (p.position i)).y ::
        .scalar (b.moved (p.position i)).z :: .scalar (p.h.getD i 0) ::
          p.properties.map fun q => .word (q.values.getD i 0) := by
  rw [data_eq]
  rfl

/-- A particle that stays where it is only gets its key. -/
theorem placed_data_of_unmoved (h : b.moved (p.position i) = p.position i) :
    b.placed width.depth curve (p.data i) = .word (p.keyIn b curve i) :: p.data i := by
  rw [placed_data, h, data_eq]

/-! ## Sets -/

/-- What placing and sorting make of a set: its rows, placed in a box, in the order of their keys. -/
structure Arranged (b : Box α) (curve : Curve) (p s : ParticleSet width α) (order : List Nat) : Prop where
  perm : order.Perm (List.range p.size)
  layout_eq : s.layout = p.layout
  owned_eq : s.owned = p.owned
  uniform : s.Uniform p.size
  rows_eq : s.rows = order.map fun i => b.placed width.depth curve (p.data i)
  ordered : order.Pairwise fun i j => p.keyIn b curve i < p.keyIn b curve j ∨ p.keyIn b curve i = p.keyIn b curve j ∧ i < j

theorem Arranged.of_alike {b' : Box α} (hlaw : Scalar.LawfulSigns α) (hbox : b.Alike b') (hb : b.Valid)
    (h : Arranged b' curve p s order) : Arranged b curve p s order where
  perm := h.perm
  layout_eq := h.layout_eq
  owned_eq := h.owned_eq
  uniform := h.uniform
  rows_eq := by rw [h.rows_eq, hbox.placed_eq hlaw hb]
  ordered := by
    have hordered := h.ordered
    simpa only [keyIn, hbox.moved_eq, hbox.encode_eq hlaw hb] using hordered

theorem positions_eq (p : ParticleSet width α) : p.positions = (List.range p.size).map p.position := rfl

theorem wrap_eq_ok (hnormal : ∀ i < p.size, ∃ q, b.normalize (p.position i) = .ok q) :
    p.wrap b = .ok (p.withPositions (p.positions.map b.moved)) := by
  have hmap : p.positions.mapM b.normalize = .ok (p.positions.map b.moved) := mapM_of_eq_ok fun v hv => by
    rw [positions_eq] at hv
    obtain ⟨i, hi, rfl⟩ := List.mem_map.1 hv
    obtain ⟨q, hq⟩ := hnormal i (List.mem_range.1 hi)
    rw [hq, Box.moved_of_eq_ok hq]
  rw [wrap, hmap]
  rfl

/-- The particles moved into a box, with the keys of their places there. -/
def placedIn (p : ParticleSet width α) (b : Box α) (curve : Curve) : ParticleSet width α :=
  (p.withPositions (p.positions.map b.moved)).withKeys b curve

theorem getD_keys_placedIn (hi : i < p.size) : (p.placedIn b curve).keys.getD i 0 = p.keyIn b curve i := by
  have hsize : (p.withPositions (p.positions.map b.moved)).size = p.size := by simp [withPositions, size, positions]
  have hposition : (p.withPositions (p.positions.map b.moved)).position i = b.moved (p.position i) := by
    simp [withPositions, position, positions, Array.getD_eq_getD_getElem?, hi]
  rw [placedIn, keyIn, ← hposition]
  generalize p.withPositions (p.positions.map b.moved) = w at hsize
  simp [withKeys, positions_eq, hsize, Array.getD_eq_getD_getElem?, hi]

theorem row_placedIn (hi : i < p.size) : (p.placedIn b curve).row i = b.placed width.depth curve (p.data i) := by
  have hposition : (p.placedIn b curve).position i = b.moved (p.position i) := by
    simp [placedIn, withKeys, withPositions, position, positions, Array.getD_eq_getD_getElem?, hi]
  rw [placed_data, row_eq, getD_keys_placedIn hi, ← hposition]
  rfl

theorem uniform_placedIn (hp : p.Uniform p.size) : (p.placedIn b curve).Uniform p.size := by
  obtain ⟨_, _, _, _, hh, hproperties⟩ := uniform_iff.1 hp
  have hcolumn : ∀ f : Triple α → α, ((p.positions.map b.moved).map f).toArray.size = p.size := fun f => by
    simp [positions]
  refine uniform_iff.2 ⟨?_, hcolumn _, hcolumn _, hcolumn _, hh, hproperties⟩
  simp [placedIn, withKeys, positions, withPositions, size]

/-- Particles whose positions can be mapped into a box can be arranged in it. -/
theorem exists_arranged (backend : Backend) (curve : Curve) (hp : p.Uniform p.size)
    (hnormal : ∀ i < p.size, ∃ q, b.normalize (p.position i) = .ok q) : ∃ (w s : ParticleSet width α) (order : List Nat),
    p.wrap b = .ok w ∧ (w.withKeys b curve).sort backend = .ok s ∧ Arranged b curve p s order := by
  obtain ⟨s, order, hsort, hperm, _, huniform, howned, hlayout, hrows, horder⟩ :=
    sort_spec backend (uniform_placedIn hp : (p.placedIn b curve).Uniform p.size)
  have hlt : ∀ j ∈ order.toList, j < p.size := fun j hj => List.mem_range.1 (hperm.mem_iff.1 hj)
  refine ⟨_, s, order.toList, wrap_eq_ok hnormal, hsort, hperm, hlayout, howned, huniform, ?_,
    horder.imp_of_mem fun {i j} hi hj hij => ?_⟩
  · rw [rows, huniform.size_eq]
    refine List.ext_getElem (by simp [hperm.length_eq]) fun j h₁ h₂ => ?_
    have hj : j < p.size := by simpa using h₁
    have hj' : j < order.size := by simpa using h₂
    rw [List.getElem_map, List.getElem_range, hrows j hj, List.getElem_map, Array.getElem_toList,
      row_placedIn (getD_lt_of_perm_range hperm hj)]
    simp [Array.getD, hj']
  · rwa [getD_keys_placedIn (hlt i hi), getD_keys_placedIn (hlt j hj)] at hij

namespace Arranged

variable (h : Arranged b curve p s order)
include h

theorem length_order : order.length = p.size := by rw [h.perm.length_eq, List.length_range]

theorem uniform_size : s.Uniform s.size := h.uniform.size_eq.symm ▸ h.uniform

/-- A row is the placed row that the order names. -/
theorem exists_row (hi : i < p.size) :
    ∃ j, order[i]? = some j ∧ j < p.size ∧ s.row i = b.placed width.depth curve (p.data j) := by
  have hlt : i < order.length := h.length_order.symm ▸ hi
  refine ⟨order[i], List.getElem?_eq_getElem hlt, List.mem_range.1 (h.perm.mem_iff.1 (List.getElem_mem hlt)), ?_⟩
  have hrow := congrArg (·[i]?) h.rows_eq
  simpa [rows, h.uniform.size_eq, hi, hlt] using hrow

theorem getD_keys (hi : i < p.size) : ∃ j, order[i]? = some j ∧ s.keys.getD i 0 = p.keyIn b curve j := by
  obtain ⟨j, hj, _, hrow⟩ := h.exists_row hi
  refine ⟨j, hj, ?_⟩
  rw [← rowKey_row, hrow, placed_data]
  rfl

/-- The keys ascend. -/
theorem ascending : Sorted.Ascending s.keys := by
  have hkeys := h.uniform.size_keys
  refine List.pairwise_iff_getElem.2 fun i j hi hj hij => ?_
  have hi : i < p.size := by simpa [hkeys] using hi
  have hj : j < p.size := by simpa [hkeys] using hj
  obtain ⟨i', hi', hkey⟩ := h.getD_keys hi
  obtain ⟨j', hj', hkey'⟩ := h.getD_keys hj
  obtain ⟨hlt, higet⟩ := List.getElem?_eq_some_iff.1 hi'
  obtain ⟨hlt', hjget⟩ := List.getElem?_eq_some_iff.1 hj'
  have hle := List.pairwise_iff_getElem.1 h.ordered i j hlt hlt' hij
  rw [higet, hjget, ← hkey, ← hkey'] at hle
  have hle : s.keys.getD i 0 ≤ s.keys.getD j 0 := hle.elim Nat.le_of_lt fun h => Nat.le_of_eq h.1
  simpa [Array.getD, hkeys, hi, hj] using hle

/-- The rows are the placed rows, up to their order. -/
theorem perm_rows : s.rows.Perm (((List.range p.size).map p.data).map (b.placed width.depth curve)) := by
  rw [h.rows_eq, List.map_map]
  exact h.perm.map _

theorem key_lt (hi : i < p.size) : s.keys.getD i 0 < Key.bound width.depth := by
  obtain ⟨j, _, hkey⟩ := h.getD_keys hi
  rw [hkey]
  exact b.encode_lt _ _ _

/-- Rows with words that fit keep them. -/
theorem filled (hp : p.Filled kinds p.size) : s.Filled kinds p.size where
  kinds_eq := (kinds_eq_of_layout_eq h.layout_eq).trans hp.kinds_eq
  uniform := h.uniform
  fits i hi := by
    obtain ⟨j, _, hj, hrow⟩ := h.exists_row hi
    have hfits := (rowFits_iff.1 (hp.fits j hj)).2
    have hrows := hrow
    rw [placed_data, row_eq] at hrows
    simp only [List.cons.injEq, Entry.word.injEq] at hrows
    obtain ⟨hkey, _, _, _, _, hvalues⟩ := hrows
    refine rowFits_iff.2 ⟨?_, fun q hq => ?_⟩
    · rw [hkey]
      exact Nat.lt_of_lt_of_le (b.encode_lt _ _ _) width.bound_le
    · obtain ⟨k, hk, rfl⟩ := List.getElem_of_mem hq
      have hlength : s.properties.length = p.properties.length := by simpa [layout] using congrArg List.length h.layout_eq
      have hk' : k < p.properties.length := hlength ▸ hk
      have hvalue := congrArg (·[k]?) hvalues
      have hkind := congrArg (·[k]?) h.layout_eq
      simp only [List.getElem?_map, List.getElem?_eq_getElem hk, List.getElem?_eq_getElem hk', Option.map_some,
        Option.some.injEq, Entry.word.injEq, layout, Prod.mk.injEq] at hvalue hkind
      rw [hvalue, hkind.2]
      exact hfits _ (List.getElem_mem hk')

/-- A set in order whose rows are placed already stays as it is. -/
theorem eq_self (hp : p.Uniform p.size) (hkeys : Sorted.Ascending p.keys)
    (hplaced : ∀ i < p.size, b.placed width.depth curve (p.data i) = p.row i) : s = p := by
  have hkey : ∀ i < p.size, p.keyIn b curve i = p.keys.getD i 0 := fun i hi => by
    have hrow := hplaced i hi
    rw [placed_data, row_eq] at hrow
    exact Entry.word.inj (List.cons.inj hrow).1
  have horder : order = List.range p.size := by
    refine Sorted.eq_of_mem_iff (fun a b => Nat.lt_asymm) ?_ List.pairwise_lt_range fun i => h.perm.mem_iff
    refine h.ordered.imp_of_mem fun {i j} hi hj hij => ?_
    have hi := List.mem_range.1 (h.perm.mem_iff.1 hi)
    have hj := List.mem_range.1 (h.perm.mem_iff.1 hj)
    rw [hkey i hi, hkey j hj] at hij
    rcases hij with hlt | ⟨_, hlt⟩
    · refine Nat.lt_of_not_le fun hle => absurd (hkeys.getD_le hle (hp.size_keys.symm ▸ hi)) (Nat.not_le.2 hlt)
    · exact hlt
  refine ext_rows h.uniform hp h.layout_eq h.owned_eq fun i hi => ?_
  obtain ⟨j, hj, _, hrow⟩ := h.exists_row hi
  rw [horder, List.getElem?_range hi] at hj
  cases hj
  exact hrow.trans (hplaced i hi)

end Arranged

end ParticleSet

/-! ## Exact positions -/

namespace ParticleSet

open Exact

variable {width : KeyWidth} {p q s : ParticleSet width EReal} {b : Box EReal} {curve : Curve} {i j : Nat}
  {order : List Nat}

/-- What is known of a row before it moves. -/
structure Placed (b : Box EReal) (curve : Curve) (p : ParticleSet width EReal) (i : Nat) : Prop where
  inBox : b.InBox (p.position i)
  key_eq : p.keys.getD i 0 = b.encode width.depth curve (p.position i)
  nonneg : 0 ≤ p.h.getD i 0

/-- A row takes along what is known of it. -/
theorem Placed.of_row_eq (h : q.Placed b curve j) (hrow : p.row i = q.row j) : p.Placed b curve i := by
  obtain ⟨hkey, hposition, hlength⟩ := fields_eq_of_row_eq hrow
  refine ⟨?_, ?_, ?_⟩
  · rw [hposition]
    exact h.inBox
  · rw [hkey, hposition]
    exact h.key_eq
  · rw [hlength]
    exact h.nonneg

theorem Placed.key_lt (h : p.Placed b curve i) : p.keys.getD i 0 < Key.bound width.depth :=
  h.key_eq ▸ b.encode_lt _ _ _

/-- Arranged rows are placed, if the open axes of the box reach around all positions. -/
theorem Arranged.isPlaced (h : Arranged b curve p s order) (hb : b.Valid)
    (hnormal : ∀ i < p.size, ∃ q, b.normalize (p.position i) = .ok q)
    (hopen : ∀ i < p.size, ∀ a, b.boundaries.get a = .unbounded →
      b.lo.get a ≤ (p.position i).get a ∧ (p.position i).get a ≤ b.hi.get a)
    (hlengths : ∀ i < p.size, 0 ≤ p.h.getD i 0) (hi : i < p.size) : s.Placed b curve i := by
  obtain ⟨j, _, hj, hrow⟩ := h.exists_row hi
  obtain ⟨q, hq⟩ := hnormal j hj
  rw [placed_data, row_eq] at hrow
  simp only [List.cons.injEq, Entry.word.injEq, Entry.scalar.injEq] at hrow
  obtain ⟨hkey, hx, hy, hz, hh, _⟩ := hrow
  have hposition : s.position i = b.moved (p.position j) := Triple.ext_get fun a => by
    cases a
    · exact hx
    · exact hy
    · exact hz
  refine ⟨?_, ?_, ?_⟩
  · rw [hposition, Box.moved_of_eq_ok hq]
    exact hb.inBox_normalize hq (hopen j hj)
  · rw [hkey, hposition]
    rfl
  · rw [hh]
    exact hlengths j hj

end ParticleSet

end CurvePartition
