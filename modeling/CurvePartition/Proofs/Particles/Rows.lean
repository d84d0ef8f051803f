-- SUMMARY: Rows of particle sets: cutting, growing, sorting and unpacking described by the rows of the result, each a row of a set that was there before.
import CurvePartition.Particles.Transfer
import CurvePartition.Proofs.Particles.Columns
import CurvePartition.Proofs.Sorted.Counting

/-!
# Rows of particle sets

`ParticleSet.row` is the list of the elements of one particle in all columns. Sets whose columns have the same kinds can
exchange rows. Every operation here moves rows as a whole, so what holds of single rows, such as the key of a
position, holds of them wherever they go.
-/

namespace CurvePartition

namespace ParticleSet

variable {width : KeyWidth} {α β : Type} [Scalar α]

/-- The elements of a particle in all columns. -/
def row (p : ParticleSet width α) (i : Nat) : List (Entry α) := p.columns.map (Column.entry i)

/-- Kinds of all columns. -/
def kinds (p : ParticleSet width α) : List (Option ElementKind) := p.columns.map Column.kind?

/-- All rows, one after the other. -/
def rows (p : ParticleSet width α) : List (List (Entry α)) := (List.range p.size).map p.row

/-- The elements of a particle in all columns except the keys. -/
def data (p : ParticleSet width α) (i : Nat) : List (Entry α) := p.dataColumns.map (Column.entry i)

/-- The key in a row. -/
def rowKey : List (Entry α) → Nat
  | .word key :: _ => key
  | _ => 0

/-- Whether all columns have one length. -/
def Uniform (p : ParticleSet width α) (n : Nat) : Prop := ∀ c ∈ p.columns, c.size = n

/-- Whether the words of a row fit into their columns. -/
def RowFits (p : ParticleSet width α) (i : Nat) : Prop := ∀ c ∈ p.columns, (c.entry i).Fits c.kind?

variable {p q : ParticleSet width α} {i j m n : Nat}

theorem row_eq (p : ParticleSet width α) (i : Nat) : p.row i =
    .word (p.keys.getD i 0) :: .scalar (p.position i).x :: .scalar (p.position i).y :: .scalar (p.position i).z ::
      .scalar (p.h.getD i 0) :: p.properties.map fun q => .word (q.values.getD i 0) := by
  simp only [row, columns, dataColumns, List.map_cons, List.map_map]
  rfl

theorem row_eq_cons (p : ParticleSet width α) (i : Nat) : p.row i = .word (p.keys.getD i 0) :: p.data i := rfl

@[simp] theorem rowKey_row (p : ParticleSet width α) (i : Nat) : rowKey (p.row i) = p.keys.getD i 0 := rfl

theorem data_eq (p : ParticleSet width α) (i : Nat) : p.data i =
    .scalar (p.position i).x :: .scalar (p.position i).y :: .scalar (p.position i).z :: .scalar (p.h.getD i 0) ::
      p.properties.map fun q => .word (q.values.getD i 0) := (List.cons.inj (row_eq p i)).2

/-- Equal elements have one position and one smoothing length. -/
theorem fields_eq_of_data_eq (h : p.data i = q.data j) : p.position i = q.position j ∧ p.h.getD i 0 = q.h.getD j 0 := by
  rw [data_eq, data_eq] at h
  simp only [List.cons.injEq, Entry.scalar.injEq] at h
  obtain ⟨hx, hy, hz, hh, _⟩ := h
  refine ⟨Triple.ext_get fun a => ?_, hh⟩
  cases a
  · exact hx
  · exact hy
  · exact hz

/-- Equal rows have one key, one position and one smoothing length. -/
theorem fields_eq_of_row_eq (h : p.row i = q.row j) :
    p.keys.getD i 0 = q.keys.getD j 0 ∧ p.position i = q.position j ∧ p.h.getD i 0 = q.h.getD j 0 := by
  rw [row_eq_cons, row_eq_cons] at h
  obtain ⟨hkey, hdata⟩ := List.cons.inj h
  exact ⟨Entry.word.inj hkey, fields_eq_of_data_eq hdata⟩

/-- A row that fits does so wherever it is, among columns of the same kinds. -/
theorem rowFits_of_eq (hrow : p.row i = q.row j) (hkinds : p.kinds = q.kinds) (h : q.RowFits j) : p.RowFits i := by
  intro c hc
  obtain ⟨k, hk, rfl⟩ := List.getElem_of_mem hc
  have hlength : p.columns.length = q.columns.length := by simpa [row] using congrArg List.length hrow
  have hk' : k < q.columns.length := hlength ▸ hk
  have hentry : p.columns[k].entry i = q.columns[k].entry j := by
    have := congrArg (·[k]?) hrow
    simpa [row, hk, hk'] using this
  have hkind : p.columns[k].kind? = q.columns[k].kind? := by
    have := congrArg (·[k]?) hkinds
    simpa [kinds, hk, hk'] using this
  rw [hentry, hkind]
  exact h _ (List.getElem_mem hk')

omit [Scalar α] in
/-- Sets of one layout have columns of the same kinds. -/
theorem kinds_eq_of_layout_eq (h : p.layout = q.layout) : p.kinds = q.kinds := by
  have hkinds : ∀ p : ParticleSet width α, p.kinds = some width.kind :: none :: none :: none :: none ::
      p.layout.map fun l => some l.2 := by
    intro p
    simp only [kinds, columns, dataColumns, layout, List.map_cons, List.map_map]
    rfl
  rw [hkinds, hkinds, h]

omit [Scalar α] in
theorem uniform_iff : p.Uniform n ↔ p.keys.size = n ∧ p.x.size = n ∧ p.y.size = n ∧ p.z.size = n ∧ p.h.size = n ∧
    ∀ q ∈ p.properties, q.values.size = n := by
  simp [Uniform, columns, dataColumns, Column.size]

theorem rowFits_iff : p.RowFits i ↔ p.keys.getD i 0 < 256 ^ width.kind.width ∧
    ∀ q ∈ p.properties, q.values.getD i 0 < 256 ^ q.kind.width := by
  simp [RowFits, columns, dataColumns, Column.entry, Column.kind?, Entry.Fits]

omit [Scalar α] in
theorem Uniform.size_eq (h : p.Uniform n) : p.size = n := h (.scalars p.x) (by simp [columns, dataColumns])

omit [Scalar α] in
theorem Uniform.size_keys (h : p.Uniform n) : p.keys.size = n := h (.words width.kind p.keys) (by simp [columns])

omit [Scalar α] in
theorem Uniform.size_h (h : p.Uniform n) : p.h.size = n := h (.scalars p.h) (by simp [columns, dataColumns])

omit [Scalar α] in
theorem columns_injective (hlayout : p.layout = q.layout) (howned : p.owned = q.owned) (h : p.columns = q.columns) :
    p = q := by
  have hproperties : ∀ l l' : List Property, l.map (fun q => (q.name, q.kind)) = l'.map (fun q => (q.name, q.kind)) →
      l.map (fun q => (.words q.kind q.values : Column α)) = l'.map (fun q => .words q.kind q.values) → l = l' := by
    intro l
    induction l with
    | nil =>
      intro l' h _
      exact (List.map_eq_nil_iff.1 h.symm).symm
    | cons r l ih =>
      intro l' h hvalues
      cases l' with
      | nil => cases h
      | cons r' l' =>
        obtain ⟨hname, hrest⟩ := List.cons.inj h
        obtain ⟨hvalue, hvalues⟩ := List.cons.inj hvalues
        obtain ⟨hname, hkind⟩ := Prod.mk.inj hname
        obtain ⟨_, hvalue⟩ := Column.words.inj hvalue
        rw [ih l' hrest hvalues]
        cases r
        cases r'
        simp_all
  cases p
  cases q
  simp only [columns, dataColumns, List.cons.injEq, Column.words.injEq, Column.scalars.injEq, true_and] at h
  obtain ⟨rfl, rfl, rfl, rfl, rfl, hvalues⟩ := h
  cases hproperties _ _ hlayout hvalues
  cases howned
  rfl

/-- Sets of one layout with the same rows are equal. -/
theorem ext_rows (hp : p.Uniform n) (hq : q.Uniform n) (hlayout : p.layout = q.layout) (howned : p.owned = q.owned)
    (h : ∀ i < n, p.row i = q.row i) : p = q := by
  refine columns_injective hlayout howned ?_
  have hkinds := kinds_eq_of_layout_eq hlayout
  have hlength : p.columns.length = q.columns.length := by simpa [kinds] using congrArg List.length hkinds
  refine List.ext_getElem hlength fun k hk hk' => ?_
  have hkind : p.columns[k].kind? = q.columns[k].kind? := by
    have := congrArg (·[k]?) hkinds
    simpa [kinds, hk, hk'] using this
  refine Column.ext_entry hkind ((hp _ (List.getElem_mem hk)).trans (hq _ (List.getElem_mem hk')).symm) fun i hi => ?_
  have := congrArg (·[k]?) (h i (hp _ (List.getElem_mem hk) ▸ hi))
  simpa [row, hk, hk'] using this

/-! ## Putting columns back -/

omit [Scalar α] in
theorem map_withValues {properties : List Property} {columns : List (Column α)}
    (h : columns.map Column.kind? = properties.map fun q => some q.kind) :
    (withValues properties columns).map (fun q => (.words q.kind q.values : Column α)) = columns := by
  induction properties generalizing columns with
  | nil => cases columns with
    | nil => rfl
    | cons => cases h
  | cons q rest ih =>
    cases columns with
    | nil => cases h
    | cons c columns =>
      obtain ⟨hkind, hrest⟩ := List.cons.inj h
      cases c with
      | scalars => cases hkind
      | words kind values =>
        cases hkind
        rw [withValues, List.map_cons, ih hrest]

omit [Scalar α] in
theorem layout_withValues (properties : List Property) (columns : List (Column α)) :
    (withValues properties columns).map (fun q => (q.name, q.kind)) = properties.map fun q => (q.name, q.kind) := by
  fun_induction withValues properties columns with
  | case1 q rest kind values columns ih => simp only [List.map_cons, ih]
  | case2 => rfl

omit [Scalar α] in
/-- Columns of the same kinds are put back as they are. -/
theorem columns_withColumns {columns : List (Column α)} (h : columns.map Column.kind? = p.kinds) :
    (p.withColumns columns).columns = columns := by
  simp only [kinds, ParticleSet.columns, dataColumns, List.map_cons, List.map_map, Column.kind?] at h
  -- The five columns that all sets have, and those of the properties.
  obtain ⟨_, _, rfl, hkeys, h⟩ := List.map_eq_cons_iff.1 h
  obtain ⟨_, _, rfl, hx, h⟩ := List.map_eq_cons_iff.1 h
  obtain ⟨_, _, rfl, hy, h⟩ := List.map_eq_cons_iff.1 h
  obtain ⟨_, _, rfl, hz, h⟩ := List.map_eq_cons_iff.1 h
  obtain ⟨_, _, rfl, hh, hrest⟩ := List.map_eq_cons_iff.1 h
  obtain ⟨keys, rfl⟩ := Column.kind?_eq_some_iff.1 hkeys
  obtain ⟨x, rfl⟩ := Column.kind?_eq_none_iff.1 hx
  obtain ⟨y, rfl⟩ := Column.kind?_eq_none_iff.1 hy
  obtain ⟨z, rfl⟩ := Column.kind?_eq_none_iff.1 hz
  obtain ⟨hs, rfl⟩ := Column.kind?_eq_none_iff.1 hh
  simp only [withColumns, withDataColumns, ParticleSet.columns, dataColumns, map_withValues hrest]

omit [Scalar α] in
/-- Columns that were all changed in one way that keeps their kinds. -/
theorem columns_map {f : Column α → Column α} (hf : ∀ c, (f c).kind? = c.kind?) :
    (p.withColumns (p.columns.map f)).columns = p.columns.map f := by
  refine columns_withColumns ?_
  rw [List.map_map]
  exact List.map_congr_left fun c _ => hf c

omit [Scalar α] in
/-- Properties keep their names and kinds whatever is put back. -/
@[simp] theorem layout_withColumns (p : ParticleSet width α) (columns : List (Column α)) :
    (p.withColumns columns).layout = p.layout := by
  unfold withColumns
  split
  · unfold withDataColumns
    split
    · exact layout_withValues _ _
    · rfl
  · rfl

omit [Scalar α] in
@[simp] theorem owned_withColumns (p : ParticleSet width α) (columns : List (Column α)) :
    (p.withColumns columns).owned = p.owned := by
  unfold withColumns
  split
  · unfold withDataColumns
    split <;> rfl
  · rfl

/-! ## Cutting and growing -/

omit [Scalar α] in
theorem columns_truncate (p : ParticleSet width α) (n : Nat) : (p.truncate n).columns = p.columns.map (Column.truncate n) :=
  columns_map (Column.kind?_truncate n)

theorem columns_resize (p : ParticleSet width α) (n : Nat) : (p.resize n).columns = p.columns.map (Column.resize n) :=
  columns_map (Column.kind?_resize n)

omit [Scalar α] in
@[simp] theorem kinds_truncate (p : ParticleSet width α) (n : Nat) : (p.truncate n).kinds = p.kinds := by
  rw [kinds, columns_truncate, List.map_map]
  exact List.map_congr_left fun c _ => Column.kind?_truncate n c

@[simp] theorem kinds_resize (p : ParticleSet width α) (n : Nat) : (p.resize n).kinds = p.kinds := by
  rw [kinds, columns_resize, List.map_map]
  exact List.map_congr_left fun c _ => Column.kind?_resize n c

omit [Scalar α] in
@[simp] theorem layout_truncate (p : ParticleSet width α) (n : Nat) : (p.truncate n).layout = p.layout :=
  layout_withColumns p _

@[simp] theorem layout_resize (p : ParticleSet width α) (n : Nat) : (p.resize n).layout = p.layout :=
  layout_withColumns p _

omit [Scalar α] in
theorem Uniform.truncate (h : p.Uniform n) (hm : m ≤ n) : (p.truncate m).Uniform m := by
  intro c hc
  rw [columns_truncate] at hc
  obtain ⟨c', hc', rfl⟩ := List.mem_map.1 hc
  rw [Column.size_truncate, h c' hc', Nat.min_eq_left hm]

theorem uniform_resize (p : ParticleSet width α) (n : Nat) : (p.resize n).Uniform n := by
  intro c hc
  rw [columns_resize] at hc
  obtain ⟨c', _, rfl⟩ := List.mem_map.1 hc
  exact Column.size_resize n c'

theorem row_truncate (hi : i < n) (p : ParticleSet width α) : (p.truncate n).row i = p.row i := by
  rw [row, columns_truncate, List.map_map]
  exact List.map_congr_left fun c _ => Column.entry_truncate hi c

theorem row_resize (h : p.Uniform m) (hi : i < m) (hn : i < n) : (p.resize n).row i = p.row i := by
  rw [row, columns_resize, List.map_map]
  exact List.map_congr_left fun c hc => Column.entry_resize hn (h c hc ▸ hi)

/-! ## Sorting -/

omit [Scalar α] in
theorem getD_lt_of_perm_range {order : Array Nat} (h : order.toList.Perm (List.range n)) (hi : i < n) : order.getD i 0 < n := by
  have hsize : i < order.size := by rwa [← Array.length_toList, h.length_eq, List.length_range]
  have hmem := h.mem_iff.1 (List.get_mem order.toList ⟨i, by simpa using hsize⟩)
  simpa [Array.getD, hsize] using hmem

/-- Two elements of a list without repetition stand in one order only. -/
theorem not_sublist_swap {τ : Type} {a b : τ} {l : List τ} (hl : l.Nodup) (hab : [a, b].Sublist l) :
    ¬ [b, a].Sublist l := by
  induction l with
  | nil => cases hab
  | cons c l ih =>
    obtain ⟨hc, hl⟩ := List.nodup_cons.1 hl
    intro hba
    cases hab with
    | cons _ hab =>
      cases hba with
      | cons _ hba => exact ih hl hab hba
      | cons_cons _ _ => exact hc (hab.subset (by simp))
    | cons_cons _ hb =>
      have hb := List.singleton_sublist.1 hb
      cases hba with
      | cons _ hba => exact hc (hba.subset (by simp))
      | cons_cons _ _ => exact hc hb

/-- Keys ascend in the order that sorts them, and equal ones stay in theirs. -/
theorem pairwise_order (keys : Array Nat) : (KeySort.order keys).toList.Pairwise fun i j =>
    keys.getD i 0 < keys.getD j 0 ∨ keys.getD i 0 = keys.getD j 0 ∧ i < j := by
  have htrans : ∀ a b c : Nat, decide (keys.getD a 0 ≤ keys.getD b 0) = true →
      decide (keys.getD b 0 ≤ keys.getD c 0) = true → decide (keys.getD a 0 ≤ keys.getD c 0) = true := by
    simp only [decide_eq_true_eq]
    exact fun _ _ _ => Nat.le_trans
  have htotal : ∀ a b : Nat, (decide (keys.getD a 0 ≤ keys.getD b 0) || decide (keys.getD b 0 ≤ keys.getD a 0)) = true := by
    simp only [Bool.or_eq_true, decide_eq_true_eq]
    exact fun _ _ => Nat.le_total _ _
  have hascending := List.pairwise_mergeSort htrans htotal (List.range keys.size)
  have hnodup : (KeySort.order keys).toList.Nodup := (List.mergeSort_perm _ _).nodup_iff.2 List.nodup_range
  refine List.pairwise_iff_forall_sublist.2 fun {i j} hsub => ?_
  have hle := of_decide_eq_true (List.pairwise_iff_forall_sublist.1 hascending hsub)
  refine (Nat.lt_or_eq_of_le hle).imp_right fun heq => ⟨heq, Nat.lt_of_not_le fun hji => ?_⟩
  -- Were the later one smaller, the two would stand in its order before and after.
  have hne : j ≠ i := fun heq => List.pairwise_iff_forall_sublist.1 hnodup hsub heq.symm
  have hi : i < keys.size := List.mem_range.1 ((List.mergeSort_perm _ _).mem_iff.1 (hsub.subset (by simp)))
  have hbefore : [j, i].Sublist (List.range keys.size) := by
    have hj : [j].Sublist (List.range i) := List.singleton_sublist.2 (List.mem_range.2 (Nat.lt_of_le_of_ne hji hne))
    have hpair : [j, i].Sublist (List.range (i + 1)) := List.range_succ ▸ hj.append (List.Sublist.refl [i])
    exact hpair.trans (List.range_sublist.2 hi)
  have hsame : decide (keys.getD j 0 ≤ keys.getD i 0) = true := decide_eq_true (Nat.le_of_eq heq.symm)
  exact not_sublist_swap hnodup hsub (List.pair_sublist_mergeSort htrans htotal hsame hbefore)

/-- Sorting reorders the rows so that their keys ascend, and rows with equal keys stay in their order. -/
theorem sort_spec (backend : Backend) (h : p.Uniform n) : ∃ (p' : ParticleSet width α) (order : Array Nat),
    p.sort backend = .ok p' ∧ order.toList.Perm (List.range n) ∧ p'.kinds = p.kinds ∧ p'.Uniform n ∧
      p'.owned = p.owned ∧ p'.layout = p.layout ∧ (∀ i < n, p'.row i = p.row (order.getD i 0)) ∧
      order.toList.Pairwise fun i j =>
        p.keys.getD i 0 < p.keys.getD j 0 ∨ p.keys.getD i 0 = p.keys.getD j 0 ∧ i < j := by
  have hsize : p.keys.size = n := h.size_keys
  have hfit : KeySort.misfit p.keys.size p.dataColumns = none := by
    rw [KeySort.misfit, Option.map_eq_none_iff, List.find?_eq_none]
    intro ⟨c, k⟩ hc
    have hmem : c ∈ p.columns := List.mem_cons_of_mem _ (List.fst_mem_of_mem_zipIdx hc)
    simp [h c hmem, hsize]
  have hperm : (KeySort.order p.keys).toList.Perm (List.range n) := by
    rw [KeySort.order, hsize]
    exact List.mergeSort_perm _ _
  have horder : (KeySort.order p.keys).size = n := by
    rw [← Array.length_toList, hperm.length_eq, List.length_range]
  -- The keys are a column like the others.
  have hcolumns : (p.withColumns (p.columns.map (Column.reorder backend (KeySort.order p.keys)))).columns =
      p.columns.map (Column.reorder backend (KeySort.order p.keys)) :=
    columns_map (Column.kind?_reorder backend _)
  refine ⟨p.withColumns (p.columns.map (Column.reorder backend (KeySort.order p.keys))), KeySort.order p.keys, ?_, hperm,
    ?_, ?_, owned_withColumns _ _, layout_withColumns _ _, fun i hi => ?_, pairwise_order p.keys⟩
  · rw [sort, KeySort.byKeys, hfit]
    rfl
  · rw [kinds, hcolumns, List.map_map]
    exact List.map_congr_left fun c _ => Column.kind?_reorder backend _ c
  · intro c hc
    rw [hcolumns] at hc
    obtain ⟨c', _, rfl⟩ := List.mem_map.1 hc
    rw [Column.size_reorder, horder]
  · rw [row, hcolumns, List.map_map]
    exact List.map_congr_left fun c _ => Column.entry_reorder backend (horder ▸ hi) c

/-- Keys that stand in the order of their rows ascend. -/
theorem ascending_of_rows {order : Array Nat} (hperm : order.toList.Perm (List.range n)) (hq : q.Uniform n)
    (hrow : ∀ i < n, q.row i = p.row (order.getD i 0)) (horder : order.toList.Pairwise fun i j =>
      p.keys.getD i 0 < p.keys.getD j 0 ∨ p.keys.getD i 0 = p.keys.getD j 0 ∧ i < j) : Sorted.Ascending q.keys := by
  have hlength : order.toList.length = n := by rw [hperm.length_eq, List.length_range]
  have hkey : ∀ i (hi : i < order.toList.length), q.keys.getD i 0 = p.keys.getD order.toList[i] 0 := fun i hi => by
    have hi : i < n := hlength ▸ hi
    have hsize : i < order.size := by rwa [← Array.length_toList, hlength]
    rw [(fields_eq_of_row_eq (hrow i hi)).1]
    simp [Array.getD, hsize]
  refine List.pairwise_iff_getElem.2 fun i j hi hj hij => ?_
  have hi : i < n := by simpa [hq.size_keys] using hi
  have hj : j < n := by simpa [hq.size_keys] using hj
  have hle := List.pairwise_iff_getElem.1 horder i j (hlength ▸ hi) (hlength ▸ hj) hij
  rw [← hkey i, ← hkey j] at hle
  have hle : q.keys.getD i 0 ≤ q.keys.getD j 0 := hle.elim Nat.le_of_lt fun h => Nat.le_of_eq h.1
  simpa [Array.getD, hq.size_keys, hi, hj] using hle

/-! ## Messages -/

section Messages

variable [Wire α β]

omit [Scalar α] in
theorem columns_unpack (p : ParticleSet width α) (offset rows : Nat) (message : Message β) :
    (p.unpack offset rows message).columns = Column.unpack offset rows p.columns message :=
  columns_withColumns (Column.kinds_unpack _ _ _ _)

omit [Scalar α] in
@[simp] theorem kinds_unpack (p : ParticleSet width α) (offset rows : Nat) (message : Message β) :
    (p.unpack offset rows message).kinds = p.kinds := by
  rw [kinds, columns_unpack, Column.kinds_unpack, kinds]

omit [Scalar α] in
@[simp] theorem layout_unpack (p : ParticleSet width α) (offset rows : Nat) (message : Message β) :
    (p.unpack offset rows message).layout = p.layout :=
  layout_withColumns p _

omit [Scalar α] in
theorem Uniform.unpack (h : p.Uniform n) (offset rows : Nat) (message : Message β) :
    (p.unpack offset rows message).Uniform n := by
  intro c hc
  rw [columns_unpack] at hc
  have hmem : c.size ∈ p.columns.map Column.size := by
    rw [← Column.sizes_unpack offset rows p.columns message]
    exact List.mem_map_of_mem hc
  obtain ⟨c', hc', heq⟩ := List.mem_map.1 hmem
  rw [← heq, h c' hc']

/-- Whatever is unpacked, the rows before the offset stay. -/
theorem row_unpack_of_lt {offset : Nat} (hj : j < offset) (p : ParticleSet width α) (rows : Nat) (message : Message β) :
    (p.unpack offset rows message).row j = p.row j := by
  rw [row, columns_unpack]
  exact Column.map_entry_unpack_of_lt rows hj p.columns message

variable [Wire.LawfulWords α β] [Wire.LawfulScalars α β]

/-- Rows that another set packed are read as they were, and the other rows stay. -/
theorem row_unpack_pack {ranges : List IndexRange} {indices : List Nat} {offset : Nat}
    (hindices : ranges.flatMap IndexRange.toList = indices) (h : p.Uniform n) (hkinds : p.kinds = q.kinds)
    (hroom : offset + indices.length ≤ n) (hfits : ∀ i ∈ indices, q.RowFits i) (j : Nat) :
    (p.unpack offset indices.length (q.pack ranges : Message β)).row j =
      if offset ≤ j ∧ j < offset + indices.length then q.row (indices.getD (j - offset) 0) else p.row j := by
  rw [row, columns_unpack, pack]
  exact Column.unpack_pack hindices hkinds (fun c hc => h c hc ▸ hroom) (fun c hc i hi => hfits i hi c hc) j

end Messages

end ParticleSet

end CurvePartition
