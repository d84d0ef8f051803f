-- SUMMARY: Columns element by element: what cutting, growing, reordering, overwriting and reading from a message does to the element at each position.
import CurvePartition.Particles.Column
import CurvePartition.Proofs.Cluster.Exchanges

/-!
# Elements of columns

`Column.entry` is the element of a column at a position, whatever the kind of the column. Each operation on columns is
described by the entries of its result. Rows that were packed are read back as they were, if the columns of
both sides have the same kinds and the words fit into their widths (`Column.unpack_pack`).
-/

namespace CurvePartition

namespace Backend

variable {τ : Type} {order : Array Nat} {i : Nat}

theorem size_gather (backend : Backend) (blank : τ) (source : Array τ) (order : Array Nat) :
    (backend.gather blank source order).size = order.size := by
  simp [gather, mapIndices]

theorem getD_gather (backend : Backend) (h : i < order.size) (blank : τ) (source : Array τ) :
    (backend.gather blank source order).getD i blank = source.getD (order.getD i 0) blank := by
  simp [gather, mapIndices, Array.getD_eq_getD_getElem?, h]

end Backend

/-- An element of a column. -/
inductive Entry (α : Type) where
  | word (n : Nat)
  | scalar (x : α)
  deriving DecidableEq

/-- Whether an element can be spelled in a column of some kind. -/
def Entry.Fits {α : Type} : Option ElementKind → Entry α → Prop
  | some kind, .word n => n < 256 ^ kind.width
  | _, _ => True

namespace Column

variable {α β : Type}

/-- Kind of the words of a column, none for scalars. -/
def kind? : Column α → Option ElementKind
  | words kind _ => some kind
  | scalars _ => none

theorem kind?_eq_some_iff {c : Column α} {kind : ElementKind} : c.kind? = some kind ↔ ∃ values, c = words kind values := by
  cases c <;> simp [kind?]

theorem kind?_eq_none_iff {c : Column α} : c.kind? = none ↔ ∃ values, c = scalars values := by
  cases c <;> simp [kind?]

theorem width_eq {c c' : Column α} (h : c.kind? = c'.kind?) : c.width = c'.width := by
  cases c <;> cases c' <;> simp_all [kind?, width]

@[simp] theorem kind?_truncate (n : Nat) (c : Column α) : (c.truncate n).kind? = c.kind? := by cases c <;> rfl

theorem size_take {τ : Type} (n : Nat) (values : Array τ) : (values.take n).size = min n values.size := by
  rw [Array.take_eq_extract, Array.size_extract, Nat.sub_zero]

theorem getD_take {τ : Type} {i n : Nat} (h : i < n) (values : Array τ) (blank : τ) :
    (values.take n).getD i blank = values.getD i blank := by
  rw [Array.getD_eq_getD_getElem?, Array.getD_eq_getD_getElem?, Array.take_eq_extract, Array.getElem?_extract,
    Nat.zero_add]
  split
  · rfl
  · rw [Array.getElem?_eq_none (by omega)]

theorem size_truncate (n : Nat) (c : Column α) : (c.truncate n).size = min n c.size := by
  cases c <;> exact size_take n _

section Entries

variable [Scalar α]

/-- The element at a position, zero if there is none. -/
def entry (i : Nat) : Column α → Entry α
  | words _ values => .word (values.getD i 0)
  | scalars values => .scalar (values.getD i 0)

variable {c c' : Column α} {i n : Nat}

/-- Columns of one kind and length with the same elements are equal. -/
theorem ext_entry (hkind : c.kind? = c'.kind?) (hsize : c.size = c'.size) (h : ∀ i < c.size, c.entry i = c'.entry i) :
    c = c' := by
  have harray : ∀ {τ : Type} (blank : τ) (a b : Array τ), a.size = b.size →
      (∀ i < a.size, a.getD i blank = b.getD i blank) → a = b := by
    intro τ blank a b hsize h
    refine Array.ext hsize fun i hi hi' => ?_
    simpa [Array.getD, hi, hi'] using h i hi
  cases c with
  | words kind values =>
    cases c' with
    | words kind' values' =>
      cases hkind
      exact congrArg (words kind) (harray 0 _ _ hsize fun i hi => Entry.word.inj (h i hi))
    | scalars values' => cases hkind
  | scalars values =>
    cases c' with
    | words kind' values' => cases hkind
    | scalars values' => exact congrArg scalars (harray 0 _ _ hsize fun i hi => Entry.scalar.inj (h i hi))

@[simp] theorem kind?_resize (n : Nat) (c : Column α) : (c.resize n).kind? = c.kind? := by cases c <;> rfl

@[simp] theorem kind?_reorder (backend : Backend) (order : Array Nat) (c : Column α) :
    (c.reorder backend order).kind? = c.kind? := by
  cases c <;> rfl

theorem size_resize (n : Nat) (c : Column α) : (c.resize n).size = n := by
  cases c <;> simp only [resize, resized, size, Array.size_append, size_take, Array.size_replicate] <;> omega

theorem size_reorder (backend : Backend) (order : Array Nat) (c : Column α) :
    (c.reorder backend order).size = order.size := by
  cases c <;> exact backend.size_gather 0 _ order

theorem entry_truncate (h : i < n) (c : Column α) : (c.truncate n).entry i = c.entry i := by
  cases c with
  | words kind values => exact congrArg Entry.word (getD_take h values 0)
  | scalars values => exact congrArg Entry.scalar (getD_take h values 0)

theorem entry_resize (hn : i < n) (hi : i < c.size) : (c.resize n).entry i = c.entry i := by
  have htake : ∀ {τ : Type} (values : Array τ) (blank : τ), i < values.size →
      (resized blank n values).getD i blank = values.getD i blank := by
    intro τ values blank hi
    have hlt : i < (values.take n).size := by
      rw [size_take]
      omega
    rw [Array.getD_eq_getD_getElem?, resized, Array.getElem?_append_left hlt, ← Array.getD_eq_getD_getElem?,
      getD_take hn]
  cases c with
  | words kind values => exact congrArg Entry.word (htake values 0 hi)
  | scalars values => exact congrArg Entry.scalar (htake values 0 hi)

theorem entry_reorder (backend : Backend) {order : Array Nat} (h : i < order.size) (c : Column α) :
    (c.reorder backend order).entry i = c.entry (order.getD i 0) := by
  cases c with
  | words kind values => exact congrArg Entry.word (backend.getD_gather h 0 values)
  | scalars values => exact congrArg Entry.scalar (backend.getD_gather h 0 values)

/-! ## Overwriting -/

omit [Scalar α] in
theorem size_overwrite {τ : Type} (l : List τ) (values : Array τ) (offset : Nat) :
    (overwrite values offset l).size = values.size := by
  induction l generalizing values offset with
  | nil => rfl
  | cons v rest ih => rw [overwrite, ih, Array.size_setIfInBounds]

omit [Scalar α] in
theorem getD_overwrite {τ : Type} (l : List τ) (blank : τ) {values : Array τ} {offset : Nat}
    (h : offset + l.length ≤ values.size) (j : Nat) : (overwrite values offset l).getD j blank =
      if offset ≤ j ∧ j < offset + l.length then l.getD (j - offset) blank else values.getD j blank := by
  induction l generalizing values offset with
  | nil => rw [overwrite, if_neg (by simp)]
  | cons v rest ih =>
    rw [List.length_cons] at h ⊢
    rw [overwrite, ih (by rw [Array.size_setIfInBounds]; omega)]
    rcases Nat.lt_trichotomy j offset with hlt | rfl | hlt
    · rw [if_neg (by omega), if_neg (by omega), Array.getD_eq_getD_getElem?, Array.getElem?_setIfInBounds_ne (by omega),
        ← Array.getD_eq_getD_getElem?]
    · rw [if_neg (by omega), if_pos (by omega), Nat.sub_self, List.getD_cons_zero, Array.getD_eq_getD_getElem?,
        Array.getElem?_setIfInBounds_self_of_lt (by omega), Option.getD_some]
    · obtain ⟨k, rfl⟩ : ∃ k, j = offset + 1 + k := ⟨j - offset - 1, by omega⟩
      rw [show offset + 1 + k - offset = k + 1 by omega, Nat.add_sub_cancel_left, List.getD_cons_succ]
      by_cases hk : k < rest.length
      · rw [if_pos (by omega), if_pos (by omega)]
      · rw [if_neg (by omega), if_neg (by omega), Array.getD_eq_getD_getElem?,
          Array.getElem?_setIfInBounds_ne (by omega), ← Array.getD_eq_getD_getElem?]

omit [Scalar α] in
theorem getD_overwrite_of_lt {τ : Type} (l : List τ) (blank : τ) (values : Array τ) {offset j : Nat} (h : j < offset) :
    (overwrite values offset l).getD j blank = values.getD j blank := by
  induction l generalizing values offset with
  | nil => rfl
  | cons v rest ih =>
    rw [overwrite, ih _ (Nat.lt_succ_of_lt h), Array.getD_eq_getD_getElem?,
      Array.getElem?_setIfInBounds_ne (Nat.ne_of_gt h), ← Array.getD_eq_getD_getElem?]

/-! ## Messages -/

variable [Wire α β]

/-- Whatever is read, the elements before the offset stay. -/
theorem entry_read_of_lt {offset j : Nat} (rows : Nat) (symbols : Message β) (h : j < offset) (c : Column α) :
    (c.read offset rows symbols).entry j = c.entry j := by
  cases c with
  | words kind values => exact congrArg Entry.word (getD_overwrite_of_lt _ 0 values h)
  | scalars values => exact congrArg Entry.scalar (getD_overwrite_of_lt _ 0 values h)

theorem map_entry_unpack_of_lt {offset j : Nat} (rows : Nat) (h : j < offset) (columns : List (Column α)) (message : Message β) :
    (unpack offset rows columns message).map (entry j) = columns.map (entry j) := by
  induction columns generalizing message with
  | nil => rfl
  | cons c rest ih => simp only [unpack, List.map_cons, entry_read_of_lt _ _ h, ih]

omit [Scalar α] in
@[simp] theorem kind?_read (offset rows : Nat) (symbols : Message β) (c : Column α) :
    (c.read offset rows symbols).kind? = c.kind? := by
  cases c <;> rfl

omit [Scalar α] in
theorem size_read (offset rows : Nat) (symbols : Message β) (c : Column α) :
    (c.read offset rows symbols).size = c.size := by
  cases c <;> exact size_overwrite _ _ _

variable [Wire.LawfulWords α β] [Wire.LawfulScalars α β]

theorem length_spell (indices : List Nat) (c : Column α) : (c.spell indices : Message β).length = indices.length * c.width := by
  cases c with
  | words kind values => exact Wire.length_flatMap _ fun _ _ => Wire.LawfulWords.length_spellWord (α := α) _ _
  | scalars values => exact Wire.length_flatMap _ fun _ _ => Wire.LawfulScalars.length_spellScalar _

/-- A message of packed rows has as many symbols as its rows. -/
theorem length_pack (columns : List (Column α)) (ranges : List IndexRange) :
    (pack columns ranges : Message β).length = (ranges.flatMap IndexRange.toList).length * rowWidth columns := by
  induction columns with
  | nil => rfl
  | cons c rest ih =>
    simp only [pack, rowWidth, List.flatMap_cons, List.length_append, List.map_cons, List.sum_cons] at ih ⊢
    rw [length_spell, ih, Nat.mul_add]

/-- Elements that were spelled are read back at the positions from the offset on. -/
theorem entry_read_spell {indices : List Nat} {offset : Nat} (hkind : c.kind? = c'.kind?)
    (hroom : offset + indices.length ≤ c.size) (hfits : ∀ i ∈ indices, (c'.entry i).Fits c'.kind?) (j : Nat) :
    (c.read offset indices.length (c'.spell indices : Message β)).entry j =
      if offset ≤ j ∧ j < offset + indices.length then c'.entry (indices.getD (j - offset) 0) else c.entry j := by
  cases c with
  | words kind values =>
    cases c' with
    | scalars => cases hkind
    | words kind' values' =>
      cases hkind
      have hread : (Wire.chunks kind.width indices.length ((words kind values' : Column α).spell indices : Message β)).map
          (Wire.readWord α) = indices.map fun i => values'.getD i 0 := by
        rw [spell, Wire.map_chunks_flatMap _ _ fun _ _ => Wire.LawfulWords.length_spellWord (α := α) _ _]
        exact List.map_congr_left fun i hi => Wire.LawfulWords.readWord_spellWord (α := α) _ _ (hfits i hi)
      simp only [read, entry, hread]
      rw [getD_overwrite _ _ (by rw [List.length_map]; exact hroom), List.length_map]
      split
      · simp [List.getD_eq_getElem?_getD, show j - offset < indices.length by omega]
      · rfl
  | scalars values =>
    cases c' with
    | words => cases hkind
    | scalars values' =>
      have hread : (Wire.chunks Wire.scalarWidth indices.length ((scalars values').spell indices : Message β)).map
          Wire.readScalar = indices.map fun i => values'.getD i 0 := by
        rw [spell, Wire.map_chunks_flatMap _ _ fun _ _ => Wire.LawfulScalars.length_spellScalar _]
        exact List.map_congr_left fun i _ => Wire.LawfulScalars.readScalar_spellScalar _
      simp only [read, entry, hread]
      rw [getD_overwrite _ _ (by rw [List.length_map]; exact hroom), List.length_map]
      split
      · simp [List.getD_eq_getElem?_getD, show j - offset < indices.length by omega]
      · rfl

omit [Scalar α] [Wire.LawfulWords α β] [Wire.LawfulScalars α β] in
theorem kinds_unpack (offset rows : Nat) (columns : List (Column α)) (message : Message β) :
    (unpack offset rows columns message).map kind? = columns.map kind? := by
  induction columns generalizing message with
  | nil => rfl
  | cons c rest ih => simp only [unpack, List.map_cons, kind?_read, ih]

omit [Scalar α] [Wire.LawfulWords α β] [Wire.LawfulScalars α β] in
theorem sizes_unpack (offset rows : Nat) (columns : List (Column α)) (message : Message β) :
    (unpack offset rows columns message).map size = columns.map size := by
  induction columns generalizing message with
  | nil => rfl
  | cons c rest ih => simp only [unpack, List.map_cons, size_read, ih]

/-- Rows that were packed are read back at the positions from the offset on, and the other rows stay. -/
theorem unpack_pack {columns columns' : List (Column α)} {ranges : List IndexRange} {indices : List Nat} {offset : Nat}
    (hindices : ranges.flatMap IndexRange.toList = indices) (hkinds : columns.map kind? = columns'.map kind?)
    (hroom : ∀ c ∈ columns, offset + indices.length ≤ c.size)
    (hfits : ∀ c ∈ columns', ∀ i ∈ indices, (c.entry i).Fits c.kind?) (j : Nat) :
    (unpack offset indices.length columns (pack columns' ranges : Message β)).map (entry j) =
      if offset ≤ j ∧ j < offset + indices.length then columns'.map (entry (indices.getD (j - offset) 0))
      else columns.map (entry j) := by
  subst hindices
  induction columns generalizing columns' with
  | nil =>
    cases columns' with
    | nil => simp [unpack]
    | cons c' rest' => cases hkinds
  | cons c rest ih =>
    cases columns' with
    | nil => cases hkinds
    | cons c' rest' =>
      obtain ⟨hkind, hkinds⟩ := List.cons.inj hkinds
      have hlength := length_spell (β := β) (ranges.flatMap IndexRange.toList) c'
      rw [← width_eq hkind] at hlength
      have hpack : (pack (c' :: rest') ranges : Message β) =
          c'.spell (ranges.flatMap IndexRange.toList) ++ pack rest' ranges := by
        rw [pack, List.flatMap_cons, pack]
      have hrest := ih hkinds (fun c hc => hroom c (List.mem_cons_of_mem _ hc))
        fun c hc => hfits c (List.mem_cons_of_mem _ hc)
      have hfirst := entry_read_spell (β := β) hkind (hroom c List.mem_cons_self) (hfits c' List.mem_cons_self) j
      rw [hpack, unpack, List.take_left' hlength, List.drop_left' hlength, List.map_cons, hfirst, hrest]
      split <;> rfl

end Entries

end Column

end CurvePartition
