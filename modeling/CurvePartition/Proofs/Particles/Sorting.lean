-- SUMMARY: Sorting by key in place: lengths are compared before anything is moved, all columns move by the one order that sorts the keys stably, and sorting again moves nothing.
import Mathlib.Data.List.Forall2
import CurvePartition.Proofs.Particles.Rows

/-!
# Sorting in place

Keys have one order in which they ascend and equal ones stay as they were (`KeySort.Sorts.unique`). So a backend that sorts
stably has no choice, and the two of them come to the same.

`KeySort.inPlace` sorts keys and columns where they are: what it did before a failure would stay done. As it compares all lengths
first, it leaves everything alone when it fails, and else what `KeySort.byKeys` gives (`KeySort.exec_inPlace`).
-/

namespace CurvePartition

namespace KeySort

variable {α : Type} [Scalar α] {keys order order' : Array Nat} {columns : List (Column α)}

/-! ## The stable order -/

/-- Whether an order of the positions of keys lets the keys ascend and keeps equal ones in their order. -/
structure Sorts (keys order : Array Nat) : Prop where
  perm : order.toList.Perm (List.range keys.size)
  stable : order.toList.Pairwise fun i j => keys.getD i 0 < keys.getD j 0 ∨ keys.getD i 0 = keys.getD j 0 ∧ i < j

theorem sorts_order (keys : Array Nat) : Sorts keys (KeySort.order keys) :=
  ⟨List.mergeSort_perm _ _, ParticleSet.pairwise_order keys⟩

/-- No two positions can stand in either order. -/
theorem Sorts.unique (h : Sorts keys order) (h' : Sorts keys order') : order' = order := by
  refine Array.toList_inj.1 (Sorted.eq_of_mem_iff (fun i j hij hji => ?_) h'.stable h.stable fun i => ?_)
  · omega
  · rw [h'.perm.mem_iff, h.perm.mem_iff]

theorem Sorts.size_eq (h : Sorts keys order) : order.size = keys.size := by
  rw [← Array.length_toList, h.perm.length_eq, List.length_range]

/-- Keys that ascend are in order as they are. -/
theorem sorts_range (h : Sorted.Ascending keys) : Sorts keys (Array.range keys.size) := by
  refine ⟨by rw [Array.toList_range], ?_⟩
  rw [Array.toList_range]
  refine List.pairwise_lt_range.imp_of_mem fun {i j} _ hj hij => ?_
  have hle := h.getD_le (Nat.le_of_lt hij) (List.mem_range.1 hj)
  exact (Nat.lt_or_eq_of_le hle).imp_right fun heq => ⟨heq, hij⟩

/-- Keys that were moved into their order ascend. -/
theorem Sorts.ascending (h : Sorts keys order) (backend : Backend) : Sorted.Ascending (backend.gather 0 keys order) := by
  refine List.pairwise_iff_getElem.2 fun i j hi hj hij => ?_
  have hi : i < order.size := by simpa [Backend.size_gather] using hi
  have hj : j < order.size := by simpa [Backend.size_gather] using hj
  have hpair := List.pairwise_iff_getElem.1 h.stable i j (by simpa) (by simpa) hij
  have hle : keys.getD (order.getD i 0) 0 ≤ keys.getD (order.getD j 0) 0 := by
    simp only [Array.getElem_toList] at hpair
    simp only [Array.getD, hi, hj, dite_true]
    exact hpair.elim Nat.le_of_lt fun heq => Nat.le_of_eq heq.1
  rw [← backend.getD_gather hi, ← backend.getD_gather hj] at hle
  simpa [Array.getD, Backend.size_gather, hi, hj] using hle

/-- Comparing neighbours is enough. -/
theorem isSorted_iff : isSorted keys = true ↔ Sorted.Ascending keys := by
  constructor
  · intro h
    have hstep : ∀ i, i + 1 < keys.size → keys.getD i 0 ≤ keys.getD (i + 1) 0 := fun i hi => by
      simpa using List.all_eq_true.1 h i (List.mem_range.2 (Nat.lt_sub_of_add_lt hi))
    refine List.pairwise_iff_getElem.2 fun i j hi hj hij => ?_
    have hle : ∀ k, i + k < keys.size → keys.getD i 0 ≤ keys.getD (i + k) 0 := by
      intro k
      induction k with
      | zero => exact fun _ => Nat.le_refl _
      | succ k ih => exact fun hk => Nat.le_trans (ih (Nat.lt_of_succ_lt hk)) (hstep (i + k) hk)
    have hi : i < keys.size := by simpa using hi
    have hj : j < keys.size := by simpa using hj
    have := hle (j - i) (by omega)
    rw [Nat.add_sub_cancel' (Nat.le_of_lt hij)] at this
    simpa [Array.getD, hi, hj] using this
  · intro h
    refine List.all_eq_true.2 fun i hi => decide_eq_true ?_
    have hi := List.mem_range.1 hi
    exact h.getD_le (Nat.le_succ i) (by omega)

/-- A column with the elements of another one in some order. -/
structure Moved (order : Array Nat) (old new : Column α) : Prop where
  kind_eq : new.kind? = old.kind?
  size_eq : new.size = order.size
  entry_eq : ∀ i < order.size, new.entry i = old.entry (order.getD i 0)

theorem moved_reorder (backend : Backend) (order : Array Nat) (c : Column α) : Moved order c (c.reorder backend order) :=
  ⟨Column.kind?_reorder backend order c, Column.size_reorder backend order c, fun _ hi => Column.entry_reorder backend hi c⟩

/-- Nothing moves if all positions stay. -/
theorem reorder_range {c : Column α} {n : Nat} (h : c.size = n) (backend : Backend) : c.reorder backend (Array.range n) = c := by
  have hmoved := moved_reorder backend (Array.range n) c
  have hsize : (c.reorder backend (Array.range n)).size = n := hmoved.size_eq.trans Array.size_range
  refine Column.ext_entry hmoved.kind_eq (hsize.trans h.symm) fun i hi => ?_
  have hi : i < n := hsize ▸ hi
  rw [hmoved.entry_eq i (by simpa), Array.getD_eq_getD_getElem?, Array.getElem?_range]
  simp [hi]

theorem gather_range (backend : Backend) (keys : Array Nat) : backend.gather 0 keys (Array.range keys.size) = keys :=
  (Column.words.inj (reorder_range (c := (.words .unsigned64 keys : Column Float)) rfl backend)).2

/-! ## Misfits -/

omit [Scalar α] in
theorem misfit_eq_none_iff {size : Nat} : misfit size columns = none ↔ ∀ c ∈ columns, c.size = size := by
  rw [misfit, Option.map_eq_none_iff, List.find?_eq_none]
  constructor
  · intro h c hc
    obtain ⟨i, hi, rfl⟩ := List.getElem_of_mem hc
    simpa using h (columns[i], i) (List.mem_zipIdx_iff_getElem?.2 (by simp [hi]))
  · rintro h ⟨c, i⟩ hc
    simpa using h c (List.fst_mem_of_mem_zipIdx hc)

omit [Scalar α] in
theorem misfit_eq_some {size found i : Nat} (h : misfit size columns = some (i, found)) :
    ∃ c, columns[i]? = some c ∧ c.size = found ∧ c.size ≠ size ∧ ∀ c' ∈ columns.take i, c'.size = size := by
  obtain ⟨⟨c, j⟩, hfind, heq⟩ := Option.map_eq_some_iff.1 h
  obtain ⟨rfl, rfl⟩ := Prod.mk.inj heq
  obtain ⟨hsize, k, hk, hget, hbefore⟩ := List.find?_eq_some_iff_getElem.1 hfind
  rw [List.getElem_zipIdx, Prod.mk.injEq, Nat.zero_add] at hget
  obtain ⟨rfl, rfl⟩ := hget
  rw [List.length_zipIdx] at hk
  refine ⟨columns[k], List.getElem?_eq_getElem hk, rfl, by simpa using hsize, fun c' hc' => ?_⟩
  obtain ⟨j, hj, rfl⟩ := List.getElem_of_mem hc'
  have hj : j < k := by
    rw [List.length_take] at hj
    omega
  simpa using hbefore j hj

/-! ## Sorting in place -/

/-- A part of a sort: it may fail, and what it did to the keys and the columns beside them stays done. -/
abbrev Rearranging (α : Type) := ExceptT (Error α) (StateM (Array Nat × List (Column α)))

/-- What a part of a sort comes to, and the keys and columns it leaves. -/
def exec {τ : Type} (x : Rearranging α τ) (table : Array Nat × List (Column α)) :
    Except (Error α) τ × (Array Nat × List (Column α)) := x.run.run table

omit [Scalar α] in
theorem exec_bind {σ τ : Type} (x : Rearranging α σ) (f : σ → Rearranging α τ) (table : Array Nat × List (Column α)) :
    exec (x >>= f) table = match exec x table with
      | (.ok a, table') => exec (f a) table'
      | (.error e, table') => (.error e, table') := by
  have hrun : exec (x >>= f) table = (ExceptT.bindCont f (exec x table).1).run (exec x table).2 := rfl
  rw [hrun]
  obtain ⟨result, table'⟩ := exec x table
  cases result <;> rfl

/-- Compare the lengths of some columns with that of the keys. -/
def compareLengths (size : Nat) (columns : List (Column α × Nat)) : Rearranging α Unit :=
  columns.forM fun (c, i) => if c.size ≠ size then throw (.lengthMismatch s!"array {i}" size c.size) else pure ()

/-- Move one column. -/
def moveColumn (backend : Backend) (order : Array Nat) (i : Nat) : Rearranging α Unit :=
  modify fun (keys, columns) => (keys, columns.modify i (Column.reorder backend order))

/-- Sort keys and columns where they are, with a way of each backend to find the order of keys. -/
def inPlace (sorter : Backend → Array Nat → Array Nat) (backend : Backend) : Rearranging α (Array Nat) := do
  let (keys, columns) ← get
  compareLengths keys.size columns.zipIdx
  let order := sorter backend keys
  set (backend.gather 0 keys order, columns)
  (List.range columns.length).forM (moveColumn backend order)
  return order

omit [Scalar α] in
/-- Comparing finds the first misfit and changes nothing. -/
theorem exec_compareLengths (size : Nat) (columns : List (Column α × Nat)) (table : Array Nat × List (Column α)) :
    exec (compareLengths size columns) table =
      (match columns.find? fun (c, _) => c.size ≠ size with
        | some (c, i) => .error (.lengthMismatch s!"array {i}" size c.size)
        | none => .ok (), table) := by
  induction columns with
  | nil => rfl
  | cons head rest ih =>
    obtain ⟨c, i⟩ := head
    by_cases hsize : c.size = size
    · rw [List.find?_cons_of_neg (by simp [hsize]), ← ih]
      show exec ((if c.size ≠ size then _ else pure ()) >>= fun _ => compareLengths size rest) table = _
      rw [if_neg (not_not_intro hsize)]
      rfl
    · rw [List.find?_cons_of_pos (by simp [hsize])]
      show exec ((if c.size ≠ size then _ else pure ()) >>= fun _ => compareLengths size rest) table = _
      rw [if_pos hsize]
      rfl

/-- Columns are moved one after the other. -/
theorem exec_moveColumns (backend : Backend) (order keys : Array Nat) (moved columns : List (Column α)) :
    exec ((List.range' moved.length columns.length).forM (moveColumn backend order)) (keys, moved ++ columns) =
      (.ok (), (keys, moved ++ columns.map (Column.reorder backend order))) := by
  induction columns generalizing moved with
  | nil => rfl
  | cons c rest ih =>
    have hmove : (moved ++ c :: rest).modify moved.length (Column.reorder backend order) =
        (moved ++ [c.reorder backend order]) ++ rest := by
      rw [List.modify_eq_take_cons_drop (by simp)]
      simp
    have hrest := ih (moved ++ [c.reorder backend order])
    rw [List.length_append, List.length_singleton, List.append_assoc _ _ (rest.map _), List.singleton_append] at hrest
    rw [List.length_cons, List.range'_succ, List.map_cons, ← hrest, ← hmove]
    rfl

/-- What sorting leaves of keys and columns: nothing has moved if it failed. -/
def outcome (keys : Array Nat) (columns : List (Column α)) :
    Except (Error α) (Array Nat × List (Column α) × Array Nat) → Except (Error α) (Array Nat) × (Array Nat × List (Column α))
  | .ok (keys', columns', order) => (.ok order, (keys', columns'))
  | .error e => (.error e, (keys, columns))

/-- Whatever stable way to find the order a backend has, sorting in place comes to what `byKeys` computes. -/
theorem exec_inPlace {sorter : Backend → Array Nat → Array Nat} (hsorter : ∀ backend keys, Sorts keys (sorter backend keys))
    (backend : Backend) (keys : Array Nat) (columns : List (Column α)) :
    exec (inPlace sorter backend) (keys, columns) = outcome keys columns (byKeys backend keys columns) := by
  have hcompare := exec_compareLengths keys.size columns.zipIdx (keys, columns)
  have horder : sorter backend keys = KeySort.order keys := (sorts_order keys).unique (hsorter backend keys)
  have hmove := exec_moveColumns backend (sorter backend keys) (backend.gather 0 keys (sorter backend keys)) [] columns
  rw [List.length_nil, ← List.range_eq_range', List.nil_append, List.nil_append] at hmove
  have hset : ∀ table table' : Array Nat × List (Column α), exec (set table') table = (.ok ⟨⟩, table') := fun _ _ => rfl
  have hget : ∀ table : Array Nat × List (Column α), exec get table = (.ok table, table) := fun _ => rfl
  rw [inPlace, exec_bind, hget]
  dsimp only
  rw [exec_bind, hcompare, byKeys, misfit]
  cases columns.zipIdx.find? fun (c, _) => c.size ≠ keys.size with
  | some head => rfl
  | none =>
    dsimp only
    rw [exec_bind, hset]
    dsimp only
    rw [exec_bind, hmove, horder]
    rfl

/-! ## What sorting comes to -/

/-- Whether a failure names the first column that has another length than the keys. -/
def NamesMisfit (keys : Array Nat) (columns : List (Column α)) (e : Error α) : Prop :=
  ∃ i c, columns[i]? = some c ∧ c.size ≠ keys.size ∧ (∀ c' ∈ columns.take i, c'.size = keys.size) ∧
    e = .lengthMismatch s!"array {i}" keys.size c.size

/-- Keys and columns that were moved by the order of the keys. -/
structure Arranged (keys : Array Nat) (columns : List (Column α)) (order keys' : Array Nat) (columns' : List (Column α)) : Prop where
  sorts : Sorts keys order
  /-- No other order does that. -/
  unique : ∀ order', Sorts keys order' → order' = order
  isSorted_keys : isSorted keys' = true
  keys_moved : keys'.size = order.size ∧ ∀ i < order.size, keys'.getD i 0 = keys.getD (order.getD i 0) 0
  columns_moved : List.Forall₂ (Moved order) columns columns'

/-- Keys and columns of one length are moved by the order of the keys. -/
theorem arranged_byKeys (backend : Backend) (keys : Array Nat) (columns : List (Column α)) :
    Arranged keys columns (KeySort.order keys) (backend.gather 0 keys (KeySort.order keys))
      (columns.map (Column.reorder backend (KeySort.order keys))) := by
  have hsorts := sorts_order keys
  refine ⟨hsorts, fun _ => hsorts.unique, isSorted_iff.2 (hsorts.ascending backend),
    ⟨backend.size_gather 0 keys _, fun i hi => backend.getD_gather hi 0 keys⟩, ?_⟩
  exact List.forall₂_map_right_iff.2 (List.forall₂_same.2 fun c _ => moved_reorder backend _ c)

/-- Keys and columns that were sorted stay where they are. -/
theorem byKeys_of_arranged {keys' : Array Nat} {columns' : List (Column α)} (h : Arranged keys columns order keys' columns')
    (backend : Backend) : byKeys backend keys' columns' = .ok (keys', columns', Array.range keys.size) := by
  have hsize : keys'.size = keys.size := h.keys_moved.1.trans h.sorts.size_eq
  have hfit : ∀ c ∈ columns', c.size = keys'.size := fun c hc => by
    obtain ⟨i, hi, rfl⟩ := List.getElem_of_mem hc
    have hmoved := h.columns_moved.get (h.columns_moved.length_eq ▸ hi) hi
    exact hmoved.size_eq.trans h.keys_moved.1.symm
  have horder : KeySort.order keys' = Array.range keys'.size :=
    (sorts_range (isSorted_iff.1 h.isSorted_keys)).unique (sorts_order keys')
  have hcolumns : columns'.map (Column.reorder backend (Array.range keys'.size)) = columns' :=
    (List.map_congr_left fun c hc => reorder_range (hfit c hc) backend).trans (List.map_id columns')
  rw [byKeys, misfit_eq_none_iff.2 hfit, ← hsize]
  simp only [horder, gather_range, hcolumns]

/-- Gathering is the same on one thread and on many. -/
theorem byKeys_backend (backend backend' : Backend) (keys : Array Nat) (columns : List (Column α)) :
    byKeys backend' keys columns = byKeys backend keys columns := rfl

/-- Sorting fails at the first column of another length, or moves keys and columns by the order of the keys. -/
theorem byKeys_cases (backend : Backend) (keys : Array Nat) (columns : List (Column α)) :
    (∃ e, byKeys backend keys columns = .error e ∧ NamesMisfit keys columns e) ∨
      (∀ c ∈ columns, c.size = keys.size) ∧ byKeys backend keys columns = .ok (backend.gather 0 keys (KeySort.order keys),
        columns.map (Column.reorder backend (KeySort.order keys)), KeySort.order keys) := by
  cases hmisfit : misfit keys.size columns with
  | some head =>
    obtain ⟨i, found⟩ := head
    obtain ⟨c, hget, rfl, hsize, hbefore⟩ := misfit_eq_some hmisfit
    refine .inl ⟨_, ?_, i, c, hget, hsize, hbefore, rfl⟩
    rw [byKeys, hmisfit]
  | none =>
    refine .inr ⟨misfit_eq_none_iff.1 hmisfit, ?_⟩
    rw [byKeys, hmisfit]

/-- Both backends sort keys and columns by the one stable order, or find the first column that does not fit. -/
theorem inPlace_sorts {sorter : Backend → Array Nat → Array Nat} (hsorter : ∀ backend keys, Sorts keys (sorter backend keys))
    (backend : Backend) (keys : Array Nat) (columns : List (Column α)) :
    let r := exec (inPlace sorter backend) (keys, columns)
    r = outcome keys columns (byKeys backend keys columns) ∧
      ((∃ e, r.1 = .error e) ↔ ∃ c ∈ columns, c.size ≠ keys.size) ∧
      (∀ e, r.1 = .error e → NamesMisfit keys columns e ∧ r.2 = (keys, columns)) ∧
      (∀ order, r.1 = .ok order → Arranged keys columns order r.2.1 r.2.2 ∧
        ∀ backend', exec (inPlace sorter backend') r.2 = (.ok (Array.range keys.size), r.2)) ∧
      ∀ backend', exec (inPlace sorter backend') (keys, columns) = r := by
  intro r
  have hr : r = outcome keys columns (byKeys backend keys columns) := exec_inPlace hsorter backend keys columns
  have hbackend : ∀ backend', exec (inPlace sorter backend') (keys, columns) = r := fun backend' => by
    rw [hr, ← byKeys_backend backend backend', exec_inPlace hsorter backend']
  refine ⟨hr, ?_⟩
  rcases byKeys_cases backend keys columns with ⟨e, herror, hnames⟩ | ⟨hfit, hok⟩
  · have hmisfit : ∃ c ∈ columns, c.size ≠ keys.size := by
      obtain ⟨i, c, hget, hsize, _⟩ := hnames
      exact ⟨c, List.mem_of_getElem? hget, hsize⟩
    rw [herror] at hr
    rw [hr]
    refine ⟨⟨fun _ => hmisfit, fun _ => ⟨e, rfl⟩⟩, fun e' he => ?_, fun order horder => ?_, hr ▸ hbackend⟩
    · cases he
      exact ⟨hnames, rfl⟩
    · cases horder
  · rw [hok] at hr
    rw [hr]
    refine ⟨?_, fun e he => ?_, fun order horder => ?_, hr ▸ hbackend⟩
    · constructor
      · rintro ⟨e, he⟩
        cases he
      · rintro ⟨c, hc, hsize⟩
        exact absurd (hfit c hc) hsize
    · cases he
    · cases horder
      have harranged := arranged_byKeys backend keys columns
      refine ⟨harranged, fun backend' => ?_⟩
      rw [exec_inPlace hsorter backend']
      exact congrArg (outcome _ _) (byKeys_of_arranged harranged backend')

theorem inPlace_sorts_repeated :
    (∀ backend keys, Sorts keys ((fun _ => KeySort.order : Backend → Array Nat → Array Nat) backend keys)) ∧
      (exec (inPlace (fun _ => KeySort.order) .threadPool)
        (#[3, 1, 2, 1], [.words .unsigned32 #[30, 10, 20, 11], (.scalars #[3, 1, 2, 0.5] : Column Float)])).1 = .ok #[1, 3, 2, 0] ∧
      exec (inPlace (fun _ => KeySort.order) .host)
        (#[3, 1], [.words .unsigned32 #[30, 10], (.scalars #[3] : Column Float), .scalars #[]]) =
          (.error (.lengthMismatch s!"array {1}" 2 1), (#[3, 1], [.words .unsigned32 #[30, 10], .scalars #[3], .scalars #[]])) := by
  have hsorter : ∀ backend keys, Sorts keys ((fun _ => KeySort.order : Backend → Array Nat → Array Nat) backend keys) :=
    fun _ => sorts_order
  refine ⟨hsorter, ?_, ?_⟩
  · obtain ⟨hr, -, -, hok, -⟩ := inPlace_sorts hsorter .threadPool #[3, 1, 2, 1]
      [.words .unsigned32 #[30, 10, 20, 11], (.scalars #[3, 1, 2, 0.5] : Column Float)]
    have horder := congrArg Prod.fst hr
    have hsorts : Sorts #[3, 1, 2, 1] #[1, 3, 2, 0] := ⟨by decide, by decide⟩
    exact horder.trans (congrArg Except.ok ((hok _ horder).1.unique _ hsorts).symm)
  · exact (inPlace_sorts hsorter .host #[3, 1] [.words .unsigned32 #[30, 10], (.scalars #[3] : Column Float), .scalars #[]]).1

end KeySort

end CurvePartition
