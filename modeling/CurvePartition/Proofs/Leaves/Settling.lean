-- SUMMARY: Rounds that adapt a tree to a shape settle: they keep the tree valid, come nearer to the shape with each round, and stop at it.
import CurvePartition.Proofs.Leaves.Adapting

/-!
# Settling

A round can split too far, so that later rounds have to merge again while other leaves still wait to be split. Two
heights bound what is left to do (`Leaves.SettlesIn`): how far the tree reaches below a cell that it should not split, and
how far a leaf that should be split lies above the deepest level. A round lowers both by one: whatever it splits too far
lies below a leaf in the shape, whose height covers that excess.
-/

namespace CurvePartition

namespace Leaves

open Key Node

variable {depth : Nat} {t : Leaves depth} {wanted : Node → Prop} {changes : List LeafChange}

/-! ## The inner nodes after a round -/

section Round

variable (ht : t.isValid = true) (h : t.Adapts wanted changes)
include ht h

/-- A leaf goes only if it starts strictly inside a cell outside of the shape whose children are all leaves. -/
theorem exists_parent_of_drop {j : Nat} (hc : changes[j]? = some .drop) : ∃ q : Node, q.IsCell depth ∧ q.level < depth ∧
    Divides depth (t.start j) q ∧ ¬ wanted q ∧ ∃ first, t.HoldsChildren first q := by
  have hj := h.lt_count hc
  obtain ⟨slot, hslot, hne, hnot⟩ := h.drop hc
  obtain ⟨_, _, hslot8, hall, hchild⟩ := (siblingSlot_eq_some_iff ht hj).1 hslot
  have hlt : ((t.node j).parent depth).level < depth := by
    have hle := (isCell_node ht hj).level_le
    rw [congrArg Node.level hchild, level_child] at hle
    exact hle
  refine ⟨_, (isCell_node ht hj).parent, hlt, ?_, hnot, _, hall⟩
  have hfirst : t.start j = (((t.node j).parent depth).child depth slot).first := congrArg Node.first hchild
  rw [hfirst]
  exact divides_child_first hlt (Nat.pos_of_ne_zero hne) hslot8

/-- The octants of an inner node stay boundaries if the node is in the shape or has an inner child. -/
theorem isBoundary_apply_of_splits {n : Node} (hn : n.IsCell depth) (hs : t.Splits n)
    (hstay : wanted n ∨ ∃ k < 8, t.Splits (n.child depth k)) {octant : Nat} (ho : octant < 8) :
    (t.apply changes).IsBoundary (n.child depth octant).first := by
  have hlt := hs.level_lt hn
  obtain ⟨j, hj, hstart⟩ := closed_of_isValid ht n hn hs octant ho
  have hjlt : j < t.count := by
    refine Nat.lt_of_le_of_ne hj fun heq => ?_
    have := (hn.child hlt ho).first_lt
    rw [← hstart, heq, (ascends_of_isValid ht).start_count] at this
    exact Nat.lt_irrefl _ this
  obtain ⟨c, hc⟩ : ∃ c, changes[j]? = some c :=
    ⟨_, List.getElem?_eq_getElem (by rw [h.length_eq]; exact hjlt)⟩
  cases c with
  | split levels =>
    refine (isBoundary_apply_iff ht h).2 (.inr ⟨j, levels, hc, Nat.le_of_eq hstart, ?_, ?_⟩)
    · rw [← hstart]
      exact (ascends_of_isValid ht).lt_succ j hjlt
    · rw [← hstart]
      exact Nat.dvd_trans (extent_dvd (Nat.le_add_right _ _)) (isCell_node ht hjlt).aligned
  -- If the leaf goes, its parent holds `n` and no inner node below itself, so it is `n`.
  | drop =>
    exfalso
    obtain ⟨q, hq, hqlt, hdiv, hnot, first, hall⟩ := exists_parent_of_drop ht h hc
    rw [hstart] at hdiv
    have hin : n.Inside depth q := inside_of_divides_child_first hq hn hlt ho hdiv
    rcases Nat.eq_or_lt_of_le hin.1 with heq | hgt
    · obtain rfl : n = q := hin.eq_of_level hn hq heq.symm
      rcases hstay with hw | ⟨k, hk, hks⟩
      · exact hnot hw
      · exact hall.not_splits_child ht hk hks
    · exact hall.not_splits ht hq hqlt hn hin hgt hs

/-- A leaf that is split becomes a uniform subtree. -/
theorem isBoundary_apply_of_inside {i levels : Nat} (hc : changes[i]? = some (.split levels)) {n : Node}
    (hn : n.IsCell depth) (hin : n.Inside depth (t.node i)) (hlevel : n.level < t.level i + levels) {octant : Nat}
    (ho : octant < 8) : (t.apply changes).IsBoundary (n.child depth octant).first := by
  have hi := h.lt_count hc
  have hle := h.level_add_le ht hc
  have hlt : n.level < depth := Nat.lt_of_lt_of_le hlevel hle
  have hchild := hn.child hlt ho
  have hcin := (child_inside hlt ho).trans hin hn (isCell_node ht hi)
  refine (isBoundary_apply_iff ht h).2 (.inr ⟨i, levels, hc, hcin.2.1, ?_, ?_⟩)
  · rw [← stop_node ht hi]
    exact hcin.2.2
  · exact Nat.dvd_trans (extent_dvd (Nat.succ_le_of_lt hlevel)) hchild.aligned

/-- The leaves inside a lowest inner node outside of the shape are its children, and they are merged. -/
theorem exists_merge {n : Node} (hn : n.IsCell depth) (hs : t.Splits n) (hnot : ¬ wanted n)
    (hlowest : ∀ k < 8, ¬ t.Splits (n.child depth k)) {i : Nat} (hi : i < t.count) (hin : (t.node i).Inside depth n)
    (hlevel : n.level < t.level i) :
    ∃ octant < 8, t.node i = n.child depth octant ∧ changes[i]? = some (if octant = 0 then .keep else .drop) := by
  have hlt := hs.level_lt hn
  have hm := isCell_node ht hi
  obtain ⟨octant, ho, hin'⟩ := hin.exists_child hm hn hlevel
  have hleaf : t.node i = n.child depth octant := by
    refine hin'.eq_of_level hm (hn.child hlt ho) (Nat.le_antisymm ?_ hin'.1)
    refine Nat.not_lt.1 fun hgt => hlowest octant ho ?_
    exact (splits_iff_exists_leaf ht (hn.child hlt ho)).2 ⟨i, hi, hgt, hin'⟩
  obtain ⟨first, hall⟩ := exists_holdsChildren ht hn hs hlowest
  have hidx : first + octant = i := by
    refine (ascends_of_isValid ht).start_inj (Nat.le_of_lt (hall octant ho).1) (Nat.le_of_lt hi) ?_
    exact congrArg Node.first ((hall octant ho).2.trans hleaf.symm)
  obtain ⟨hslot, hparent⟩ := hall.siblingSlot_eq ht hn hlt ho
  rw [hidx] at hslot hparent
  exact ⟨octant, ho, hleaf, h.merge i hi octant hslot (by rw [hparent]; exact hnot)⟩

/-- What is split after a round was split before or lies below a leaf that the round split. -/
theorem splits_or_of_splits_apply {n : Node} (hn : n.IsCell depth) (hs : (t.apply changes).Splits n) :
    (t.Splits n ∧ (wanted n ∨ ∃ k < 8, t.Splits (n.child depth k))) ∨
      ∃ i levels, changes[i]? = some (.split levels) ∧ n.Inside depth (t.node i) ∧
        n.level < t.level i + levels := by
  obtain ⟨j, hj, hfirst, hstop⟩ := hs
  have hb : (t.apply changes).IsBoundary ((t.apply changes).start j) := ⟨j, hj, rfl⟩
  generalize (t.apply changes).start j = k at hfirst hstop hb
  rcases (isBoundary_apply_iff ht h).1 hb with rfl | ⟨i, levels, hc, hle, hlt, hdvd⟩
  · exact absurd (Nat.lt_of_lt_of_le hstop hn.stop_le) (Nat.lt_irrefl _)
  have hi := h.lt_count hc
  have hm := isCell_node ht hi
  have hkm : (t.node i).first ≤ k ∧ k < (t.node i).stop depth := ⟨hle, by rwa [stop_node ht hi]⟩
  have hkn : n.first ≤ k ∧ k < n.stop depth := ⟨Nat.le_of_lt hfirst, hstop⟩
  rcases Nat.lt_or_ge n.level (t.level i) with hl | hl
  · have hin : (t.node i).Inside depth n := inside_of_mem hm hn (Nat.le_of_lt hl) hkm hkn
    have hsplit : t.Splits n := (splits_iff_exists_leaf ht hn).2 ⟨i, hi, hl, hin⟩
    refine .inl ⟨hsplit, ?_⟩
    by_contra hgone
    simp only [not_or, not_exists, not_and] at hgone
    -- The leaves below `n` are merged, so the first key of `n` is the only boundary left in it.
    obtain ⟨octant, _, hleaf, hmerge⟩ := exists_merge ht h hn hsplit hgone.1 hgone.2 hi hin hl
    rw [hc] at hmerge
    split at hmerge
    case isFalse => cases hmerge
    case isTrue hzero =>
      cases hmerge
      subst hzero
      have hstart : t.start i = n.first := (congrArg Node.first hleaf).trans (child_zero_first n)
      have hkd : Divides depth k (t.node i) := ⟨by rwa [← hstart] at hfirst, hkm.2⟩
      exact hkd.not_dvd hm hdvd
  · refine .inr ⟨i, levels, hc, inside_of_mem hn hm hl hkn hkm, Nat.not_le.1 fun hge => ?_⟩
    exact Divides.not_dvd ⟨hfirst, hstop⟩ hn (Nat.dvd_trans (extent_dvd hge) hdvd)

/-- The inner nodes after a round. -/
theorem splits_apply_iff {n : Node} (hn : n.IsCell depth) : (t.apply changes).Splits n ↔
    (t.Splits n ∧ (wanted n ∨ ∃ k < 8, t.Splits (n.child depth k))) ∨
      ∃ i levels, changes[i]? = some (.split levels) ∧ n.Inside depth (t.node i) ∧
        n.level < t.level i + levels := by
  refine ⟨splits_or_of_splits_apply ht h hn, ?_⟩
  have ofBoundary : n.level < depth → (t.apply changes).IsBoundary (n.child depth 1).first →
      (t.apply changes).Splits n := by
    rintro hlt ⟨j, hj, hstart⟩
    exact ⟨j, hj, hstart ▸ divides_child_first hlt Nat.one_pos (by omega)⟩
  rintro (⟨hs, hstay⟩ | ⟨i, levels, hc, hin, hlevel⟩)
  · exact ofBoundary (hs.level_lt hn) (isBoundary_apply_of_splits ht h hn hs hstay (by omega))
  · have hle := h.level_add_le ht hc
    exact ofBoundary (by omega) (isBoundary_apply_of_inside ht h hc hn hin hlevel (by omega))

/-- A round keeps a tree valid. -/
theorem isValid_apply : (t.apply changes).isValid = true := by
  refine isValid_of_closed (ascends_apply ht h) fun n hn hs octant ho => ?_
  rcases splits_or_of_splits_apply ht h hn hs with ⟨hs', hstay⟩ | ⟨i, levels, hc, hin, hlevel⟩
  · exact isBoundary_apply_of_splits ht h hn hs' hstay ho
  · exact isBoundary_apply_of_inside ht h hc hn hin hlevel ho

end Round

/-! ## What is left to do -/

/-- Bound `k` on what is left to do, as two heights. -/
structure SettlesIn (t : Leaves depth) (wanted : Node → Prop) (k : Nat) : Prop where
  /-- The tree reaches at most `k` levels below a cell outside of the shape. -/
  excess : ∀ p n, p.IsCell depth → n.IsCell depth → n.Inside depth p → t.Splits n → ¬ wanted p →
    n.level + 1 ≤ p.level + k
  /-- A leaf in the shape lies at most `k` levels above the deepest one. -/
  lack : ∀ i < t.count, wanted (t.node i) → depth ≤ t.level i + k

/-- From every tree at most `depth` levels are left. -/
theorem settlesIn_depth (t : Leaves depth) (wanted : Node → Prop) : t.SettlesIn wanted depth where
  excess p n _ hn _ hs _ := by
    have := hs.level_lt hn
    omega
  lack i _ _ := Nat.le_add_left _ _

/-- A tree has the shape if it splits no cell outside and has no leaf inside. -/
theorem hasShape_iff (hshape : IsShape depth wanted) (ht : t.isValid = true) : t.HasShape wanted ↔
    (∀ n, n.IsCell depth → t.Splits n → wanted n) ∧ ∀ i < t.count, ¬ wanted (t.node i) := by
  constructor
  · intro h
    exact ⟨fun n hn hs => (h n hn).1 hs, fun i hi hw =>
      not_splits_node ht hi ((h _ (isCell_node ht hi)).2 hw)⟩
  · rintro ⟨hinner, hleaf⟩ n hn
    refine ⟨hinner n hn, fun hw => (splits_or_inside ht hn).resolve_right ?_⟩
    rintro ⟨i, hi, hin⟩
    exact hleaf i hi (hshape.around n _ hn (isCell_node ht hi) hin hw)

theorem SettlesIn.hasShape (hshape : IsShape depth wanted) (ht : t.isValid = true) (h : t.SettlesIn wanted 0) :
    t.HasShape wanted := by
  refine (hasShape_iff hshape ht).2 ⟨fun n hn hs => ?_, fun i hi hw => ?_⟩
  · by_contra hnot
    have := h.excess n n hn hn (Inside.refl n) hs hnot
    omega
  · have hle := h.lack i hi hw
    have hlt := hshape.level_lt _ (isCell_node ht hi) hw
    simp only [node] at hlt
    omega

/-- A round leaves one level less to do. -/
theorem SettlesIn.apply (hshape : IsShape depth wanted) (ht : t.isValid = true) (ha : t.Adapts wanted changes)
    {k : Nat} (h : t.SettlesIn wanted (k + 1)) : (t.apply changes).SettlesIn wanted k where
  excess p n hp hn hnp hs hnot := by
    rcases splits_or_of_splits_apply ht ha hn hs with ⟨hs', hstay⟩ | ⟨i, levels, hc, hin, hlevel⟩
    · have hlt := hs'.level_lt hn
      rcases hstay with hw | ⟨o, ho, hos⟩
      · exact absurd (hshape.around n p hn hp hnp hw) hnot
      · have hon := (child_inside hlt ho).trans hnp hn hp
        have := h.excess p _ hp (hn.child hlt ho) hon hos hnot
        simp only [level_child] at this
        omega
    · have hi := ha.lt_count hc
      have hm := isCell_node ht hi
      have hle := ha.level_add_le ht hc
      have hlevels : 0 < levels := by
        have := hin.1
        simp only [node] at this
        omega
      have hw := ha.wanted_of_pos hc hlevels
      have hlack := h.lack i hi hw
      -- The cell outside of the shape lies strictly below the leaf, whose height covers the split.
      rcases Nat.lt_or_ge (t.level i) p.level with hl | hl
      · omega
      · have hmp : (t.node i).Inside depth p :=
          inside_of_mem hm hp hl ⟨hin.2.1, hin.2.2⟩ ⟨hnp.2.1, hnp.2.2⟩
        exact absurd (hshape.around _ p hm hp hmp hw) hnot
  lack j hj hw := by
    have ht' := isValid_apply ht ha
    have hn := isCell_node ht' hj
    have hnot := not_splits_node ht' hj
    have hlevel : ((t.apply changes).node j).level = (t.apply changes).level j := rfl
    generalize (t.apply changes).node j = n at hw hn hnot hlevel
    rw [← hlevel]
    rcases splits_or_inside ht hn with hs | ⟨i, hi, hin⟩
    · exact absurd ((splits_apply_iff ht ha hn).2 (.inl ⟨hs, .inl hw⟩)) hnot
    · have hwi := hshape.around n _ hn (isCell_node ht hi) hin hw
      obtain ⟨levels, hc, _, hpos⟩ := ha.exists_split hshape ht hi hwi
      have hlack := h.lack i hi hwi
      have hdeep : t.level i + levels ≤ n.level := Nat.not_lt.1 fun hlt =>
        hnot ((splits_apply_iff ht ha hn).2 (.inr ⟨i, levels, hc, hin, hlt⟩))
      omega

/-! ## Where rounds stop -/

/-- Below a cell that is split there is one whose octants are not. -/
theorem exists_lowest_splits {p : Node} (hp : p.IsCell depth) (hs : t.Splits p) :
    ∃ n, n.IsCell depth ∧ n.Inside depth p ∧ t.Splits n ∧ ∀ k < 8, ¬ t.Splits (n.child depth k) := by
  induction hr : depth - p.level generalizing p with
  | zero =>
    have := hs.level_lt hp
    omega
  | succ r ih =>
    have hlt := hs.level_lt hp
    by_cases hany : ∃ k < 8, t.Splits (p.child depth k)
    · obtain ⟨k, hk, hks⟩ := hany
      have hc := hp.child hlt hk
      obtain ⟨n, hn, hin, hns, hlow⟩ := ih hc hks (by simp only [level_child]; omega)
      exact ⟨n, hn, hin.trans (child_inside hlt hk) hc hp, hns, hlow⟩
    · exact ⟨p, hp, Inside.refl p, hs, fun k hk hks => hany ⟨k, hk, hks⟩⟩

theorem isStable_iff : isStable changes = true ↔ ∀ (i : Nat) c, changes[i]? = some c → c = .keep := by
  simp only [isStable, List.all_eq_true, beq_iff_eq, List.mem_iff_getElem?]
  exact ⟨fun h i c hc => h c ⟨i, hc⟩, fun h c ⟨i, hc⟩ => h i c hc⟩

/-- No leaf changes exactly when the tree has the shape. -/
theorem isStable_iff_hasShape (hshape : IsShape depth wanted) (ht : t.isValid = true)
    (ha : t.Adapts wanted changes) : isStable changes = true ↔ t.HasShape wanted := by
  rw [isStable_iff, hasShape_iff hshape ht]
  constructor
  · intro hkeep
    refine ⟨fun p hp hs => ?_, fun i hi hw => ?_⟩
    · by_contra hnot
      obtain ⟨n, hn, hin, hns, hlow⟩ := exists_lowest_splits hp hs
      obtain ⟨first, hall⟩ := exists_holdsChildren ht hn hns hlow
      have hi := (hall 1 (by omega)).1
      obtain ⟨hslot, hparent⟩ := hall.siblingSlot_eq ht hn (hns.level_lt hn) (k := 1) (by omega)
      have hdrop := ha.merge _ hi 1 hslot fun hw => hnot (hshape.around n p hn hp hin (hparent ▸ hw))
      exact absurd (hkeep _ _ hdrop) (by decide)
    · obtain ⟨levels, hc, _, hpos⟩ := ha.exists_split hshape ht hi hw
      have := hkeep i _ hc
      rw [LeafChange.keep, LeafChange.split.injEq] at this
      omega
  · rintro ⟨hinner, hleaf⟩ i c hc
    have hi := ha.lt_count hc
    have hall : ∀ slot, t.siblingSlot i = some slot → wanted ((t.node i).parent depth) := fun slot hslot =>
      hinner _ (isCell_node ht hi).parent (splits_parent_node ht hi ((siblingSlot_eq_some_iff ht hi).1 hslot).1)
    obtain ⟨levels, hc', _, hiff⟩ := ha.split i hi hall
    have hzero : levels = 0 := Nat.eq_zero_of_not_pos fun hpos => hleaf i hi (hiff.1 hpos)
    rw [hc, hzero] at hc'
    exact Option.some.inj hc'

end Leaves

end CurvePartition
