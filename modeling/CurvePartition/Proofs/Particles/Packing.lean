-- SUMMARY: Messages of bytes restore the rows packed into them, in columns of any kinds and from any offset on.
import Mathlib
import CurvePartition.Proofs.Particles.Columns
import CurvePartition.Proofs.Sorted.Bins

/-!
# Packed rows

A message of packed rows says nothing about where a column begins: the reader finds that from the number of rows and the widths of
its own columns. With the same kinds in the same order these are the writer's (`Column.unpack_pack`), whatever ranges the
rows came from. The message is one of bytes, and a scalar is read from its eight bytes as it was.
-/

namespace CurvePartition

/-- Machine numbers are read back bit by bit. -/
instance : Wire.LawfulScalars Float UInt8 where
  length_spellScalar _ := Bytes.length_ofNat _ _
  readScalar_spellScalar x := by
    have hbits : x.toBits.toNat < 256 ^ Wire.scalarWidth := x.toBits.toNat_lt
    change Float.ofBits (UInt64.ofNat (Bytes.toNat (Bytes.ofNat Wire.scalarWidth x.toBits.toNat))) = x
    rw [Bytes.toNat_ofNat hbits, UInt64.ofNat_toNat, Float.ofBits_toBits]

namespace IndexRange

theorem length_flatMap_toList (ranges : List IndexRange) : (ranges.flatMap toList).length = (ranges.map length).sum := by
  simp only [List.length_flatMap, length_toList]

end IndexRange

namespace Column

/-- Whether every element fits into the width of its kind. -/
def Fits {α : Type} [Scalar α] (c : Column α) : Prop := ∀ i < c.size, (c.entry i).Fits c.kind?

theorem fits_words {kind : ElementKind} {values : Array Nat} (h : ∀ v ∈ values, v < 256 ^ kind.width) :
    (words kind values : Column Float).Fits := by
  intro i hi
  have hi : i < values.size := hi
  simpa [Entry.Fits, entry, kind?, Array.getD, hi] using h values[i] (Array.getElem_mem hi)

theorem fits_scalars (values : Array Float) : (scalars values).Fits := fun _ _ => trivial

/-- Whether a range selects elements of a column. -/
def HasRange {α : Type} (c : Column α) (r : IndexRange) : Prop := r.start ≤ r.stop ∧ r.stop ≤ c.size

/-- Columns in which the selected rows of other columns stand from an offset on, and which are unchanged elsewhere. -/
structure Restores {α : Type} [Scalar α] (sources targets unpacked : List (Column α)) (indices : List Nat) (offset : Nat) :
    Prop where
  kinds_eq : unpacked.map kind? = targets.map kind?
  sizes_eq : unpacked.map size = targets.map size
  selected : ∀ (i : Nat) (hi : i < indices.length), unpacked.map (entry (offset + i)) = sources.map (entry indices[i])
  others : ∀ j, j < offset ∨ offset + indices.length ≤ j → unpacked.map (entry j) = targets.map (entry j)

/-- A message of packed rows has the bytes of its rows, and unpacking it restores them. -/
theorem unpack_restores {sources targets : List (Column Float)} {ranges : List IndexRange} {offset : Nat}
    (hkinds : targets.map kind? = sources.map kind?) (hranges : ∀ c ∈ sources, ∀ r ∈ ranges, c.HasRange r)
    (hfits : ∀ c ∈ sources, c.Fits) (hroom : ∀ c ∈ targets, offset + (ranges.map IndexRange.length).sum ≤ c.size) :
    let rows := (ranges.map IndexRange.length).sum
    let message : Message UInt8 := pack sources ranges
    message.length = rows * rowWidth sources ∧
      Restores sources targets (unpack offset rows targets message) (ranges.flatMap IndexRange.toList) offset := by
  intro rows message
  have hrows : (ranges.flatMap IndexRange.toList).length = rows := IndexRange.length_flatMap_toList ranges
  have hentries : ∀ c ∈ sources, ∀ i ∈ ranges.flatMap IndexRange.toList, (c.entry i).Fits c.kind? := by
    intro c hc i hi
    obtain ⟨r, hr, hi⟩ := List.mem_flatMap.1 hi
    exact hfits c hc i (Nat.lt_of_lt_of_le (IndexRange.mem_toList_iff.1 hi).2 (hranges c hc r hr).2)
  have hunpack := unpack_pack (β := UInt8) rfl hkinds (by rwa [hrows]) hentries
  rw [hrows] at hunpack
  refine ⟨by rw [← hrows]; exact length_pack sources ranges, kinds_unpack .., sizes_unpack .., fun i hi => ?_, fun j hj => ?_⟩
  · rw [hunpack, if_pos (by omega), Nat.add_sub_cancel_left, List.getD_eq_getElem _ _ hi]
  · rw [hunpack, if_neg (by omega)]

/-- Three rows of words, scalars and elements of twelve bytes, from two ranges, behind a row that stays. -/
theorem unpack_restores_mixed :
    let point : ElementKind := .other "Point" 12 (by decide)
    let sources : List (Column Float) :=
      [words .unsigned32 #[10, 11, 12, 13, 14], scalars #[0.0, 0.5, 1.0, 1.5, 2.0], words point #[1, 2, 3, 2 ^ 90, 5]]
    let targets : List (Column Float) :=
      [words .unsigned32 #[7, 0, 0, 0], scalars #[8.5, 0.0, 0.0, 0.0], words point #[9, 0, 0, 0, 6]]
    let message : Message UInt8 := pack sources [⟨1, 2⟩, ⟨3, 5⟩]
    let unpacked := unpack 1 3 targets message
    message.length = 72 ∧ unpacked.map (entry 0) = [.word 7, .scalar 8.5, .word 9] ∧
      unpacked.map (entry 1) = [.word 11, .scalar 0.5, .word 2] ∧
      unpacked.map (entry 2) = [.word 13, .scalar 1.5, .word (2 ^ 90)] := by
  intro point sources targets message unpacked
  have hranges : ∀ c ∈ sources, ∀ r ∈ [IndexRange.mk 1 2, ⟨3, 5⟩], c.HasRange r := by
    simp [sources, HasRange, size]
  have hfits : ∀ c ∈ sources, c.Fits := by
    simp only [sources, List.forall_mem_cons, List.not_mem_nil, false_imp_iff, implies_true, and_true]
    exact ⟨fits_words (by decide), fits_scalars _, fits_words (by decide)⟩
  have hkinds : targets.map kind? = sources.map kind? := rfl
  have hroom : ∀ c ∈ targets, 1 + ([IndexRange.mk 1 2, ⟨3, 5⟩].map IndexRange.length).sum ≤ c.size := by
    simp [targets, size, IndexRange.length]
  obtain ⟨hlength, hrestores⟩ := unpack_restores hkinds hranges hfits hroom
  refine ⟨hlength, hrestores.others 0 (by decide), ?_, ?_⟩
  · exact hrestores.selected 0 (by decide)
  · exact hrestores.selected 1 (by decide)

end Column

end CurvePartition
