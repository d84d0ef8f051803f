-- SUMMARY: Triples, one value per axis of space, and the three axes.
import CurvePartition.Naturals

/-!
# Triples

A position, a corner of a box, grid coordinates and boundary kinds are all triples. An operation on triples
acts on each axis alone; `Triple.get` is the view through which such operations are stated.
-/

namespace CurvePartition

/-- An axis of space. -/
inductive Axis where
  | x | y | z
  deriving DecidableEq, Repr

/-- The axes in order. -/
def Axis.all : List Axis := [.x, .y, .z]

/-- Position of an axis in the order. -/
def Axis.index : Axis → Nat
  | .x => 0
  | .y => 1
  | .z => 2

theorem Axis.mem_all (a : Axis) : a ∈ Axis.all := by
  cases a <;> simp [Axis.all]

/-- One value per axis. -/
structure Triple (α : Type) where
  x : α
  y : α
  z : α
  deriving DecidableEq, Repr

namespace Triple

variable {α β γ : Type}

/-- The value on an axis. -/
@[inline] def get (t : Triple α) : Axis → α
  | .x => t.x
  | .y => t.y
  | .z => t.z

/-- Replace the value on an axis. -/
@[inline] def set (t : Triple α) (axis : Axis) (value : α) : Triple α :=
  match axis with
  | .x => { t with x := value }
  | .y => { t with y := value }
  | .z => { t with z := value }

/-- The triple with a given value on each axis. -/
@[inline] def ofFn (f : Axis → α) : Triple α := ⟨f .x, f .y, f .z⟩

/-- The triple with the same value on every axis. -/
@[inline] def replicate (value : α) : Triple α := ⟨value, value, value⟩

/-- Apply a function on every axis. -/
@[inline] def map (f : α → β) (t : Triple α) : Triple β := ⟨f t.x, f t.y, f t.z⟩

/-- Combine two triples axis by axis. -/
@[inline] def zipWith (f : α → β → γ) (s : Triple α) (t : Triple β) : Triple γ :=
  ⟨f s.x t.x, f s.y t.y, f s.z t.z⟩

/-- The values in the order of the axes. -/
def toList (t : Triple α) : List α := [t.x, t.y, t.z]

@[simp] theorem get_ofFn (f : Axis → α) (a : Axis) : (ofFn f).get a = f a := by
  cases a <;> rfl

@[simp] theorem get_replicate (v : α) (a : Axis) : (replicate v).get a = v := by
  cases a <;> rfl

@[simp] theorem get_map (f : α → β) (t : Triple α) (a : Axis) : (t.map f).get a = f (t.get a) := by
  cases a <;> rfl

@[simp] theorem get_zipWith (f : α → β → γ) (s : Triple α) (t : Triple β) (a : Axis) :
    (zipWith f s t).get a = f (s.get a) (t.get a) := by
  cases a <;> rfl

@[simp] theorem get_set_self (t : Triple α) (a : Axis) (v : α) : (t.set a v).get a = v := by
  cases a <;> rfl

theorem get_set_of_ne (t : Triple α) {a b : Axis} (v : α) (h : b ≠ a) : (t.set a v).get b = t.get b := by
  cases a <;> cases b <;> first | rfl | exact absurd rfl h

theorem ext_get {s t : Triple α} (h : ∀ a, s.get a = t.get a) : s = t := by
  cases s; cases t
  have hx := h .x; have hy := h .y; have hz := h .z
  simp only [get] at hx hy hz
  simp [hx, hy, hz]

end Triple

end CurvePartition
