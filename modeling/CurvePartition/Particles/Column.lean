-- SUMMARY: Columns of particle data of any element kind, and what is done to all columns alike: reordering, cutting, growing, packing rows into a message and unpacking them.
import CurvePartition.Backend
import CurvePartition.Sorted.Ranges
import CurvePartition.Wire

/-!
# Columns

A column holds one value per particle: a scalar, or an element of some kind, which is a number or any other plain value
of a fixed size. Elements are held as the unsigned words of their bits, so that moving them never changes them. Rows of particles travel as
`Column.pack`: the selected elements of the first column, then those of the second, and so on.
`Column.unpack` finds the borders between columns again from the number of rows and the element widths.
-/

namespace CurvePartition

/-- A kind of elements. -/
inductive ElementKind where
  | unsigned8 | signed16 | unsigned32 | signed32 | unsigned64 | signed64 | float32 | float64
  /-- Plain values that are not one of these numbers, by the name of their type and their bytes. -/
  | other (typeName : String) (bytes : Nat) (pos : 0 < bytes)
  deriving DecidableEq, Repr

namespace ElementKind

/-- Bytes of an element. -/
def width : ElementKind → Nat
  | unsigned8 => 1
  | signed16 => 2
  | unsigned32 | signed32 | float32 => 4
  | unsigned64 | signed64 | float64 => 8
  | other _ bytes _ => bytes

/-- Name of the kind. -/
def name : ElementKind → String
  | unsigned8 => "u8"
  | signed16 => "i16"
  | unsigned32 => "u32"
  | signed32 => "i32"
  | unsigned64 => "u64"
  | signed64 => "i64"
  | float32 => "f32"
  | float64 => "f64"
  | other typeName _ _ => typeName

/-- The kinds of numbers. -/
def all : List ElementKind :=
  [unsigned8, signed16, unsigned32, signed32, unsigned64, signed64, float32, float64]

end ElementKind

/-- One value per particle. -/
inductive Column (α : Type) where
  /-- Elements of a kind, by their bits. -/
  | words (kind : ElementKind) (values : Array Nat)
  | scalars (values : Array α)
  deriving Repr

namespace Column

variable {α β : Type}

/-- Number of elements. -/
def size : Column α → Nat
  | words _ values => values.size
  | scalars values => values.size

/-- Symbols of an element in a message. -/
def width : Column α → Nat
  | words kind _ => kind.width
  | scalars _ => Wire.scalarWidth

section Scalars

variable [Scalar α]

/-- The elements in another order. -/
def reorder (backend : Backend) (order : Array Nat) : Column α → Column α
  | words kind values => words kind (backend.gather 0 values order)
  | scalars values => scalars (backend.gather 0 values order)

/-- The first `length` elements. -/
def truncate (length : Nat) : Column α → Column α
  | words kind values => words kind (values.take length)
  | scalars values => scalars (values.take length)

/-- The first `length` elements, with zeros for those that are missing. -/
def resized {τ : Type} (blank : τ) (length : Nat) (values : Array τ) : Array τ :=
  values.take length ++ Array.replicate (length - values.size) blank

/-- The first `length` elements, with zeros for those that are missing. -/
def resize (length : Nat) : Column α → Column α
  | words kind values => words kind (resized 0 length values)
  | scalars values => scalars (resized 0 length values)

/-- The values with those from `offset` on replaced. -/
def overwrite {τ : Type} (values : Array τ) (offset : Nat) : List τ → Array τ
  | [] => values
  | v :: rest => overwrite (values.setIfInBounds offset v) (offset + 1) rest

variable [Wire α β]

/-- Symbols of the elements at the given indices. -/
def spell (indices : List Nat) : Column α → Message β
  | words kind values => indices.flatMap fun i => Wire.spellWord α kind.width (values.getD i 0)
  | scalars values => indices.flatMap fun i => Wire.spellScalar (values.getD i 0)

/-- The column with `rows` elements from `offset` on read from symbols. -/
def read (offset rows : Nat) (symbols : Message β) : Column α → Column α
  | words kind values =>
    words kind (overwrite values offset ((Wire.chunks kind.width rows symbols).map (Wire.readWord α)))
  | scalars values =>
    scalars (overwrite values offset ((Wire.chunks Wire.scalarWidth rows symbols).map Wire.readScalar))

/-- The rows in some ranges, one column after the other. -/
def pack (columns : List (Column α)) (ranges : List IndexRange) : Message β :=
  columns.flatMap (spell (ranges.flatMap IndexRange.toList))

/-- The columns with `rows` rows from `offset` on read from a message. -/
def unpack (offset rows : Nat) : List (Column α) → Message β → List (Column α)
  | [], _ => []
  | c :: rest, message =>
    let length := rows * c.width
    c.read offset rows (message.take length) :: unpack offset rows rest (message.drop length)

end Scalars

/-- Symbols of a row. -/
def rowWidth (columns : List (Column α)) : Nat := (columns.map width).sum

end Column

end CurvePartition
