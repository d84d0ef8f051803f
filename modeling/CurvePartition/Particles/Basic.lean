-- SUMMARY: Particle sets: keys, coordinates, smoothing lengths and named properties of the particles of one rank, owned ones first.
import CurvePartition.Digest
import CurvePartition.Error.Basic
import CurvePartition.Key.Basic
import CurvePartition.Particles.Column
import CurvePartition.Space.Triple

/-!
# Particle sets

A particle set has one row per particle. The first `owned` rows belong to the rank that holds the set, the others are
copies of rows of other ranks. All columns are meant to have one length, which `ParticleSet.make` and
`ParticleSet.withProperty` check and every later operation keeps.

Operations on whole rows go through `ParticleSet.columns`, the list of all columns in the order in which they
travel, and `ParticleSet.withColumns`, which puts a changed list back.
-/

namespace CurvePartition

/-- A named column. -/
structure Property where
  name : String
  kind : ElementKind
  values : Array Nat
  deriving DecidableEq, Repr

/-- The particles of a rank. -/
structure ParticleSet (width : KeyWidth) (α : Type) where
  keys : Array Nat
  x : Array α
  y : Array α
  z : Array α
  /-- Smoothing lengths. -/
  h : Array α
  /-- Properties in the order in which they were attached. -/
  properties : List Property
  /-- Number of owned particles. -/
  owned : Nat
  deriving Repr

/-- Element kind of keys. -/
def KeyWidth.kind : KeyWidth → ElementKind
  | narrow => .unsigned32
  | wide => .unsigned64

namespace ParticleSet

variable {width : KeyWidth} {α β : Type} [Scalar α]

/-- A column of the wrong length is a failure. -/
def checkLength (name : String) (expected found : Nat) : Except (Error α) Unit :=
  if expected = found then .ok () else .error (.lengthMismatch name expected found)

/-- A set without particles. -/
def empty : ParticleSet width α := ⟨#[], #[], #[], #[], #[], [], 0⟩

/-- Particles at given positions, all owned. Their keys are not known yet. -/
def make (x y z h : Array α) : Except (Error α) (ParticleSet width α) := do
  checkLength "y" x.size y.size
  checkLength "z" x.size z.size
  checkLength "h" x.size h.size
  return ⟨Array.replicate x.size 0, x, y, z, h, [], x.size⟩

/-- Number of particles. -/
def size (p : ParticleSet width α) : Nat := p.x.size

/-- Number of copies of other ranks' particles. -/
def halos (p : ParticleSet width α) : Nat := p.size - p.owned

/-- Attach a property. It replaces one of the same name. -/
def withProperty (p : ParticleSet width α) (property : Property) : Except (Error α) (ParticleSet width α) := do
  checkLength property.name p.size property.values.size
  return { p with properties := p.properties.filter (·.name ≠ property.name) ++ [property] }

/-- The property with a name, if it has the given kind. -/
def property? (p : ParticleSet width α) (name : String) (kind : ElementKind) : Option Property :=
  (p.properties.find? (·.name = name)).filter (·.kind = kind)

/-- Replace one element of a property, if there is one with this name and kind. -/
def setProperty? (p : ParticleSet width α) (name : String) (kind : ElementKind) (index value : Nat) :
    Option (ParticleSet width α) :=
  (p.property? name kind).map fun _ =>
    { p with properties := p.properties.map fun q =>
        if q.name = name then { q with values := q.values.setIfInBounds index value } else q }

/-- Position of a particle. -/
def position (p : ParticleSet width α) (i : Nat) : Triple α := ⟨p.x.getD i 0, p.y.getD i 0, p.z.getD i 0⟩

/-- Move a particle. -/
def setPosition (p : ParticleSet width α) (i : Nat) (at' : Triple α) : ParticleSet width α :=
  { p with
    x := p.x.setIfInBounds i at'.x
    y := p.y.setIfInBounds i at'.y
    z := p.z.setIfInBounds i at'.z }

/-! ## Layout -/

/-- Name and element kind of every property. -/
def layout (p : ParticleSet width α) : List (String × ElementKind) := p.properties.map fun q => (q.name, q.kind)

/-- Bytes that spell the element kind of keys, and name, kind and width of every property. -/
def layoutBytes (p : ParticleSet width α) : List UInt8 :=
  Digest.spell width.kind.name ++ p.layout.flatMap fun (name, kind) =>
    Digest.spell name ++ Digest.spell kind.name ++ Bytes.ofNat Wire.wordWidth kind.width

/-- Digest of the layout. Sets whose digests differ cannot exchange rows. -/
def fingerprint (p : ParticleSet width α) : Nat := (Digest.ofBytes p.layoutBytes).toNat

/-! ## Columns -/

/-- All columns except the keys. -/
def dataColumns (p : ParticleSet width α) : List (Column α) :=
  .scalars p.x :: .scalars p.y :: .scalars p.z :: .scalars p.h :: p.properties.map fun q => .words q.kind q.values

/-- All columns in the order in which they travel. -/
def columns (p : ParticleSet width α) : List (Column α) := .words width.kind p.keys :: p.dataColumns

/-- Properties with their values taken from columns. -/
def withValues : List Property → List (Column α) → List Property
  | q :: rest, .words _ values :: columns => { q with values } :: withValues rest columns
  | properties, _ => properties

/-- The set with other values in all columns except the keys. -/
def withDataColumns (p : ParticleSet width α) : List (Column α) → ParticleSet width α
  | .scalars x :: .scalars y :: .scalars z :: .scalars h :: rest =>
    { p with x, y, z, h, properties := withValues p.properties rest }
  | _ => p

/-- The set with other values in all columns. -/
def withColumns (p : ParticleSet width α) : List (Column α) → ParticleSet width α
  | .words _ keys :: rest => { p with keys }.withDataColumns rest
  | _ => p

/-- Symbols of a row. -/
def rowWidth (p : ParticleSet width α) : Nat := Column.rowWidth p.columns

/-- The first `length` particles. They stay owned or not as they were. -/
def truncate (p : ParticleSet width α) (length : Nat) : ParticleSet width α :=
  { p.withColumns (p.columns.map (Column.truncate length)) with owned := min p.owned length }

/-- The first `length` particles, with zeros for those that are missing. -/
def resize (p : ParticleSet width α) (length : Nat) : ParticleSet width α :=
  p.withColumns (p.columns.map (Column.resize length))

/-- A column of another length than the coordinates is a failure. -/
def checkLengths (p : ParticleSet width α) : Except (Error α) Unit := do
  checkLength "keys" p.size p.keys.size
  checkLength "y" p.size p.y.size
  checkLength "z" p.size p.z.size
  checkLength "h" p.size p.h.size
  p.properties.forM fun q => checkLength q.name p.size q.values.size

section Rows

variable [Wire α β]

/-- The rows in some ranges as a message. -/
def pack (p : ParticleSet width α) (ranges : List IndexRange) : Message β := Column.pack p.columns ranges

/-- The set with `rows` rows from `offset` on read from a message. -/
def unpack (p : ParticleSet width α) (offset rows : Nat) (message : Message β) : ParticleSet width α :=
  p.withColumns (Column.unpack offset rows p.columns message)

end Rows

end ParticleSet

end CurvePartition
