-- SUMMARY: Configurations as JSON documents: what each field is written as, and which documents are read as a configuration.
import CurvePartition.Config.Basic
import CurvePartition.Decimal.Layout
import CurvePartition.Decimal.Reading
import CurvePartition.Json.Parser
import CurvePartition.Json.Printer

/-!
# Configurations as documents

A configuration is written as an object with one member for each field, in a fixed order. A choice without parameters is
written as its name, a choice with parameters as an object whose only member is named for it.

Reading is more generous than writing. Fields may come in any order, be missing (they have their standard values) or be
accompanied by members of other names, which are ignored; a field that is given twice is refused. A record may be an
array of its fields in order, and a choice without parameters an object with its name and null. A whole
number stands for any number, but a count has to be written as a whole number.
-/

namespace CurvePartition

/-! ## Writing -/

/-- Document of a number, null if it is not finite. -/
def Json.ofFloat (x : Float) : Json :=
  if x.isFinite then .number (Decimal.numeral .document x) else .null

/-- Document of a count. -/
def Json.ofCount (n : Nat) : Json := .number (.ofNat n)

/-- Document of a triple. -/
def Json.ofTriple {α : Type} (item : α → Json) (t : Triple α) : Json := .array (t.map item).toList

namespace Boundary

/-- Name of a boundary kind. -/
def name : Boundary → String
  | unbounded => "open"
  | periodic => "periodic"
  | fixed => "fixed"

def all : List Boundary := [unbounded, periodic, fixed]

end Boundary

namespace Curve

/-- Name of a curve. -/
def name : Curve → String
  | morton => "morton"
  | hilbert => "hilbert"

def all : List Curve := [morton, hilbert]

end Curve

namespace Backend

/-- Name of a backend. -/
def name : Backend → String
  | host => "host"
  | threadPool => "thread_pool"

def all : List Backend := [host, threadPool]

end Backend

/-- Document of a box. -/
def Box.toJson (b : Box Float) : Json :=
  .ofMembers [
    ("lo", .ofTriple .ofFloat b.lo),
    ("hi", .ofTriple .ofFloat b.hi),
    ("boundaries", .ofTriple (fun k => .ofText k.name) b.boundaries)]

/-- Document of the way in which radii are found. -/
def HaloRadius.toJson : HaloRadius Float → Json
  | fixed radius => .ofMembers [("fixed", .ofFloat radius)]
  | perParticle factor => .ofMembers [("per_particle", .ofMembers [("factor", .ofFloat factor)])]

/-- Document of a configuration. -/
def Config.toJson (c : Config Float) : Json :=
  .ofMembers [
    ("bucket_size", .ofCount c.bucketSize),
    ("halo_radius", c.haloRadius.toJson),
    ("curve", .ofText c.curve.name),
    ("backend", .ofText c.backend.name),
    ("focus_theta", .ofFloat c.theta),
    ("max_rebalance_iterations", .ofCount c.maxRounds),
    ("domain_box", c.box.toJson)]

/-- Text of a configuration. -/
def Config.write (c : Config Float) : String := c.toJson.pretty

/-! ## Reading -/

namespace Json

/-- The count that a document is. -/
def count? : Json → Option Nat
  | number n => n.toCount?
  | _ => none

/-- The number that a document is. -/
def float? : Json → Option Float
  | number n => n.toFloat?
  | _ => none

/-- The triple that a document is. -/
def triple? {α : Type} (item? : Json → Option α) : Json → Option (Triple α)
  | array [x, y, z] => do return ⟨← item? x, ← item? y, ← item? z⟩
  | _ => none

/-- Members whose names are texts. -/
def named? (members : List (List Piece × Json)) : Option (List (String × Json)) :=
  members.mapM fun (name, value) => (textOf name).map (·, value)

/-- The member of a name, none if there are two of them. -/
def single? (members : List (String × Json)) (name : String) : Option (Option Json) :=
  match members.filter (·.1 = name) with
  | [] => some none
  | [(_, value)] => some (some value)
  | _ => none

/-- The fields of a record in the order of `names`: members of an object, or items of an array. -/
def fields? (names : List String) : Json → Option (List (Option Json))
  | object members => do names.mapM (single? (← named? members))
  | array items =>
    if names.length < items.length then none
    else some (items.map some ++ List.replicate (names.length - items.length) none)
  | _ => none

/-- Name and parameters of a choice. -/
def choice? : Json → Option (String × Option Json)
  | string pieces => (textOf pieces).map (·, none)
  | object [(name, value)] => (textOf name).map (·, some value)
  | _ => none

/-- A choice without parameters, by its name. -/
def plainChoice? {α : Type} (name : α → String) (all : List α) (j : Json) : Option α := do
  match ← choice? j with
  | (s, none) | (s, some null) => all.find? (name · = s)
  | _ => none

/-- A field, or its standard value if it is missing. -/
def fieldOr {α : Type} (standard : α) (read? : Json → Option α) : Option Json → Option α
  | none => some standard
  | some j => read? j

/-- A field that may not be missing. -/
def required {α : Type} (read? : Json → Option α) (field : Option Json) : Option α := do read? (← field)

end Json

/-- The box that a document is. -/
def Box.ofJson? (j : Json) : Option (Box Float) := do
  match ← j.fields? ["lo", "hi", "boundaries"] with
  | [lo, hi, boundaries] =>
    return {
      lo := ← Json.required (Json.triple? Json.float?) lo
      hi := ← Json.required (Json.triple? Json.float?) hi
      boundaries := ← Json.required (Json.triple? (Json.plainChoice? Boundary.name Boundary.all)) boundaries }
  | _ => none

/-- The way to find radii that a document is. -/
def HaloRadius.ofJson? (j : Json) : Option (HaloRadius Float) := do
  match ← j.choice? with
  | ("fixed", some radius) => return .fixed (← radius.float?)
  | ("per_particle", some parameters) =>
    match ← parameters.fields? ["factor"] with
    | [factor] => return .perParticle (← Json.required Json.float? factor)
    | _ => none
  | _ => none

/-- The configuration that a document is. -/
def Config.ofJson? (j : Json) : Option (Config Float) := do
  let names := ["bucket_size", "halo_radius", "curve", "backend", "focus_theta", "max_rebalance_iterations",
    "domain_box"]
  match ← j.fields? names with
  | [bucketSize, haloRadius, curve, backend, theta, maxRounds, box] =>
    let standard : Config Float := .standard
    return {
      bucketSize := ← Json.fieldOr standard.bucketSize Json.count? bucketSize
      haloRadius := ← Json.fieldOr standard.haloRadius HaloRadius.ofJson? haloRadius
      curve := ← Json.fieldOr standard.curve (Json.plainChoice? Curve.name Curve.all) curve
      backend := ← Json.fieldOr standard.backend (Json.plainChoice? Backend.name Backend.all) backend
      theta := ← Json.fieldOr standard.theta Json.float? theta
      maxRounds := ← Json.fieldOr standard.maxRounds Json.count? maxRounds
      box := ← Json.fieldOr standard.box Box.ofJson? box }
  | _ => none

/-- The configuration in a text, checked. -/
def Config.read (text : String) : Except (Error Float) (Config Float) := do
  match Json.parse? text >>= Config.ofJson? with
  | none => throw (.config .unreadable)
  | some c => do
    c.check
    return c

end CurvePartition
