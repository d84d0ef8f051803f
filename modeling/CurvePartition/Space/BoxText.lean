-- SUMMARY: The text of a box for people: its bounds, and the kind of each boundary.
import CurvePartition.Error.Message
import CurvePartition.Space.Box

/-!
# Text of a box

Bounds are written like numbers in messages, three to a list.
-/

namespace CurvePartition

/-- Name of a boundary kind in a text. -/
def Boundary.label : Boundary → String
  | .unbounded => "Open"
  | .periodic => "Periodic"
  | .fixed => "Fixed"

/-- Three texts as a list. -/
def Triple.listText (t : Triple String) : String := s!"[{t.x}, {t.y}, {t.z}]"

/-- Text of a box. -/
def Box.text (b : Box Float) : String :=
  let lo := (b.lo.map numberText).listText
  let hi := (b.hi.map numberText).listText
  s!"(lo: {lo}, hi: {hi}, boundaries: {(b.boundaries.map Boundary.label).listText})"

end CurvePartition
