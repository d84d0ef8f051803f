-- SUMMARY: JSON documents as written: numerals and strings keep their spelling, objects keep the order of their members.
import CurvePartition.Decimal.Numeral

/-!
# JSON documents

A document is kept as it is written: a numeral as its digits, a string as characters and escaped code units, an object
as its members in order, names possibly repeated. What a numeral or a string means is asked only where the
meaning matters.
-/

namespace CurvePartition

/-- A piece of a string. -/
inductive Json.Piece where
  | char (c : Char)
  /-- A code unit of 16 bits, written as four digits in base sixteen. -/
  | unit (code : Nat)
  deriving DecidableEq, Repr

/-- A JSON document. -/
inductive Json where
  | null
  | bool (value : Bool)
  | number (value : Numeral)
  | string (pieces : List Json.Piece)
  | array (items : List Json)
  | object (members : List (List Json.Piece × Json))
  deriving Repr

namespace Json

/-- The pieces of a text without escapes. -/
def piecesOf (s : String) : List Piece := s.toList.map .char

/-- The string document of a text. -/
def ofText (s : String) : Json := string (piecesOf s)

/-- An object with the given members. -/
def ofMembers (members : List (String × Json)) : Json := object (members.map fun (name, value) => (piecesOf name, value))

/-- Characters of a string, none if its code units are no characters. Two surrogate units are one character. -/
def decode : List Piece → Option (List Char)
  | [] => some []
  | .char c :: rest => (decode rest).map (c :: ·)
  | .unit hi :: .unit lo :: rest =>
    if 0xD800 ≤ hi ∧ hi < 0xDC00 then
      if 0xDC00 ≤ lo ∧ lo < 0xE000 then
        (decode rest).map (Char.ofNat (0x10000 + (hi - 0xD800) * 0x400 + (lo - 0xDC00)) :: ·)
      else none
    else if 0xDC00 ≤ hi ∧ hi < 0xE000 then none
    else (decode (.unit lo :: rest)).map (Char.ofNat hi :: ·)
  | .unit code :: rest =>
    if 0xD800 ≤ code ∧ code < 0xE000 then none else (decode rest).map (Char.ofNat code :: ·)

/-- Text of a string, none if its code units are no characters. -/
def textOf (pieces : List Piece) : Option String := (decode pieces).map String.ofList

theorem decode_chars (s : List Char) : decode (s.map .char) = some s := by
  induction s with
  | nil => rfl
  | cons c rest ih => simp [decode, ih]

@[simp] theorem textOf_piecesOf (s : String) : textOf (piecesOf s) = some s := by
  simp [textOf, piecesOf, decode_chars]

end Json

end CurvePartition
