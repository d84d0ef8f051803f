-- SUMMARY: Numerals as written: sign, whole digits, fraction digits and a power of ten, with their text and a scanner for it.
import CurvePartition.Naturals

/-!
# Numerals

A numeral is a number as it is written, digit by digit. `Numeral.chars` writes it and `Numeral.scan` reads one off the
front of a text: an optional minus sign, whole digits without a leading zero, and optionally a point with digits and
an exponent with digits.
-/

namespace CurvePartition

/-- A number as written. -/
structure Numeral where
  negative : Bool
  /-- Digits before the point. -/
  whole : List Char
  /-- Digits after the point, none if there is no point. -/
  fraction : List Char
  /-- Whether the power of ten is negative, and its digits. -/
  exponent : Option (Bool × List Char)
  deriving DecidableEq, Repr

namespace Numeral

/-- The numeral of a natural number. -/
def ofNat (n : Nat) : Numeral := ⟨false, (toString n).toList, [], none⟩

/-- The characters of a numeral. -/
def chars (n : Numeral) : List Char :=
  (if n.negative then ['-'] else []) ++ n.whole ++
    (match n.fraction with
      | [] => []
      | digits => '.' :: digits) ++
    (match n.exponent with
      | none => []
      | some (negative, digits) => 'e' :: (if negative then '-' else '+') :: digits)

/-- The text of a numeral. -/
def text (n : Numeral) : String := String.ofList n.chars

/-- The digits that a text starts with, and the rest. -/
def scanDigits (s : List Char) : List Char × List Char := (s.takeWhile Char.isDigit, s.dropWhile Char.isDigit)

/-- Whole digits: a zero alone, or digits that do not start with zero. -/
def scanWhole : List Char → Option (List Char × List Char)
  | '0' :: rest => some (['0'], rest)
  | s =>
    match scanDigits s with
    | ([], _) => none
    | (digits, rest) => some (digits, rest)

/-- An optional point with digits. -/
def scanFraction : List Char → Option (List Char × List Char)
  | '.' :: s =>
    match scanDigits s with
    | ([], _) => none
    | (digits, rest) => some (digits, rest)
  | s => some ([], s)

/-- Whether a power of ten is negative, by its optional sign. -/
def scanSign : List Char → Bool × List Char
  | '-' :: rest => (true, rest)
  | '+' :: rest => (false, rest)
  | s => (false, s)

/-- An optional power of ten. -/
def scanExponent : List Char → Option (Option (Bool × List Char) × List Char)
  | [] => some (none, [])
  | c :: s =>
    if c = 'e' ∨ c = 'E' then
      let (negative, s) := scanSign s
      match scanDigits s with
      | ([], _) => none
      | (digits, rest) => some (some (negative, digits), rest)
    else some (none, c :: s)

/-- The numeral that a text starts with, and the rest. -/
def scan (s : List Char) : Option (Numeral × List Char) := do
  let (negative, s) := match s with
    | '-' :: rest => (true, rest)
    | s => (false, s)
  let (whole, s) ← scanWhole s
  let (fraction, s) ← scanFraction s
  let (exponent, s) ← scanExponent s
  return (⟨negative, whole, fraction, exponent⟩, s)

/-- Value of a digit. -/
def digitValue (c : Char) : Nat := c.toNat - '0'.toNat

end Numeral

end CurvePartition
