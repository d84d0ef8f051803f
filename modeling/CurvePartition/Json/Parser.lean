-- SUMMARY: Reading JSON documents from text.
import CurvePartition.Json.Basic

/-!
# Reading JSON

`Json.parse?` reads a text that holds one document and blanks around it. The grammar is strict: no comments, no trailing
commas, no control characters in strings. Every step consumes a character, which bounds the recursion by the length
of the text.
-/

namespace CurvePartition

namespace Json

/-- Whether a character may stand between tokens. -/
def isBlank (c : Char) : Bool := c = ' ' || c = '\n' || c = '\t' || c = '\r'

/-- The text behind its leading blanks. -/
def skip (s : List Char) : List Char := s.dropWhile isBlank

/-- Value of a digit in base sixteen. -/
def hexValue (c : Char) : Option Nat :=
  if c.isDigit then some (c.toNat - '0'.toNat)
  else if 'a' ≤ c ∧ c ≤ 'f' then some (c.toNat - 'a'.toNat + 10)
  else if 'A' ≤ c ∧ c ≤ 'F' then some (c.toNat - 'A'.toNat + 10)
  else none

/-- Value of four digits in base sixteen. -/
def hexUnit (a b c d : Char) : Option Nat := do
  return ((← hexValue a) * 16 + (← hexValue b)) * 256 + ((← hexValue c) * 16 + (← hexValue d))

/-- The character of a short escape. -/
def shortEscape : Char → Option Char
  | '"' => some '"'
  | '\\' => some '\\'
  | '/' => some '/'
  | 'b' => some '\x08'
  | 'f' => some '\x0c'
  | 'n' => some '\n'
  | 'r' => some '\r'
  | 't' => some '\t'
  | _ => none

/-- The pieces of a string up to its closing quote, and the text behind it. -/
def scanString : List Char → Option (List Piece × List Char)
  | [] => none
  | '"' :: rest => some ([], rest)
  | '\\' :: 'u' :: a :: b :: c :: d :: rest => do
    let code ← hexUnit a b c d
    let (pieces, rest) ← scanString rest
    return (.unit code :: pieces, rest)
  | '\\' :: e :: rest => do
    let c ← shortEscape e
    let (pieces, rest) ← scanString rest
    return (.char c :: pieces, rest)
  | c :: rest => do
    if c = '\\' ∨ c.toNat < 0x20 then none
    let (pieces, rest) ← scanString rest
    return (.char c :: pieces, rest)

mutual

/-- The document that a text starts with, and the text behind it. -/
def scanValue : Nat → List Char → Option (Json × List Char)
  | 0, _ => none
  | fuel + 1, s =>
    match skip s with
    | 'n' :: 'u' :: 'l' :: 'l' :: rest => some (null, rest)
    | 't' :: 'r' :: 'u' :: 'e' :: rest => some (bool true, rest)
    | 'f' :: 'a' :: 'l' :: 's' :: 'e' :: rest => some (bool false, rest)
    | '"' :: rest => (scanString rest).map fun (pieces, rest) => (string pieces, rest)
    | '[' :: rest =>
      match skip rest with
      | ']' :: rest => some (array [], rest)
      | _ => (scanItems fuel rest).map fun (items, rest) => (array items, rest)
    | '{' :: rest =>
      match skip rest with
      | '}' :: rest => some (object [], rest)
      | _ => (scanMembers fuel rest).map fun (members, rest) => (object members, rest)
    | s => (Numeral.scan s).map fun (n, rest) => (number n, rest)

/-- The items of an array up to its closing bracket, and the text behind it. -/
def scanItems : Nat → List Char → Option (List Json × List Char)
  | 0, _ => none
  | fuel + 1, s => do
    let (item, rest) ← scanValue fuel s
    match skip rest with
    | ']' :: rest => some ([item], rest)
    | ',' :: rest => (scanItems fuel rest).map fun (items, rest) => (item :: items, rest)
    | _ => none

/-- The members of an object up to its closing brace, and the text behind it. -/
def scanMembers : Nat → List Char → Option (List (List Piece × Json) × List Char)
  | 0, _ => none
  | fuel + 1, s =>
    match skip s with
    | '"' :: rest => do
      let (name, rest) ← scanString rest
      match skip rest with
      | ':' :: rest => do
        let (value, rest) ← scanValue fuel rest
        match skip rest with
        | '}' :: rest => some ([(name, value)], rest)
        | ',' :: rest => (scanMembers fuel rest).map fun (members, rest) => ((name, value) :: members, rest)
        | _ => none
      | _ => none
    | _ => none

end

/-- The document of a list of characters. -/
def parseChars? (s : List Char) : Option Json := do
  let (value, rest) ← scanValue (s.length + 1) s
  if (skip rest).isEmpty then some value else none

/-- The document that a text holds. -/
def parse? (text : String) : Option Json := parseChars? text.toList

end Json

end CurvePartition
