-- SUMMARY: Writing JSON documents with one item to a line and two blanks for each level.
import CurvePartition.Json.Basic

/-!
# Writing JSON

`Json.pretty` writes each item of an array and each member of an object on a line of its own, two blanks further in than
the line that opens it. Empty arrays and objects have no line of their own.
-/

namespace CurvePartition

namespace Json

/-- A character of a string, escaped where it has to be. -/
def escape (c : Char) : List Char :=
  if c = '"' then ['\\', '"']
  else if c = '\\' then ['\\', '\\']
  else if c = '\x08' then ['\\', 'b']
  else if c = '\x0c' then ['\\', 'f']
  else if c = '\n' then ['\\', 'n']
  else if c = '\r' then ['\\', 'r']
  else if c = '\t' then ['\\', 't']
  else if c.toNat < 0x20 then ['\\', 'u', '0', '0'] ++ [Nat.digitChar (c.toNat / 16), Nat.digitChar (c.toNat % 16)]
  else [c]

/-- Characters of a piece. -/
def pieceChars : Piece → List Char
  | .char c => escape c
  | .unit code =>
    ['\\', 'u', Nat.digitChar (code / 4096 % 16), Nat.digitChar (code / 256 % 16), Nat.digitChar (code / 16 % 16),
      Nat.digitChar (code % 16)]

/-- Characters of a string with its quotes. -/
def stringChars (pieces : List Piece) : List Char := '"' :: pieces.flatMap pieceChars ++ ['"']

/-- A new line with the blanks of a level. -/
def newline (level : Nat) : List Char := '\n' :: List.replicate (2 * level) ' '

mutual

/-- Characters of a document that starts on a line of the given level. -/
def prettyChars (level : Nat) : Json → List Char
  | null => ['n', 'u', 'l', 'l']
  | bool true => ['t', 'r', 'u', 'e']
  | bool false => ['f', 'a', 'l', 's', 'e']
  | number n => n.chars
  | string pieces => stringChars pieces
  | array [] => ['[', ']']
  | array (item :: rest) =>
    '[' :: newline (level + 1) ++ prettyChars (level + 1) item ++ prettyItems (level + 1) rest ++
      newline level ++ [']']
  | object [] => ['\x7b', '\x7d']
  | object ((name, value) :: rest) =>
    '\x7b' :: newline (level + 1) ++ stringChars name ++ [':', ' '] ++ prettyChars (level + 1) value ++
      prettyMembers (level + 1) rest ++ newline level ++ ['\x7d']

/-- Characters of the items behind the first one. -/
def prettyItems (level : Nat) : List Json → List Char
  | [] => []
  | item :: rest => ',' :: newline level ++ prettyChars level item ++ prettyItems level rest

/-- Characters of the members behind the first one. -/
def prettyMembers (level : Nat) : List (List Piece × Json) → List Char
  | [] => []
  | (name, value) :: rest =>
    ',' :: newline level ++ stringChars name ++ [':', ' '] ++ prettyChars level value ++ prettyMembers level rest

end

/-- Text of a document. -/
def pretty (j : Json) : String := String.ofList (prettyChars 0 j)

end Json

end CurvePartition
