-- SUMMARY: A 64 bit digest of bytes, computed by stirring four words once for each block of eight bytes.
import CurvePartition.Wire

/-!
# Digests

A digest condenses bytes of any number into 64 bits. Ranks exchange digests instead of descriptions to find out whether
they agree on something. Different bytes may share a digest, but nobody comes upon such bytes by chance.

The bytes are cut into blocks of eight. The last block is filled up with zeros and ends with the number of bytes, so
that no other bytes have the same blocks. `State.absorb` takes in one block with one round of stirring,
and `State.finish` stirs three more times. This is the SipHash-1-3 function with a key of zeros.

`spell` writes a text so that two texts in a row cannot be cut in another place: it ends with a byte
that occurs in no text.
-/

namespace CurvePartition

namespace Digest

/-! ## Stirring -/

/-- The bits of a word moved to the left, with those that leave coming back at the right. -/
def rotate (word count : UInt64) : UInt64 := (word <<< count) ||| (word >>> (64 - count))

/-- The four words in which a digest is computed. -/
structure State where
  a : UInt64
  b : UInt64
  c : UInt64
  d : UInt64
  deriving DecidableEq, Repr

namespace State

/-- The words before the first block. -/
def start : State := ⟨0x736f6d6570736575, 0x646f72616e646f6d, 0x6c7967656e657261, 0x7465646279746573⟩

/-- One round of stirring. -/
def stir (s : State) : State :=
  let a := s.a + s.b
  let b := rotate s.b 13 ^^^ a
  let c := s.c + s.d
  let d := rotate s.d 16 ^^^ c
  let c' := c + b
  let a' := rotate a 32 + d
  ⟨a', rotate b 17 ^^^ c', rotate c' 32, rotate d 21 ^^^ a'⟩

/-- Take in one block. -/
def absorb (s : State) (block : UInt64) : State :=
  let stirred := { s with d := s.d ^^^ block }.stir
  { stirred with a := stirred.a ^^^ block }

/-- The digest of all blocks taken in. -/
def finish (s : State) : UInt64 :=
  let last := { s with c := s.c ^^^ 0xff }.stir.stir.stir
  last.a ^^^ last.b ^^^ last.c ^^^ last.d

end State

/-! ## Blocks -/

/-- The bytes filled up to whole blocks. -/
def pad (bytes : List UInt8) : List UInt8 :=
  bytes ++ List.replicate (7 - bytes.length % 8) 0 ++ [UInt8.ofNat bytes.length]

/-- The blocks of some bytes. -/
def blocks (bytes : List UInt8) : List UInt64 :=
  (Wire.chunks 8 (bytes.length / 8 + 1) (pad bytes)).map fun block => UInt64.ofNat (Bytes.toNat block)

/-- The digest of some bytes. -/
def ofBytes (bytes : List UInt8) : UInt64 := ((blocks bytes).foldl State.absorb .start).finish

/-! ## Spelling -/

/-- The bytes of a text and one that ends it. -/
def spell (text : String) : List UInt8 := text.toList.flatMap String.utf8EncodeChar ++ [0xff]

end Digest

end CurvePartition
