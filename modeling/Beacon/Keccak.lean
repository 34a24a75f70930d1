import Beacon.Bytes

set_option autoImplicit false

/-! # Keccak-256

The sponge over the 1600-bit Keccak permutation with a rate of 136 bytes, a capacity of 512 bits and
the padding `0x01 … 0x80`, and its 32-byte digest. The state is a record of twenty-five 64-bit
lanes, lane `i` standing for column `i % 5` of row `i / 5`, so that a round is a straight line of
word operations. -/

namespace Beacon.Keccak

/-! ## The permutation -/

/-- The 1600-bit state as twenty-five lanes, row by row. -/
structure Lanes where
  a0 : UInt64 := 0
  a1 : UInt64 := 0
  a2 : UInt64 := 0
  a3 : UInt64 := 0
  a4 : UInt64 := 0
  a5 : UInt64 := 0
  a6 : UInt64 := 0
  a7 : UInt64 := 0
  a8 : UInt64 := 0
  a9 : UInt64 := 0
  a10 : UInt64 := 0
  a11 : UInt64 := 0
  a12 : UInt64 := 0
  a13 : UInt64 := 0
  a14 : UInt64 := 0
  a15 : UInt64 := 0
  a16 : UInt64 := 0
  a17 : UInt64 := 0
  a18 : UInt64 := 0
  a19 : UInt64 := 0
  a20 : UInt64 := 0
  a21 : UInt64 := 0
  a22 : UInt64 := 0
  a23 : UInt64 := 0
  a24 : UInt64 := 0

/-- Rotate a lane to the left by `n` bits, `0 < n < 64`. -/
@[inline] def rotate (x n : UInt64) : UInt64 := (x <<< n) ||| (x >>> (64 - n))

/-- The constants that the last step of each round adds to lane 0. -/
def roundConstants : List UInt64 :=
  [0x0000000000000001, 0x0000000000008082, 0x800000000000808A, 0x8000000080008000,
   0x000000000000808B, 0x0000000080000001, 0x8000000080008081, 0x8000000000008009,
   0x000000000000008A, 0x0000000000000088, 0x0000000080008009, 0x000000008000000A,
   0x000000008000808B, 0x800000000000008B, 0x8000000000008089, 0x8000000000008003,
   0x8000000000008002, 0x8000000000000080, 0x000000000000800A, 0x800000008000000A,
   0x8000000080008081, 0x8000000000008080, 0x0000000080000001, 0x8000000080008008]

/-- Column parities, rotations, lane moves and the row mix of one round, then its constant. -/
def Lanes.round (s : Lanes) (constant : UInt64) : Lanes :=
  let c0 := s.a0 ^^^ s.a5 ^^^ s.a10 ^^^ s.a15 ^^^ s.a20
  let c1 := s.a1 ^^^ s.a6 ^^^ s.a11 ^^^ s.a16 ^^^ s.a21
  let c2 := s.a2 ^^^ s.a7 ^^^ s.a12 ^^^ s.a17 ^^^ s.a22
  let c3 := s.a3 ^^^ s.a8 ^^^ s.a13 ^^^ s.a18 ^^^ s.a23
  let c4 := s.a4 ^^^ s.a9 ^^^ s.a14 ^^^ s.a19 ^^^ s.a24
  let d0 := c4 ^^^ rotate c1 1
  let d1 := c0 ^^^ rotate c2 1
  let d2 := c1 ^^^ rotate c3 1
  let d3 := c2 ^^^ rotate c4 1
  let d4 := c3 ^^^ rotate c0 1
  let b0 := s.a0 ^^^ d0
  let b1 := rotate (s.a6 ^^^ d1) 44
  let b2 := rotate (s.a12 ^^^ d2) 43
  let b3 := rotate (s.a18 ^^^ d3) 21
  let b4 := rotate (s.a24 ^^^ d4) 14
  let b5 := rotate (s.a3 ^^^ d3) 28
  let b6 := rotate (s.a9 ^^^ d4) 20
  let b7 := rotate (s.a10 ^^^ d0) 3
  let b8 := rotate (s.a16 ^^^ d1) 45
  let b9 := rotate (s.a22 ^^^ d2) 61
  let b10 := rotate (s.a1 ^^^ d1) 1
  let b11 := rotate (s.a7 ^^^ d2) 6
  let b12 := rotate (s.a13 ^^^ d3) 25
  let b13 := rotate (s.a19 ^^^ d4) 8
  let b14 := rotate (s.a20 ^^^ d0) 18
  let b15 := rotate (s.a4 ^^^ d4) 27
  let b16 := rotate (s.a5 ^^^ d0) 36
  let b17 := rotate (s.a11 ^^^ d1) 10
  let b18 := rotate (s.a17 ^^^ d2) 15
  let b19 := rotate (s.a23 ^^^ d3) 56
  let b20 := rotate (s.a2 ^^^ d2) 62
  let b21 := rotate (s.a8 ^^^ d3) 55
  let b22 := rotate (s.a14 ^^^ d4) 39
  let b23 := rotate (s.a15 ^^^ d0) 41
  let b24 := rotate (s.a21 ^^^ d1) 2
  { a0 := b0 ^^^ (~~~b1 &&& b2) ^^^ constant
    a1 := b1 ^^^ (~~~b2 &&& b3)
    a2 := b2 ^^^ (~~~b3 &&& b4)
    a3 := b3 ^^^ (~~~b4 &&& b0)
    a4 := b4 ^^^ (~~~b0 &&& b1)
    a5 := b5 ^^^ (~~~b6 &&& b7)
    a6 := b6 ^^^ (~~~b7 &&& b8)
    a7 := b7 ^^^ (~~~b8 &&& b9)
    a8 := b8 ^^^ (~~~b9 &&& b5)
    a9 := b9 ^^^ (~~~b5 &&& b6)
    a10 := b10 ^^^ (~~~b11 &&& b12)
    a11 := b11 ^^^ (~~~b12 &&& b13)
    a12 := b12 ^^^ (~~~b13 &&& b14)
    a13 := b13 ^^^ (~~~b14 &&& b10)
    a14 := b14 ^^^ (~~~b10 &&& b11)
    a15 := b15 ^^^ (~~~b16 &&& b17)
    a16 := b16 ^^^ (~~~b17 &&& b18)
    a17 := b17 ^^^ (~~~b18 &&& b19)
    a18 := b18 ^^^ (~~~b19 &&& b15)
    a19 := b19 ^^^ (~~~b15 &&& b16)
    a20 := b20 ^^^ (~~~b21 &&& b22)
    a21 := b21 ^^^ (~~~b22 &&& b23)
    a22 := b22 ^^^ (~~~b23 &&& b24)
    a23 := b23 ^^^ (~~~b24 &&& b20)
    a24 := b24 ^^^ (~~~b20 &&& b21) }

/-- Twenty-four rounds, one for each constant. -/
def Lanes.permute (s : Lanes) : Lanes := roundConstants.foldl Lanes.round s

/-! ## The sponge -/

/-- Bytes absorbed between two permutations. -/
def rate : Nat := 136

/-- The byte at `i`, zero past the end. -/
@[inline] def byteAt (data : ByteArray) (i : Nat) : UInt64 :=
  if h : i < data.size then data[i].toUInt64 else 0

/-- The eight bytes from `i` on as one lane, least significant first. -/
def laneAt (data : ByteArray) (i : Nat) : UInt64 :=
  byteAt data i ||| (byteAt data (i + 1) <<< 8) ||| (byteAt data (i + 2) <<< 16)
    ||| (byteAt data (i + 3) <<< 24) ||| (byteAt data (i + 4) <<< 32)
    ||| (byteAt data (i + 5) <<< 40) ||| (byteAt data (i + 6) <<< 48)
    ||| (byteAt data (i + 7) <<< 56)

/-- Mix the block that starts at byte `i` into the first seventeen lanes and permute. -/
def Lanes.absorb (s : Lanes) (data : ByteArray) (i : Nat) : Lanes :=
  { s with
    a0 := s.a0 ^^^ laneAt data i
    a1 := s.a1 ^^^ laneAt data (i + 8)
    a2 := s.a2 ^^^ laneAt data (i + 16)
    a3 := s.a3 ^^^ laneAt data (i + 24)
    a4 := s.a4 ^^^ laneAt data (i + 32)
    a5 := s.a5 ^^^ laneAt data (i + 40)
    a6 := s.a6 ^^^ laneAt data (i + 48)
    a7 := s.a7 ^^^ laneAt data (i + 56)
    a8 := s.a8 ^^^ laneAt data (i + 64)
    a9 := s.a9 ^^^ laneAt data (i + 72)
    a10 := s.a10 ^^^ laneAt data (i + 80)
    a11 := s.a11 ^^^ laneAt data (i + 88)
    a12 := s.a12 ^^^ laneAt data (i + 96)
    a13 := s.a13 ^^^ laneAt data (i + 104)
    a14 := s.a14 ^^^ laneAt data (i + 112)
    a15 := s.a15 ^^^ laneAt data (i + 120)
    a16 := s.a16 ^^^ laneAt data (i + 128) : Lanes }.permute

/-- `data`, a one byte, zeros up to a whole number of blocks, and the top bit of the last byte. -/
def pad (data : ByteArray) : ByteArray :=
  let short := rate - data.size % rate
  if short = 1 then data.push 0x81
  else ((short - 2).repeat (·.push 0) (data.push 0x01)).push 0x80

/-- Absorb `count` blocks, the first of them at byte `i`. -/
def absorbBlocks (data : ByteArray) : Nat → Nat → Lanes → Lanes
  | 0, _, s => s
  | count + 1, i, s => absorbBlocks data count (i + rate) (s.absorb data i)

/-- Byte `i` of a lane, least significant first. -/
def laneByte (lane : UInt64) (i : Nat) : UInt8 := (lane >>> (8 * i).toUInt64).toUInt8

/-- The first four lanes, least significant byte first. -/
def Lanes.digest (s : Lanes) : Root :=
  Vector.ofFn fun i : Fin 32 =>
    let lane := if i.val < 8 then s.a0 else if i.val < 16 then s.a1 else if i.val < 24 then s.a2 else s.a3
    laneByte lane (i.val % 8)

end Beacon.Keccak

/-- The Keccak-256 digest of a byte string. -/
def Beacon.keccak256 (data : ByteArray) : Beacon.Root :=
  let padded := Beacon.Keccak.pad data
  (Beacon.Keccak.absorbBlocks padded (padded.size / Beacon.Keccak.rate) 0 {}).digest
