set_option autoImplicit false

/-! # Byte strings

Strings of a fixed number of bytes (roots, keys, signatures, versions, addresses), the 8-byte
little-endian and big-endian forms of words, and lower-case hexadecimal text. -/

namespace Beacon

/-- A string of exactly `n` bytes. -/
abbrev Bytes (n : Nat) : Type := Vector UInt8 n

/-- A 32-byte hash. -/
abbrev Root : Type := Bytes 32

/-- A 48-byte public key. -/
abbrev PublicKey : Type := Bytes 48

/-- A 96-byte signature. -/
abbrev Signature : Type := Bytes 96

/-- A 4-byte fork version. -/
abbrev Version : Type := Bytes 4

namespace Bytes

variable {n : Nat}

/-- The string of one byte repeated. -/
def fill (n : Nat) (b : UInt8) : Bytes n := Vector.replicate n b

/-- The string of zero bytes. -/
def zero (n : Nat) : Bytes n := fill n 0

instance : Inhabited (Bytes n) := ⟨zero n⟩

/-- The byte string as a value of free length. -/
def toByteArray (b : Bytes n) : ByteArray := ⟨b.toArray⟩

/-- Read a string of exactly `n` bytes. -/
def ofArray? (n : Nat) (a : Array UInt8) : Option (Bytes n) :=
  if h : a.size = n then some ⟨a, h⟩ else none

/-- Bitwise exclusive or, byte by byte. -/
def xor (a b : Bytes n) : Bytes n := Vector.zipWith (· ^^^ ·) a b

end Bytes

/-! ## Words as bytes -/

/-- The low `k` bytes of `n`, least significant first. -/
def littleEndian : Nat → Nat → List UInt8
  | 0, _ => []
  | k + 1, n => UInt8.ofNat n :: littleEndian k (n / 256)

/-- The number whose bytes, least significant first, are given. -/
def ofLittleEndian : List UInt8 → Nat
  | [] => 0
  | b :: bs => b.toNat + 256 * ofLittleEndian bs

@[simp] theorem length_littleEndian (k n : Nat) : (littleEndian k n).length = k := by
  induction k generalizing n with
  | zero => rfl
  | succ k ih => simp [littleEndian, ih]

theorem ofLittleEndian_littleEndian (k n : Nat) :
    ofLittleEndian (littleEndian k n) = n % Nat.pow 256 k := by
  induction k generalizing n with
  | zero => simp [littleEndian, ofLittleEndian, Nat.mod_one]
  | succ k ih =>
    have h : (UInt8.ofNat n).toNat = n % 256 := UInt8.toNat_ofNat'
    have hp : Nat.pow 256 (k + 1) = 256 * Nat.pow 256 k := Nat.mul_comm _ _
    rw [littleEndian, ofLittleEndian, ih, h, hp, Nat.mod_mul]

/-- The low 8 bytes of `n`, most significant first. -/
def bigEndian64 (n : Nat) : List UInt8 := (littleEndian 8 n).reverse

/-- The number whose bytes, most significant first, are given. -/
def ofBigEndian (bs : List UInt8) : Nat := ofLittleEndian bs.reverse

/-- Append the 8-byte little-endian form of `n`. -/
def pushWord (out : ByteArray) (n : Nat) : ByteArray :=
  let w := n.toUInt64
  ((((((((out.push w.toUInt8).push (w >>> 8).toUInt8).push (w >>> 16).toUInt8).push
    (w >>> 24).toUInt8).push (w >>> 32).toUInt8).push (w >>> 40).toUInt8).push
    (w >>> 48).toUInt8).push (w >>> 56).toUInt8)

/-! ## Hexadecimal text -/

namespace Hex

/-- The lower-case digit of a value below sixteen. -/
def digit (n : Nat) : Char := "0123456789abcdef".toList.getD n '0'

/-- The value of a digit of either case. -/
def value? (c : Char) : Option Nat :=
  if '0' ≤ c ∧ c ≤ '9' then some (c.toNat - '0'.toNat)
  else if 'a' ≤ c ∧ c ≤ 'f' then some (c.toNat - 'a'.toNat + 10)
  else if 'A' ≤ c ∧ c ≤ 'F' then some (c.toNat - 'A'.toNat + 10)
  else none

/-- Two digits for a byte. -/
def ofByte (b : UInt8) : List Char := [digit (b.toNat / 16), digit (b.toNat % 16)]

/-- Two digits for each byte, in order. -/
def encode (bs : List UInt8) : String := String.ofList (bs.flatMap ofByte)

/-- Bytes of pairs of digits; none for a lone digit or another character. -/
def decodeChars : List Char → Option (List UInt8)
  | [] => some []
  | [_] => none
  | a :: b :: rest => do
    let hi ← value? a
    let lo ← value? b
    let tail ← decodeChars rest
    return UInt8.ofNat (hi * 16 + lo) :: tail

/-- The bytes written in `text`, if it is hexadecimal. -/
def decode (text : String) : Option (List UInt8) := decodeChars text.toList

end Hex

/-- The lower-case hexadecimal form of a fixed-length string. -/
def Bytes.hex {n : Nat} (b : Bytes n) : String := Hex.encode b.toList

end Beacon
