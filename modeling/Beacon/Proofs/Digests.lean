import Mathlib
import Beacon.Chain.State

set_option autoImplicit false

/-! # Digests over lists of bytes

The sponge reads its input by index, and a commitment builds its input byte by byte. Both are
restated here over lists of bytes: `keccak256` absorbs the padded list block by block
(`keccak256_eq`), and the root of a commitment is the digest of the bytes of its tag and fields in
order (`Commitment.root_eq`). In this form a root does not depend on how its input was built, and
that of a closed value can be evaluated. -/

namespace Beacon

/-- The bytes of a byte string as a list. -/
def bytesOf (b : ByteArray) : List UInt8 := b.data.toList

@[simp] theorem bytesOf_push (out : ByteArray) (b : UInt8) :
    bytesOf (out.push b) = bytesOf out ++ [b] := by
  simp [bytesOf, ByteArray.push]

@[simp] theorem bytesOf_append (a b : ByteArray) : bytesOf (a ++ b) = bytesOf a ++ bytesOf b := by
  simp [bytesOf, ByteArray.data_append]

@[simp] theorem length_bytesOf (b : ByteArray) : (bytesOf b).length = b.size :=
  Array.length_toList

namespace Keccak

/-! ## The sponge -/

/-- The first eight bytes as one lane, least significant first. -/
def laneOf (bytes : List UInt8) : UInt64 :=
  (bytes.getD 0 0).toUInt64 ||| ((bytes.getD 1 0).toUInt64 <<< 8)
    ||| ((bytes.getD 2 0).toUInt64 <<< 16) ||| ((bytes.getD 3 0).toUInt64 <<< 24)
    ||| ((bytes.getD 4 0).toUInt64 <<< 32) ||| ((bytes.getD 5 0).toUInt64 <<< 40)
    ||| ((bytes.getD 6 0).toUInt64 <<< 48) ||| ((bytes.getD 7 0).toUInt64 <<< 56)

/-- Mix the first block of a list into the first seventeen lanes and permute. -/
def Lanes.absorbBlock (s : Lanes) (bytes : List UInt8) : Lanes :=
  { s with
    a0 := s.a0 ^^^ laneOf bytes
    a1 := s.a1 ^^^ laneOf (bytes.drop 8)
    a2 := s.a2 ^^^ laneOf (bytes.drop 16)
    a3 := s.a3 ^^^ laneOf (bytes.drop 24)
    a4 := s.a4 ^^^ laneOf (bytes.drop 32)
    a5 := s.a5 ^^^ laneOf (bytes.drop 40)
    a6 := s.a6 ^^^ laneOf (bytes.drop 48)
    a7 := s.a7 ^^^ laneOf (bytes.drop 56)
    a8 := s.a8 ^^^ laneOf (bytes.drop 64)
    a9 := s.a9 ^^^ laneOf (bytes.drop 72)
    a10 := s.a10 ^^^ laneOf (bytes.drop 80)
    a11 := s.a11 ^^^ laneOf (bytes.drop 88)
    a12 := s.a12 ^^^ laneOf (bytes.drop 96)
    a13 := s.a13 ^^^ laneOf (bytes.drop 104)
    a14 := s.a14 ^^^ laneOf (bytes.drop 112)
    a15 := s.a15 ^^^ laneOf (bytes.drop 120)
    a16 := s.a16 ^^^ laneOf (bytes.drop 128) : Lanes }.permute

/-- Absorb as many blocks as `count`. -/
def Lanes.absorbAll (s : Lanes) : Nat → List UInt8 → Lanes
  | 0, _ => s
  | count + 1, bytes => (s.absorbBlock bytes).absorbAll count (bytes.drop rate)

/-- What is appended to a list of the given length to fill its last block. -/
def padding (length : Nat) : List UInt8 :=
  let short := rate - length % rate
  if short = 1 then [0x81] else 0x01 :: (List.replicate (short - 2) 0 ++ [0x80])

theorem byteAt_eq (data : ByteArray) (i : Nat) :
    byteAt data i = ((bytesOf data).getD i 0).toUInt64 := by
  unfold byteAt
  split
  · next h =>
      have hi : i < data.data.toList.length := h
      simp only [bytesOf, List.getD_eq_getElem?_getD, List.getElem?_eq_getElem hi, Option.getD_some]
      rfl
  · next h =>
      have hi : (bytesOf data).length ≤ i := by
        rw [length_bytesOf]
        exact Nat.le_of_not_lt h
      rw [List.getD_eq_default _ _ hi]
      rfl

theorem laneAt_eq (data : ByteArray) (i : Nat) :
    laneAt data i = laneOf ((bytesOf data).drop i) := by
  simp [laneAt, laneOf, byteAt_eq, List.getD_eq_getElem?_getD]

theorem absorb_eq (s : Lanes) (data : ByteArray) (i : Nat) :
    s.absorb data i = s.absorbBlock ((bytesOf data).drop i) := by
  simp only [Lanes.absorb, Lanes.absorbBlock, laneAt_eq, List.drop_drop]

theorem absorbBlocks_eq (data : ByteArray) (count i : Nat) (s : Lanes) :
    absorbBlocks data count i s = s.absorbAll count ((bytesOf data).drop i) := by
  induction count generalizing i s with
  | zero => rfl
  | succ count ih =>
      rw [absorbBlocks, Lanes.absorbAll, ih, absorb_eq, List.drop_drop]

theorem bytesOf_repeat_push (count : Nat) (b : UInt8) (out : ByteArray) :
    bytesOf (count.repeat (·.push b) out) = bytesOf out ++ List.replicate count b := by
  induction count with
  | zero => simp [Nat.repeat]
  | succ count ih => rw [Nat.repeat, bytesOf_push, ih, List.append_assoc, List.replicate_succ']

theorem bytesOf_pad (data : ByteArray) :
    bytesOf (pad data) = bytesOf data ++ padding (bytesOf data).length := by
  rw [length_bytesOf]
  by_cases hshort : rate - data.size % rate = 1
  · simp [pad, padding, hshort]
  · simp [pad, padding, hshort, bytesOf_repeat_push]

end Keccak

/-- The digest of a list of bytes. -/
def digestOf (bytes : List UInt8) : Root :=
  let padded := bytes ++ Keccak.padding bytes.length
  (({} : Keccak.Lanes).absorbAll (padded.length / Keccak.rate) padded).digest

theorem keccak256_eq (data : ByteArray) : keccak256 data = digestOf (bytesOf data) := by
  simp only [keccak256, digestOf, Keccak.absorbBlocks_eq, ← length_bytesOf, Keccak.bytesOf_pad,
    List.drop_zero]

/-! ## Commitments -/

/-- The eight bytes of a word. -/
def wordBytes (n : Nat) : List UInt8 := bytesOf (pushWord .empty n)

theorem bytesOf_pushWord (out : ByteArray) (n : Nat) :
    bytesOf (pushWord out n) = bytesOf out ++ wordBytes n := by
  simp [wordBytes, pushWord, bytesOf]

theorem bytesOf_foldl_push (out : ByteArray) (bs : List UInt8) :
    bytesOf (bs.foldl .push out) = bytesOf out ++ bs := by
  induction bs generalizing out with
  | nil => simp
  | cons b bs ih => rw [List.foldl_cons, ih, bytesOf_push, List.append_assoc, List.singleton_append]

theorem bytesOf_pushBytes {n : Nat} (out : ByteArray) (b : Bytes n) :
    bytesOf (pushBytes out b) = bytesOf out ++ b.toList := by
  rw [← bytesOf_foldl_push, pushBytes, Vector.foldl, ← Array.foldl_toList, Vector.toList_toArray]

theorem bytesOf_pushPrefixed (out b : ByteArray) :
    bytesOf (pushPrefixed out b) = bytesOf out ++ (wordBytes b.size ++ bytesOf b) := by
  simp [pushPrefixed, bytesOf_pushWord]

mutual

/-- The root of a commitment, by the bytes of its tag and fields. -/
def Commitment.listRoot : Commitment → Root
  | .digest r => r
  | .node tag fields => digestOf (wordBytes tag.size ++ (bytesOf tag ++ Field.allToBytes fields))

/-- The bytes that a field contributes. -/
def Field.toBytes : Field → List UInt8
  | .word n => wordBytes n
  | .flag b => [if b then 1 else 0]
  | .digest r => r.toList
  | .bytes b => wordBytes b.size ++ bytesOf b
  | .nested c => c.listRoot.toList

/-- The bytes of the fields in order. -/
def Field.allToBytes : List Field → List UInt8
  | [] => []
  | f :: fs => f.toBytes ++ Field.allToBytes fs

end

mutual

theorem Commitment.root_eq : ∀ c : Commitment, c.root = c.listRoot
  | .digest r => by rw [Commitment.root, Commitment.listRoot]
  | .node tag fields => by
      rw [Commitment.root, Commitment.listRoot, keccak256_eq, Field.bytesOf_pushAll fields,
        bytesOf_pushPrefixed]
      simp [bytesOf]

theorem Field.bytesOf_push (out : ByteArray) :
    ∀ f : Field, bytesOf (f.push out) = bytesOf out ++ f.toBytes
  | .word n => by rw [Field.push, Field.toBytes, bytesOf_pushWord]
  | .flag b => by rw [Field.push, Field.toBytes, Beacon.bytesOf_push]
  | .digest r => by rw [Field.push, Field.toBytes, bytesOf_pushBytes]
  | .bytes b => by rw [Field.push, Field.toBytes, bytesOf_pushPrefixed]
  | .nested c => by rw [Field.push, Field.toBytes, bytesOf_pushBytes, Commitment.root_eq c]

theorem Field.bytesOf_pushAll : ∀ (fs : List Field) (out : ByteArray),
    bytesOf (Field.pushAll out fs) = bytesOf out ++ Field.allToBytes fs
  | [], out => by simp [Field.pushAll, Field.allToBytes]
  | f :: fs, out => by
      rw [Field.pushAll, Field.allToBytes, Field.bytesOf_pushAll fs, Field.bytesOf_push out f,
        List.append_assoc]

end

theorem hashRoot_eq {α : Type} [HasRoot α] (x : α) : hashRoot x = (commitment x).listRoot :=
  Commitment.root_eq _

theorem taggedDigest_eq (tag : String) (fields : List Field) :
    taggedDigest tag fields = (Commitment.tagged tag fields).listRoot :=
  Commitment.root_eq _

end Beacon
