import Beacon.Keccak

set_option autoImplicit false

/-! # Commitments

The root of a value is the digest of one byte string: the value's domain tag, then its fields in
order. Words, flags, digests and byte strings stand for themselves; a nested value stands there by
its own root; a list hashes its length and then the root of each element. `Commitment` is that
recipe as a tree, `Commitment.root` its digest, and `HasRoot` says what the tree of a type is. Equal
values have equal trees, hence equal roots. -/

namespace Beacon

mutual

/-- What a root stands for: itself, or a tag with fields under it. -/
inductive Commitment where
  | digest (root : Root)
  | node (tag : ByteArray) (fields : List Field)

/-- One field under a tag. -/
inductive Field where
  | word (n : Nat)
  | flag (b : Bool)
  | digest (root : Root)
  | bytes (b : ByteArray)
  | nested (c : Commitment)

end

/-- Append the bytes of a string of known length. -/
def pushBytes {n : Nat} (out : ByteArray) (b : Bytes n) : ByteArray := b.foldl .push out

/-- A length-prefixed byte string. -/
def pushPrefixed (out : ByteArray) (b : ByteArray) : ByteArray := pushWord out b.size ++ b

mutual

/-- The digest of the tag and the fields in order. -/
def Commitment.root : Commitment → Root
  | .digest r => r
  | .node tag fields => keccak256 (Field.pushAll (pushPrefixed .empty tag) fields)

/-- Append the bytes of one field; a nested value appends its root. -/
def Field.push (out : ByteArray) : Field → ByteArray
  | .word n => pushWord out n
  | .flag b => out.push (if b then 1 else 0)
  | .digest r => pushBytes out r
  | .bytes b => pushPrefixed out b
  | .nested c => pushBytes out c.root

/-- Append the bytes of the fields in order. -/
def Field.pushAll (out : ByteArray) : List Field → ByteArray
  | [] => out
  | f :: fs => Field.pushAll (f.push out) fs

end

/-- The fields under a tag given as text. -/
def Commitment.tagged (tag : String) (fields : List Field) : Commitment :=
  .node tag.toUTF8 fields

/-- A list of commitments: its length, then each root. -/
def Commitment.list (items : List Commitment) : Commitment :=
  .tagged "list" (.word items.length :: items.map .nested)

/-! ## Types with a root -/

/-- A type whose values have a root. -/
class HasRoot (α : Type) where
  commitment : α → Commitment

export HasRoot (commitment)

/-- The root of a value. -/
def hashRoot {α : Type} [HasRoot α] (x : α) : Root := (commitment x).root

/-- The field that stands for a nested value. -/
def Field.of {α : Type} [HasRoot α] (x : α) : Field := .nested (commitment x)

instance : HasRoot Root := ⟨.digest⟩

instance : HasRoot Nat := ⟨fun n => .tagged "u64" [.word n]⟩

instance : HasRoot Bool := ⟨fun b => .tagged "bool" [.flag b]⟩

instance {α : Type} [HasRoot α] : HasRoot (List α) := ⟨fun xs => .list (xs.map commitment)⟩

instance {α : Type} [HasRoot α] : HasRoot (Array α) := ⟨fun xs => commitment xs.toList⟩

@[simp] theorem hashRoot_root (r : Root) : hashRoot r = r := by
  simp [hashRoot, commitment, Commitment.root]

/-! ## Small digests -/

/-- The root under a tag of fields without nested values. -/
def taggedDigest (tag : String) (fields : List Field) : Root := (Commitment.tagged tag fields).root

/-- The number that the first eight bytes of a root spell, least significant first. -/
def Bytes.leadingWord {n : Nat} (r : Bytes n) : Nat := ofLittleEndian (r.toList.take 8)

end Beacon
