import Beacon.Json.Basic
import Beacon.Bytes

set_option autoImplicit false

/-! # Values as JSON

`Form` says how a type is written as JSON and read back. There are two styles. The *stored* style is
the one kept in files: byte strings are lists of numbers, every member without a default has to be
there, no known member twice, and a record may also be a list of its members in order. The *terse*
style is meant for tools: byte strings are hexadecimal text (two digits and a star fill the whole
string with one byte), bits are a text of ones and zeros, and what is absent or null is zero. -/

namespace Beacon

/-- How a value is written. -/
inductive Style where
  | stored
  | terse
  deriving DecidableEq, Repr

/-- A type with a JSON form. -/
class Form (α : Type) where
  write : Style → α → Json
  read : Style → Json → Option α

export Form (write read)

/-! ## Plain values -/

instance : Form Nat where
  write _ n := .natural n
  read
    | _, .natural n => if n < Word.limit then some n else none
    | .terse, .null => some 0
    | _, _ => none

instance : Form Bool where
  write _ b := .bool b
  read
    | _, .bool b => some b
    | .terse, .null => some false
    | _, _ => none

instance : Form String where
  write _ s := .string s
  read
    | _, .string s => some s
    | .terse, .null => some ""
    | _, _ => none

instance {α : Type} [Form α] : Form (List α) where
  write style xs := .array (xs.map (write style))
  read
    | style, .array items => items.mapM (read style)
    | .terse, .null => some []
    | _, _ => none

instance {α : Type} [Form α] : Form (Array α) where
  write style xs := write style xs.toList
  read style j := (read style j : Option (List α)).map List.toArray

instance {α : Type} [Form α] : Form (Option α) where
  write style
    | some x => write style x
    | none => .null
  read style
    | .null => some none
    | j => (read style j).map some

/-! ## Byte strings and bits -/

/-- A byte as a number. -/
def byte? : Json → Option UInt8
  | .natural n => if n < 256 then some (UInt8.ofNat n) else none
  | _ => none

/-- Hexadecimal text of exactly `n` bytes, or one byte and a star. -/
def hexBytes? (n : Nat) (text : String) : Option (Bytes n) :=
  match text.toList with
  | [a, b, '*'] => (Hex.decodeChars [a, b]).bind fun bs => bs.head?.map (Bytes.fill n)
  | cs => (Hex.decodeChars cs).bind fun bs => Bytes.ofArray? n bs.toArray

instance {n : Nat} : Form (Bytes n) where
  write
    | .stored, b => .array (b.toList.map fun x => .natural x.toNat)
    | .terse, b => .string b.hex
  read
    | .stored, .array items => (items.mapM byte?).bind fun bs => Bytes.ofArray? n bs.toArray
    | .terse, .string s => hexBytes? n s
    | .terse, .null => some (Bytes.zero n)
    | _, _ => none

/-- A byte string that the stored style also takes as text, byte for byte. -/
def readByteText (n : Nat) : Style → Json → Option (Bytes n)
  | .stored, .string s => Bytes.ofArray? n s.toUTF8.data
  | .stored, .rawString _ bs => Bytes.ofArray? n bs.toArray
  | style, j => read style j

/-- A byte string that is hexadecimal text in either style; leading marks `0x` are skipped. -/
def readHexText (n : Nat) : Style → Json → Option (Bytes n)
  | .stored, .string s => (Hex.decodeChars (unmarked s.toList)).bind fun bs => Bytes.ofArray? n bs.toArray
  | .stored, _ => none
  | .terse, j => read .terse j
where
  unmarked : List Char → List Char
    | '0' :: 'x' :: rest => unmarked rest
    | cs => cs

/-- Bits, first one first. -/
def writeBits : Style → List Bool → Json
  | .stored, bits => write .stored bits
  | .terse, bits => .string (String.ofList (bits.map fun b => if b then '1' else '0'))

/-- Bits, first one first; in the terse style every character but a one is a zero. -/
def readBits : Style → Json → Option (List Bool)
  | .stored, j => read .stored j
  | .terse, .string s => some (s.toList.map (· = '1'))
  | .terse, .null => some []
  | .terse, _ => none

/-- A fixed number of bits. -/
def readBitVector (n : Nat) (style : Style) (j : Json) : Option (Vector Bool n) :=
  if style = .terse ∧ j matches .null then some (Vector.replicate n false)
  else do
    let bits ← readBits style j
    if h : bits.length = n then some ⟨bits.toArray, by simpa using h⟩ else none

/-! ## Records -/

/-- What a record gives for each of its names. -/
structure Row where
  style : Style
  find : String → Option Json

/-- A record with the given members in their order: an object, or in the stored style also a list of
the leading members. -/
def Row.read? (style : Style) (names : List String) (j : Json) : Option Row :=
  match style, j with
  | .stored, .object ms =>
    if (names.all fun n => (ms.filter (·.1 == n)).length ≤ 1) &&
        (ms.all fun m => names.contains m.1 || m.2.isSkippable) then
      some ⟨style, fun n => (ms.find? (·.1 == n)).map (·.2)⟩
    else none
  | .stored, .array items =>
    if items.length ≤ names.length then
      some ⟨style, fun n => ((names.zip items).find? (·.1 == n)).map (·.2)⟩
    else none
  | .terse, .object _ => some ⟨style, fun n => j.present? n⟩
  | .terse, .null => some ⟨style, fun _ => none⟩
  | _, _ => none

namespace Row

variable {α : Type}

/-- A member by a reader of its own; in the terse style an absent one is read as null. -/
def via (r : Row) (reader : Style → Json → Option α) (name : String) : Option α :=
  match r.find name, r.style with
  | some j, _ => reader r.style j
  | none, .stored => none
  | none, .terse => reader .terse .null

/-- A member that has to be there. -/
def get [Form α] (r : Row) (name : String) : Option α := r.via read name

/-- A member with a value for its absence, by a reader of its own. -/
def viaD (r : Row) (reader : Style → Json → Option α) (name : String) (absent : α) : Option α :=
  match r.find name with
  | some j => reader r.style j
  | none => some absent

/-- A member with a value for its absence. -/
def getD [Form α] (r : Row) (name : String) (absent : α) : Option α := r.viaD read name absent

end Row

end Beacon
