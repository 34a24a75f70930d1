import Mathlib
import Beacon.Json.Form
import Beacon.Proofs.Json.Texts

set_option autoImplicit false

/-! # Stored values are read back

A writer and a reader are `Inverse` when the reader gives back every value from the JSON that the
writer made of it, and that JSON is plain. Amounts are natural numbers here and words in a file, so
the reader is only asked about values whose numbers are words (`Json.Fits`). Byte strings, bits,
lists and arrays come first; `Inverse.record` is the argument for all records, which leaves the
members of each one to be looked up by their names. -/

namespace Beacon

/-! ## Numbers that are words -/

namespace Json

mutual

/-- Every number in the value is a word. -/
def Fits : Json → Prop
  | .natural n => n < Word.limit
  | .array items => AllFit items
  | .object members => MembersFit members
  | _ => True

/-- Every number in the values is a word. -/
def AllFit : List Json → Prop
  | [] => True
  | j :: js => Fits j ∧ AllFit js

/-- Every number in the values of the members is a word. -/
def MembersFit : List (String × Json) → Prop
  | [] => True
  | (_, j) :: ms => Fits j ∧ MembersFit ms

end

theorem allPlain_iff {js : List Json} : AllPlain js ↔ ∀ j ∈ js, IsPlain j := by
  induction js with
  | nil => simp [AllPlain]
  | cons j js ih => rw [AllPlain, ih, List.forall_mem_cons]

end Json

/-! ## Writers and readers -/

variable {α β : Type}

/-- The reader gives back what the writer wrote, which is plain. -/
structure Inverse (writer : α → Json) (reader : Json → Option α) : Prop where
  plain : ∀ x, (writer x).IsPlain
  restores : ∀ x, (writer x).Fits → reader (writer x) = some x

/-- The stored form of a type is read back. -/
abbrev RoundTrips (α : Type) [Form α] : Prop :=
  Inverse (write .stored : α → Json) (read .stored)

theorem roundTrips_nat : RoundTrips Nat where
  plain _ := trivial
  restores _ hn := if_pos hn

theorem roundTrips_bool : RoundTrips Bool where
  plain _ := trivial
  restores _ _ := rfl

theorem mapM_writer {writer : α → Json} {reader : Json → Option α} (h : Inverse writer reader)
    {xs : List α} (hfits : Json.AllFit (xs.map writer)) :
    (xs.map writer).mapM reader = some xs := by
  induction xs with
  | nil => rfl
  | cons x xs ih =>
      obtain ⟨hx, hxs⟩ := hfits
      rw [List.map_cons, List.mapM_cons, h.restores x hx, ih hxs]
      rfl

theorem RoundTrips.list [Form α] (h : RoundTrips α) : RoundTrips (List α) where
  plain xs := Json.allPlain_iff.2 fun j hj => by
    obtain ⟨x, -, rfl⟩ := List.mem_map.1 hj
    exact h.plain x
  restores xs hfits := mapM_writer h hfits

theorem RoundTrips.array [Form α] (h : RoundTrips α) : RoundTrips (Array α) where
  plain xs := h.list.plain xs.toList
  restores xs hfits := by
    show (read .stored (write .stored xs.toList) : Option (List α)).map List.toArray = some xs
    rw [h.list.restores xs.toList hfits, Option.map_some, Array.toArray_toList]

/-! ## Byte strings and bits -/

theorem inverse_byte : Inverse (fun x : UInt8 => .natural x.toNat) byte? where
  plain _ := trivial
  restores x _ := by
    rw [byte?, if_pos x.toNat_lt, UInt8.ofNat_toNat]

theorem ofArray?_toArray {n : Nat} (b : Bytes n) : Bytes.ofArray? n b.toList.toArray = some b := by
  have harray : b.toList.toArray = b.toArray := Array.toArray_toList
  simp [Bytes.ofArray?, harray]

theorem roundTrips_bytes {n : Nat} : RoundTrips (Bytes n) where
  plain b := Json.allPlain_iff.2 fun j hj => by
    obtain ⟨x, -, rfl⟩ := List.mem_map.1 hj
    trivial
  restores b hfits := by
    show ((b.toList.map _).mapM byte?).bind _ = some b
    rw [mapM_writer inverse_byte hfits, Option.bind_some, ofArray?_toArray]

/-- Keys and signatures are written as other byte strings are. -/
theorem inverse_byteText {n : Nat} :
    Inverse (write .stored : Bytes n → Json) (readByteText n .stored) where
  plain := roundTrips_bytes.plain
  restores := roundTrips_bytes.restores

theorem inverse_bits : Inverse (writeBits .stored) (readBits .stored) := roundTrips_bool.list

theorem inverse_bitVector {n : Nat} :
    Inverse (fun bits : Vector Bool n => writeBits .stored bits.toList)
      (readBitVector n .stored) where
  plain bits := inverse_bits.plain bits.toList
  restores bits hfits := by
    have hread := inverse_bits.restores bits.toList hfits
    have harray : bits.toList.toArray = bits.toArray := Array.toArray_toList
    simp [readBitVector, hread, harray]

/-! ## Hexadecimal text -/

namespace Hex

theorem value?_digit : ∀ n < 16, value? (digit n) = some n := by decide

theorem digit_ne_mark : ∀ n < 16, digit n ≠ 'x' := by decide

theorem decodeChars_flatMap (bs : List UInt8) : decodeChars (bs.flatMap ofByte) = some bs := by
  induction bs with
  | nil => rfl
  | cons b bs ih =>
      have hhigh : b.toNat / 16 < 16 := by have := b.toNat_lt; omega
      have hlow : b.toNat % 16 < 16 := Nat.mod_lt _ (by decide)
      rw [List.flatMap_cons, ofByte, List.cons_append, List.cons_append, List.nil_append,
        decodeChars, value?_digit _ hhigh, value?_digit _ hlow, ih]
      simp only [Option.bind_eq_bind, Option.bind_some, Nat.div_add_mod', UInt8.ofNat_toNat]
      rfl

/-- The text of bytes does not begin with a mark. -/
theorem unmarked_flatMap (bs : List UInt8) :
    readHexText.unmarked (bs.flatMap ofByte) = bs.flatMap ofByte := by
  cases bs with
  | nil => rfl
  | cons b bs =>
      have hlow : b.toNat % 16 < 16 := Nat.mod_lt _ (by decide)
      rw [List.flatMap_cons, ofByte, List.cons_append, List.cons_append, List.nil_append,
        readHexText.unmarked]
      intro rest hmarked
      exact digit_ne_mark _ hlow (List.cons.inj (List.cons.inj hmarked).2).1

end Hex

theorem inverse_hexText {n : Nat} :
    Inverse (fun b : Bytes n => .string b.hex) (readHexText n .stored) where
  plain _ := trivial
  restores b _ := by
    simp only [readHexText, Bytes.hex, Hex.encode, String.toList_ofList, Hex.unmarked_flatMap,
      Hex.decodeChars_flatMap, Option.bind_some, ofArray?_toArray]

/-! ## Records -/

/-- What a stored object gives for each of its names. -/
def Row.stored (ms : List (String × Json)) : Row :=
  ⟨.stored, fun name => (ms.find? (·.1 == name)).map (·.2)⟩

/-- An object with every member once is read by its members' names. -/
theorem Row.read?_object {ms : List (String × Json)} (names : List String)
    (hnames : ms.map (·.1) = names) (hnodup : names.Nodup) :
    Row.read? .stored names (.object ms) = some (Row.stored ms) := by
  have honce (name : String) : (ms.filter (·.1 == name)).length ≤ 1 := by
    have hcount := List.nodup_iff_count_le_one.1 (hnames ▸ hnodup) name
    rwa [List.count, List.countP_map, List.countP_eq_length_filter] at hcount
  have hknown : ∀ m ∈ ms, names.contains m.1 = true := by
    intro m hm
    rw [List.contains_iff_mem, ← hnames]
    exact List.mem_map_of_mem hm
  have hall : ((names.all fun name => decide ((ms.filter (·.1 == name)).length ≤ 1)) &&
      ms.all fun m => names.contains m.1 || m.2.isSkippable) = true := by
    simp only [Bool.and_eq_true, List.all_eq_true, decide_eq_true_eq]
    exact ⟨fun name _ => honce name, fun m hm => by rw [hknown m hm, Bool.true_or]⟩
  rw [Row.read?, if_pos hall, Row.stored]

@[simp] theorem Row.find_stored (name name' : String) (j : Json) (ms : List (String × Json)) :
    (Row.stored ((name, j) :: ms)).find name'
      = if name = name' then some j else (Row.stored ms).find name' := by
  simp only [Row.stored, List.find?_cons]
  by_cases h : name = name'
  · simp [h]
  · simp [h, beq_false_of_ne h]

@[simp] theorem Row.via_stored (reader : Style → Json → Option α) (name : String)
    (ms : List (String × Json)) :
    (Row.stored ms).via reader name = ((Row.stored ms).find name).bind (reader .stored) := by
  rw [Row.via]
  cases (Row.stored ms).find name <;> rfl

@[simp] theorem Row.get_stored [Form α] (name : String) (ms : List (String × Json)) :
    (Row.stored ms).get name = ((Row.stored ms).find name).bind (read .stored : Json → Option α) :=
  Row.via_stored read name ms

@[simp] theorem Row.getD_stored [Form α] (name : String) (absent : α) (ms : List (String × Json)) :
    (Row.stored ms).getD name absent
      = ((Row.stored ms).find name).elim (some absent) (read .stored : Json → Option α) := by
  rw [Row.getD, Row.viaD]
  cases (Row.stored ms).find name <;> rfl

/-- A record is read back when its members are, each found by its name. -/
theorem Inverse.record [Form α] {names : List String} {members : α → List (String × Json)}
    {build : Row → Option α} (hwrite : ∀ x : α, write .stored x = .object (members x))
    (hread : ∀ j, (read .stored j : Option α) = Row.read? .stored names j >>= build)
    (hnames : ∀ x, (members x).map (·.1) = names) (hnodup : names.Nodup)
    (hplain : ∀ x, Json.MembersPlain (members x))
    (hbuild : ∀ x, Json.MembersFit (members x) → build (Row.stored (members x)) = some x) :
    RoundTrips α where
  plain x := by
    rw [hwrite]
    exact hplain x
  restores x hfits := by
    rw [hwrite] at hfits ⊢
    rw [hread, Row.read?_object names (hnames x) hnodup]
    exact hbuild x hfits

end Beacon
