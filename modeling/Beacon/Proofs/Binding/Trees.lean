import Mathlib
import Beacon.Proofs.Digests

set_option autoImplicit false

/-! # Roots that bind their trees

The root of a commitment is a digest of its tag and fields, and a nested commitment stands among the
fields by its own root. So the tree of a value is hashed node by node, and `Commitment.messages` are
the byte strings that are hashed on the way. Fields of the same kinds are encoded without a prefix of
one another (`Field.append_inj`), so equal strings come from equal fields; and two trees of one shape
with the same root are the same tree, unless two of their own messages collide
(`Commitment.binding`). -/

namespace Beacon

/-! ## Words -/

private theorem toUInt8_shiftRight (n : Nat) {k : Nat} (hk : k ≤ 56) :
    (n.toUInt64 >>> k.toUInt64).toUInt8 = UInt8.ofNat (n / 2 ^ k) := by
  have hsplit : (2 : Nat) ^ 64 = 2 ^ k * 2 ^ (64 - k) := by
    rw [← pow_add, Nat.add_sub_cancel' (by omega)]
  have hdvd : 2 ^ 8 ∣ (2 : Nat) ^ (64 - k) := Nat.pow_dvd_pow 2 (by omega)
  have hbyte : n % 2 ^ 64 / 2 ^ k % 2 ^ 8 = n / 2 ^ k % 2 ^ 8 := by
    rw [hsplit, Nat.mod_mul_right_div_self, Nat.mod_mod_of_dvd _ hdvd]
  rw [← UInt8.toNat_inj]
  simpa [Nat.shiftRight_eq_div_pow, Nat.mod_eq_of_lt (show k < 64 by omega)] using hbyte

/-- The eight bytes of a word are its little-endian form. -/
theorem wordBytes_eq (n : Nat) : wordBytes n = littleEndian 8 n := by
  calc wordBytes n
      = n.toUInt64.toUInt8 ::
          [8, 16, 24, 32, 40, 48, 56].map fun k => (n.toUInt64 >>> k.toUInt64).toUInt8 := rfl
    _ = UInt8.ofNat n :: [8, 16, 24, 32, 40, 48, 56].map fun k => UInt8.ofNat (n / 2 ^ k) := by
        rw [List.map_congr_left fun k hk => toUInt8_shiftRight n (by revert hk; revert k; decide)]
        simp
    _ = littleEndian 8 n := by simp [littleEndian, Nat.div_div_eq_div_mul]

@[simp] theorem length_wordBytes (n : Nat) : (wordBytes n).length = 8 := by
  rw [wordBytes_eq, length_littleEndian]

theorem wordBytes_inj {m n : Nat} (hm : m < Word.limit) (hn : n < Word.limit) :
    wordBytes m = wordBytes n ↔ m = n := by
  refine ⟨fun h => ?_, fun h => h ▸ rfl⟩
  have hread := congrArg ofLittleEndian h
  rw [wordBytes_eq, wordBytes_eq, ofLittleEndian_littleEndian, ofLittleEndian_littleEndian] at hread
  exact (Nat.mod_eq_of_lt hm).symm.trans (hread.trans (Nat.mod_eq_of_lt hn))

theorem bytesOf_inj {a b : ByteArray} : bytesOf a = bytesOf b ↔ a = b := by
  refine ⟨fun h => ByteArray.ext (Array.toList_inj.1 h), fun h => h ▸ rfl⟩

/-! ## Trees -/

mutual

/-- Two trees of one type: the same tags, and fields of the same kinds as far as both go. -/
def Commitment.SameShape : Commitment → Commitment → Prop
  | .digest _, .digest _ => True
  | .node tag fs, .node tag' gs => tag = tag' ∧ Field.AllSameShape fs gs
  | _, _ => False

/-- Two fields of one kind. -/
def Field.SameShape : Field → Field → Prop
  | .word _, .word _ | .flag _, .flag _ | .digest _, .digest _ | .bytes _, .bytes _ => True
  | .nested c, .nested d => c.SameShape d
  | _, _ => False

/-- Fields of the same kinds, one after the other, up to the end of the shorter list. -/
def Field.AllSameShape : List Field → List Field → Prop
  | f :: fs, g :: gs => f.SameShape g ∧ Field.AllSameShape fs gs
  | _, _ => True

end

mutual

/-- Every number in a tree is a word, and no byte string is longer than a word can say. -/
def Commitment.Fits : Commitment → Prop
  | .digest _ => True
  | .node _ fs => Field.AllFit fs

/-- A field whose numbers are words. -/
def Field.Fits : Field → Prop
  | .word n => n < Word.limit
  | .bytes b => b.size < Word.limit
  | .nested c => c.Fits
  | .flag _ | .digest _ => True

/-- Fields whose numbers are words. -/
def Field.AllFit : List Field → Prop
  | [] => True
  | f :: fs => f.Fits ∧ Field.AllFit fs

end

mutual

/-- The byte strings that are hashed for the root of a tree, its own one first. -/
def Commitment.messages : Commitment → List ByteArray
  | .digest _ => []
  | .node tag fs => Field.pushAll (pushPrefixed .empty tag) fs :: Field.allMessages fs

/-- The byte strings that are hashed for a field. -/
def Field.messages : Field → List ByteArray
  | .nested c => c.messages
  | .word _ | .flag _ | .digest _ | .bytes _ => []

/-- The byte strings that are hashed for some fields. -/
def Field.allMessages : List Field → List ByteArray
  | [] => []
  | f :: fs => f.messages ++ Field.allMessages fs

end

/-- No two different byte strings of a list have the same digest. -/
def CollisionFree (messages : List ByteArray) : Prop :=
  ∀ x ∈ messages, ∀ y ∈ messages, keccak256 x = keccak256 y → x = y

/-- Fewer messages on both sides do not collide either. -/
theorem CollisionFree.restrict {xs xs' ys ys' : List ByteArray} (h : CollisionFree (xs ++ ys))
    (hxs : xs' ⊆ xs) (hys : ys' ⊆ ys) : CollisionFree (xs' ++ ys') := by
  have hsub : xs' ++ ys' ⊆ xs ++ ys :=
    List.append_subset.2 ⟨List.subset_append_of_subset_left ys hxs,
      List.subset_append_of_subset_right xs hys⟩
  exact fun x hx y hy => h x (hsub hx) y (hsub hy)

/-- Messages do not collide when the digests of the different ones are different. -/
theorem CollisionFree.of_nodup {messages : List ByteArray}
    (h : ((messages.map bytesOf).dedup.map digestOf).Nodup) : CollisionFree messages := by
  intro x hx y hy hdigest
  rw [keccak256_eq, keccak256_eq] at hdigest
  refine bytesOf_inj.1 (List.inj_on_of_nodup_map h ?_ ?_ hdigest)
  · exact List.mem_dedup.2 (List.mem_map_of_mem hx)
  · exact List.mem_dedup.2 (List.mem_map_of_mem hy)

/-! ## Fields -/

namespace Field

/-- A field is written with at least one byte. -/
theorem toBytes_ne_nil (f : Field) : f.toBytes ≠ [] := by
  refine List.ne_nil_of_length_pos ?_
  cases f <;> simp [toBytes]

/-- Where one field ends and the next one begins can be read off the bytes. -/
theorem append_inj {f g : Field} {xs ys : List UInt8} (hshape : f.SameShape g) (hf : f.Fits)
    (hg : g.Fits) (h : f.toBytes ++ xs = g.toBytes ++ ys) : f.toBytes = g.toBytes ∧ xs = ys := by
  -- A byte string says its length first; all other fields have one length for each kind.
  have hlength : f.toBytes.length = g.toBytes.length := by
    cases f <;> cases g <;> simp only [SameShape] at hshape
    case bytes.bytes a b =>
      simp only [toBytes, List.append_assoc] at h ⊢
      have hsizes := (List.append_inj h (by simp)).1
      rw [wordBytes_inj hf hg] at hsizes
      simp [hsizes]
    all_goals simp [toBytes]
  exact List.append_inj h hlength

end Field

/-- The root of a list depends on the roots of its elements alone. -/
theorem Commitment.root_list_congr {cs ds : List Commitment}
    (h : cs.map Commitment.root = ds.map Commitment.root) :
    (Commitment.list cs).root = (Commitment.list ds).root := by
  have hpush (cs : List Commitment) (out : ByteArray) :
      Field.pushAll out (cs.map .nested) = (cs.map Commitment.root).foldl pushBytes out := by
    induction cs generalizing out with
    | nil => rfl
    | cons c cs ih => rw [List.map_cons, Field.pushAll, Field.push, ih, List.map_cons, List.foldl_cons]
  have hlength : cs.length = ds.length := by simpa using congrArg List.length h
  simp only [Commitment.list, Commitment.tagged, Commitment.root, Field.pushAll, hpush, h, hlength]

/-! ## Trees with the same root -/

mutual

/-- **A root binds its tree**, as far as its messages do not collide. -/
theorem Commitment.binding : ∀ {c d : Commitment}, c.SameShape d → c.Fits → d.Fits →
    CollisionFree (c.messages ++ d.messages) → c.root = d.root → c = d
  | .digest r, d => by
      intro hshape _ _ _ hroot
      cases d with
      | node => exact hshape.elim
      | digest r' =>
          rw [Commitment.root, Commitment.root] at hroot
          rw [hroot]
  | .node tag fs, d => by
      intro hshape hc hd hfree hroot
      cases d with
      | digest => exact hshape.elim
      | node tag' gs =>
          obtain ⟨rfl, hshape⟩ := hshape
          rw [Commitment.messages, Commitment.messages] at hfree
          rw [Commitment.root, Commitment.root] at hroot
          have hmessage := congrArg bytesOf (hfree _ (by simp) _ (by simp) hroot)
          rw [Field.bytesOf_pushAll, Field.bytesOf_pushAll] at hmessage
          have hfields := Field.allBinding hshape hc hd
            (hfree.restrict (List.subset_cons_self ..) (List.subset_cons_self ..))
            (List.append_cancel_left hmessage)
          rw [hfields]

/-- The bytes of a field bind the field. -/
theorem Field.binding : ∀ {f g : Field}, f.SameShape g → f.Fits → g.Fits →
    CollisionFree (f.messages ++ g.messages) → f.toBytes = g.toBytes → f = g
  | .word m, g => by
      intro hshape hm hn _ h
      cases g with
      | word n => rw [(wordBytes_inj hm hn).1 h]
      | _ => exact hshape.elim
  | .flag a, g => by
      intro hshape _ _ _ h
      cases g with
      | flag b => cases a <;> cases b <;> simp [Field.toBytes] at h ⊢
      | _ => exact hshape.elim
  | .digest r, g => by
      intro hshape _ _ _ h
      cases g with
      | digest r' => rw [Vector.toList_inj.1 h]
      | _ => exact hshape.elim
  | .bytes a, g => by
      intro hshape _ _ _ h
      cases g with
      | bytes b => rw [bytesOf_inj.1 (List.append_inj h (by simp)).2]
      | _ => exact hshape.elim
  | .nested c, g => by
      intro hshape hc hd hfree h
      cases g with
      | nested d =>
          have hroot : c.root = d.root := by
            rw [Commitment.root_eq, Commitment.root_eq]
            exact Vector.toList_inj.1 h
          rw [Commitment.binding hshape hc hd hfree hroot]
      | _ => exact hshape.elim

/-- The bytes of some fields in order bind the fields. -/
theorem Field.allBinding : ∀ {fs gs : List Field}, Field.AllSameShape fs gs → Field.AllFit fs →
    Field.AllFit gs → CollisionFree (Field.allMessages fs ++ Field.allMessages gs) →
    Field.allToBytes fs = Field.allToBytes gs → fs = gs
  | [], gs => by
      intro _ _ _ _ h
      cases gs with
      | nil => rfl
      | cons g gs => exact absurd (List.append_eq_nil_iff.1 h.symm).1 g.toBytes_ne_nil
  | f :: fs, gs => by
      intro hshape hfs hgs hfree h
      cases gs with
      | nil => exact absurd (List.append_eq_nil_iff.1 h).1 f.toBytes_ne_nil
      | cons g gs =>
          obtain ⟨hfirst, hrest⟩ := Field.append_inj hshape.1 hfs.1 hgs.1 h
          have hfield := Field.binding hshape.1 hfs.1 hgs.1
            (hfree.restrict (List.subset_append_left ..) (List.subset_append_left ..)) hfirst
          have hfields := Field.allBinding hshape.2 hfs.2 hgs.2
            (hfree.restrict (List.subset_append_right ..) (List.subset_append_right ..)) hrest
          rw [hfield, hfields]

end

end Beacon
