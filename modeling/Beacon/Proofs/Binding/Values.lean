import Mathlib
import Beacon.Duties.Duty
import Beacon.Proofs.Binding.Trees

set_option autoImplicit false

/-! # Roots that bind their values

A type with a root writes its values as trees. The trees are `Faithful`: all of one shape, so that
the same root means the same tree, and different for different values, so that no field is left out.
Both are shown type by type, from the types of the fields up to whole states. A block is hashed as
its header, with the root of the body in it; its own tree has the body's in that place
(`CandidateBlock.tree`). `RootType` lists the types, closed under lists, and `root_binds_value` is
the statement for all of them. -/

namespace Beacon

variable {α : Type}

/-! ## Trees that tell values apart -/

/-- Trees for the values of a type: all of one shape, and different ones for different values. -/
structure Faithful (tree : α → Commitment) : Prop where
  injective : Function.Injective tree
  sameShape : ∀ a b, (tree a).SameShape (tree b)

namespace Faithful

/-- Fields under a tag tell values apart when the fields do. -/
theorem tagged {tag : String} {fields : α → List Field}
    (hinjective : ∀ a b, fields a = fields b → a = b)
    (hshape : ∀ a b, Field.AllSameShape (fields a) (fields b)) :
    Faithful fun a => .tagged tag (fields a) where
  injective a b h := hinjective a b (Commitment.node.inj h).2
  sameShape a b := by
    rw [Commitment.tagged, Commitment.tagged, Commitment.SameShape]
    exact ⟨rfl, hshape a b⟩

/-- So do lists of trees. -/
theorem list {tree : α → Commitment} (h : Faithful tree) :
    Faithful fun xs : List α => .list (xs.map tree) := by
  refine .tagged (fun xs ys heq => ?_) fun xs ys => ?_
  · have hnested : Function.Injective Field.nested := fun _ _ => Field.nested.inj
    exact h.injective.list_map (hnested.list_map (List.cons.inj heq).2)
  · -- After the lengths the elements are compared one by one, as far as both lists go.
    rw [Field.AllSameShape, Field.SameShape]
    refine ⟨trivial, ?_⟩
    induction xs generalizing ys with
    | nil => simp [Field.AllSameShape]
    | cons x xs ih =>
        cases ys with
        | nil => simp [Field.AllSameShape]
        | cons y ys =>
            simp only [List.map_cons, Field.AllSameShape, Field.SameShape]
            exact ⟨h.sameShape x y, ih ys⟩

/-- An array has the tree of its list. -/
theorem array {tree : List α → Commitment} (h : Faithful tree) :
    Faithful fun xs : Array α => tree xs.toList where
  injective _ _ heq := Array.toList_inj.1 (h.injective heq)
  sameShape _ _ := h.sameShape _ _

section

variable [HasRoot α] (h : Faithful (commitment (α := α)))

include h

theorem ofList : Faithful (commitment (α := List α)) := h.list

theorem ofArray : Faithful (commitment (α := Array α)) := h.list.array

/-- A nested value is told apart by its field. -/
theorem of_inj {x y : α} : Field.of x = Field.of y ↔ x = y := by
  rw [Field.of, Field.of, Field.nested.injEq]
  exact h.injective.eq_iff

theorem of_sameShape (x y : α) : (Field.of x).SameShape (Field.of y) := by
  rw [Field.of, Field.of, Field.SameShape]
  exact h.sameShape x y

end

end Faithful

/-! ## The types of the fields -/

@[simp] theorem Bytes.toByteArray_inj {n : Nat} {a b : Bytes n} :
    a.toByteArray = b.toByteArray ↔ a = b := by
  rw [toByteArray, toByteArray, ByteArray.mk.injEq, Vector.toArray_inj]

theorem faithful_root : Faithful (commitment (α := Root)) where
  injective a b h := Commitment.digest.inj h
  sameShape a b := by simp [commitment, Commitment.SameShape]

theorem faithful_nat : Faithful (commitment (α := Nat)) :=
  .tagged (fun a b h => by simpa using h) fun a b => by
    simp [Field.AllSameShape, Field.SameShape]

theorem faithful_bool : Faithful (commitment (α := Bool)) :=
  .tagged (fun a b h => by simpa using h) fun a b => by
    simp [Field.AllSameShape, Field.SameShape]

theorem faithful_fork : Faithful (commitment (α := Fork)) :=
  .tagged (fun a b h => by cases a; cases b; simpa using h) fun a b => by
    simp [Field.AllSameShape, Field.SameShape]

theorem faithful_checkpoint : Faithful (commitment (α := Checkpoint)) :=
  .tagged (fun a b h => by cases a; cases b; simpa using h) fun a b => by
    simp [Field.AllSameShape, Field.SameShape]

theorem faithful_validator : Faithful (commitment (α := Validator)) :=
  .tagged (fun a b h => by cases a; cases b; simpa using h) fun a b => by
    simp [Field.AllSameShape, Field.SameShape]

theorem faithful_externalData : Faithful (commitment (α := ExternalData)) :=
  .tagged (fun a b h => by cases a; cases b; simpa using h) fun a b => by
    simp [Field.AllSameShape, Field.SameShape]

theorem faithful_depositData : Faithful (commitment (α := DepositData)) :=
  .tagged (fun a b h => by cases a; cases b; simpa using h) fun a b => by
    simp [Field.AllSameShape, Field.SameShape]

theorem faithful_blockHeader : Faithful (commitment (α := BlockHeader)) :=
  .tagged (fun a b h => by cases a; cases b; simpa using h) fun a b => by
    simp [Field.AllSameShape, Field.SameShape]

/-! ## The types with nested values -/

theorem faithful_deposit : Faithful (commitment (α := Deposit)) :=
  .tagged (fun a b h => by cases a; cases b; simpa [faithful_depositData.of_inj] using h)
    fun a b => by simp [Field.AllSameShape, Field.SameShape, faithful_depositData.of_sameShape]

theorem faithful_attestationData : Faithful (commitment (α := AttestationData)) :=
  .tagged (fun a b h => by cases a; cases b; simpa [faithful_checkpoint.of_inj] using h)
    fun a b => by simp [Field.AllSameShape, Field.SameShape, faithful_checkpoint.of_sameShape]

theorem faithful_attestation : Faithful (commitment (α := Attestation)) :=
  .tagged
    (fun a b h => by
      cases a; cases b
      simpa [faithful_bool.ofList.of_inj, faithful_attestationData.of_inj] using h)
    fun a b => by
      simp [Field.AllSameShape, Field.SameShape, faithful_bool.ofList.of_sameShape,
        faithful_attestationData.of_sameShape]

theorem faithful_pendingAttestation : Faithful (commitment (α := PendingAttestation)) :=
  .tagged
    (fun a b h => by
      cases a; cases b
      simpa [faithful_bool.ofList.of_inj, faithful_attestationData.of_inj] using h)
    fun a b => by
      simp [Field.AllSameShape, Field.SameShape, faithful_bool.ofList.of_sameShape,
        faithful_attestationData.of_sameShape]

theorem faithful_signedBlockHeader : Faithful (commitment (α := SignedBlockHeader)) :=
  .tagged (fun a b h => by cases a; cases b; simpa [faithful_blockHeader.of_inj] using h)
    fun a b => by simp [Field.AllSameShape, Field.SameShape, faithful_blockHeader.of_sameShape]

theorem faithful_proposerSlashing : Faithful (commitment (α := ProposerSlashing)) :=
  .tagged (fun a b h => by cases a; cases b; simpa [faithful_signedBlockHeader.of_inj] using h)
    fun a b => by simp [Field.AllSameShape, faithful_signedBlockHeader.of_sameShape]

theorem faithful_blockBody : Faithful (commitment (α := BlockBody)) :=
  .tagged
    (fun a b h => by
      cases a; cases b
      simpa [faithful_externalData.of_inj, faithful_proposerSlashing.ofList.of_inj,
        faithful_attestation.ofList.of_inj, faithful_deposit.ofList.of_inj] using h)
    fun a b => by
      simp [Field.AllSameShape, Field.SameShape, faithful_externalData.of_sameShape,
        faithful_proposerSlashing.ofList.of_sameShape, faithful_attestation.ofList.of_sameShape,
        faithful_deposit.ofList.of_sameShape]

theorem faithful_aggregateAndProof : Faithful (commitment (α := AggregateAndProof)) :=
  .tagged (fun a b h => by cases a; cases b; simpa [faithful_attestation.of_inj] using h)
    fun a b => by simp [Field.AllSameShape, Field.SameShape, faithful_attestation.of_sameShape]

/-- Flags of two lists of one length have the same shape, and so has what follows them. -/
theorem Field.allSameShape_flags {xs ys : List Bool} {fs gs : List Field}
    (hlength : xs.length = ys.length) (h : Field.AllSameShape fs gs) :
    Field.AllSameShape (xs.map .flag ++ fs) (ys.map .flag ++ gs) := by
  induction xs generalizing ys with
  | nil =>
      obtain rfl := List.length_eq_zero_iff.1 hlength.symm
      exact h
  | cons x xs ih =>
      cases ys with
      | nil => cases hlength
      | cons y ys =>
          simp only [List.map_cons, List.cons_append, Field.AllSameShape, Field.SameShape, true_and]
          exact ih (Nat.succ.inj hlength)

theorem faithful_chainState : Faithful (commitment (α := ChainState)) := by
  refine .tagged (fun a b h => ?_) fun a b => ?_
  · cases a
    cases b
    simp only [List.cons_append, List.nil_append, List.cons.injEq, Field.word.injEq,
      Field.digest.injEq, faithful_fork.of_inj, faithful_blockHeader.of_inj,
      faithful_root.ofArray.of_inj, faithful_externalData.of_inj,
      faithful_externalData.ofList.of_inj, faithful_validator.ofArray.of_inj,
      faithful_nat.ofArray.of_inj, faithful_pendingAttestation.ofList.of_inj] at h
    obtain ⟨rfl, rfl, rfl, rfl, rfl, rfl, rfl, rfl, rfl, rfl, rfl, rfl, rfl, rfl, h⟩ := h
    -- The four bits stand one by one, before the checkpoints.
    obtain ⟨hbits, hcheckpoints⟩ := List.append_inj h (by simp)
    have hflag : Function.Injective Field.flag := fun _ _ => Field.flag.inj
    simp only [List.cons.injEq, faithful_checkpoint.of_inj] at hcheckpoints
    obtain ⟨rfl, rfl, rfl, -⟩ := hcheckpoints
    rw [Vector.toList_inj.1 (hflag.list_map hbits)]
  · simp only [List.cons_append, List.nil_append, Field.AllSameShape, Field.SameShape, true_and,
      faithful_fork.of_sameShape, faithful_blockHeader.of_sameShape,
      faithful_root.ofArray.of_sameShape, faithful_externalData.of_sameShape,
      faithful_externalData.ofList.of_sameShape, faithful_validator.ofArray.of_sameShape,
      faithful_nat.ofArray.of_sameShape, faithful_pendingAttestation.ofList.of_sameShape]
    refine Field.allSameShape_flags (by simp) ?_
    simp [Field.AllSameShape, faithful_checkpoint.of_sameShape]

/-! ## Blocks -/

/-- The tree of a block: that of its header, with the tree of the body in place of its root. -/
def CandidateBlock.tree (b : CandidateBlock) : Commitment :=
  .tagged "BlockHeader"
    [.word b.slot, .word b.proposerIndex, .digest b.parentRoot, .digest b.stateRoot, .of b.body]

theorem CandidateBlock.root_tree (b : CandidateBlock) : b.tree.root = hashRoot b := by
  simp only [tree, hashRoot, commitment, header, Field.of, Commitment.tagged, Commitment.root,
    Field.pushAll, Field.push]

theorem faithful_block : Faithful CandidateBlock.tree :=
  .tagged (fun a b h => by cases a; cases b; simpa [faithful_blockBody.of_inj] using h)
    fun a b => by simp [Field.AllSameShape, Field.SameShape, faithful_blockBody.of_sameShape]

/-- A list has the root of its elements' trees, when these have the roots of the elements. -/
theorem root_list_map [HasRoot α] {tree : α → Commitment}
    (htree : ∀ x, (tree x).root = hashRoot x) (xs : List α) :
    (Commitment.list (xs.map tree)).root = hashRoot xs := by
  refine Commitment.root_list_congr ?_
  rw [List.map_map, List.map_map]
  exact List.map_congr_left fun x _ => htree x

/-! ## All types with a root -/

/-- The types whose values have a root. -/
inductive RootType where
  | root
  | number
  | flag
  | fork
  | checkpoint
  | validator
  | externalData
  | depositData
  | deposit
  | attestationData
  | attestation
  | pendingAttestation
  | header
  | signedHeader
  | slashing
  | body
  | block
  | state
  | aggregateAndProof
  | list (element : RootType)
  | array (element : RootType)

namespace RootType

/-- The values of a type. -/
def Value : RootType → Type
  | root => Root
  | number => Nat
  | flag => Bool
  | fork => Fork
  | checkpoint => Checkpoint
  | validator => Validator
  | externalData => ExternalData
  | depositData => DepositData
  | deposit => Deposit
  | attestationData => AttestationData
  | attestation => Attestation
  | pendingAttestation => PendingAttestation
  | header => BlockHeader
  | signedHeader => SignedBlockHeader
  | slashing => ProposerSlashing
  | body => BlockBody
  | block => CandidateBlock
  | state => ChainState
  | aggregateAndProof => AggregateAndProof
  | list t => List t.Value
  | array t => Array t.Value

/-- Their roots. -/
instance hasRoot : (t : RootType) → HasRoot t.Value
  | root => inferInstanceAs (HasRoot Root)
  | number => inferInstanceAs (HasRoot Nat)
  | flag => inferInstanceAs (HasRoot Bool)
  | fork => inferInstanceAs (HasRoot Fork)
  | checkpoint => inferInstanceAs (HasRoot Checkpoint)
  | validator => inferInstanceAs (HasRoot Validator)
  | externalData => inferInstanceAs (HasRoot ExternalData)
  | depositData => inferInstanceAs (HasRoot DepositData)
  | deposit => inferInstanceAs (HasRoot Deposit)
  | attestationData => inferInstanceAs (HasRoot AttestationData)
  | attestation => inferInstanceAs (HasRoot Attestation)
  | pendingAttestation => inferInstanceAs (HasRoot PendingAttestation)
  | header => inferInstanceAs (HasRoot BlockHeader)
  | signedHeader => inferInstanceAs (HasRoot SignedBlockHeader)
  | slashing => inferInstanceAs (HasRoot ProposerSlashing)
  | body => inferInstanceAs (HasRoot BlockBody)
  | block => inferInstanceAs (HasRoot CandidateBlock)
  | state => inferInstanceAs (HasRoot ChainState)
  | aggregateAndProof => inferInstanceAs (HasRoot AggregateAndProof)
  | list t =>
      letI := hasRoot t
      inferInstanceAs (HasRoot (List t.Value))
  | array t =>
      letI := hasRoot t
      inferInstanceAs (HasRoot (Array t.Value))

/-- The whole tree that is hashed for the root of a value: its commitment, with the trees of blocks
    down to their bodies. -/
def tree : (t : RootType) → t.Value → Commitment
  | block => CandidateBlock.tree
  | list t => fun xs => .list (List.map t.tree xs)
  | array t => fun xs => .list (List.map t.tree (Array.toList xs))
  | root | number | flag | fork | checkpoint | validator | externalData | depositData | deposit
  | attestationData | attestation | pendingAttestation | header | signedHeader | slashing | body
  | state | aggregateAndProof => commitment

theorem root_tree (t : RootType) (x : t.Value) : (t.tree x).root = hashRoot x := by
  induction t with
  | block => exact CandidateBlock.root_tree x
  | list t ih => exact root_list_map ih x
  | array t ih => exact root_list_map ih (Array.toList x)
  | _ => rfl

theorem faithful_tree : (t : RootType) → Faithful t.tree
  | root => faithful_root
  | number => faithful_nat
  | flag => faithful_bool
  | fork => faithful_fork
  | checkpoint => faithful_checkpoint
  | validator => faithful_validator
  | externalData => faithful_externalData
  | depositData => faithful_depositData
  | deposit => faithful_deposit
  | attestationData => faithful_attestationData
  | attestation => faithful_attestation
  | pendingAttestation => faithful_pendingAttestation
  | header => faithful_blockHeader
  | signedHeader => faithful_signedBlockHeader
  | slashing => faithful_proposerSlashing
  | body => faithful_blockBody
  | block => faithful_block
  | state => faithful_chainState
  | aggregateAndProof => faithful_aggregateAndProof
  | list t => t.faithful_tree.list
  | array t => t.faithful_tree.list.array

end RootType

/-- **A root commits to the whole value.** Take two values of a type with a root whose numbers are
    words. When no two different byte strings among those hashed for their roots have the same
    digest, values with the same root are equal. -/
theorem root_binds_value (t : RootType) (a b : t.Value) (ha : (t.tree a).Fits)
    (hb : (t.tree b).Fits)
    (hfree : CollisionFree ((t.tree a).messages ++ (t.tree b).messages))
    (hroot : hashRoot a = hashRoot b) : a = b := by
  have htrees : (t.tree a).root = (t.tree b).root := by
    rw [t.root_tree, t.root_tree, hroot]
  exact t.faithful_tree.injective
    (Commitment.binding (t.faithful_tree.sameShape a b) ha hb hfree htrees)

/-- Two checkpoints in one order and in the other: no two of the strings that are hashed collide, so
    the lists have different roots, and the reversed list, which has the same root, is the same. -/
theorem root_binds_order :
    let c : Checkpoint := { epoch := 1 }
    let d : Checkpoint := { epoch := 2 }
    let tree := (RootType.list .checkpoint).tree
    (tree [c, d]).Fits ∧ (tree [d, c]).Fits ∧
      CollisionFree ((tree [c, d]).messages ++ (tree [d, c]).messages) ∧
      hashRoot [c, d] ≠ hashRoot [d, c] ∧
      hashRoot [c, d] = hashRoot [d, c].reverse ∧ [c, d] = [d, c].reverse := by
  intro c d tree
  have hepoch {n : Nat} (hn : n < 3) : (commitment ({ epoch := n } : Checkpoint)).Fits :=
    ⟨hn.trans (by decide), trivial, trivial⟩
  have hlength : 2 < Word.limit := by decide
  have hcd : (tree [c, d]).Fits := ⟨hlength, hepoch (by decide), hepoch (by decide), trivial⟩
  have hdc : (tree [d, c]).Fits := ⟨hlength, hepoch (by decide), hepoch (by decide), trivial⟩
  have hfree : CollisionFree ((tree [c, d]).messages ++ (tree [d, c]).messages) := by
    show CollisionFree ((commitment [c, d]).messages ++ (commitment [d, c]).messages)
    refine .of_nodup ?_
    simp only [List.map_cons, List.map_nil, commitment, Commitment.list, Commitment.tagged,
      Commitment.messages, Field.allMessages, Field.messages, List.append_nil, List.nil_append,
      List.cons_append, Field.bytesOf_pushAll, bytesOf_pushPrefixed]
    decide +kernel
  have hsame : CollisionFree ((tree [c, d]).messages ++ (tree [d, c].reverse).messages) :=
    fun x hx y hy =>
      hfree x (List.mem_append_left _ ((List.mem_append.1 hx).elim id id))
        y (List.mem_append_left _ ((List.mem_append.1 hy).elim id id))
  have hne : [c, d] ≠ [d, c] := by simp [c, d]
  refine ⟨hcd, hdc, hfree, fun hroot => hne ?_, rfl, ?_⟩
  · exact root_binds_value (.list .checkpoint) [c, d] [d, c] hcd hdc hfree hroot
  · exact root_binds_value (.list .checkpoint) [c, d] [d, c].reverse hcd hcd hsame rfl

end Beacon
