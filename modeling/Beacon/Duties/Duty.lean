import Beacon.Chain.Block

set_option autoImplicit false

/-! # Duties

What a validator has to do within an epoch: propose blocks, attest with its committee, and, if it is
elected, aggregate its committee's attestations. A duty set holds the duties of one epoch in the
order in which they fall due. -/

namespace Beacon

/-! ## Assignments -/

/-- The fork that signatures of an epoch commit to. -/
structure ForkInfo where
  fork : Fork := {}
  genesisValidatorsRoot : Root := Bytes.zero 32
  deriving DecidableEq, Inhabited

/-- The version in force at `epoch`. -/
def ForkInfo.versionAt (f : ForkInfo) (epoch : Epoch) : Version := f.fork.versionAt epoch

/-- The assignments of one validator for one epoch, as a node reports them. -/
structure ValidatorDuties where
  pubkey : PublicKey := Bytes.zero 48
  validatorIndex : ValidatorIndex := 0
  attestationSlot : Slot := 0
  committeeIndex : CommitteeIndex := 0
  committeePosition : Nat := 0
  committeeSize : Nat := 0
  proposalSlots : List Slot := []
  deriving DecidableEq, Inhabited

/-! ## Duties -/

/-- The kind of a duty; within a slot, earlier kinds come first. -/
inductive DutyKind where
  | proposal
  | attestation
  | aggregation
  deriving DecidableEq, Repr

namespace DutyKind

/-- The name of the kind. -/
def name : DutyKind → String
  | .proposal => "proposal"
  | .attestation => "attestation"
  | .aggregation => "aggregation"

/-- The place of the kind within a slot. -/
def rank : DutyKind → Nat
  | .proposal => 0
  | .attestation => 1
  | .aggregation => 2

end DutyKind

/-- A place in a committee. -/
structure CommitteePlace where
  index : CommitteeIndex
  position : Nat
  size : Nat
  deriving DecidableEq, Inhabited

/-- What there is to do. -/
inductive DutyTask where
  | propose
  | attest (place : CommitteePlace)
  | aggregate (place : CommitteePlace) (selectionProof : Signature)
  deriving DecidableEq

/-- One thing that a validator has to do at a slot. -/
structure Duty where
  slot : Slot
  validatorIndex : ValidatorIndex
  pubkey : PublicKey
  task : DutyTask
  deriving DecidableEq

namespace Duty

/-- The kind of a duty. -/
def kind (d : Duty) : DutyKind :=
  match d.task with
  | .propose => .proposal
  | .attest _ => .attestation
  | .aggregate .. => .aggregation

/-- The place in the committee, for duties that have one. -/
def place? (d : Duty) : Option CommitteePlace :=
  match d.task with
  | .propose => none
  | .attest place | .aggregate place _ => some place

/-- Whether a duty may stand before another one: by slot, kind and validator. -/
def comesBefore (a b : Duty) : Bool :=
  a.slot < b.slot || (a.slot == b.slot &&
    (a.kind.rank < b.kind.rank || (a.kind.rank == b.kind.rank &&
      a.validatorIndex ≤ b.validatorIndex)))

end Duty

/-- The duties of one epoch, in order. -/
structure DutySet where
  epoch : Epoch
  fork : ForkInfo
  duties : List Duty
  deriving DecidableEq

namespace DutySet

/-- Put duties in order; duties of one slot, kind and validator stay as they came. -/
def create (epoch : Epoch) (fork : ForkInfo) (duties : List Duty) : DutySet where
  epoch
  fork
  duties := duties.mergeSort Duty.comesBefore

/-- The duties of a slot. -/
def dutiesAt (s : DutySet) (slot : Slot) : List Duty := s.duties.filter (·.slot = slot)

end DutySet

/-! ## Aggregates -/

/-- Whether a selection proof elects its signer, so that about `target` members of a committee are
elected. -/
def isAggregator (proof : Signature) (committeeSize target : Nat) : Bool :=
  let modulus := max (committeeSize / max target 1) 1
  (keccak256 proof.toByteArray).leadingWord % modulus == 0

/-- What a selection proof signs. -/
def slotSigningRoot (slot : Slot) : Root := taggedDigest "AggregationSlot" [.word slot]

/-- An aggregate with the proof that its author was elected. -/
structure AggregateAndProof where
  aggregatorIndex : ValidatorIndex := 0
  aggregate : Attestation := {}
  selectionProof : Signature := Bytes.zero 96
  deriving DecidableEq, Inhabited

instance : HasRoot AggregateAndProof where
  commitment a := .tagged "AggregateAndProof"
    [.word a.aggregatorIndex, .of a.aggregate, .bytes a.selectionProof.toByteArray]

/-- An aggregate with its author's signature. -/
structure SignedAggregateAndProof where
  message : AggregateAndProof := {}
  signature : Signature := Bytes.zero 96
  deriving DecidableEq, Inhabited

end Beacon
