import Beacon.Chain.Registry

set_option autoImplicit false

/-! # Operations

What a block carries besides its header: votes for a record of the deposit chain, deposits,
attestations and the evidence against proposers, with the headers that such evidence quotes. -/

namespace Beacon

/-! ## The deposit chain as seen by votes -/

/-- A state of the deposit chain: how many deposits it has logged, their root, and the block. -/
structure ExternalData where
  depositRoot : Root := Bytes.zero 32
  depositCount : Nat := 0
  blockHash : Root := Bytes.zero 32
  deriving DecidableEq, Inhabited

instance : HasRoot ExternalData where
  commitment d := .tagged "ExternalDataRecord"
    [.digest d.depositRoot, .word d.depositCount, .digest d.blockHash]

/-- What a depositor submits. -/
structure DepositData where
  pubkey : PublicKey := Bytes.zero 48
  withdrawalCredentials : Root := Bytes.zero 32
  amount : Gwei := 0
  signature : Signature := Bytes.zero 96
  deriving DecidableEq, Inhabited

instance : HasRoot DepositData where
  commitment d := .tagged "DepositData"
    [.bytes d.pubkey.toByteArray, .digest d.withdrawalCredentials, .word d.amount,
     .bytes d.signature.toByteArray]

/-- A deposit with its position in the log of the deposit contract. -/
structure Deposit where
  index : Nat := 0
  data : DepositData := {}
  deriving DecidableEq, Inhabited

instance : HasRoot Deposit where
  commitment d := .tagged "Deposit" [.word d.index, .of d.data]

/-! ## Attestations -/

/-- The vote that the members of a committee sign. -/
structure AttestationData where
  slot : Slot := 0
  index : CommitteeIndex := 0
  beaconBlockRoot : Root := Bytes.zero 32
  source : Checkpoint := {}
  target : Checkpoint := {}
  deriving DecidableEq, Inhabited

instance : HasRoot AttestationData where
  commitment d := .tagged "AttestationData"
    [.word d.slot, .word d.index, .digest d.beaconBlockRoot, .of d.source, .of d.target]

/-- A vote with one bit for each member of the committee. -/
structure Attestation where
  bits : List Bool := []
  data : AttestationData := {}
  signature : Signature := Bytes.zero 96
  deriving DecidableEq, Inhabited

/-- How many members an attestation speaks for. -/
def Attestation.participants (a : Attestation) : Nat := a.bits.count true

instance : HasRoot Attestation where
  commitment a := .tagged "Attestation"
    [.of a.bits, .of a.data, .bytes a.signature.toByteArray]

/-- An attestation as the chain remembers it until its epoch is settled. -/
structure PendingAttestation where
  bits : List Bool := []
  data : AttestationData := {}
  inclusionDelay : Nat := 0
  proposerIndex : ValidatorIndex := 0
  deriving DecidableEq, Inhabited

instance : HasRoot PendingAttestation where
  commitment a := .tagged "PendingAttestation"
    [.of a.bits, .of a.data, .word a.inclusionDelay, .word a.proposerIndex]

/-! ## Headers and evidence against proposers -/

/-- The header of a block; its root is the root of the block. -/
structure BlockHeader where
  slot : Slot := 0
  proposerIndex : ValidatorIndex := 0
  parentRoot : Root := Bytes.zero 32
  stateRoot : Root := Bytes.zero 32
  bodyRoot : Root := Bytes.zero 32
  deriving DecidableEq, Inhabited

instance : HasRoot BlockHeader where
  commitment h := .tagged "BlockHeader"
    [.word h.slot, .word h.proposerIndex, .digest h.parentRoot, .digest h.stateRoot,
     .digest h.bodyRoot]

/-- A header with its proposer's signature. -/
structure SignedBlockHeader where
  message : BlockHeader := {}
  signature : Signature := Bytes.zero 96
  deriving DecidableEq, Inhabited

instance : HasRoot SignedBlockHeader where
  commitment h := .tagged "SignedBlockHeader" [.of h.message, .bytes h.signature.toByteArray]

/-- Two different headers that one proposer signed for one slot. -/
structure ProposerSlashing where
  header1 : SignedBlockHeader := {}
  header2 : SignedBlockHeader := {}
  deriving DecidableEq, Inhabited

instance : HasRoot ProposerSlashing where
  commitment s := .tagged "ProposerSlashing" [.of s.header1, .of s.header2]

end Beacon
