import Beacon.Chain.Operations

set_option autoImplicit false

/-! # Blocks

The body with its operations, the unsigned block that a proposer is asked to sign, and the signed
block. The root of a block is the root of its header, which holds the body by its root. -/

namespace Beacon

/-- The operations of a block. -/
structure BlockBody where
  /-- The proposer's share in the randomness of the chain. -/
  randaoReveal : Signature := Bytes.zero 96
  /-- The proposer's vote for a record of the deposit chain. -/
  externalData : ExternalData := {}
  graffiti : Root := Bytes.zero 32
  proposerSlashings : List ProposerSlashing := []
  attestations : List Attestation := []
  deposits : List Deposit := []
  deriving DecidableEq, Inhabited

instance : HasRoot BlockBody where
  commitment b := .tagged "BlockBody"
    [.bytes b.randaoReveal.toByteArray, .of b.externalData, .digest b.graffiti,
     .of b.proposerSlashings, .of b.attestations, .of b.deposits]

/-- A block before it is signed. -/
structure CandidateBlock where
  slot : Slot := 0
  proposerIndex : ValidatorIndex := 0
  parentRoot : Root := Bytes.zero 32
  stateRoot : Root := Bytes.zero 32
  body : BlockBody := {}
  deriving DecidableEq, Inhabited

namespace CandidateBlock

/-- The block that anchors a chain whose first state has the given root. -/
def genesis (stateRoot : Root) : CandidateBlock where
  stateRoot

/-- The header of the block. -/
def header (b : CandidateBlock) : BlockHeader where
  slot := b.slot
  proposerIndex := b.proposerIndex
  parentRoot := b.parentRoot
  stateRoot := b.stateRoot
  bodyRoot := hashRoot b.body

/-- The root of the block, which is that of its header. -/
def root (b : CandidateBlock) : Root := hashRoot b.header

end CandidateBlock

instance : HasRoot CandidateBlock := ⟨fun b => commitment b.header⟩

/-- A block with its proposer's signature. -/
structure SignedBlock where
  message : CandidateBlock := {}
  signature : Signature := Bytes.zero 96
  deriving DecidableEq, Inhabited

end Beacon
