import Beacon.Json.Records
import Beacon.Json.Settings

set_option autoImplicit false

/-! # Types by name

Tools name the type of the value that they hand over. -/

namespace Beacon

namespace Catalogue

/-- The root of a value of type `α`, given in the terse style. -/
def rootAs (α : Type) [Form α] [HasRoot α] (j : Json) : Option Root :=
  (read .terse j : Option α).map hashRoot

/-- The root of a value of a named type, given in the terse style. -/
def rootOf? : String → Json → Option Root
  | "u64" => rootAs Nat
  | "bool" => rootAs Bool
  | "Hash" => rootAs Root
  | "Fork" => rootAs Fork
  | "Checkpoint" => rootAs Checkpoint
  | "Validator" => rootAs Validator
  | "ExternalDataRecord" => rootAs ExternalData
  | "DepositData" => rootAs DepositData
  | "Deposit" => rootAs Deposit
  | "AttestationData" => rootAs AttestationData
  | "Attestation" => rootAs Attestation
  | "PendingAttestation" => rootAs PendingAttestation
  | "BlockHeader" => rootAs BlockHeader
  | "SignedBlockHeader" => rootAs SignedBlockHeader
  | "ProposerSlashing" => rootAs ProposerSlashing
  | "BlockBody" => rootAs BlockBody
  | "CandidateBlock" => rootAs CandidateBlock
  | "ChainState" => rootAs ChainState
  | "AggregateAndProof" => rootAs AggregateAndProof
  | "list:Validators" => rootAs (List Validator)
  | "list:Checkpoints" => rootAs (List Checkpoint)
  | "list:Deposits" => rootAs (List Deposit)
  | "list:U64s" => rootAs (List Nat)
  | "list:U64Lists" => rootAs (List (List Nat))
  | "list:Hashes" => rootAs (List Root)
  | _ => fun _ => none

/-- Read a value in the stored style and write it again, in its canonical form. -/
def canonicalAs (α : Type) [Form α] (j : Json) : Option Json :=
  (read .stored j : Option α).map (write .stored)

/-- The canonical form of values of a named type in the stored style. -/
def canonical? : String → Option (Json → Option Json)
  | "Fork" => some (canonicalAs Fork)
  | "Checkpoint" => some (canonicalAs Checkpoint)
  | "Validator" => some (canonicalAs Validator)
  | "ExternalDataRecord" => some (canonicalAs ExternalData)
  | "DepositData" => some (canonicalAs DepositData)
  | "Deposit" => some (canonicalAs Deposit)
  | "AttestationData" => some (canonicalAs AttestationData)
  | "Attestation" => some (canonicalAs Attestation)
  | "PendingAttestation" => some (canonicalAs PendingAttestation)
  | "BlockHeader" => some (canonicalAs BlockHeader)
  | "SignedBlockHeader" => some (canonicalAs SignedBlockHeader)
  | "ProposerSlashing" => some (canonicalAs ProposerSlashing)
  | "BlockBody" => some (canonicalAs BlockBody)
  | "CandidateBlock" => some (canonicalAs CandidateBlock)
  | "SignedBlock" => some (canonicalAs SignedBlock)
  | "ChainState" => some (canonicalAs ChainState)
  | "ProtocolConstants" => some (canonicalAs Constants)
  | "AggregateAndProof" => some (canonicalAs AggregateAndProof)
  | "SignedAggregateAndProof" => some (canonicalAs SignedAggregateAndProof)
  | "ForkInfo" => some (canonicalAs ForkInfo)
  | "ValidatorDuties" => some (canonicalAs ValidatorDuties)
  | "DepositChainBlock" => some (canonicalAs DepositBlock)
  | "ChainEvent" => some (canonicalAs ChainEvent)
  | "EventTopic" => some (canonicalAs EventTopic)
  | _ => none

end Catalogue

end Beacon
