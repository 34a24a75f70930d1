import Beacon.Duties.Duty
import Beacon.Duties.Failure

set_option autoImplicit false

/-! # Calls

What a validator's duties ask of others: of a node, to learn assignments and to have blocks and votes
published, and of a signer, for signatures. `Call.Answer` says what comes back for each call: what
was asked for, or the cause why there is none. -/

namespace Beacon

/-- What a validator is asked to sign. -/
inductive SigningRequest where
  | randao (epoch : Epoch)
  | block (block : CandidateBlock)
  | attestation (data : AttestationData)
  | slot (slot : Slot)
  | aggregate (message : AggregateAndProof)
  deriving DecidableEq

/-- What a node is asked to do. -/
inductive ApiCall where
  | forkInfo (epoch : Epoch)
  /-- The assignments of the given keys. -/
  | duties (epoch : Epoch) (keys : List PublicKey)
  | createBlock (slot : Slot) (reveal : Signature)
  | publishBlock (block : SignedBlock)
  | attestationData (slot : Slot) (index : CommitteeIndex)
  | publishAttestation (attestation : Attestation)
  /-- The best aggregate that is known for some data. -/
  | aggregateAttestation (data : AttestationData)
  | publishAggregate (aggregate : SignedAggregateAndProof)
  /-- Join the subnet of a committee until a slot. -/
  | subscribe (slot : Slot) (index : CommitteeIndex)
  deriving DecidableEq

/-- What a node gives back when it does what it is asked. -/
@[reducible] def ApiCall.Result : ApiCall → Type
  | .forkInfo _ => ForkInfo
  | .duties .. => List ValidatorDuties
  | .createBlock .. => CandidateBlock
  | .publishBlock _ => Unit
  | .attestationData .. => AttestationData
  | .publishAttestation _ => Unit
  | .aggregateAttestation _ => Attestation
  | .publishAggregate _ => Unit
  | .subscribe .. => Unit

/-- A call to a node or to a signer. -/
inductive Call where
  | api (call : ApiCall)
  | sign (key : PublicKey) (request : SigningRequest) (fork : ForkInfo)
  deriving DecidableEq

/-- What comes back for a call. -/
@[reducible] def Call.Answer : Call → Type
  | .api call => Attempt ApiError call.Result
  | .sign .. => Attempt SignerError Signature

/-- Those who are called, with a state that calls may change. A call is noted when it is made, and
answered after its latency. -/
structure Collaborators (σ : Type) where
  /-- Milliseconds from a call to its answer. -/
  latency : σ → Call → Nat
  /-- Take note of a call at a time. -/
  note : σ → Nat → Call → σ
  answer : σ → (call : Call) → call.Answer × σ

end Beacon
