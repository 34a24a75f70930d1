import Beacon.Duties.Process
import Beacon.Duties.Settings

set_option autoImplicit false

/-! # Performing duties

What is done for each kind of duty, and the report of how it ended. Attestations and aggregates wait
until a fixed time after the start of their slot, so that a duty which comes late waits only for what
is left of that time. -/

namespace Beacon

/-- What the duties of a validator client have in common. -/
structure ExecutionSettings where
  slotsPerEpoch : Nat
  /-- Milliseconds from the start of a slot to its attestations. -/
  attestationDelay : Nat
  /-- Milliseconds from the start of a slot to its aggregates. -/
  aggregationDelay : Nat

namespace ExecutionSettings

/-- The epoch of a slot. -/
def epochOf (c : ExecutionSettings) (slot : Slot) : Epoch := slot / max c.slotsPerEpoch 1

end ExecutionSettings

/-- The first number of members for which there can be no list of bits: two to the 63rd. -/
def CommitteePlace.sizeLimit : Nat := 9223372036854775808

/-- The bits of a committee with that of one member set. -/
def CommitteePlace.bits (p : CommitteePlace) (slot : Slot) : Attempt ExecutionError (List Bool) :=
  if CommitteePlace.sizeLimit ≤ p.size then Attempt.fault .noRoom
  else if p.position < p.size then .ok ((List.replicate p.size false).set p.position true)
  else Attempt.reject (.invalidAssignment slot p.position p.size)

namespace Duty

/-- Propose a block. -/
def propose (c : ExecutionSettings) (d : Duty) : Procedure ExecutionError Unit := do
  let epoch := c.epochOf d.slot
  let fork ← Procedure.forkFor epoch .fork
  let reveal ← Procedure.sign d.pubkey (.randao epoch) fork .signer
  let block ← Procedure.ask (.createBlock d.slot reveal) .api
  let signature ← Procedure.sign d.pubkey (.block block) fork .signer
  Procedure.ask (.publishBlock { message := block, signature }) .api

/-- Attest as a member of a committee. -/
def attest (c : ExecutionSettings) (d : Duty) (place : CommitteePlace) (started : Nat) :
    Procedure ExecutionError Unit := do
  Procedure.sleepUntil (started + c.attestationDelay)
  let bits ← Procedure.ofAttempt (place.bits d.slot)
  let fork ← Procedure.forkFor (c.epochOf d.slot) .fork
  let data ← Procedure.ask (.attestationData d.slot place.index) .api
  let signature ← Procedure.sign d.pubkey (.attestation data) fork .signer
  Procedure.ask (.publishAttestation { bits, data, signature }) .api

/-- Aggregate the attestations of a committee. -/
def aggregate (c : ExecutionSettings) (d : Duty) (place : CommitteePlace) (proof : Signature)
    (started : Nat) : Procedure ExecutionError Unit := do
  Procedure.sleepUntil (started + c.aggregationDelay)
  let fork ← Procedure.forkFor (c.epochOf d.slot) .fork
  let data ← Procedure.ask (.attestationData d.slot place.index) .api
  let aggregate ← Procedure.ask (.aggregateAttestation data) .api
  let message : AggregateAndProof :=
    { aggregatorIndex := d.validatorIndex, aggregate, selectionProof := proof }
  let signature ← Procedure.sign d.pubkey (.aggregate message) fork .signer
  Procedure.ask (.publishAggregate { message, signature }) .api

/-- Perform a duty of a slot that started at a time. -/
def perform (c : ExecutionSettings) (d : Duty) (started : Nat) : Procedure ExecutionError Unit :=
  match d.task with
  | .propose => d.propose c
  | .attest place => d.attest c place started
  | .aggregate place proof => d.aggregate c place proof started

end Duty

/-! ## Reports -/

/-- How a duty ended. -/
structure DutyReport where
  slot : Slot
  kind : DutyKind
  validatorIndex : ValidatorIndex
  outcome : Except ExecutionError Unit

/-- The report of a duty; one that stopped in the middle is aborted. -/
def Duty.report (d : Duty) (outcome : Attempt ExecutionError Unit) : DutyReport where
  slot := d.slot
  kind := d.kind
  validatorIndex := d.validatorIndex
  outcome := match outcome with
    | .ok () => .ok ()
    | .error (.rejected cause) => .error cause
    | .error (.fault _) => .error (.aborted d.slot)

/-- Whether a report may stand before another one: by slot, kind and validator. -/
def DutyReport.comesBefore (a b : DutyReport) : Bool :=
  a.slot < b.slot || (a.slot == b.slot &&
    (a.kind.rank < b.kind.rank || (a.kind.rank == b.kind.rank &&
      a.validatorIndex ≤ b.validatorIndex)))

end Beacon
