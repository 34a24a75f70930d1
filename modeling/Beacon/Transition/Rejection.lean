import Beacon.Chain.State

set_option autoImplicit false

/-! # Why a transition is refused

One type for each part of the transition, nested the way the parts call each other, and the text of
each cause. All of them are final: the same transition is refused again. -/

namespace Beacon

/-! ## Slots -/

/-- One of the two rings of a state. -/
inductive Ring where
  | blockRoots
  | randaoMixes
  deriving DecidableEq, Repr

/-- The name of a ring. -/
def Ring.name : Ring → String
  | .blockRoots => "block_roots"
  | .randaoMixes => "randao_mixes"

/-- Why a slot is not processed. -/
inductive SlotError where
  /-- The target lies before the state. -/
  | targetInPast (current target : Slot)
  /-- A ring does not have the length that the constants give it. -/
  | ringLength (slot : Slot) (ring : Ring) (size expected : Nat)
  /-- There is no next slot. -/
  | overflow
  deriving DecidableEq, Repr

/-- The text of the cause. -/
def SlotError.message : SlotError → String
  | .targetInPast current target =>
    s!"Cannot advance state at slot {current} back to slot {target}"
  | .ringLength slot ring size expected =>
    s!"Malformed state at slot {slot}: {ring.name} has {size} entries, expected {expected}"
  | .overflow => "Slot overflow"

/-! ## Committees -/

/-- Why there are no committees or no proposer. -/
inductive CommitteeError where
  /-- The state no longer or not yet holds the seed of the epoch. -/
  | epochOutOfRange (epoch current : Epoch)
  | noActiveValidators (epoch : Epoch)
  | missingRandaoMix (slot : Slot)
  deriving DecidableEq, Repr

/-- The text of the cause. -/
def CommitteeError.message : CommitteeError → String
  | .epochOutOfRange epoch current =>
    s!"Epoch {epoch} outside committee window of state at epoch {current}"
  | .noActiveValidators epoch => s!"No active validators at epoch {epoch}"
  | .missingRandaoMix slot => s!"Randao mix for slot {slot} missing"

/-! ## Epochs -/

/-- Why an epoch boundary is not processed. -/
inductive EpochError where
  /-- There are not as many balances as validators. -/
  | balancesLength (epoch : Epoch) (validators balances : Nat)
  /-- A pending attestation names a committee that its epoch does not have. -/
  | noCommittee (epoch : Epoch) (slot : Slot) (index : CommitteeIndex)
  /-- The history no longer holds a block root that is needed. -/
  | blockRootUnavailable (slot : Slot)
  | committee (cause : CommitteeError)
  deriving DecidableEq, Repr

/-- The text of the cause. -/
def EpochError.message : EpochError → String
  | .balancesLength epoch validators balances =>
    s!"Malformed state at epoch {epoch}: {validators} validators but {balances} balances"
  | .noCommittee epoch slot index =>
    s!"Malformed state at epoch {epoch}: no committee {index} at slot {slot}"
  | .blockRootUnavailable slot => s!"Block root for slot {slot} unavailable"
  | .committee cause => s!"Committee computation failed: {cause.message}"

/-! ## Attestations -/

/-- Why an attestation cannot be included. -/
inductive AttestationError where
  | committeeIndexOutOfRange (index : CommitteeIndex) (committees : Nat)
  | targetEpochOutOfRange (target current : Epoch)
  | targetEpochMismatch (target : Epoch) (slot : Slot)
  | inclusionTooEarly (attestationSlot stateSlot : Slot)
  | inclusionTooLate (attestationSlot stateSlot : Slot)
  | bitsLength (expected actual : Nat)
  | noParticipants
  | sourceMismatch
  | committee (cause : CommitteeError)
  deriving DecidableEq, Repr

/-- The text of the cause. -/
def AttestationError.message : AttestationError → String
  | .committeeIndexOutOfRange index committees =>
    s!"Committee index {index} out of range ({committees} committees per slot)"
  | .targetEpochOutOfRange target current =>
    s!"Target epoch {target} is neither current ({current}) nor previous"
  | .targetEpochMismatch target slot =>
    s!"Target epoch {target} does not contain attestation slot {slot}"
  | .inclusionTooEarly attestationSlot stateSlot =>
    s!"Attestation for slot {attestationSlot} included too early at slot {stateSlot}"
  | .inclusionTooLate attestationSlot stateSlot =>
    s!"Attestation for slot {attestationSlot} included too late at slot {stateSlot}"
  | .bitsLength expected actual =>
    s!"Aggregation bits length {actual} does not match committee size {expected}"
  | .noParticipants => "Attestation has no participants"
  | .sourceMismatch => "Source checkpoint does not match the justified checkpoint"
  | .committee cause => s!"Committee lookup failed: {cause.message}"

/-! ## Blocks -/

/-- Why the evidence against a proposer proves nothing. -/
inductive SlashingFlaw where
  | differentSlots
  | differentProposers
  | identicalHeaders
  | notSlashable
  deriving DecidableEq, Repr

/-- The text of the flaw. -/
def SlashingFlaw.message : SlashingFlaw → String
  | .differentSlots => "headers are for different slots"
  | .differentProposers => "headers have different proposers"
  | .identicalHeaders => "headers are identical"
  | .notSlashable => "proposer is not slashable"

/-- A list of operations with a maximum length. -/
inductive OperationKind where
  | proposerSlashings
  | attestations
  | deposits
  deriving DecidableEq, Repr

/-- The name of the list. -/
def OperationKind.name : OperationKind → String
  | .proposerSlashings => "proposer slashings"
  | .attestations => "attestations"
  | .deposits => "deposits"

/-- Why a block is not applied. -/
inductive BlockError where
  | malformedState (cause : SlotError)
  | balancesLength (slot : Slot) (validators balances : Nat)
  | slotMismatch (stateSlot blockSlot : Slot)
  | notNewerThanLatest (blockSlot latestSlot : Slot)
  | proposerMismatch (expected actual : ValidatorIndex)
  | parentRootMismatch (expected actual : Root)
  | proposerSlashed (index : ValidatorIndex)
  | unknownValidator (index : ValidatorIndex)
  | emptyRandaoReveal
  | tooManyOperations (kind : OperationKind) (count maximum : Nat)
  | invalidAttestation (cause : AttestationError)
  | invalidProposerSlashing (flaw : SlashingFlaw)
  | depositCountMismatch (expected actual : Nat)
  | depositIndexMismatch (expected actual : Nat)
  | stateRootMismatch (expected actual : Root)
  | committee (cause : CommitteeError)
  deriving DecidableEq

/-- The text of the cause. -/
def BlockError.message : BlockError → String
  | .malformedState cause => s!"Malformed state: {cause.message}"
  | .balancesLength slot validators balances =>
    s!"State at slot {slot} has {validators} validators but {balances} balances"
  | .slotMismatch stateSlot blockSlot =>
    s!"Block slot {blockSlot} does not match state slot {stateSlot}"
  | .notNewerThanLatest blockSlot latestSlot =>
    s!"Block slot {blockSlot} not newer than latest header slot {latestSlot}"
  | .proposerMismatch expected actual => s!"Proposer mismatch: expected {expected}, got {actual}"
  | .parentRootMismatch expected actual =>
    s!"Parent root mismatch: expected {expected.hex}, got {actual.hex}"
  | .proposerSlashed index => s!"Proposer {index} is slashed"
  | .unknownValidator index => s!"Unknown validator {index}"
  | .emptyRandaoReveal => "Randao reveal is empty"
  | .tooManyOperations kind count maximum => s!"Too many {kind.name}: {count} > {maximum}"
  | .invalidAttestation cause => s!"Invalid attestation: {cause.message}"
  | .invalidProposerSlashing flaw => s!"Invalid proposer slashing: {flaw.message}"
  | .depositCountMismatch expected actual => s!"Expected {expected} deposits, block has {actual}"
  | .depositIndexMismatch expected actual =>
    s!"Deposit index mismatch: expected {expected}, got {actual}"
  | .stateRootMismatch expected actual =>
    s!"State root mismatch: expected {expected.hex}, got {actual.hex}"
  | .committee cause => s!"Committee lookup failed: {cause.message}"

/-! ## Transitions -/

/-- Why a transition is refused. -/
inductive TransitionError where
  | slot (cause : SlotError)
  | epoch (cause : EpochError)
  | block (cause : BlockError)
  deriving DecidableEq

/-- The text of the cause. -/
def TransitionError.message : TransitionError → String
  | .slot cause => s!"Slot processing failed: {cause.message}"
  | .epoch cause => s!"Epoch processing failed: {cause.message}"
  | .block cause => s!"Block processing failed: {cause.message}"

/-- A refused look at committees counts as a refused block. -/
def TransitionError.ofCommittee (cause : CommitteeError) : TransitionError :=
  .block (.committee cause)

end Beacon
