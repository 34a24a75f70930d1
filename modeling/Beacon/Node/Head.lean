import Beacon.Duties.Failure
import Beacon.Events.Event
import Beacon.Node.Assignments

set_option autoImplicit false

/-! # The head of the chain

The latest block of a node with the state that it results in. Questions about slots to come are
answered from that state, advanced through empty slots; questions about slots that have passed are
answered from the state itself. -/

namespace Beacon

/-- A node refuses what its engine refuses. -/
def ApiError.ofTransition (cause : TransitionError) : ApiError := .rejected cause.message

/-- A block and the state after it. -/
structure ChainHead where
  state : ChainState
  block : CandidateBlock
  deriving Inhabited

namespace ChainHead

variable (h : ChainHead) (e : Engine)

/-- The state of the head, advanced to a slot that lies ahead. -/
def stateAt (slot : Slot) : Attempt ApiError ChainState :=
  if slot ≤ h.state.slot then .ok h.state else (e.advance h.state slot).widen .ofTransition

/-- What signatures on this chain commit to. -/
def forkInfo : ForkInfo where
  fork := h.state.fork
  genesisValidatorsRoot := h.state.genesisValidatorsRoot

/-- The assignments in an epoch of the validators that the given keys belong to. -/
def duties (epoch : Epoch) (keys : List PublicKey) : Attempt ApiError (List ValidatorDuties) := do
  let s ← h.stateAt e (e.constants.epochStart epoch)
  (e.assignments s epoch keys).widen .ofTransition

/-- The block root at a slot, which an attestation has to name. -/
def rootAt (s : ChainState) (slot : Slot) : Attempt ApiError Root :=
  match e.blockRootAt? s slot with
  | some root => .ok root
  | none => Attempt.reject (.rejected s!"no block root known at slot {slot}")

/-- The vote of a committee: the head of its slot, and a link from the justified checkpoint to the
epoch of the slot. -/
def attestationData (slot : Slot) (index : CommitteeIndex) : Attempt ApiError AttestationData := do
  let c := e.constants
  let s ← h.stateAt e slot
  let epoch := c.epochAt slot
  let committees ← (e.committees s epoch).widen .ofTransition
  Attempt.require ((committees.committee? slot index).isSome)
    (.rejected s!"no committee {index} at slot {slot}")
  let root ← rootAt e s slot
  let targetRoot ← rootAt e s (c.epochStart epoch)
  return { slot
           index
           beaconBlockRoot := root
           source := if s.currentEpoch c = epoch then s.currentJustified else s.previousJustified
           target := ⟨epoch, targetRoot⟩ }

/-- The head after a block on top of this one. -/
def extend (b : CandidateBlock) : Attempt ApiError ChainHead := do
  let state ← (e.importBlock h.state b).widen .ofTransition
  return { state, block := b }

/-- What there is to announce once `new` is the head. -/
def news (new : ChainHead) : List ChainEvent :=
  .blockImported new.block.slot new.block.root new.block.proposerIndex ::
    if h.state.finalized.epoch < new.state.finalized.epoch then
      [.checkpointFinalized new.state.finalized]
    else []

end ChainHead

end Beacon
