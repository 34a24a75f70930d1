import Beacon.Transition.Epochs
import Beacon.Transition.Operations

set_option autoImplicit false

/-! # The transition engine

A chain's constants, checked once, and what can be done with a state under them: advance it through
empty slots, apply or import a block, pack a new block, and look up committees, proposers and block
roots. States are values; each operation gives a new one. -/

namespace Beacon

/-- Constants that fit together. -/
structure Engine where
  constants : Constants
  valid : constants.Valid

/-- What is offered for a new block. -/
structure BlockContents where
  randaoReveal : Signature := Bytes.zero 96
  externalData : ExternalData := {}
  graffiti : Root := Bytes.zero 32
  proposerSlashings : List ProposerSlashing := []
  attestations : List Attestation := []
  deposits : List Deposit := []

namespace Engine

/-- An engine for constants that pass the check. -/
def create (c : Constants) : Attempt InvalidSetting Engine :=
  match h : c.validate with
  | .ok () => .ok ⟨c, h⟩
  | .error e => .error e

/-! ## Moving a state -/

/-- Enter the next slot, and settle the epoch that ends with the present one if one does. -/
def step (c : Constants) (s : ChainState) : Attempt TransitionError ChainState := do
  let s ← (nextSlot c s).widen .slot
  if c.isEpochStart s.slot then
    let (_, s) ← (processEpoch c s).widen .epoch
    return s
  else
    return s

/-- Enter as many slots as `count`, one after the other. -/
def stepBy (c : Constants) : Nat → ChainState → Attempt TransitionError ChainState
  | 0, s => .ok s
  | count + 1, s => do
    let s ← step c s
    stepBy c count s

/-- Advance a state through empty slots up to `target`. -/
def advance (e : Engine) (s : ChainState) (target : Slot) : Attempt TransitionError ChainState := do
  Attempt.require (s.slot ≤ target) (.slot (.targetInPast s.slot target))
  stepBy e.constants (target - s.slot) s

/-- Apply a block to a state at its slot; the block has to claim the root of the result. -/
def applyBlock (e : Engine) (s : ChainState) (b : CandidateBlock) :
    Attempt TransitionError ChainState := do
  let next ← (processBlock e.constants s b).widen .block
  let root := hashRoot next
  Attempt.require (b.stateRoot = root) (.block (.stateRootMismatch root b.stateRoot))
  return next

/-- Advance a state to the slot of a block and apply the block. -/
def importBlock (e : Engine) (s : ChainState) (b : CandidateBlock) :
    Attempt TransitionError ChainState := do
  let s ← e.advance s b.slot
  e.applyBlock s b

/-! ## Packing a block -/

/-- The pieces of evidence that hold, the first against each proposer. -/
def selectSlashings (c : Constants) (s : ChainState) :
    List ValidatorIndex → List ProposerSlashing → Attempt TransitionError (List ProposerSlashing)
  | _, [] => .ok []
  | seen, x :: xs =>
    match checkSlashing c s x with
    | .ok index =>
      if seen.contains index then selectSlashings c s seen xs
      else do
        let rest ← selectSlashings c s (index :: seen) xs
        return x :: rest
    | .error (.rejected _) => selectSlashings c s seen xs
    | .error (.fault f) => .error (.fault f)

/-- Whether an attestation could be included in a block at the state's slot. -/
def isIncludable (e : Engine) (s : ChainState) (a : Attestation) : Attempt TransitionError Bool :=
  (checkAttestation e.constants s a).accepted

/-- The first `limit` elements that `p` accepts; what comes after them is not looked at. -/
def firstAccepted {α : Type} (p : α → Attempt TransitionError Bool) :
    Nat → List α → Attempt TransitionError (List α)
  | 0, _ => .ok []
  | _ + 1, [] => .ok []
  | limit + 1, x :: xs => do
    if ← p x then
      let rest ← firstAccepted p limit xs
      return x :: rest
    else firstAccepted p (limit + 1) xs

/-- The deposits that a block has to carry, out of those offered: the ones already processed are
skipped, and no more are taken than are due once the block's own vote is counted. -/
def selectDeposits (c : Constants) (s : ChainState) (contents : BlockContents) :
    Checked (List Deposit) := do
  let record ← externalDataAfterVote c s contents.externalData
  return (contents.deposits.dropWhile (·.index < s.depositIndex)).take (depositsDue c s record)

/-- Pack the offered operations into a block for the slot of the state and fill in its state root.
Slashings and attestations that would not apply are left out, and no list exceeds its maximum. -/
def createBlock (e : Engine) (s : ChainState) (proposer : ValidatorIndex) (parent : Root)
    (contents : BlockContents) : Attempt TransitionError CandidateBlock := do
  let c := e.constants
  let slashings ← selectSlashings c s [] contents.proposerSlashings
  let attestations ← firstAccepted (e.isIncludable s) c.maxAttestations contents.attestations
  let deposits ← selectDeposits c s contents
  let block : CandidateBlock :=
    { slot := s.slot
      proposerIndex := proposer
      parentRoot := parent
      body :=
        { randaoReveal := contents.randaoReveal
          externalData := contents.externalData
          graffiti := contents.graffiti
          proposerSlashings := slashings.take c.maxProposerSlashings
          attestations
          deposits } }
  let post ← (processBlock c s block).widen .block
  return { block with stateRoot := hashRoot post }

/-! ## Looking things up -/

/-- The proposer of a slot within one epoch of the state. -/
def proposer (e : Engine) (s : ChainState) (slot : Slot) : Attempt TransitionError ValidatorIndex :=
  (proposerOf e.constants s slot).widen .ofCommittee

/-- The committees of an epoch that the state still or already knows. -/
def committees (e : Engine) (s : ChainState) (epoch : Epoch) :
    Attempt TransitionError EpochCommittees :=
  (committeesOf e.constants s epoch).widen .ofCommittee

/-- The root of the block that heads the chain at `slot`; for the slot of the state that is what a
child names as its parent. -/
def blockRootAt? (e : Engine) (s : ChainState) (slot : Slot) : Option Root :=
  if slot = s.slot then some (hashRoot s.filledHeader) else s.blockRootAt? e.constants slot

end Engine

end Beacon
