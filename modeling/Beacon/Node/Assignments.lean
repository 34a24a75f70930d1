import Beacon.Duties.Duty
import Beacon.Transition.Engine

set_option autoImplicit false

/-! # Assignments

Who has what to do in an epoch: every validator that is asked about and active has one place in one
committee of the epoch, and proposes the blocks of those slots that pick it. A key that is asked
about twice, or that belongs to no validator, adds nothing. -/

namespace Beacon.Engine

variable (e : Engine)

/-- The validators that some of the given keys belong to. -/
def requested (s : ChainState) (keys : List PublicKey) : List ValidatorIndex :=
  keys.filterMap s.validatorIndex?

/-- The slots of an epoch that have a proposer: slot zero belongs to the first block of all. -/
def proposalSlots (epoch : Epoch) : Checked (List Slot) := do
  let start := e.constants.epochStart epoch
  let stop ← Word.add start e.constants.slotsPerEpoch
  return List.range' (max start 1) (stop - max start 1)

/-- The proposers of an epoch, slot by slot. -/
def proposers (s : ChainState) (epoch : Epoch) :
    Attempt TransitionError (List (Slot × ValidatorIndex)) := do
  (← e.proposalSlots epoch).mapM fun slot => return (slot, ← e.proposer s slot)

/-- The assignment of a committee member. -/
def assignment (s : ChainState) (proposers : List (Slot × ValidatorIndex)) (slot : Slot)
    (index : CommitteeIndex) (size position : Nat) (validator : ValidatorIndex) : ValidatorDuties where
  pubkey := ((s.validators[validator]?).map Validator.pubkey).getD (Bytes.zero 48)
  validatorIndex := validator
  attestationSlot := slot
  committeeIndex := index
  committeePosition := position
  committeeSize := size
  proposalSlots := (proposers.filter (·.2 = validator)).map (·.1)

/-- The assignments of the requested members of one committee. -/
def assignCommittee (s : ChainState) (proposers : List (Slot × ValidatorIndex))
    (wanted : List ValidatorIndex) (slot : Slot) (index : CommitteeIndex)
    (members : List ValidatorIndex) : List ValidatorDuties :=
  (members.zipIdx.filter fun m => wanted.contains m.1).map fun m =>
    assignment s proposers slot index members.length m.2 m.1

/-- The assignments in an epoch of the validators that the given keys belong to, in the order of the
registry. -/
def assignments (s : ChainState) (epoch : Epoch) (keys : List PublicKey) :
    Attempt TransitionError (List ValidatorDuties) := do
  let committees ← e.committees s epoch
  let proposers ← e.proposers s epoch
  let wanted := requested s keys
  let entries ← committees.entries
  let duties := entries.flatMap fun (slot, index, members) =>
    assignCommittee s proposers wanted slot index members
  return duties.mergeSort (·.validatorIndex ≤ ·.validatorIndex)

end Beacon.Engine
