import Beacon.Outcome

set_option autoImplicit false

/-! # Protocol constants

The numbers that fix a chain: how slots make epochs, how long its histories are, how committees are
cut, how large operations and balances may be. `Constants.validate` says when they fit together;
everything that runs a chain takes constants that passed it, so that its quotients have divisors. -/

namespace Beacon

/-! ## Quantities -/

/-- A fixed stretch of protocol time. -/
abbrev Slot : Type := Nat

/-- A run of slots of the length that the constants fix. -/
abbrev Epoch : Type := Nat

/-- An amount of stake. -/
abbrev Gwei : Type := Nat

/-- A position in the validator registry. -/
abbrev ValidatorIndex : Type := Nat

/-- A committee among those of one slot. -/
abbrev CommitteeIndex : Type := Nat

/-- A gossip sub-topic for attestations. -/
abbrev Subnet : Type := Nat

/-- The epoch that never comes. -/
def farFuture : Epoch := Word.max

/-! ## Settings -/

/-- A setting that nothing can run with, and why. -/
structure InvalidSetting where
  setting : String
  reason : String
  deriving DecidableEq, Repr

/-- The text of the complaint. -/
def InvalidSetting.message (e : InvalidSetting) : String :=
  s!"Invalid configuration: {e.setting} {e.reason}"

/-- Refuse a setting of zero. -/
def requirePositive (setting : String) (value : Nat) : Attempt InvalidSetting Unit :=
  Attempt.require (value ≠ 0) ⟨setting, "must be greater than zero"⟩

/-! ## The constants -/

/-- The numbers that fix a chain; the defaults are those of the public network. -/
structure Constants where
  slotsPerEpoch : Nat := 32
  /-- Length of the ring of block roots. -/
  slotsPerHistoricalRoot : Nat := 8192
  /-- Length of the ring of randao mixes. -/
  randaoMixesLength : Nat := 65536
  maxCommitteesPerSlot : Nat := 64
  targetCommitteeSize : Nat := 128
  maxAttestations : Nat := 128
  maxDeposits : Nat := 16
  maxProposerSlashings : Nat := 16
  attestationSubnetCount : Nat := 64
  minAttestationInclusionDelay : Nat := 1
  epochsPerVotingPeriod : Nat := 32
  targetAggregatorsPerCommittee : Nat := 16
  maxEffectiveBalance : Gwei := 32000000000
  effectiveBalanceIncrement : Gwei := 1000000000
  baseRewardFactor : Nat := 64
  inactivityPenaltyQuotient : Nat := 33554432
  minSlashingPenaltyQuotient : Nat := 32
  minValidatorWithdrawabilityDelay : Nat := 256
  deriving DecidableEq, Repr, Inhabited

namespace Constants

/-- A small network for local use. -/
def minimal : Constants where
  slotsPerEpoch := 8
  slotsPerHistoricalRoot := 64
  randaoMixesLength := 64
  maxCommitteesPerSlot := 4
  targetCommitteeSize := 4
  epochsPerVotingPeriod := 4

/-- Refuse zeros and numbers that do not fit together, in this order. Epoch processing reads the
roots of the last two epoch starts, and the seeds of shuffles are read up to four epochs after the
mix they come from, so the rings have to reach that far back. -/
def validate (c : Constants) : Attempt InvalidSetting Unit := do
  requirePositive "slots_per_epoch" c.slotsPerEpoch
  requirePositive "slots_per_historical_root" c.slotsPerHistoricalRoot
  requirePositive "randao_mixes_length" c.randaoMixesLength
  requirePositive "max_committees_per_slot" c.maxCommitteesPerSlot
  requirePositive "target_committee_size" c.targetCommitteeSize
  requirePositive "attestation_subnet_count" c.attestationSubnetCount
  requirePositive "epochs_per_eth1_voting_period" c.epochsPerVotingPeriod
  requirePositive "target_aggregators_per_committee" c.targetAggregatorsPerCommittee
  requirePositive "effective_balance_increment" c.effectiveBalanceIncrement
  requirePositive "base_reward_factor" c.baseRewardFactor
  requirePositive "inactivity_penalty_quotient" c.inactivityPenaltyQuotient
  requirePositive "min_slashing_penalty_quotient" c.minSlashingPenaltyQuotient
  requirePositive "max_attestations" c.maxAttestations
  let twoEpochs ← Word.mul 2 c.slotsPerEpoch
  Attempt.require (twoEpochs ≤ c.slotsPerHistoricalRoot)
    ⟨"slots_per_historical_root", "must cover at least two epochs"⟩
  let fiveEpochs ← Word.mul 5 c.slotsPerEpoch
  Attempt.require (fiveEpochs ≤ c.randaoMixesLength)
    ⟨"randao_mixes_length", "must cover at least five epochs"⟩
  Attempt.require (c.effectiveBalanceIncrement ≤ c.maxEffectiveBalance)
    ⟨"max_effective_balance", "must be at least one effective balance increment"⟩

/-- Constants that passed the check. -/
def Valid (c : Constants) : Prop := c.validate = .ok ()

instance (c : Constants) : Decidable c.Valid :=
  match h : c.validate with
  | .ok () => .isTrue h
  | .error _ => .isFalse (by simp [Valid, h])

/-- The first number of roots for which a machine has no room: two to the 58th. -/
def ringLimit : Nat := 288230376151711744

/-- A fault when there is no room for the rings of a state. -/
def requireRings (c : Constants) : Checked Unit :=
  if c.slotsPerHistoricalRoot < ringLimit ∧ c.randaoMixesLength < ringLimit then .ok ()
  else Attempt.fault .noRoom

/-! ## Slots and epochs

These are meant for constants that passed `validate`; the section below holds the forms for
constants of which nothing is known. -/

/-- The epoch that holds `slot`. -/
def epochAt (c : Constants) (slot : Slot) : Epoch := slot / c.slotsPerEpoch

/-- The first slot of `epoch`, or the last slot of all. -/
def epochStart (c : Constants) (epoch : Epoch) : Slot := Word.mulSat epoch c.slotsPerEpoch

/-- Whether an epoch starts with `slot`. -/
def isEpochStart (c : Constants) (slot : Slot) : Bool := slot % c.slotsPerEpoch == 0

/-- The gossip subnet of a committee. -/
def subnetFor (c : Constants) (committee : CommitteeIndex) : Subnet :=
  committee % c.attestationSubnetCount

/-- Slots in one period of votes for an external data record. -/
def slotsPerVotingPeriod (c : Constants) : Checked Nat :=
  Word.mul c.epochsPerVotingPeriod c.slotsPerEpoch

/-- Committees of a slot for an active set of the given size: enough to bring committees near their
target size, at least one, at most the maximum. -/
def committeesPerSlot (c : Constants) (active : Nat) : Nat :=
  max 1 (min c.maxCommitteesPerSlot (active / c.slotsPerEpoch / c.targetCommitteeSize))

/-- The part of a balance that counts: whole increments, at most the maximum. -/
def effective (c : Constants) (balance : Gwei) : Gwei :=
  min (balance - balance % c.effectiveBalanceIncrement) c.maxEffectiveBalance

/-! ## The same for unchecked constants -/

/-- `epochAt`, a fault when epochs have no slots. -/
def epochAtChecked (c : Constants) (slot : Slot) : Checked Epoch := Word.div slot c.slotsPerEpoch

/-- `isEpochStart`, a fault when epochs have no slots. -/
def isEpochStartChecked (c : Constants) (slot : Slot) : Checked Bool :=
  return (← Word.mod slot c.slotsPerEpoch) == 0

/-- `subnetFor`, a fault when there are no subnets. -/
def subnetForChecked (c : Constants) (committee : CommitteeIndex) : Checked Subnet :=
  Word.mod committee c.attestationSubnetCount

/-- `committeesPerSlot`, a fault for a zero divisor or an empty range of committee counts. -/
def committeesPerSlotChecked (c : Constants) (active : Nat) : Checked Nat := do
  let perSlot ← Word.div active c.slotsPerEpoch
  let _ ← Word.div perSlot c.targetCommitteeSize
  if c.maxCommitteesPerSlot = 0 then Attempt.fault .emptyRange
  else return c.committeesPerSlot active

end Constants

end Beacon
