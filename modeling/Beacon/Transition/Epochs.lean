import Beacon.SquareRoot
import Beacon.Transition.Committees
import Beacon.Transition.Slots

set_option autoImplicit false

/-! # Epoch boundaries

What happens when a state enters a new epoch. The epoch that ends is settled in this order:
checkpoints are justified and finalized, rewards and penalties are paid for the epoch before it,
validators with a full stake are activated, effective balances follow real ones, pending
attestations move on by one epoch, and votes for a record of the deposit chain start afresh when a
voting period begins. -/

namespace Beacon

/-- Components of the reward of one epoch. -/
def baseRewardsPerEpoch : Nat := 4

/-- The proposer of an attestation earns one part in this many of its inclusion reward. -/
def proposerRewardQuotient : Nat := 8

/-- Epochs without finality after which stakes leak. -/
def minEpochsToInactivityPenalty : Nat := 4

/-- The checkpoints that one boundary justified and finalized. -/
structure EpochSummary where
  justified : Option Checkpoint := none
  finalized : Option Checkpoint := none
  deriving DecidableEq, Inhabited

/-! ## Who attested -/

/-- Committees by epoch. -/
abbrev CommitteeLookup : Type := Epoch → Attempt CommitteeError EpochCommittees

/-- The committees of a state by epoch, with those of two epochs worked out once. -/
def committeeLookup (c : Constants) (s : ChainState) (ended : Epoch) : CommitteeLookup :=
  let before := committeesOf c s (ended - 1)
  let last := committeesOf c s ended
  fun epoch =>
    if epoch = ended - 1 then before else if epoch = ended then last else committeesOf c s epoch

theorem committeeLookup_eq (c : Constants) (s : ChainState) (ended epoch : Epoch) :
    committeeLookup c s ended epoch = committeesOf c s epoch := by
  simp only [committeeLookup]
  split
  · rename_i h; rw [h]
  · split
    · rename_i h; rw [h]
    · rfl

/-- The committee members whose bits are set. -/
def attestersOf (lookup : CommitteeLookup) (a : PendingAttestation) :
    Attempt EpochError (List ValidatorIndex) := do
  let committees ← (lookup a.data.target.epoch).widen .committee
  match committees.committee? a.data.slot a.data.index with
  | none => Attempt.reject (.noCommittee a.data.target.epoch a.data.slot a.data.index)
  | some members => return ((members.zip a.bits).filter (·.2)).map (·.1)

/-- Whether a validator is in the registry and not slashed. -/
def ChainState.isUnslashed (s : ChainState) (index : ValidatorIndex) : Bool :=
  match s.validators[index]? with
  | some v => !v.slashed
  | none => false

/-- The unslashed validators that attest through any of `as`, each once, in registry order. -/
def unslashedAttesters (s : ChainState) (lookup : CommitteeLookup) (as : List PendingAttestation) :
    Attempt EpochError (List ValidatorIndex) := do
  let attesting ← as.mapM (attestersOf lookup)
  let all := attesting.flatten
  return (List.range s.validators.size).filter fun i => s.isUnslashed i && all.contains i

/-- The effective balance of a validator, zero for a stranger. -/
def ChainState.effectiveBalance (s : ChainState) (index : ValidatorIndex) : Gwei :=
  match s.validators[index]? with
  | some v => v.effectiveBalance
  | none => 0

/-- The sum of the effective balances of a set, at most a word and at least one increment. -/
def attestingBalance (c : Constants) (s : ChainState) (set : List ValidatorIndex) : Gwei :=
  max ((set.map s.effectiveBalance).foldl Word.addSat 0) c.effectiveBalanceIncrement

/-- The sum of the effective balances active at `epoch`, at least one increment. -/
def activeBalance (c : Constants) (s : ChainState) (epoch : Epoch) : Gwei :=
  max (s.totalActiveBalance epoch) c.effectiveBalanceIncrement

/-- The root that attestations of `epoch` should name as their target. -/
def boundaryRoot (c : Constants) (s : ChainState) (epoch : Epoch) : Attempt EpochError Root :=
  match s.blockRootAt? c (c.epochStart epoch) with
  | some root => .ok root
  | none => Attempt.reject (.blockRootUnavailable (c.epochStart epoch))

/-- The balance that supports `root` as a target. -/
def targetSupport (c : Constants) (s : ChainState) (lookup : CommitteeLookup)
    (as : List PendingAttestation) (root : Root) : Attempt EpochError Gwei := do
  let attesters ← unslashedAttesters s lookup (as.filter fun a => a.data.target.root = root)
  return attestingBalance c s attesters

/-! ## Justification and finalization -/

/-- Whether a checkpoint lies `distance` epochs before `ended`. -/
def liesBefore (cp : Checkpoint) (distance : Nat) (ended : Epoch) : Checked Bool :=
  return (← Word.add cp.epoch distance) == ended

/-- The checkpoint that the four bits finalize: two or three justified epochs in a row after an old
justified checkpoint that starts the row. -/
def finalizedBy (bits : Vector Bool 4) (previous current : Checkpoint) (ended : Epoch) :
    Checked (Option Checkpoint) := do
  if bits[1] && bits[2] && bits[3] then
    if ← liesBefore previous 3 ended then return some previous
  if bits[1] && bits[2] then
    if ← liesBefore previous 2 ended then return some previous
  if bits[0] && bits[1] && bits[2] then
    if ← liesBefore current 2 ended then return some current
  if bits[0] && bits[1] then
    if ← liesBefore current 1 ended then return some current
  return none

/-- Justify the epoch that ends and the one before it where two thirds of the active balance support
them, and finalize what the bits allow. The first two epochs settle nothing. -/
def justifyAndFinalize (c : Constants) (lookup : CommitteeLookup) (ended : Epoch) (s : ChainState) :
    Attempt EpochError (EpochSummary × ChainState) := do
  if ended ≤ 1 then return ({}, s)
  let total := activeBalance c s ended
  let bits := s.justificationBits
  let before ← boundaryRoot c s (ended - 1)
  let supportBefore ← targetSupport c s lookup s.previousEpochAttestations before
  let last ← boundaryRoot c s ended
  let supportLast ← targetSupport c s lookup s.currentEpochAttestations last
  let justifiedBefore := decide (total * 2 ≤ supportBefore * 3)
  let justifiedLast := decide (total * 2 ≤ supportLast * 3)
  let justified : Option Checkpoint :=
    if justifiedLast then some ⟨ended, last⟩
    else if justifiedBefore then some ⟨ended - 1, before⟩
    else none
  let newBits : Vector Bool 4 := #v[justifiedLast, bits[0] || justifiedBefore, bits[1], bits[2]]
  let finalized ← finalizedBy newBits s.previousJustified s.currentJustified ended
  return ({ justified, finalized }, { s with
    previousJustified := s.currentJustified
    currentJustified := justified.getD s.currentJustified
    justificationBits := newBits
    finalized := finalized.getD s.finalized })

/-! ## Rewards and penalties -/

/-- The earliest inclusion of a validator's attestation, and who proposed that block. -/
structure Inclusion where
  attester : ValidatorIndex
  delay : Nat
  proposer : ValidatorIndex
  deriving DecidableEq, Inhabited

/-- What the attestations of one epoch say about each validator. -/
structure Participation where
  /-- Attested at all. -/
  source : List ValidatorIndex
  /-- Attested the right target. -/
  target : List ValidatorIndex
  /-- Attested the right head. -/
  head : List ValidatorIndex
  /-- Of those that attested, their earliest inclusions. -/
  inclusions : List Inclusion

/-- The numbers that rewards of one boundary are worked out from. -/
structure RewardScale where
  total : Gwei
  sqrtTotal : Nat
  finalityDelay : Nat

/-- Whether finality is so late that stakes leak. -/
def RewardScale.inLeak (r : RewardScale) : Bool := minEpochsToInactivityPenalty < r.finalityDelay

/-- The first of the earliest inclusions of a validator among attestations and their attesters. -/
def earliestInclusion? (as : List (PendingAttestation × List ValidatorIndex))
    (index : ValidatorIndex) : Option Inclusion :=
  (as.filter fun p => p.2.contains index).foldl (fun best p =>
    match best with
    | none => some ⟨index, p.1.inclusionDelay, p.1.proposerIndex⟩
    | some b =>
      if p.1.inclusionDelay < b.delay then some ⟨index, p.1.inclusionDelay, p.1.proposerIndex⟩
      else best) none

/-- Whether an attestation names the block that headed the chain at its slot. -/
def namesHead (c : Constants) (s : ChainState) (a : PendingAttestation) : Attempt EpochError Bool :=
  match s.blockRootAt? c a.data.slot with
  | some root => .ok (a.data.beaconBlockRoot == root)
  | none => Attempt.reject (.blockRootUnavailable a.data.slot)

/-- Sort the attestations of the epoch before the one that ends. -/
def participation (c : Constants) (s : ChainState) (lookup : CommitteeLookup) (previous : Epoch) :
    Attempt EpochError Participation := do
  let as := s.previousEpochAttestations
  let targetRoot ← boundaryRoot c s previous
  let source ← unslashedAttesters s lookup as
  let target ← unslashedAttesters s lookup (as.filter fun a => a.data.target.root = targetRoot)
  let headMatching ← filterAttempt (namesHead c s) as
  let head ← unslashedAttesters s lookup headMatching
  let attesting ← as.mapM (attestersOf lookup)
  return { source, target, head
           inclusions := source.filterMap (earliestInclusion? (as.zip attesting)) }

/-- The numbers of the boundary after `ended`. -/
def rewardScale (c : Constants) (s : ChainState) (ended : Epoch) : RewardScale :=
  let total := activeBalance c s ended
  { total
    sqrtTotal := max (integerSqrt total) 1
    finalityDelay := (ended - 1) - s.finalized.epoch }

/-- The unit of a validator's rewards: its stake against the root of the whole stake. -/
def baseReward (c : Constants) (s : ChainState) (scale : RewardScale) (index : ValidatorIndex) :
    Checked Gwei := do
  let scaled ← Word.mul (s.effectiveBalance index) c.baseRewardFactor
  return scaled / scale.sqrtTotal / baseRewardsPerEpoch

/-- Validators that are paid or fined: active in the epoch, or slashed and not yet withdrawable. -/
def isEligible (previous : Epoch) (v : Validator) : Bool :=
  v.isActiveAt previous || (v.slashed && previous + 1 < v.withdrawableEpoch)

/-- The reward of a member of a set: in a leak the whole unit, else in proportion to the set. -/
def setReward (c : Constants) (s : ChainState) (scale : RewardScale) (set : List ValidatorIndex)
    (base : Gwei) : Gwei :=
  if scale.inLeak then base
  else
    let attesting := attestingBalance c s set / c.effectiveBalanceIncrement
    let all := max (scale.total / c.effectiveBalanceIncrement) 1
    Word.wrap (base * attesting / all)

/-- The proposer's part of an inclusion reward. -/
def proposerReward (base : Gwei) : Gwei := base / proposerRewardQuotient

/-- The reward of an eligible validator from the three sets. -/
def setRewards (c : Constants) (s : ChainState) (scale : RewardScale) (p : Participation)
    (index : ValidatorIndex) (base : Gwei) : Gwei :=
  let part (set : List ValidatorIndex) :=
    if set.contains index then setReward c s scale set base else 0
  part p.source + part p.target + part p.head

/-- The penalty of an eligible validator: a unit for each set it is not in, and in a leak all units
less a proposer's part, and more for a missed target. -/
def setPenalties (c : Constants) (s : ChainState) (scale : RewardScale) (p : Participation)
    (index : ValidatorIndex) (base : Gwei) : Gwei :=
  let part (set : List ValidatorIndex) := if set.contains index then 0 else base
  let missed := part p.source + part p.target + part p.head
  if scale.inLeak then
    let late := if p.target.contains index then 0 else
      Word.wrap (s.effectiveBalance index * scale.finalityDelay / c.inactivityPenaltyQuotient)
    missed + (baseRewardsPerEpoch * base - proposerReward base) + late
  else missed

/-- What an attester earns for how early it was included. -/
def inclusionReward (i : Inclusion) (base : Gwei) : Gwei := (base - proposerReward base) / max i.delay 1

/-- What one boundary gives to and takes from a validator. -/
structure Delta where
  reward : Gwei
  penalty : Gwei
  deriving DecidableEq, Inhabited

/-- The delta of one validator; a fault when a part of it is no word. -/
def deltaOf (c : Constants) (s : ChainState) (scale : RewardScale) (p : Participation)
    (previous : Epoch) (index : ValidatorIndex) : Checked Delta := do
  let eligible := match s.validators[index]? with
    | some v => isEligible previous v
    | none => false
  let own := p.inclusions.filter (·.attester = index)
  let proposed := p.inclusions.filter (·.proposer = index)
  let base ← if eligible || !own.isEmpty then baseReward c s scale index else .ok 0
  let shares ← proposed.mapM fun i => return proposerReward (← baseReward c s scale i.attester)
  let reward := (if eligible then setRewards c s scale p index base else 0)
    + (own.map (inclusionReward · base)).foldr (· + ·) 0 + shares.foldr (· + ·) 0
  let penalty := if eligible then setPenalties c s scale p index base else 0
  Word.require reward
  Word.require penalty
  return ⟨reward, penalty⟩

/-- The deltas of the whole registry. -/
def deltasOf (c : Constants) (s : ChainState) (scale : RewardScale) (p : Participation)
    (previous : Epoch) : Checked (List Delta) :=
  (List.range s.validators.size).mapM (deltaOf c s scale p previous)

/-- Pay and fine every validator for the epoch before the one that ends. -/
def payRewards (c : Constants) (lookup : CommitteeLookup) (ended : Epoch) (s : ChainState) :
    Attempt EpochError ChainState := do
  if ended = 0 then return s
  let previous := ended - 1
  let scale := rewardScale c s ended
  let p ← participation c s lookup previous
  let deltas ← deltasOf c s scale p previous
  return { s with
    balances := Array.zipWith (fun balance d => Word.addSat balance d.reward - d.penalty)
      s.balances deltas.toArray }

/-! ## Registry and effective balances -/

/-- Give an activation epoch to every unslashed validator with a full stake that has none. -/
def activateValidators (c : Constants) (epoch : Epoch) (s : ChainState) : ChainState :=
  { s with validators := s.validators.map fun v =>
      if v.activationEpoch = farFuture ∧ v.slashed = false ∧
          c.maxEffectiveBalance ≤ v.effectiveBalance then
        { v with activationEpoch := activationExitEpoch epoch }
      else v }

/-- Let an effective balance follow a real one that has moved more than `downward` below it or
`upward` above it. -/
def Validator.followBalance (c : Constants) (downward upward : Gwei) (v : Validator)
    (balance : Gwei) : Validator :=
  if Word.addSat balance downward < v.effectiveBalance ∨
      Word.addSat v.effectiveBalance upward < balance then
    { v with effectiveBalance := c.effective balance }
  else v

/-- Let all effective balances follow real ones that have moved more than a quarter of an increment
below them or five quarters above them. -/
def updateEffectiveBalances (c : Constants) (s : ChainState) : Checked ChainState := do
  let quarter := c.effectiveBalanceIncrement / 4
  let upward ← Word.mul quarter 5
  return { s with validators := s.validators.mapIdx fun i v =>
      match s.balances[i]? with
      | some balance => v.followBalance c quarter upward balance
      | none => v }

/-! ## The boundary -/

/-- Settle the epoch that ended when the state entered its present slot. -/
def processEpoch (c : Constants) (s : ChainState) : Attempt EpochError (EpochSummary × ChainState) := do
  let epoch := s.currentEpoch c
  Attempt.require (s.validators.size = s.balances.size)
    (.balancesLength epoch s.validators.size s.balances.size)
  let ended := epoch - 1
  let lookup := committeeLookup c s ended
  let (summary, s) ← justifyAndFinalize c lookup ended s
  let s ← payRewards c lookup ended s
  let s ← updateEffectiveBalances c (activateValidators c epoch s)
  return (summary, { s with
    previousEpochAttestations := s.currentEpochAttestations
    currentEpochAttestations := []
    externalDataVotes := if epoch % c.epochsPerVotingPeriod = 0 then [] else s.externalDataVotes })

end Beacon
