import Beacon.Transition.Committees
import Beacon.Transition.Slots

set_option autoImplicit false

/-! # Blocks on a state

Checking a block and its operations against a state that has been moved to the block's slot, and
applying them: header, randomness, vote for a record of the deposit chain, proposer slashings,
attestations, deposits. Each operation is first judged and then applied; the judgements are also
what a proposer packs a block by. Signatures are judged elsewhere. -/

namespace Beacon

/-- The share of a slashed validator's stake that the reporting proposer earns is one part in this
many. -/
def whistleblowerRewardQuotient : Nat := 512

/-! ## Header and randomness -/

/-- Judge the header of a block; the answer is the header to remember, without a state root. -/
def checkHeader (c : Constants) (s : ChainState) (b : CandidateBlock) :
    Attempt BlockError BlockHeader := do
  Attempt.require (b.slot = s.slot) (.slotMismatch s.slot b.slot)
  Attempt.require (s.latestBlockHeader.slot < b.slot)
    (.notNewerThanLatest b.slot s.latestBlockHeader.slot)
  let expected ← (proposerOf c s b.slot).widen .committee
  Attempt.require (b.proposerIndex = expected) (.proposerMismatch expected b.proposerIndex)
  let parent := hashRoot s.latestBlockHeader
  Attempt.require (b.parentRoot = parent) (.parentRootMismatch parent b.parentRoot)
  match s.validators[b.proposerIndex]? with
  | none => Attempt.reject (.unknownValidator b.proposerIndex)
  | some proposer =>
    Attempt.require (proposer.slashed = false) (.proposerSlashed b.proposerIndex)
    return { b.header with stateRoot := Root.none }

/-- Mix the digest of a reveal into the mix of the state's slot. -/
def mixReveal (c : Constants) (s : ChainState) (reveal : Signature) :
    Attempt BlockError ChainState := do
  Attempt.require (reveal ≠ Bytes.zero 96) .emptyRandaoReveal
  let place := s.slot % c.randaoMixesLength
  match s.randaoMixes[place]? with
  | none => Attempt.reject (.committee (.missingRandaoMix s.slot))
  | some mix =>
    return { s with
      randaoMixes := s.randaoMixes.setIfInBounds place (mix.xor (keccak256 reveal.toByteArray)) }

/-! ## Votes for a record of the deposit chain -/

/-- The record in force once `vote` is counted: the vote's own when it makes a majority of the
period, else the one in force. -/
def externalDataAfterVote (c : Constants) (s : ChainState) (vote : ExternalData) :
    Checked ExternalData := do
  let votes ← Word.add (s.externalDataVotes.count vote) 1
  let twice ← Word.mul votes 2
  let period ← c.slotsPerVotingPeriod
  return if period < twice then vote else s.externalData

/-- Count a vote. -/
def countVote (c : Constants) (s : ChainState) (vote : ExternalData) : Checked ChainState := do
  let adopted ← externalDataAfterVote c s vote
  return { s with externalData := adopted, externalDataVotes := s.externalDataVotes ++ [vote] }

/-- How many deposits a block has to carry when `record` is in force. -/
def depositsDue (c : Constants) (s : ChainState) (record : ExternalData) : Nat :=
  min (record.depositCount - s.depositIndex) c.maxDeposits

/-! ## Proposer slashings -/

/-- Judge the evidence against a proposer; the answer is the proposer. -/
def checkSlashing (c : Constants) (s : ChainState) (evidence : ProposerSlashing) :
    Attempt BlockError ValidatorIndex := do
  let h1 := evidence.header1.message
  let h2 := evidence.header2.message
  Attempt.require (h1.slot = h2.slot) (.invalidProposerSlashing .differentSlots)
  Attempt.require (h1.proposerIndex = h2.proposerIndex)
    (.invalidProposerSlashing .differentProposers)
  Attempt.require (h1 ≠ h2) (.invalidProposerSlashing .identicalHeaders)
  match s.validators[h1.proposerIndex]? with
  | none => Attempt.reject (.unknownValidator h1.proposerIndex)
  | some v =>
    Attempt.require (v.isSlashableAt (s.currentEpoch c)) (.invalidProposerSlashing .notSlashable)
    return h1.proposerIndex

/-- A validator that is slashed during `epoch`: it exits unless it has, and may withdraw no later
than the delay allows and no earlier than it exits. -/
def Validator.slash (v : Validator) (epoch withdrawable : Epoch) : Validator :=
  let exitEpoch := if v.exitEpoch = farFuture then activationExitEpoch epoch else v.exitEpoch
  { v with
    slashed := true
    exitEpoch
    withdrawableEpoch := max (min v.withdrawableEpoch withdrawable) exitEpoch }

/-- Slash a proposer: it loses a share of its stake, and the proposer of this block earns one. -/
def applySlashing (c : Constants) (whistleblower : ValidatorIndex) (s : ChainState)
    (evidence : ProposerSlashing) : Attempt BlockError ChainState := do
  let index ← checkSlashing c s evidence
  match s.validators[index]? with
  | none => Attempt.reject (.unknownValidator index)
  | some v =>
    let epoch := s.currentEpoch c
    let withdrawable ← Word.add epoch c.minValidatorWithdrawabilityDelay
    match s.balances[index]? with
    | none => Attempt.reject (.unknownValidator index)
    | some balance =>
      let penalty := v.effectiveBalance / c.minSlashingPenaltyQuotient
      let reward := v.effectiveBalance / whistleblowerRewardQuotient
      let penalized := s.balances.setIfInBounds index (balance - penalty)
      return { s with
        validators := s.validators.setIfInBounds index (v.slash epoch withdrawable)
        balances := penalized.modify whistleblower (Word.addSat · reward) }

/-! ## Attestations -/

/-- Judge an attestation: its epoch, its age, its committee and bits, and the checkpoint it starts
from, in this order. -/
def checkAttestation (c : Constants) (s : ChainState) (a : Attestation) :
    Attempt AttestationError Unit := do
  let data := a.data
  let current := s.currentEpoch c
  Attempt.require (data.target.epoch = current ∨ data.target.epoch = current - 1)
    (.targetEpochOutOfRange data.target.epoch current)
  Attempt.require (data.target.epoch = c.epochAt data.slot)
    (.targetEpochMismatch data.target.epoch data.slot)
  let earliest ← Word.add data.slot c.minAttestationInclusionDelay
  Attempt.require (earliest ≤ s.slot) (.inclusionTooEarly data.slot s.slot)
  let latest ← Word.add data.slot c.slotsPerEpoch
  Attempt.require (s.slot ≤ latest) (.inclusionTooLate data.slot s.slot)
  let committees ← (committeesOf c s data.target.epoch).widen .committee
  Attempt.require (data.index < committees.committeesPerSlot)
    (.committeeIndexOutOfRange data.index committees.committeesPerSlot)
  let committee := (committees.committee? data.slot data.index).getD []
  Attempt.require (a.bits.length = committee.length)
    (.bitsLength committee.length a.bits.length)
  Attempt.require (a.participants ≠ 0) .noParticipants
  let justified :=
    if data.target.epoch = current then s.currentJustified else s.previousJustified
  Attempt.require (data.source = justified) .sourceMismatch

/-- Remember an attestation until its epoch is settled. -/
def applyAttestation (c : Constants) (proposer : ValidatorIndex) (s : ChainState)
    (a : Attestation) : Attempt BlockError ChainState := do
  (checkAttestation c s a).widen .invalidAttestation
  let delay ← Word.sub s.slot a.data.slot
  let pending : PendingAttestation :=
    { bits := a.bits, data := a.data, inclusionDelay := delay, proposerIndex := proposer }
  return if a.data.target.epoch = s.currentEpoch c then
    { s with currentEpochAttestations := s.currentEpochAttestations ++ [pending] }
  else
    { s with previousEpochAttestations := s.previousEpochAttestations ++ [pending] }

/-! ## Deposits -/

/-- The validator that a first deposit makes; with a full stake it becomes active at once. -/
def Validator.ofDeposit (c : Constants) (epoch : Epoch) (d : DepositData) : Validator :=
  let effective := c.effective d.amount
  { pubkey := d.pubkey
    withdrawalCredentials := d.withdrawalCredentials
    effectiveBalance := effective
    activationEpoch :=
      if effective = c.maxEffectiveBalance then activationExitEpoch epoch else farFuture
    exitEpoch := farFuture
    withdrawableEpoch := farFuture }

/-- Process the next deposit: a known key is topped up, an unknown one joins the registry. -/
def applyDeposit (c : Constants) (s : ChainState) (d : Deposit) : Attempt BlockError ChainState := do
  Attempt.require (d.index = s.depositIndex) (.depositIndexMismatch s.depositIndex d.index)
  let next ← Word.add s.depositIndex 1
  match s.validatorIndex? d.data.pubkey with
  | some index =>
    match s.balances[index]? with
    | none => Attempt.reject (.unknownValidator index)
    | some balance =>
      return { s with
        depositIndex := next
        balances := s.balances.setIfInBounds index (Word.addSat balance d.data.amount) }
  | none =>
    return { s with
      depositIndex := next
      validators := s.validators.push (Validator.ofDeposit c (s.currentEpoch c) d.data)
      balances := s.balances.push d.data.amount }

/-! ## Whole blocks -/

/-- Refuse more operations of a kind than a block may carry. -/
def checkMaximum (kind : OperationKind) (count maximum : Nat) : Attempt BlockError Unit :=
  Attempt.require (count ≤ maximum) (.tooManyOperations kind count maximum)

/-- Apply the operations of a block. -/
def applyOperations (c : Constants) (s : ChainState) (b : CandidateBlock) :
    Attempt BlockError ChainState := do
  let body := b.body
  checkMaximum .proposerSlashings body.proposerSlashings.length c.maxProposerSlashings
  checkMaximum .attestations body.attestations.length c.maxAttestations
  checkMaximum .deposits body.deposits.length c.maxDeposits
  let due := depositsDue c s s.externalData
  Attempt.require (body.deposits.length = due) (.depositCountMismatch due body.deposits.length)
  let s ← body.proposerSlashings.foldlM (applySlashing c b.proposerIndex) s
  let s ← body.attestations.foldlM (applyAttestation c b.proposerIndex) s
  body.deposits.foldlM (applyDeposit c) s

/-- Apply a block to a state at its slot, whatever state root it claims. -/
def processBlock (c : Constants) (s : ChainState) (b : CandidateBlock) :
    Attempt BlockError ChainState := do
  (checkRings c s).widen .malformedState
  Attempt.require (s.validators.size = s.balances.size)
    (.balancesLength s.slot s.validators.size s.balances.size)
  let header ← checkHeader c s b
  let s := { s with latestBlockHeader := header }
  let s ← mixReveal c s b.body.randaoReveal
  let s ← countVote c s b.body.externalData
  applyOperations c s b

end Beacon
