import Beacon.Json.Form
import Beacon.Chain.State

set_option autoImplicit false

/-! # The JSON forms of the chain

Every record of the chain is an object of its members in the order of their declaration. -/

namespace Beacon

instance : Form Fork where
  write s f := .object [("previous_version", write s f.previousVersion),
    ("current_version", write s f.currentVersion), ("epoch", write s f.epoch)]
  read s j := do
    let r ← Row.read? s ["previous_version", "current_version", "epoch"] j
    return { previousVersion := ← r.get "previous_version"
             currentVersion := ← r.get "current_version"
             epoch := ← r.get "epoch" }

instance : Form Checkpoint where
  write s c := .object [("epoch", write s c.epoch), ("root", write s c.root)]
  read s j := do
    let r ← Row.read? s ["epoch", "root"] j
    return { epoch := ← r.get "epoch", root := ← r.get "root" }

instance : Form Validator where
  write s v := .object [("pubkey", write s v.pubkey),
    ("withdrawal_credentials", write s v.withdrawalCredentials),
    ("effective_balance", write s v.effectiveBalance), ("slashed", write s v.slashed),
    ("activation_epoch", write s v.activationEpoch), ("exit_epoch", write s v.exitEpoch),
    ("withdrawable_epoch", write s v.withdrawableEpoch)]
  read s j := do
    let r ← Row.read? s ["pubkey", "withdrawal_credentials", "effective_balance", "slashed",
      "activation_epoch", "exit_epoch", "withdrawable_epoch"] j
    return { pubkey := ← r.via (readByteText 48) "pubkey"
             withdrawalCredentials := ← r.get "withdrawal_credentials"
             effectiveBalance := ← r.get "effective_balance"
             slashed := ← r.get "slashed"
             activationEpoch := ← r.get "activation_epoch"
             exitEpoch := ← r.get "exit_epoch"
             withdrawableEpoch := ← r.get "withdrawable_epoch" }

instance : Form ExternalData where
  write s d := .object [("deposit_root", write s d.depositRoot),
    ("deposit_count", write s d.depositCount), ("block_hash", write s d.blockHash)]
  read s j := do
    let r ← Row.read? s ["deposit_root", "deposit_count", "block_hash"] j
    return { depositRoot := ← r.get "deposit_root"
             depositCount := ← r.get "deposit_count"
             blockHash := ← r.get "block_hash" }

instance : Form DepositData where
  write s d := .object [("pubkey", write s d.pubkey),
    ("withdrawal_credentials", write s d.withdrawalCredentials), ("amount", write s d.amount),
    ("signature", write s d.signature)]
  read s j := do
    let r ← Row.read? s ["pubkey", "withdrawal_credentials", "amount", "signature"] j
    return { pubkey := ← r.via (readByteText 48) "pubkey"
             withdrawalCredentials := ← r.get "withdrawal_credentials"
             amount := ← r.get "amount"
             signature := ← r.via (readByteText 96) "signature" }

instance : Form Deposit where
  write s d := .object [("index", write s d.index), ("data", write s d.data)]
  read s j := do
    let r ← Row.read? s ["index", "data"] j
    return { index := ← r.get "index", data := ← r.get "data" }

instance : Form AttestationData where
  write s d := .object [("slot", write s d.slot), ("index", write s d.index),
    ("beacon_block_root", write s d.beaconBlockRoot), ("source", write s d.source),
    ("target", write s d.target)]
  read s j := do
    let r ← Row.read? s ["slot", "index", "beacon_block_root", "source", "target"] j
    return { slot := ← r.get "slot"
             index := ← r.get "index"
             beaconBlockRoot := ← r.get "beacon_block_root"
             source := ← r.get "source"
             target := ← r.get "target" }

instance : Form Attestation where
  write s a := .object [("aggregation_bits", writeBits s a.bits), ("data", write s a.data),
    ("signature", write s a.signature)]
  read s j := do
    let r ← Row.read? s ["aggregation_bits", "data", "signature"] j
    return { bits := ← r.via readBits "aggregation_bits"
             data := ← r.get "data"
             signature := ← r.via (readByteText 96) "signature" }

instance : Form PendingAttestation where
  write s a := .object [("aggregation_bits", writeBits s a.bits), ("data", write s a.data),
    ("inclusion_delay", write s a.inclusionDelay), ("proposer_index", write s a.proposerIndex)]
  read s j := do
    let r ← Row.read? s ["aggregation_bits", "data", "inclusion_delay", "proposer_index"] j
    return { bits := ← r.via readBits "aggregation_bits"
             data := ← r.get "data"
             inclusionDelay := ← r.get "inclusion_delay"
             proposerIndex := ← r.get "proposer_index" }

instance : Form BlockHeader where
  write s h := .object [("slot", write s h.slot), ("proposer_index", write s h.proposerIndex),
    ("parent_root", write s h.parentRoot), ("state_root", write s h.stateRoot),
    ("body_root", write s h.bodyRoot)]
  read s j := do
    let r ← Row.read? s ["slot", "proposer_index", "parent_root", "state_root", "body_root"] j
    return { slot := ← r.get "slot"
             proposerIndex := ← r.get "proposer_index"
             parentRoot := ← r.get "parent_root"
             stateRoot := ← r.get "state_root"
             bodyRoot := ← r.get "body_root" }

instance : Form SignedBlockHeader where
  write s h := .object [("message", write s h.message), ("signature", write s h.signature)]
  read s j := do
    let r ← Row.read? s ["message", "signature"] j
    return { message := ← r.get "message", signature := ← r.via (readByteText 96) "signature" }

instance : Form ProposerSlashing where
  write s p := .object [("signed_header_1", write s p.header1),
    ("signed_header_2", write s p.header2)]
  read s j := do
    let r ← Row.read? s ["signed_header_1", "signed_header_2"] j
    return { header1 := ← r.get "signed_header_1", header2 := ← r.get "signed_header_2" }

instance : Form BlockBody where
  write s b := .object [("randao_reveal", write s b.randaoReveal),
    ("external_data", write s b.externalData), ("graffiti", write s b.graffiti),
    ("proposer_slashings", write s b.proposerSlashings),
    ("attestations", write s b.attestations), ("deposits", write s b.deposits)]
  read s j := do
    let r ← Row.read? s ["randao_reveal", "external_data", "graffiti", "proposer_slashings",
      "attestations", "deposits"] j
    return { randaoReveal := ← r.via (readByteText 96) "randao_reveal"
             externalData := ← r.get "external_data"
             graffiti := ← r.get "graffiti"
             proposerSlashings := ← r.get "proposer_slashings"
             attestations := ← r.get "attestations"
             deposits := ← r.get "deposits" }

instance : Form CandidateBlock where
  write s b := .object [("slot", write s b.slot), ("proposer_index", write s b.proposerIndex),
    ("parent_root", write s b.parentRoot), ("state_root", write s b.stateRoot),
    ("body", write s b.body)]
  read s j := do
    let r ← Row.read? s ["slot", "proposer_index", "parent_root", "state_root", "body"] j
    return { slot := ← r.get "slot"
             proposerIndex := ← r.get "proposer_index"
             parentRoot := ← r.get "parent_root"
             stateRoot := ← r.get "state_root"
             body := ← r.get "body" }

instance : Form SignedBlock where
  write s b := .object [("message", write s b.message), ("signature", write s b.signature)]
  read s j := do
    let r ← Row.read? s ["message", "signature"] j
    return { message := ← r.get "message", signature := ← r.via (readByteText 96) "signature" }

instance : Form ChainState where
  write s x := .object [("genesis_time", write s x.genesisTime),
    ("genesis_validators_root", write s x.genesisValidatorsRoot), ("slot", write s x.slot),
    ("fork", write s x.fork), ("latest_block_header", write s x.latestBlockHeader),
    ("block_roots", write s x.blockRoots), ("randao_mixes", write s x.randaoMixes),
    ("external_data", write s x.externalData),
    ("external_data_votes", write s x.externalDataVotes),
    ("deposit_index", write s x.depositIndex), ("validators", write s x.validators),
    ("balances", write s x.balances),
    ("previous_epoch_attestations", write s x.previousEpochAttestations),
    ("current_epoch_attestations", write s x.currentEpochAttestations),
    ("justification_bits", writeBits s x.justificationBits.toList),
    ("previous_justified_checkpoint", write s x.previousJustified),
    ("current_justified_checkpoint", write s x.currentJustified),
    ("finalized_checkpoint", write s x.finalized)]
  read s j := do
    let r ← Row.read? s ["genesis_time", "genesis_validators_root", "slot", "fork",
      "latest_block_header", "block_roots", "randao_mixes", "external_data",
      "external_data_votes", "deposit_index", "validators", "balances",
      "previous_epoch_attestations", "current_epoch_attestations", "justification_bits",
      "previous_justified_checkpoint", "current_justified_checkpoint", "finalized_checkpoint"] j
    return { genesisTime := ← r.get "genesis_time"
             genesisValidatorsRoot := ← r.get "genesis_validators_root"
             slot := ← r.get "slot"
             fork := ← r.get "fork"
             latestBlockHeader := ← r.get "latest_block_header"
             blockRoots := ← r.get "block_roots"
             randaoMixes := ← r.get "randao_mixes"
             externalData := ← r.get "external_data"
             externalDataVotes := ← r.get "external_data_votes"
             depositIndex := ← r.get "deposit_index"
             validators := ← r.get "validators"
             balances := ← r.get "balances"
             previousEpochAttestations := ← r.get "previous_epoch_attestations"
             currentEpochAttestations := ← r.get "current_epoch_attestations"
             justificationBits := ← r.via (readBitVector 4) "justification_bits"
             previousJustified := ← r.get "previous_justified_checkpoint"
             currentJustified := ← r.get "current_justified_checkpoint"
             finalized := ← r.get "finalized_checkpoint" }

/-! ## Constants -/

/-- The members of the constants in order. -/
def Constants.members : List String :=
  ["slots_per_epoch", "slots_per_historical_root", "randao_mixes_length",
   "max_committees_per_slot", "target_committee_size", "max_attestations", "max_deposits",
   "max_proposer_slashings", "attestation_subnet_count", "min_attestation_inclusion_delay",
   "epochs_per_eth1_voting_period", "target_aggregators_per_committee", "max_effective_balance",
   "effective_balance_increment", "base_reward_factor", "inactivity_penalty_quotient",
   "min_slashing_penalty_quotient", "min_validator_withdrawability_delay"]

/-- Constants with the members of a row in place of those of `d`. -/
def Constants.ofRow (r : Row) (d : Constants) : Option Constants := do
  return { slotsPerEpoch := ← r.getD "slots_per_epoch" d.slotsPerEpoch
           slotsPerHistoricalRoot := ← r.getD "slots_per_historical_root" d.slotsPerHistoricalRoot
           randaoMixesLength := ← r.getD "randao_mixes_length" d.randaoMixesLength
           maxCommitteesPerSlot := ← r.getD "max_committees_per_slot" d.maxCommitteesPerSlot
           targetCommitteeSize := ← r.getD "target_committee_size" d.targetCommitteeSize
           maxAttestations := ← r.getD "max_attestations" d.maxAttestations
           maxDeposits := ← r.getD "max_deposits" d.maxDeposits
           maxProposerSlashings := ← r.getD "max_proposer_slashings" d.maxProposerSlashings
           attestationSubnetCount := ← r.getD "attestation_subnet_count" d.attestationSubnetCount
           minAttestationInclusionDelay :=
             ← r.getD "min_attestation_inclusion_delay" d.minAttestationInclusionDelay
           epochsPerVotingPeriod :=
             ← r.getD "epochs_per_eth1_voting_period" d.epochsPerVotingPeriod
           targetAggregatorsPerCommittee :=
             ← r.getD "target_aggregators_per_committee" d.targetAggregatorsPerCommittee
           maxEffectiveBalance := ← r.getD "max_effective_balance" d.maxEffectiveBalance
           effectiveBalanceIncrement :=
             ← r.getD "effective_balance_increment" d.effectiveBalanceIncrement
           baseRewardFactor := ← r.getD "base_reward_factor" d.baseRewardFactor
           inactivityPenaltyQuotient :=
             ← r.getD "inactivity_penalty_quotient" d.inactivityPenaltyQuotient
           minSlashingPenaltyQuotient :=
             ← r.getD "min_slashing_penalty_quotient" d.minSlashingPenaltyQuotient
           minValidatorWithdrawabilityDelay :=
             ← r.getD "min_validator_withdrawability_delay" d.minValidatorWithdrawabilityDelay }

/-- Constants are the public ones unless a member says otherwise; the terse style starts from the
small network and takes the public one by name. -/
instance : Form Constants where
  write s c := .object (Constants.members.zip ([c.slotsPerEpoch, c.slotsPerHistoricalRoot,
    c.randaoMixesLength, c.maxCommitteesPerSlot, c.targetCommitteeSize, c.maxAttestations,
    c.maxDeposits, c.maxProposerSlashings, c.attestationSubnetCount,
    c.minAttestationInclusionDelay, c.epochsPerVotingPeriod, c.targetAggregatorsPerCommittee,
    c.maxEffectiveBalance, c.effectiveBalanceIncrement, c.baseRewardFactor,
    c.inactivityPenaltyQuotient, c.minSlashingPenaltyQuotient,
    c.minValidatorWithdrawabilityDelay].map (write s)))
  read
    | .stored, j => (Row.read? .stored Constants.members j).bind (Constants.ofRow · {})
    | .terse, j => do
      let r ← Row.read? .terse Constants.members j
      let preset : String ← r.getD "preset" "minimal"
      Constants.ofRow r (if preset = "default" then {} else Constants.minimal)

end Beacon
