import Beacon.DepositChain.Log
import Beacon.Node.DevKeys

set_option autoImplicit false

/-! # Genesis

The first state and block of a development network. The deposit of every validator is logged, and
the first state counts the whole log as processed, so that the first blocks carry no deposits. -/

namespace Beacon

/-- Why there is no genesis. -/
inductive GenesisError where
  | noValidators
  /-- The first epoch needs a validator for each slot. -/
  | tooFewValidators (count required : Nat)
  deriving DecidableEq, Repr

/-- The text of the cause. -/
def GenesisError.message : GenesisError → String
  | .noValidators => "Genesis validator set is empty"
  | .tooFewValidators count required => s!"Genesis has {count} validators, at least {required} required"

/-- The start of a chain, with the deposits logged by then. -/
structure Genesis where
  state : ChainState
  block : CandidateBlock
  log : DepositLog

namespace Genesis

/-- The deposit of a development validator. -/
def depositOf (c : Constants) (key : PublicKey) : DepositData where
  pubkey := key
  withdrawalCredentials := keccak256 key.toByteArray
  amount := c.maxEffectiveBalance

/-- Start a chain with the first development validators, on top of the deposits that have been
logged. -/
def build (c : Constants) (time validatorCount : Nat) (log : DepositLog) :
    Attempt GenesisError Genesis := do
  Attempt.require (validatorCount ≠ 0) .noValidators
  Attempt.require (c.slotsPerEpoch ≤ validatorCount) (.tooFewValidators validatorCount c.slotsPerEpoch)
  let keys := (List.range validatorCount).map devKey
  let log := (keys.map (depositOf c)).foldl DepositLog.record log
  let record : ExternalData :=
    { depositRoot := (log.root? log.size).getD (Bytes.zero 32)
      depositCount := log.size
      blockHash := keccak256 "qc-dev-genesis".toUTF8 }
  let validators := keys.map (Validator.genesis · c.maxEffectiveBalance)
  c.requireRings
  let state := ChainState.genesis c time validators record {}
  return { state, block := .genesis (hashRoot state), log }

end Genesis

end Beacon
