import Beacon.Chain.Block

set_option autoImplicit false

/-! # The chain state

What a chain knows as of a slot: its registry and balances, the recent block roots and randao mixes
in two rings, the votes and attestations of the running periods, and the checkpoints that have been
justified and finalized. -/

namespace Beacon

/-- The chain as of `slot`. -/
structure ChainState where
  genesisTime : Nat := 0
  genesisValidatorsRoot : Root := Bytes.zero 32
  slot : Slot := 0
  fork : Fork := {}
  latestBlockHeader : BlockHeader := {}
  /-- Ring of block roots; a slot has its place at its remainder by the length. -/
  blockRoots : Array Root := #[]
  /-- Ring of randao mixes; a slot has its place at its remainder by the length. -/
  randaoMixes : Array Root := #[]
  externalData : ExternalData := {}
  externalDataVotes : List ExternalData := []
  depositIndex : Nat := 0
  validators : Array Validator := #[]
  balances : Array Gwei := #[]
  previousEpochAttestations : List PendingAttestation := []
  currentEpochAttestations : List PendingAttestation := []
  /-- Whether each of the last four epochs was justified, the latest first. -/
  justificationBits : Vector Bool 4 := Vector.replicate 4 false
  previousJustified : Checkpoint := {}
  currentJustified : Checkpoint := {}
  finalized : Checkpoint := {}
  deriving DecidableEq, Inhabited

instance : HasRoot ChainState where
  commitment s := .tagged "ChainState" (
    [.word s.genesisTime, .digest s.genesisValidatorsRoot, .word s.slot, .of s.fork,
     .of s.latestBlockHeader, .of s.blockRoots, .of s.randaoMixes, .of s.externalData,
     .of s.externalDataVotes, .word s.depositIndex, .of s.validators, .of s.balances,
     .of s.previousEpochAttestations, .of s.currentEpochAttestations] ++
    s.justificationBits.toList.map .flag ++
    [.of s.previousJustified, .of s.currentJustified, .of s.finalized])

namespace ChainState

/-- The first state of a chain with the given validators. Every mix starts as one digest of the
validators and the time; the deposits counted by `externalData` are taken as processed. -/
def genesis (c : Constants) (genesisTime : Nat) (validators : List Validator)
    (externalData : ExternalData) (fork : Fork) : ChainState :=
  let validatorsRoot := hashRoot validators
  let mix := taggedDigest "genesis-mix" [.digest validatorsRoot, .word genesisTime]
  { genesisTime
    genesisValidatorsRoot := validatorsRoot
    fork
    latestBlockHeader := { bodyRoot := hashRoot ({} : BlockBody) }
    blockRoots := Array.replicate c.slotsPerHistoricalRoot (Bytes.zero 32)
    randaoMixes := Array.replicate c.randaoMixesLength mix
    externalData
    depositIndex := externalData.depositCount
    validators := validators.toArray
    balances := (validators.map Validator.effectiveBalance).toArray }

/-- The epoch of the state's slot. -/
def currentEpoch (s : ChainState) (c : Constants) : Epoch := c.epochAt s.slot

/-- The validators active at `epoch`, in the order of the registry. -/
def activeIndices (s : ChainState) (epoch : Epoch) : List ValidatorIndex :=
  (s.validators.toList.zipIdx.filter fun p => p.1.isActiveAt epoch).map (·.2)

/-- The sum of the effective balances of the validators active at `epoch`, at most a word. -/
def totalActiveBalance (s : ChainState) (epoch : Epoch) : Gwei :=
  ((s.validators.toList.filter (·.isActiveAt epoch)).map Validator.effectiveBalance).foldl
    Word.addSat 0

/-- The first place of a key in the registry. -/
def validatorIndex? (s : ChainState) (pubkey : PublicKey) : Option ValidatorIndex :=
  s.validators.toList.findIdx? (·.pubkey = pubkey)

end ChainState

end Beacon
