import Beacon.DepositChain.Contract
import Beacon.DepositChain.Log

set_option autoImplicit false

/-! # A deposit chain for development

A deposit chain on one machine. Blocks are mined on demand, each remembers how many deposits had
been logged by then, and the contract answers from the log as of the block it is asked about. The
chain can be taken offline, and then answers nothing. -/

namespace Beacon

/-- What a follower of the deposit chain can ask for. -/
structure Endpoint where
  latestBlock : Attempt RequestError DepositBlock
  blockByNumber : Nat → Attempt RequestError DepositBlock
  blockByHash : Root → Attempt RequestError DepositBlock
  /-- Call a contract as of the block with a number. -/
  call : Address → List UInt8 → Nat → Attempt RequestError (List UInt8)

/-- A block with the number of deposits logged when it was mined. -/
structure MinedBlock where
  block : DepositBlock
  depositCount : Nat
  deriving DecidableEq, Inhabited

/-- A deposit chain on one machine. -/
structure DevDepositChain where
  /-- The address of the deposit contract. -/
  contract : Address
  secondsPerBlock : Nat
  genesis : MinedBlock
  /-- The blocks after the first, oldest first. -/
  mined : Array MinedBlock := #[]
  offline : Bool := false

namespace DevDepositChain

/-- The hash of a block. -/
def blockHash (number : Nat) (parent : Root) (timestamp : Nat) : Root :=
  taggedDigest "deposit-chain-block" [.word number, .digest parent, .word timestamp]

/-- A chain of one block. -/
def create (contract : Address) (log : DepositLog) (genesisTimestamp secondsPerBlock : Nat) :
    DevDepositChain where
  contract
  secondsPerBlock
  genesis :=
    { block := { hash := blockHash 0 (Bytes.zero 32) genesisTimestamp, timestamp := genesisTimestamp }
      depositCount := log.size }

/-- The newest block. -/
def latest (c : DevDepositChain) : MinedBlock := c.mined.back?.getD c.genesis

/-- The block with a number. -/
def block? (c : DevDepositChain) (number : Nat) : Option MinedBlock :=
  match number with
  | 0 => some c.genesis
  | n + 1 => c.mined[n]?

/-- The blocks, oldest first. -/
def blocks (c : DevDepositChain) : List MinedBlock := c.genesis :: c.mined.toList

/-- Mine a block over the deposits logged so far. -/
def mine (c : DevDepositChain) (log : DepositLog) : Checked DevDepositChain := do
  let parent := c.latest.block
  let number ← Word.add parent.number 1
  let timestamp ← Word.add parent.timestamp c.secondsPerBlock
  let block : DepositBlock :=
    { number, hash := blockHash number parent.hash timestamp, parentHash := parent.hash, timestamp }
  return { c with mined := c.mined.push { block, depositCount := log.size } }

/-- Mine as many blocks as `count`. -/
def mineMany (c : DevDepositChain) (log : DepositLog) : Nat → Checked DevDepositChain
  | 0 => .ok c
  | count + 1 => do
    let c ← c.mine log
    c.mineMany log count

/-! ## Answering -/

/-- Refuse to answer while offline. -/
def requireOnline (c : DevDepositChain) : Attempt RequestError Unit :=
  Attempt.require (c.offline = false) (.unavailable "in-memory deposit chain offline")

/-- A block that has to be there. -/
def found {α : Type} (name : String) : Option α → Attempt RequestError α
  | some a => .ok a
  | none => Attempt.reject (.blockNotFound name)

/-- Answer a call of the deposit contract. -/
def call (c : DevDepositChain) (log : DepositLog) (address : Address) (data : List UInt8) (number : Nat) :
    Attempt RequestError (List UInt8) := do
  c.requireOnline
  Attempt.require (address = c.contract) (.callFailed s!"no contract at 0x{address.hex}")
  let count := (← found s!"#{number}" (c.block? number)).depositCount
  match ContractCall.decode? data with
  | some .depositCount => return encodeDepositCount count
  | some .depositRoot =>
    match log.root? count with
    | some root => return root.toList
    | none => Attempt.reject (.callFailed "deposit log truncated")
  | none => Attempt.reject (.callFailed s!"unknown selector 0x{Hex.encode data}")

/-- The chain as others see it. -/
def endpoint (c : DevDepositChain) (log : DepositLog) : Endpoint where
  latestBlock := do
    c.requireOnline
    return c.latest.block
  blockByNumber number := do
    c.requireOnline
    return (← found s!"#{number}" (c.block? number)).block
  blockByHash hash := do
    c.requireOnline
    return (← found s!"0x{hash.hex}" (c.blocks.find? (·.block.hash = hash))).block
  call := c.call log

end DevDepositChain

end Beacon
