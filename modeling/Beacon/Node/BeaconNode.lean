import Beacon.Duties.Call
import Beacon.Node.Genesis
import Beacon.Node.Head
import Beacon.Node.Settings
import Beacon.Subnets

set_option autoImplicit false

/-! # The beacon node

A node that serves validators: its head, the pools that blocks are packed from, the subnets it has
joined, the deposit chain it follows, and the bus on which it announces what happens. Blocks are
imported one after the other; a call that fails leaves the node as it was. -/

namespace Beacon

/-- A node with a deposit chain of its own. -/
structure BeaconNode where
  engine : Engine
  production : ProductionConfig
  head : ChainHead
  attestations : AttestationPool
  slashings : SlashingPool := {}
  subnets : SubnetTracker
  /-- The subnets joined on the network, in increasing order. -/
  joined : List Subnet := []
  bus : EventBus
  log : DepositLog
  chain : DevDepositChain
  tracker : DepositTracker
  /-- The gate in front of the deposit chain. -/
  gate : Gate Nat

namespace BeaconNode

/-- The name of the gate in front of the deposit chain. -/
def gateName : String := "deposit-chain"

/-- A node at genesis, with a deposit chain that admits a number of requests at once. -/
def create (c : NodeConfig) (e : Engine) (g : Genesis) (chain : DevDepositChain) (requests : Nat) :
    Checked BeaconNode := do
  let bus ← EventBus.create c.busCapacity
  return {
    engine := e
    production := c.production
    head := { state := g.state, block := g.block }
    attestations := .empty e.constants
    subnets := .create e.constants.attestationSubnetCount
    bus
    log := g.log
    chain
    tracker := { config := c.deposits }
    gate := .create gateName requests }

variable (n : BeaconNode)

/-! ## Blocks -/

/-- What the node packs blocks from. -/
def sources : BlockSources where
  attestations := n.attestations.select
  deposits s := n.log.depositsFor s n.engine.constants.maxDeposits
  vote := n.tracker.voteFor
  slashings := n.slashings.slashings

/-- Pack a block on top of the head, for the proposer to sign. -/
def createBlock (slot : Slot) (reveal : Signature) : Attempt ApiError CandidateBlock := do
  Attempt.require (n.head.block.slot < slot)
    (.rejected s!"slot {slot} is not after head slot {n.head.block.slot}")
  (assembleBlock n.engine n.production n.sources n.head.state n.head.block slot reveal).widen
    .ofTransition

/-- Take a new head: its operations leave the pools, and it is announced. -/
def adopt (head : ChainHead) : BeaconNode :=
  let body := head.block.body
  { n with
    head
    attestations := n.attestations.dropIncluded body.attestations
    slashings := n.slashings.dropIncluded body.proposerSlashings
    bus := (n.head.news head).foldl EventBus.publish n.bus }

/-- Import a signed block. -/
def publishBlock (b : SignedBlock) : Attempt ApiError BeaconNode := do
  Attempt.require (b.signature ≠ Bytes.zero 96) (.rejected "block is unsigned")
  let head ← n.head.extend n.engine b.message
  return n.adopt head

/-! ## Attestations and evidence -/

/-- Pool an attestation. -/
def addAttestation (a : Attestation) : BeaconNode :=
  { n with attestations := n.attestations.add a }

/-- The widest pooled attestation for some data. -/
def aggregateAttestation (data : AttestationData) : Attempt ApiError Attestation :=
  match n.attestations.best? data with
  | some a => .ok a
  | none =>
    Attempt.reject (.rejected s!"no attestations for slot {data.slot} committee {data.index}")

/-- Pool a piece of evidence against a proposer. -/
def addSlashing (x : ProposerSlashing) : BeaconNode := { n with slashings := n.slashings.add x }

/-! ## Subnets -/

/-- Take over which subnets are tracked, and tell the network. -/
def withSubnets (x : SubnetTracker × List Membership) : BeaconNode :=
  { n with subnets := x.1, joined := x.2.foldl Membership.applyTo n.joined }

/-- Keep the subnet of a committee joined through a slot. -/
def subscribe (slot : Slot) (index : CommitteeIndex) : BeaconNode :=
  n.withSubnets (n.subnets.subscribe index slot)

/-! ## Calls -/

/-- Do what a validator asks. -/
def answer : (call : ApiCall) → Attempt ApiError call.Result × BeaconNode
  | .forkInfo _ => (.ok n.head.forkInfo, n)
  | .duties epoch keys => (n.head.duties n.engine epoch keys, n)
  | .createBlock slot reveal => (n.createBlock slot reveal, n)
  | .publishBlock b =>
    match n.publishBlock b with
    | .ok n => (.ok (), n)
    | .error f => (.error f, n)
  | .attestationData slot index => (n.head.attestationData n.engine slot index, n)
  | .publishAttestation a => (.ok (), n.addAttestation a)
  | .aggregateAttestation data => (n.aggregateAttestation data, n)
  | .publishAggregate a => (.ok (), n.addAttestation a.message.aggregate)
  | .subscribe slot index => (.ok (), n.subscribe slot index)

/-! ## The deposit chain -/

/-- Accept a deposit. -/
def recordDeposit (d : DepositData) : BeaconNode := { n with log := n.log.record d }

/-- Mine a block of the deposit chain. -/
def mine : Checked BeaconNode := return { n with chain := ← n.chain.mine n.log }

/-- Mine a number of blocks of the deposit chain. -/
def mineMany (count : Nat) : Checked BeaconNode :=
  return { n with chain := ← n.chain.mineMany n.log count }

/-- Take the deposit chain offline, or bring it back. -/
def setOffline (offline : Bool) : BeaconNode := { n with chain := { n.chain with offline } }

/-- Follow the deposit chain; the answer is how many blocks were fetched. -/
def sync : Attempt RequestError (Nat × BeaconNode) := do
  let (count, tracker, gate) ← n.tracker.sync (n.chain.endpoint n.log) n.gate
  return (count, { n with tracker, gate })

/-- Follow the deposit chain as far as it answers. -/
def follow : Checked BeaconNode :=
  match n.sync with
  | .ok (_, n) => .ok n
  | .error (.rejected _) => .ok n
  | .error (.fault f) => .error (.fault f)

/-! ## What every slot brings -/

/-- Let go of what a slot makes stale: subnets that nobody needs, attestations that no block can
include. -/
def expire (slot : Slot) : BeaconNode :=
  let n := n.withSubnets (n.subnets.onSlot slot)
  { n with attestations := n.attestations.prune slot }

/-- A slot has begun; the deposit chain moves on as well, if the node mines it. -/
def onSlot (slot : Slot) (mines : Bool) : Checked BeaconNode := do
  let n := n.expire slot
  let n ← if mines then n.mine else pure n
  n.follow

end BeaconNode

end Beacon
