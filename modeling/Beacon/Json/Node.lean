import Beacon.Json.Script
import Beacon.Json.Settings
import Beacon.Node.Devnet
import Beacon.Node.Workbench

set_option autoImplicit false

/-! # Nodes as JSON

The settings of development networks, and what is seen of a node that is driven by hand or runs. -/

namespace Beacon

/-! ## Causes -/

instance : Cause StartError where
  code
    | .config e => "Config." ++ Cause.code e
    | .genesis e => "Genesis." ++ Cause.code e
  text := StartError.message

/-- The causes of a workbench stand for themselves. -/
instance : Cause WorkbenchError where
  code
    | .api e => Cause.code e
    | .chain e => Cause.code e
    | .signer e => Cause.code e
  text
    | .api e => e.message
    | .chain e => e.message
    | .signer e => e.message

/-! ## Settings -/

/-- Read the settings of a small local network; what is absent stays as it is there, but for the
number of validators. -/
def NodeConfig.devnetOfJson? (j : Json) : Option NodeConfig := do
  let r ← Row.read? .terse [] j
  let c := NodeConfig.devnet (← r.get "genesis_time")
  let d := c.deposits
  return { c with
    constants := ← r.get "constants"
    validatorCount := ← r.getD "validators" 16
    secondsPerSlot := ← r.getD "seconds_per_slot" c.secondsPerSlot
    busCapacity := ← r.getD "bus_capacity" c.busCapacity
    duties := { c.duties with lookahead := ← r.getD "lookahead_epochs" c.duties.lookahead }
    deposits := { d with
      followDistance := ← r.getD "follow_distance" d.followDistance
      maxTrackedBlocks := ← r.getD "max_tracked_blocks" d.maxTrackedBlocks
      depositContract := ← r.getD "deposit_contract" d.depositContract }
    production := { graffiti := ← r.getD "graffiti" c.production.graffiti } }

/-! ## Blocks and assignments -/

/-- The operations of a block in short. -/
def CandidateBlock.operationsToJson (b : CandidateBlock) : List (String × Json) := [
  ("attestations", .array (b.body.attestations.map fun a =>
    .array [.natural a.data.slot, .natural a.data.index, writeBits .terse a.bits])),
  ("deposits", write .terse (b.body.deposits.map Deposit.index)),
  ("slashings", write .terse (b.body.proposerSlashings.map fun x => x.header1.message.proposerIndex))]

/-- A block in short. -/
def CandidateBlock.toRow (b : CandidateBlock) : Json :=
  .array [.natural b.slot, .natural b.proposerIndex, write .terse b.root,
    .natural b.body.attestations.length, .natural b.body.deposits.length]

/-- A block that has been packed, with the head of its reveal. -/
def CandidateBlock.packedToJson (b : CandidateBlock) : Json := .object ([
  ("slot", .natural b.slot), ("proposer", .natural b.proposerIndex),
  ("parent", write .terse b.parentRoot), ("root", write .terse b.root),
  ("vote", write .terse b.body.externalData), ("graffiti", write .terse b.body.graffiti),
  ("reveal", .string (Hex.encode (b.body.randaoReveal.toList.take 8)))] ++ b.operationsToJson)

/-- An assignment in short, and whether its key is that of the development validator. -/
def ValidatorDuties.toRow (d : ValidatorDuties) : Json :=
  .array [.natural d.validatorIndex, .natural d.attestationSlot, .natural d.committeeIndex,
    .natural d.committeePosition, .natural d.committeeSize, write .terse d.proposalSlots,
    .bool (d.pubkey == devKey d.validatorIndex)]

/-- A key, or the number of a development validator. -/
def readKey : Json → Option PublicKey
  | .natural n => (read .terse (.natural n)).map devKey
  | j => read .terse j

/-! ## Workbenches -/

namespace Workbench

/-- The newest record of the deposit chain that the node follows. -/
def newestToJson (x : Workbench) : Json :=
  write .terse (x.node.tracker.newest?.map TrackedBlock.record)

/-- The head, and what happened since the last look. -/
def lookToJson (x : Workbench) : Json × Workbench :=
  let (events, x) := x.look
  (.object [("block_root", write .terse x.node.head.block.root),
    ("state", x.node.head.state.summary), ("events", write .terse events),
    ("lagged", .natural x.watch.lagged)], x)

/-- What a slot leaves behind. -/
def slotToJson (x : Workbench) : Json := .object [
  ("joined", write .terse x.node.joined),
  ("pool", .natural x.node.attestations.attestations.length),
  ("tracked", .natural x.node.tracker.blocks.length), ("newest", x.newestToJson)]

/-- An attestation that was handed in. -/
def attestedToJson (x : Workbench) (a : Attestation) : Json := .object [
  ("attestation", .object [("data", write .terse a.data), ("bits", writeBits .terse a.bits)]),
  ("pool", .natural x.node.attestations.attestations.length)]

end Workbench

/-! ## Running networks -/

namespace Devnet

/-- An event without its roots. -/
def eventToJson : ChainEvent → Json
  | .slotStarted n => .array [.string "slot", .natural n]
  | .epochStarted n => .array [.string "epoch", .natural n]
  | .blockImported slot _ proposer => .array [.string "imported", .natural slot, .natural proposer]
  | .checkpointFinalized c => .array [.string "finalized", .natural c.epoch]

/-- The word for what is known of an epoch. -/
def statusWord (s : Schedule) (epoch : Epoch) : Json :=
  match s.duties? epoch with
  | none => .string "Unloaded"
  | some (.loading _) => .string "Loading"
  | some (.loaded _) => .string "Loaded"

/-- What is seen of a network, with the reports from a place on. -/
def lookToJson (d : Devnet) (reported : Nat) : Json × Devnet :=
  let (events, d) := d.look
  let s := d.node.head.state
  let client := d.line.world
  (.object [("events", .array (events.map eventToJson)), ("slot", .natural d.node.head.block.slot),
    ("justified", .natural s.currentJustified.epoch), ("finalized", .natural s.finalized.epoch),
    ("balances", write .terse s.balances), ("joined", write .terse d.node.joined),
    ("status", .array ((List.range 6).map (statusWord client.schedule))),
    ("current", write .terse client.schedule.current),
    ("reports", reportsToJson (client.reports.drop reported))], d)

/-- Sleep and look, again and again. -/
def watchToJson : Devnet → List Nat → List Json
  | _, [] => []
  | d, duration :: rest =>
    let (answer, d) := (d.sleep duration).lookToJson d.line.world.reports.length
    answer :: watchToJson d rest

/-- The looks at a network, and what is left when it has been shut down. -/
def runToJson (c : NodeConfig) (d : Devnet) (durations : List Nat) : Json :=
  let clock := SlotClock.create c.genesisTime c.secondsPerSlot c.constants.slotsPerEpoch
  .object [("steps", .array (d.watchToJson durations)),
    ("keys", .natural d.line.world.others.signer.keys.length),
    ("genesis_slot", write .terse (clock.slotAt? c.genesisTime)),
    ("subscribers_left", .natural 0), ("extra_stopped", .bool true)]

end Devnet

end Beacon
