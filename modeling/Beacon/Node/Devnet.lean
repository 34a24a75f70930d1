import Beacon.Clock
import Beacon.Duties.Client
import Beacon.Node.DevNode

set_option autoImplicit false

/-! # A running development network

A development node whose clock drives everything. When a slot begins, the clock tells the bus, the
validator client hears what the bus retains of it and schedules its duties, the node lets go of what
is stale, the deposit chain moves on, and then the duties that are due are performed; at last the
node follows the deposit chain. The slot itself is announced last, so that every bus retains it.
Between slots the duties that wait for a time go on when it has come. -/

namespace Beacon

/-- A development node that runs. -/
structure Devnet where
  line : ClientLine DevNode
  /-- The clock, unless it has come to its end. -/
  clock : Option RunningClock
  /-- The subscription of the validator client to the clock. -/
  ear : Subscription
  /-- A subscription to the clock and the chain. -/
  watch : Subscription

namespace Devnet

/-- Start a node at a time. Deposits are logged after the blocks of the deposit chain that lie before
genesis. -/
def start (c : NodeConfig) (now : Nat) (deposits : List DepositData) :
    Attempt StartError Devnet := do
  let e ← c.engine.widen .config
  let g ← c.genesis.widen .genesis
  let chain ← c.agedChain g.log
  let dev ← DevNode.create c e g chain c.deposits.maxConcurrentRequests
  let (bus, watch) := dev.node.bus.subscribe { topics := [.clock, .chain] }
  let (bus, ear) := bus.subscribe { topics := [.clock] }
  let node := deposits.foldl .recordDeposit { dev.node with bus }
  let client ← (Client.create c.constants c.duties dev.signer.keys { dev with node }).widen .config
  let clock := SlotClock.create c.genesisTime c.secondsPerSlot c.constants.slotsPerEpoch
  return { line := { world := client }, clock := some (.start clock now), ear, watch }

variable (d : Devnet)

/-- The node. -/
def node : BeaconNode := d.line.world.others.node

/-- Change the node. -/
def mapNode (f : BeaconNode → BeaconNode) : Devnet :=
  { d with line := d.line.modify fun client =>
      { client with others := { client.others with node := f client.others.node } } }

/-! ## Slots -/

/-- Let the client hear of an event. -/
def hear (t : ClientLine DevNode) : ChainEvent → ClientLine DevNode
  | .epochStarted epoch => t.onEpoch epoch
  | .slotStarted slot => t.onSlot slot
  | _ => t

/-- Let everything go on that need not wait. -/
def settle : Devnet :=
  { d with line := d.line.settle (Client.collaborators DevNode.collaborators) ClientLine.handle }

/-- What a step leaves behind; one that faults leaves everything as it was. -/
def orSame (step : BeaconNode → Checked BeaconNode) (n : BeaconNode) : BeaconNode :=
  match step n with
  | .ok n => n
  | .error _ => n

/-- Begin the next slot of the clock. -/
def beginSlot (r : RunningClock) : Devnet :=
  let d := d.mapNode fun n => { n with bus := r.events.foldl .publish n.bus }
  let (heard, ear) := d.ear.drain d.node.bus
  let d := { d with line := heard.foldl hear d.line, clock := r.advance.toOption, ear }
  let d := d.mapNode fun n => orSame BeaconNode.mine (n.expire r.next)
  d.settle.mapNode (orSame BeaconNode.follow)

/-! ## Time -/

/-- Let time pass without a new slot. -/
def rest (deadline : Nat) : Devnet :=
  { d with line := d.line.sleepUntil DevNode.collaborators deadline }

/-- Let time pass until a deadline, with at most the given number of new slots. -/
def sleepIn (deadline : Nat) : Nat → Devnet → Devnet
  | 0, d => (d.rest deadline).settle
  | count + 1, d =>
    match d.clock with
    | some r =>
      if r.due ≤ deadline then sleepIn deadline count ((d.rest r.due).beginSlot r)
      else (d.rest deadline).settle
    | none => (d.rest deadline).settle

/-- Let time pass until a deadline, and everything go on that need not wait then. Slots are at least
a second apart, so that there are fewer of them than milliseconds. -/
def sleepUntil (deadline : Nat) : Devnet := sleepIn deadline (deadline + 1) d

/-- Let a number of milliseconds pass. -/
def sleep (duration : Nat) : Devnet := d.sleepUntil (d.line.now + duration)

/-- What happened since the last look. -/
def look : List ChainEvent × Devnet :=
  let (events, watch) := d.watch.drain d.node.bus
  (events, { d with watch })

end Devnet

end Beacon
