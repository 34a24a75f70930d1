import Beacon.LocalChain
import Beacon.Node.DevNode

set_option autoImplicit false

/-! # A node driven by hand

A development node without a clock: slots begin when they are told to, validators attest in chosen
patterns, and the proposer of any slot can be made to propose. A subscription to all events tells
what happened since the last look. Attempts keep what they have done before they fail. -/

namespace Beacon

/-- Why an attempt fails. -/
inductive WorkbenchError where
  | api (cause : ApiError)
  | chain (cause : TransitionError)
  | signer (cause : SignerError)
  deriving DecidableEq

/-- A node driven by hand. -/
structure Workbench where
  dev : DevNode
  watch : Subscription
  /-- The block that was created last. -/
  created : Option CandidateBlock := none

/-- Something to try on a workbench. -/
abbrev Trial (α : Type) : Type := ExceptT (Failure WorkbenchError) (StateM Workbench) α

namespace Workbench

/-- A node at genesis, with a new deposit chain that admits two requests at once. -/
def create (c : NodeConfig) (e : Engine) (g : Genesis) : Checked Workbench := do
  let dev ← DevNode.create c e g (c.newChain g.log) 2
  let (bus, watch) := dev.node.bus.subscribe { topics := [.all] }
  return { dev := { dev with node := { dev.node with bus } }, watch }

variable (x : Workbench)

/-- The node. -/
def node : BeaconNode := x.dev.node

/-- Change the node. -/
def withNode (node : BeaconNode) : Workbench := { x with dev := { x.dev with node } }

/-- What happened since the last look. -/
def look : List ChainEvent × Workbench :=
  let (events, watch) := x.watch.drain x.node.bus
  (events, { x with watch })

/-! ## Proposing -/

/-- The reveal of the proposer of a slot, signed with its key in the registry. -/
def reveal (slot : Slot) : Attempt WorkbenchError Signature := do
  let e := x.node.engine
  let s ← if slot ≤ x.node.head.state.slot then pure x.node.head.state
    else (e.advance x.node.head.state slot).widen .chain
  let proposer ← (e.proposer s slot).widen .chain
  let key := ((s.validators[proposer]?).map Validator.pubkey).getD (Bytes.zero 48)
  (x.dev.signer.respond key x.node.head.forkInfo (.randao (e.constants.epochAt slot))).widen .signer

/-- Pack a block, with the reveal of its proposer unless another one is given. -/
def propose (slot : Slot) (reveal : Option Signature) : Attempt WorkbenchError CandidateBlock := do
  let reveal ← match reveal with
    | some r => pure r
    | none => x.reveal slot
  (x.node.createBlock slot reveal).widen .api

/-- Import a block. -/
def publish (b : SignedBlock) : Attempt WorkbenchError Workbench := do
  return x.withNode (← (x.node.publishBlock b).widen .api)

/-! ## Attesting -/

/-- Who takes part in an attestation. -/
inductive Turnout where
  | pattern (pattern : LocalChain.Pattern)
  | bits (bits : List Bool)

/-- The committees of a slot. -/
def committees (slot : Slot) : Attempt WorkbenchError EpochCommittees := do
  let e := x.node.engine
  let s ← (x.node.head.stateAt e slot).widen .api
  (e.committees s (e.constants.epochAt slot)).widen .chain

/-- The attestation of a committee. -/
def attestation (slot : Slot) (index : CommitteeIndex) (turnout : Turnout) :
    Attempt WorkbenchError Attestation := do
  let data ← (x.node.head.attestationData x.node.engine slot index).widen .api
  let bits ← match turnout with
    | .bits bits => pure bits
    | .pattern p => do
      let members := ((← x.committees slot).committee? slot index).getD []
      pure (LocalChain.Pattern.bits p 0 members.length)
  return { bits, data, signature := Bytes.fill 96 5 }

/-- Hand an attestation in. -/
def submit (a : Attestation) : Workbench := x.withNode (x.node.addAttestation a)

/-! ## Running through slots -/

/-- Try something that depends on the workbench alone. -/
def attempt {α : Type} (f : Workbench → Attempt WorkbenchError α) : Trial α := do f (← get)

/-- Let all committees of a slot attest. -/
def attestSlot (slot : Slot) (p : LocalChain.Pattern) : Trial Unit := do
  let committees ← attempt (·.committees slot)
  (List.range committees.committeesPerSlot).forM fun index => do
    let a ← attempt (·.attestation slot index (.pattern p))
    modify (·.submit a)

/-- Begin a slot. -/
def beginSlot (slot : Slot) (mines : Bool) : Trial Unit := do
  let node ← attempt fun x => Attempt.ofChecked (x.node.onSlot slot mines)
  modify (·.withNode node)

/-- Create a block and keep it. -/
def createBlock (slot : Slot) (reveal : Option Signature) : Trial CandidateBlock := do
  let b ← attempt (·.propose slot reveal)
  modify fun x => { x with created := some b }
  return b

/-- Publish a block. -/
def publishBlock (b : SignedBlock) : Trial Unit := do
  set (← attempt (·.publish b))

/-- How slots are run through. -/
structure Course where
  /-- Who attests the slot before each slot; nobody if absent. -/
  pattern : Option LocalChain.Pattern := none
  /-- The slots without a block. -/
  skip : List Slot := []
  /-- Whether each slot begins, as a clock would tell. -/
  slotEvents : Bool := false

/-- Run through one slot. -/
def runSlot (c : Course) (slot : Slot) : Trial (Option CandidateBlock) := do
  if let some p := c.pattern then attestSlot (slot - 1) p
  if c.slotEvents then beginSlot slot true
  if c.skip.contains slot then return none
  let b ← createBlock slot none
  publishBlock { message := b, signature := Bytes.fill 96 4 }
  return some b

/-- Run through as many slots as `count`, from `slot` on. -/
def runFrom (c : Course) : Nat → Slot → Trial (List CandidateBlock)
  | 0, _ => return []
  | count + 1, slot => do
    let block ← runSlot c slot
    let blocks ← runFrom c count (slot + 1)
    return block.toList ++ blocks

/-- Run through the slots after the head up to a last one; the answer is the blocks. -/
def runTo (c : Course) (last : Slot) : Trial (List CandidateBlock) := do
  let start := (← get).node.head.block.slot + 1
  runFrom c (last + 1 - start) start

end Workbench

end Beacon
