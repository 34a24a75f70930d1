import Beacon.Node.BeaconNode

set_option autoImplicit false

/-! # Development nodes

A node that holds the keys of its own validators: whoever asks for a signature gets it at once. Also
here are the parts that a development node is put together from, and why it may not start. -/

namespace Beacon

/-- Why a node does not start. -/
inductive StartError where
  | config (cause : InvalidSetting)
  | genesis (cause : GenesisError)
  deriving DecidableEq, Repr

/-- The text of the cause. -/
def StartError.message : StartError → String
  | .config cause => s!"Invalid configuration: {cause.message}"
  | .genesis cause => s!"Genesis failed: {cause.message}"

namespace NodeConfig

variable (c : NodeConfig)

/-- The engine of a node, once its settings have been checked. -/
def engine : Attempt InvalidSetting Engine := do
  c.validate
  Engine.create c.constants

/-- The genesis of a node that no deposits precede. -/
def genesis : Attempt GenesisError Genesis :=
  Genesis.build c.constants c.genesisTime c.validatorCount {}

/-- A deposit chain that starts with the node. -/
def newChain (log : DepositLog) : DevDepositChain :=
  .create c.deposits.depositContract log c.genesisTime c.depositSecondsPerBlock

/-- A deposit chain that is old enough for the node to follow it from its first slot. -/
def agedChain (log : DepositLog) : Checked DevDepositChain :=
  let age := Word.mulSat c.deposits.followDistance c.depositSecondsPerBlock
  (DevDepositChain.create c.deposits.depositContract log (c.genesisTime - age)
    c.depositSecondsPerBlock).mineMany log c.deposits.followDistance

/-- The keys of the validators. -/
def devKeys : List PublicKey := (List.range c.validatorCount).map devKey

end NodeConfig

/-- A node with the keys of its validators. -/
structure DevNode where
  node : BeaconNode
  signer : DevSigner

namespace DevNode

/-- A node at genesis with the keys of its validators. -/
def create (c : NodeConfig) (e : Engine) (g : Genesis) (chain : DevDepositChain) (requests : Nat) :
    Checked DevNode := do
  let node ← BeaconNode.create c e g chain requests
  return { node, signer := .create c.devKeys e.constants.slotsPerEpoch }

/-- Answer a call. -/
def answer (x : DevNode) : (call : Call) → call.Answer × DevNode
  | .api call =>
    let (result, node) := x.node.answer call
    (result, { x with node })
  | .sign key request fork => (x.signer.respond key fork request, x)

/-- A development node answers without delay and keeps no record of calls. -/
def collaborators : Collaborators DevNode where
  latency _ _ := 0
  note x _ _ := x
  answer := answer

end DevNode

end Beacon
