import Beacon.Duties.Process

set_option autoImplicit false

/-! # Loading duties

From the assignments that a node reports for an epoch to the duty set of that epoch. An assignment
brings its proposals and, if its attestation falls into the epoch, one attestation; its slot is then
signed, and a signer elected by that signature joins the subnet of its committee and has an
aggregation to do as well. What lies outside the epoch is left out. -/

namespace Beacon

/-- What the loads of a validator client have in common. -/
structure LoadSettings where
  slotsPerEpoch : Nat
  /-- How many members of a committee should aggregate. -/
  targetAggregators : Nat
  /-- The keys whose duties are loaded. -/
  keys : List PublicKey

namespace LoadSettings

/-- Whether a slot lies in an epoch. -/
def inEpoch (c : LoadSettings) (epoch : Epoch) (slot : Slot) : Bool :=
  slot / max c.slotsPerEpoch 1 == epoch

end LoadSettings

namespace ValidatorDuties

/-- A duty of the assigned validator. -/
def duty (a : ValidatorDuties) (slot : Slot) (task : DutyTask) : Duty where
  slot
  validatorIndex := a.validatorIndex
  pubkey := a.pubkey
  task

/-- The assigned place in the committee. -/
def place (a : ValidatorDuties) : CommitteePlace where
  index := a.committeeIndex
  position := a.committeePosition
  size := a.committeeSize

/-- The proposals within an epoch. -/
def proposals (a : ValidatorDuties) (c : LoadSettings) (epoch : Epoch) : List Duty :=
  (a.proposalSlots.filter (c.inEpoch epoch)).map (a.duty · .propose)

/-- The duties of a committee member: its attestation and, if it is elected, its aggregation. -/
def committeeDuties (a : ValidatorDuties) (c : LoadSettings) (fork : ForkInfo) :
    Procedure LoadError (List Duty) := do
  let slot := a.attestationSlot
  let attestation := a.duty slot (.attest a.place)
  let proof ← Procedure.sign a.pubkey (.slot slot) fork .signer
  if isAggregator proof a.committeeSize c.targetAggregators then
    Procedure.ask (.subscribe slot a.committeeIndex) .api
    return [attestation, a.duty slot (.aggregate a.place proof)]
  else
    return [attestation]

/-- The duties of an epoch that an assignment brings. -/
def duties (a : ValidatorDuties) (c : LoadSettings) (fork : ForkInfo) (epoch : Epoch) :
    Procedure LoadError (List Duty) := do
  if c.inEpoch epoch a.attestationSlot then
    let more ← a.committeeDuties c fork
    return a.proposals c epoch ++ more
  else
    return a.proposals c epoch

end ValidatorDuties

/-- The duties of an epoch that all assignments bring, one assignment after the other. -/
def dutiesOf (c : LoadSettings) (fork : ForkInfo) (epoch : Epoch) :
    List ValidatorDuties → Procedure LoadError (List Duty)
  | [] => pure []
  | a :: rest => do
    let duties ← a.duties c fork epoch
    let more ← dutiesOf c fork epoch rest
    return duties ++ more

/-- Load the duties of an epoch, once. -/
def loadDuties (c : LoadSettings) (epoch : Epoch) : Procedure LoadError DutySet := do
  let fork ← Procedure.forkFor epoch .fork
  let assignments ← Procedure.ask (.duties epoch c.keys) .api
  let duties ← dutiesOf c fork epoch assignments
  return .create epoch fork duties

end Beacon
