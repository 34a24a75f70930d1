import Beacon.Duties.Timeline

set_option autoImplicit false

/-! # Scripted collaborators

A node and a signer that do as they are told, to rehearse the duties of a validator without either:
they report given assignments, sign with the first byte of a key, take as long as given for each kind
of call, and fail where the script says so. Every call is put on record in words. -/

namespace Beacon

/-! ## Calls in words -/

namespace Call

/-- The name of a call. -/
def name : Call → String
  | .api (.forkInfo _) => "fork_info"
  | .api (.duties ..) => "duties"
  | .api (.createBlock ..) => "create_unsigned_block"
  | .api (.publishBlock _) => "publish_block"
  | .api (.attestationData ..) => "attestation_data"
  | .api (.publishAttestation _) => "publish_attestation"
  | .api (.aggregateAttestation _) => "aggregate_attestation"
  | .api (.publishAggregate _) => "publish_aggregate"
  | .api (.subscribe ..) => "subscribe_to_committee"
  | .sign _ (.randao _) _ => "sign_randao"
  | .sign _ (.block _) _ => "sign_block"
  | .sign _ (.attestation _) _ => "sign_attestation"
  | .sign _ (.slot _) _ => "sign_slot"
  | .sign _ (.aggregate _) _ => "sign_aggregate"

/-- The first byte of a string of bytes. -/
def leadingByte {n : Nat} (b : Bytes n) : Nat := (b.toList.headD 0).toNat

/-- The number by which scripts tell calls of one name apart. -/
def key : Call → Nat
  | .api (.forkInfo epoch) => epoch
  | .api (.duties epoch _) => epoch
  | .api (.createBlock slot _) => slot
  | .api (.publishBlock b) => b.message.slot
  | .api (.attestationData slot _) => slot
  | .api (.publishAttestation a) => a.data.index
  | .api (.aggregateAttestation d) => d.index
  | .api (.publishAggregate a) => a.message.aggregatorIndex
  | .api (.subscribe _ index) => index
  | .sign key _ _ => leadingByte key

/-- What is said about a call besides its name and key. -/
def details : Call → List String
  | .api (.forkInfo _) => []
  | .api (.duties _ keys) => [s!"keys={keys.length}"]
  | .api (.createBlock _ reveal) => [s!"reveal={leadingByte reveal}"]
  | .api (.publishBlock b) => [s!"sig={leadingByte b.signature}"]
  | .api (.attestationData _ index) => [s!"committee={index}"]
  | .api (.publishAttestation a) =>
    [s!"slot={a.data.slot}", "bits=" ++ String.ofList (a.bits.map fun b => if b then '1' else '0'),
     s!"sig={leadingByte a.signature}"]
  | .api (.aggregateAttestation d) => [s!"slot={d.slot}"]
  | .api (.publishAggregate a) =>
    [s!"slot={a.message.aggregate.data.slot}", s!"proof={leadingByte a.message.selectionProof}",
     s!"sig={leadingByte a.signature}"]
  | .api (.subscribe slot _) => [s!"slot={slot}"]
  | .sign _ (.randao epoch) _ => [s!"epoch={epoch}"]
  | .sign _ (.block b) _ => [s!"slot={b.slot}"]
  | .sign _ (.attestation d) _ => [s!"slot={d.slot}"]
  | .sign _ (.slot slot) fork => [s!"slot={slot}", s!"version={fork.fork.currentVersion.hex}"]
  | .sign _ (.aggregate m) _ => [s!"slot={m.aggregate.data.slot}"]

/-- A call in words. -/
def describe (c : Call) : String := " ".intercalate (s!"{c.name} {c.key}" :: c.details)

end Call

/-! ## Scripts -/

/-- How a call fails. -/
inductive ScriptedCause where
  | api (cause : ApiError)
  | signer (cause : SignerError)
  /-- It stops in the middle. -/
  | fault
  deriving DecidableEq, Repr

/-- Calls that fail. -/
structure ScriptedFailure where
  name : String
  key : Nat
  cause : ScriptedCause
  /-- How often they fail; always if there is no number. -/
  times : Option Nat := none
  deriving DecidableEq, Repr

/-- A node and a signer with their script, and the calls on record. -/
structure ScriptedNode where
  fork : ForkInfo := {}
  keys : List PublicKey := []
  duties : List (Epoch × List ValidatorDuties) := []
  failures : List ScriptedFailure := []
  /-- Milliseconds from a call of a name to its answer. -/
  latencies : List (String × Nat) := []
  /-- Times and texts of the calls so far, in their order. -/
  calls : List (Nat × String) := []

namespace ScriptedNode

/-- Use up one of the failures that a call is in for. -/
def takeFailure (name : String) (key : Nat) :
    List ScriptedFailure → Option ScriptedCause × List ScriptedFailure
  | [] => (none, [])
  | f :: fs =>
    if f.name = name ∧ f.key = key ∧ f.times ≠ some 0 then
      (some f.cause, { f with times := f.times.map (· - 1) } :: fs)
    else
      let (cause, rest) := takeFailure name key fs
      (cause, f :: rest)

/-- The failure of a call. -/
def fail (cause : ScriptedCause) : (c : Call) → c.Answer
  | .api _ =>
    match cause with
    | .api cause => Attempt.reject cause
    | _ => Attempt.fault .collaborator
  | .sign .. =>
    match cause with
    | .signer cause => Attempt.reject cause
    | _ => Attempt.fault .collaborator

/-- What a node gives back when it does not fail. -/
def result (n : ScriptedNode) : (c : ApiCall) → c.Result
  | .forkInfo _ => n.fork
  | .duties epoch _ => ((n.duties.find? (·.1 == epoch)).map (·.2)).getD []
  | .createBlock slot _ => { CandidateBlock.genesis (Bytes.zero 32) with slot }
  | .publishBlock _ => ()
  | .attestationData slot index => { slot, index }
  | .publishAttestation _ => ()
  | .aggregateAttestation data => { bits := [true, true], data, signature := Bytes.fill 96 9 }
  | .publishAggregate _ => ()
  | .subscribe .. => ()

/-- The answer to a call that does not fail. -/
def reply (n : ScriptedNode) : (c : Call) → c.Answer
  | .api c => .ok (n.result c)
  | .sign key _ _ =>
    if n.keys.contains key then .ok (Bytes.fill 96 (key.toList.headD 0))
    else Attempt.reject (.unknownKey key.hex)

/-- The answer to a call. -/
def answer (n : ScriptedNode) (c : Call) : c.Answer × ScriptedNode :=
  match takeFailure c.name c.key n.failures with
  | (some cause, failures) => (fail cause c, { n with failures })
  | (none, _) => (n.reply c, n)

/-- Scripted collaborators. -/
def collaborators : Collaborators ScriptedNode where
  latency n c := ((n.latencies.find? (·.1 == c.name)).map (·.2)).getD 0
  note n now c := { n with calls := n.calls ++ [(now, c.describe)] }
  answer := answer

end ScriptedNode

end Beacon
