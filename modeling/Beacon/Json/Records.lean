import Beacon.DepositChain.Tracker
import Beacon.Duties.Duty
import Beacon.Events.Event
import Beacon.Json.Entities

set_option autoImplicit false

/-! # The JSON forms of duties, deposit blocks and events

Public keys of assignments are hexadecimal text in both styles. In the stored style an event is an
object whose one member is named for its kind; in the terse style it is a short list. States also
have a summary. -/

namespace Beacon

/-! ## Duties -/

instance : Form ForkInfo where
  write s f := .object [("fork", write s f.fork),
    ("genesis_validators_root", write s f.genesisValidatorsRoot)]
  read s j := do
    let r ← Row.read? s ["fork", "genesis_validators_root"] j
    return { fork := ← r.get "fork", genesisValidatorsRoot := ← r.get "genesis_validators_root" }

instance : Form ValidatorDuties where
  write s d := .object [("pubkey", .string d.pubkey.hex),
    ("validator_index", write s d.validatorIndex), ("attestation_slot", write s d.attestationSlot),
    ("attestation_committee_index", write s d.committeeIndex),
    ("attestation_committee_position", write s d.committeePosition),
    ("committee_size", write s d.committeeSize),
    ("block_proposal_slots", write s d.proposalSlots)]
  read s j := do
    let r ← Row.read? s ["pubkey", "validator_index", "attestation_slot",
      "attestation_committee_index", "attestation_committee_position", "committee_size",
      "block_proposal_slots"] j
    return { pubkey := ← r.via (readHexText 48) "pubkey"
             validatorIndex := ← r.get "validator_index"
             attestationSlot := ← r.get "attestation_slot"
             committeeIndex := ← r.get "attestation_committee_index"
             committeePosition := ← r.get "attestation_committee_position"
             committeeSize := ← r.get "committee_size"
             proposalSlots := ← r.get "block_proposal_slots" }

instance : Form AggregateAndProof where
  write s a := .object [("aggregator_index", write s a.aggregatorIndex),
    ("aggregate", write s a.aggregate), ("selection_proof", write s a.selectionProof)]
  read s j := do
    let r ← Row.read? s ["aggregator_index", "aggregate", "selection_proof"] j
    return { aggregatorIndex := ← r.get "aggregator_index"
             aggregate := ← r.get "aggregate"
             selectionProof := ← r.via (readByteText 96) "selection_proof" }

instance : Form SignedAggregateAndProof where
  write s a := .object [("message", write s a.message), ("signature", write s a.signature)]
  read s j := do
    let r ← Row.read? s ["message", "signature"] j
    return { message := ← r.get "message", signature := ← r.via (readByteText 96) "signature" }

/-- A duty for tools: slot, kind, validator, and the place in the committee if it has one. -/
def Duty.toJson (d : Duty) : Json :=
  .array ([.natural d.slot, .string d.kind.name, .natural d.validatorIndex] ++
    match d.place? with
    | some p => [.array [.natural p.index, .natural p.position, .natural p.size]]
    | none => [])

/-! ## States in short -/

/-- What tools look at first in a state. -/
def ChainState.summary (s : ChainState) : Json := .object [
  ("slot", .natural s.slot), ("root", write .terse (hashRoot s)),
  ("header", write .terse s.latestBlockHeader), ("external_data", write .terse s.externalData),
  ("votes", .natural s.externalDataVotes.length), ("deposit_index", .natural s.depositIndex),
  ("validators", .natural s.validators.size), ("balances", write .terse s.balances),
  ("effective", write .terse (s.validators.map Validator.effectiveBalance)),
  ("previous_attestations", .natural s.previousEpochAttestations.length),
  ("current_attestations", .natural s.currentEpochAttestations.length),
  ("justification_bits", writeBits .terse s.justificationBits.toList),
  ("previous_justified", write .terse s.previousJustified),
  ("current_justified", write .terse s.currentJustified), ("finalized", write .terse s.finalized)]

/-! ## The deposit chain -/

instance : Form DepositBlock where
  write s b := .object [("number", write s b.number), ("hash", write s b.hash),
    ("parent_hash", write s b.parentHash), ("timestamp", write s b.timestamp)]
  read s j := do
    let r ← Row.read? s ["number", "hash", "parent_hash", "timestamp"] j
    return { number := ← r.get "number"
             hash := ← r.get "hash"
             parentHash := ← r.get "parent_hash"
             timestamp := ← r.get "timestamp" }

instance : Form TrackedBlock where
  write s b := .object [("block", write s b.block), ("record", write s b.record)]
  read s j := do
    let r ← Row.read? s ["block", "record"] j
    return { block := ← r.get "block", record := ← r.get "record" }

/-! ## Events -/

/-- The name of a topic. -/
def EventTopic.name : EventTopic → String
  | .clock => "Clock"
  | .chain => "Chain"
  | .all => "All"

/-- A topic is its name; an object with that name over nothing will do as well. -/
instance : Form EventTopic where
  write _ t := .string t.name
  read _ j := do
    let name ← match j with
      | .string s => some s
      | .object [(s, .null)] => some s
      | _ => none
    [.clock, .chain, .all].find? (·.name == name)

/-- The parts of an imported block. -/
def readImported (s : Style) (j : Json) : Option ChainEvent := do
  let r ← Row.read? s ["slot", "root", "proposer_index"] j
  return .blockImported (← r.get "slot") (← r.get "root") (← r.get "proposer_index")

instance : Form ChainEvent where
  write
    | .stored, .slotStarted n => .object [("SlotStarted", .object [("slot", .natural n)])]
    | .stored, .epochStarted n => .object [("EpochStarted", .object [("epoch", .natural n)])]
    | .stored, .blockImported slot root proposer => .object [("BlockImported", .object
        [("slot", .natural slot), ("root", write .stored root),
         ("proposer_index", .natural proposer)])]
    | .stored, .checkpointFinalized c => .object [("CheckpointFinalized", write .stored c)]
    | .terse, .slotStarted n => .array [.string "slot", .natural n]
    | .terse, .epochStarted n => .array [.string "epoch", .natural n]
    | .terse, .blockImported slot root proposer =>
      .array [.string "imported", .natural slot, write .terse root, .natural proposer]
    | .terse, .checkpointFinalized c => .array [.string "finalized", write .terse c]
  read
    | .stored, .object [("SlotStarted", j)] => do
      return .slotStarted (← (← Row.read? .stored ["slot"] j).get "slot")
    | .stored, .object [("EpochStarted", j)] => do
      return .epochStarted (← (← Row.read? .stored ["epoch"] j).get "epoch")
    | .stored, .object [("BlockImported", j)] => readImported .stored j
    | .stored, .object [("CheckpointFinalized", j)] => (read .stored j).map .checkpointFinalized
    | .terse, .array [.string "slot", n] => (read .terse n).map .slotStarted
    | .terse, .array [.string "epoch", n] => (read .terse n).map .epochStarted
    | .terse, .array [.string "imported", slot, root, proposer] => do
      return .blockImported (← read .terse slot) (← read .terse root) (← read .terse proposer)
    | .terse, .array [.string "finalized", c] => (read .terse c).map .checkpointFinalized
    | _, _ => none

end Beacon
