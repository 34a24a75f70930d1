import Beacon.Duties.Client
import Beacon.Duties.Rehearsal
import Beacon.Environment
import Beacon.Json.Causes
import Beacon.Json.Records

set_option autoImplicit false

/-! # Scripts as JSON

The scripts of rehearsals are read from JSON, and what came of them is written for tools. -/

namespace Beacon

/-! ## Causes and outcomes -/

/-- The word for what stops in the middle. -/
def faultName : String := "panic"

/-- Why there is no value: the code and the text of the cause, or that there was a fault. -/
def Failure.toJson {ε : Type} [Cause ε] : Failure ε → Json
  | .rejected cause =>
    .object [("error", .string (Cause.code cause)), ("message", .string (Cause.text cause))]
  | .fault _ => .object [("error", .string faultName)]

/-- What is written for those who never got an answer. -/
def lostName : String := "lost"

/-- An answer as its asker sees it. -/
def answerToJson {ε α : Type} [Cause ε] (f : α → Json) : Attempt ε α → Json
  | .ok a => f a
  | .error (.rejected cause) => (Failure.rejected cause).toJson
  | .error (.fault _) => .string lostName

/-! ## Scripted collaborators -/

/-- Read how a call of a name fails. -/
def ScriptedCause.read? (name : String) : Json → Option ScriptedCause
  | .string s => if s = faultName then some .fault else none
  | j =>
    if name.startsWith "sign_" then (read .terse j).map .signer else (read .terse j).map .api

/-- Read the calls that fail. -/
def ScriptedFailure.read? (j : Json) : Option ScriptedFailure := do
  let r ← Row.read? .terse [] j
  let name ← r.get "call"
  return { name
           key := ← r.get "key"
           cause := ← ScriptedCause.read? name (← j.member? "error")
           times := ← r.get "times" }

/-- The members of an object, or of nothing. -/
def membersOf? : Option Json → Option (List (String × Json))
  | some (.object ms) => some ms
  | none => some []
  | _ => none

/-- The items of an array, or of nothing. -/
def itemsOf? : Option Json → Option (List Json)
  | some (.array xs) => some xs
  | none => some []
  | _ => none

/-- Read scripted collaborators. -/
def ScriptedNode.ofJson? (j : Json) : Option ScriptedNode := do
  let r ← Row.read? .terse [] j
  let duties ← membersOf? (j.present? "duties")
  let latencies ← membersOf? (j.present? "latency")
  let failures ← itemsOf? (j.present? "failures")
  return { fork := ← r.get "fork"
           keys := ← r.get "keys"
           duties := ← duties.mapM fun m => return (← Environment.number? m.1, ← read .terse m.2)
           failures := ← failures.mapM ScriptedFailure.read?
           latencies := ← latencies.mapM fun m => return (m.1, ← read .terse m.2) }

/-- The calls on record from a place on, by time and text. -/
def ScriptedNode.callsFrom (n : ScriptedNode) (start : Nat) : Json :=
  let ordered := (n.calls.drop start).mergeSort fun a b => a.1 < b.1 || (a.1 == b.1 && a.2 ≤ b.2)
  .array (ordered.map fun c => .array [.natural c.1, .string c.2])

/-! ## Scripted loads -/

/-- Read the outcome of an attempt. -/
def readOutcome : Json → Option (Attempt LoadError Unit)
  | .string s =>
    if s = "ok" then some (.ok ()) else if s = faultName then some (Attempt.fault .collaborator) else none
  | j => (read .terse j).map Attempt.reject

/-- Read a scripted load. -/
def ScriptedLoad.ofJson? (j : Json) : Option ScriptedLoad := do
  let r ← Row.read? .terse [] j
  let outcomes ← itemsOf? (j.present? "results")
  return { epoch := ← r.get "epoch"
           outcomes := ← outcomes.mapM readOutcome
           latency := ← r.get "latency_ms"
           start := ← r.get "start_ms"
           wantedUntil := ← r.get "wanted_until_ms" }

/-- How a load ended: the number of its duties, or the cause. -/
def loadResultToJson : Except LoadError DutySet → Json
  | .ok set => .natural set.duties.length
  | .error cause => (Failure.rejected cause).toJson

/-- The ends of loads in the order of the loads, and the attempts in their own order. -/
def LoadRehearsal.toJson (x : LoadRehearsal) : Json :=
  .object [
    ("results", .array (x.loads.zipIdx.map fun l =>
      match x.ends.find? (·.index == l.2) with
      | some e => .object [("epoch", .natural l.1.epoch), ("done_ms", .natural e.time),
          ("result", loadResultToJson e.result)]
      | none => .string lostName)),
    ("calls", .array (x.calls.map fun c => .array [.natural c.1, .natural c.2]))]

/-! ## Clients -/

/-- What is known of an epoch: its duties once they are loaded. -/
def Schedule.statusToJson (s : Schedule) (epoch : Epoch) : Json :=
  match s.duties? epoch with
  | none => .string "Unloaded"
  | some (.loading _) => .string "Loading"
  | some (.loaded set) => .array (set.duties.map Duty.toJson)

/-- Reports by slot, kind and validator. -/
def reportsToJson (rs : List DutyReport) : Json :=
  .array ((rs.mergeSort DutyReport.comesBefore).map fun r => .array [.natural r.slot,
    .string r.kind.name, .natural r.validatorIndex,
    match r.outcome with
    | .ok () => .string "ok"
    | .error cause => (Failure.rejected cause).toJson])

end Beacon
