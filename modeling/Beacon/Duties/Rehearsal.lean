import Beacon.Duties.Retry
import Beacon.Duties.Script

set_option autoImplicit false

/-! # Rehearsals

Parts of a validator client on their own. A fork rehearsal asks for the forks of many slots at one
time. A load rehearsal repeats loads whose attempts have scripted outcomes. -/

namespace Beacon

/-! ## Forks -/

/-- Scripted collaborators with the answers that askers have got so far, each under its number. -/
structure ForkRehearsal where
  node : ScriptedNode
  answers : List (Nat × Attempt ForkLookupError ForkInfo) := []

namespace ForkRehearsal

/-- The answer to a numbered asker. -/
abbrev Answered : Type := Nat × Attempt ForkLookupError ForkInfo

/-- The collaborators of a rehearsal. -/
def collaborators : Collaborators ForkRehearsal where
  latency x call := ScriptedNode.collaborators.latency x.node call
  note x now call := { x with node := ScriptedNode.collaborators.note x.node now call }
  answer x call :=
    let (answer, node) := x.node.answer call
    (answer, { x with node })

/-- Ask for the forks of all given epochs at one time, and wait for all answers. -/
def ask (t : Timeline ForkRehearsal Answered) (epochs : List Epoch) :
    Timeline ForkRehearsal Answered :=
  let t := { t with world := { t.world with answers := [] } }
  let t := epochs.zipIdx.foldl
    (fun t e => t.spawn (.forkFor e.1 fun r => .done (e.2, r))) t
  t.exhaust collaborators fun answer t =>
    { t with world := { t.world with answers := t.world.answers ++ [answer] } }

/-- The answers in the order of their askers. -/
def inOrder (x : ForkRehearsal) : List (Attempt ForkLookupError ForkInfo) :=
  (x.answers.mergeSort fun a b => a.1 ≤ b.1).map (·.2)

end ForkRehearsal

/-! ## Loads -/

/-- A load with the outcomes of its attempts. -/
structure ScriptedLoad where
  epoch : Epoch
  /-- The outcomes that are left; after them attempts succeed with no duties. -/
  outcomes : List (Attempt LoadError Unit) := []
  /-- Milliseconds that an attempt takes. -/
  latency : Nat := 0
  /-- When the load begins. -/
  start : Nat := 0
  /-- Since when the epoch is not wanted any more. -/
  wantedUntil : Option Nat := none

/-- What becomes of numbered loads. -/
inductive LoadSignal where
  | attempt (index : Nat) (job : LoadJob)
  | attempted (index : Nat) (job : LoadJob)
  | settled (index : Nat) (job : LoadJob) (result : Attempt LoadError DutySet)

/-- How a load ended, and when. -/
structure LoadEnd where
  index : Nat
  time : Nat
  result : Except LoadError DutySet

/-- Loads behind one gate. -/
structure LoadRehearsal where
  loads : List ScriptedLoad
  policy : RetryPolicy
  gate : Gate (Nat × LoadJob)
  /-- Times and epochs of the attempts so far, in their order. -/
  calls : List (Nat × Epoch) := []
  ends : List LoadEnd := []

namespace LoadRehearsal

/-- The timeline of a rehearsal. -/
abbrev Line : Type := Timeline LoadRehearsal LoadSignal

/-- Nobody is called in a rehearsal of loads. -/
def collaborators : Collaborators LoadRehearsal where
  latency _ _ := 0
  note x _ _ := x
  answer x
    | .api _ => (Attempt.fault .collaborator, x)
    | .sign .. => (Attempt.fault .collaborator, x)

/-- Change the rehearsal. -/
def modify (t : Line) (f : LoadRehearsal → LoadRehearsal) : Line := { t with world := f t.world }

/-- The script of a load; loads of one epoch share the last script given for it. -/
def script (x : LoadRehearsal) (epoch : Epoch) : ScriptedLoad :=
  (x.loads.findRev? (·.epoch == epoch)).getD { epoch }

/-- Use up the next outcome for an epoch. -/
def takeOutcome (x : LoadRehearsal) (epoch : Epoch) : Attempt LoadError DutySet × LoadRehearsal :=
  match (x.script epoch).outcomes with
  | [] => (.ok (.create epoch {} []), x)
  | outcome :: rest =>
    (outcome.map fun _ => .create epoch {} [],
      { x with loads := x.loads.map fun l => if l.epoch = epoch then { l with outcomes := rest } else l })

/-- Begin an attempt of a load. -/
def start (t : Line) (index : Nat) (job : LoadJob) : Line :=
  let t := modify t fun x => { x with calls := x.calls ++ [(t.now, job.epoch)] }
  t.spawn (.sleepUntil (t.now + (t.world.script job.epoch).latency) (.done (.attempted index job)))

/-- Begin what the gate admits. -/
def launch (t : Line) : Line :=
  let (tickets, gate) := t.world.gate.claim
  tickets.foldl (fun t x => start t x.1 x.2) (modify t fun x => { x with gate })

/-- A load has ended. -/
def finish (t : Line) (index : Nat) (result : Except LoadError DutySet) : Line :=
  modify t fun x => { x with ends := x.ends ++ [⟨index, t.now, result⟩] }

/-- Attempt a load if its epoch is still wanted. -/
def attempt (t : Line) (index : Nat) (job : LoadJob) : Line :=
  match job.next ((t.world.loads[index]?.bind (·.wantedUntil)).all (t.now < ·)) with
  | .error cause => finish t index (.error cause)
  | .ok job => launch (modify t fun x => { x with gate := x.gate.push (index, job) })

/-- Act on the result of a process. -/
def handle : LoadSignal → Line → Line
  | .attempt index job, t => attempt t index job
  | .attempted index job, t =>
    let (result, world) := t.world.takeOutcome job.epoch
    let t : Line := { t with world := { world with gate := world.gate.release } }
    (launch t).spawn (.done (.settled index job result))
  | .settled index job result, t =>
    match job.verdict t.world.policy (loadOutcome result) with
    | .finish result => finish t index result
    | .retry 0 => attempt t index job
    | .retry delay => t.wait (t.now + delay) (.run (.done (.attempt index job)))

/-- Rehearse loads to their ends. -/
def run (x : LoadRehearsal) : LoadRehearsal :=
  let t : Line := x.loads.zipIdx.foldl
    (fun t l => t.spawn (.sleepUntil l.1.start (.done (.attempt l.2 { epoch := l.1.epoch }))))
    { world := x }
  (t.exhaust collaborators handle).world

end LoadRehearsal

end Beacon
