import Beacon.Duties.Execution
import Beacon.Duties.Loading
import Beacon.Duties.Retry
import Beacon.Duties.Schedule
import Beacon.Duties.Timeline

set_option autoImplicit false

/-! # The validator client

The duties of a set of keys, from epoch and slot signals to reports. The client carries out what its
schedule orders: a load is a process that passes the loader gate once per attempt, a dispatched slot
is one process per duty. All of them run on one timeline, so that a load which fails or hangs delays
no duty of an epoch that is loaded. -/

namespace Beacon

/-- What becomes of the processes of a client. -/
inductive ClientSignal where
  /-- It is time for the next attempt of a load. -/
  | attempt (job : LoadJob)
  /-- An attempt gives its slot of the gate back. -/
  | attempted (job : LoadJob) (result : Attempt LoadError DutySet)
  /-- A load learns how its attempt ended. -/
  | settled (job : LoadJob) (result : Attempt LoadError DutySet)
  | performed (duty : Duty) (result : Attempt ExecutionError Unit)

/-- A validator client among collaborators with states in `σ`. -/
structure Client (σ : Type) where
  loading : LoadSettings
  execution : ExecutionSettings
  retry : RetryPolicy
  schedule : Schedule
  gate : Gate LoadJob
  /-- The reports of the duties that have ended, in that order. -/
  reports : List DutyReport := []
  others : σ

/-- The timeline of a client. -/
abbrev ClientLine (σ : Type) : Type := Timeline (Client σ) ClientSignal

namespace Client

variable {σ : Type}

/-- A client for constants and settings that have been checked. -/
def create (c : Constants) (d : DutyConfig) (keys : List PublicKey) (others : σ) :
    Attempt InvalidSetting (Client σ) := do
  d.validate
  c.validate
  return {
    loading :=
      { slotsPerEpoch := c.slotsPerEpoch, targetAggregators := c.targetAggregatorsPerCommittee, keys }
    execution :=
      { slotsPerEpoch := c.slotsPerEpoch
        attestationDelay := d.attestationDelay
        aggregationDelay := d.aggregationDelay }
    retry := d.retry
    schedule := { slotsPerEpoch := c.slotsPerEpoch, lookahead := d.lookahead }
    gate := .create loaderGate d.maxConcurrentLoads
    others }

/-- The collaborators of a client, seen from its timeline. -/
def collaborators (c : Collaborators σ) : Collaborators (Client σ) where
  latency x call := c.latency x.others call
  note x now call := { x with others := c.note x.others now call }
  answer x call :=
    let (answer, others) := c.answer x.others call
    (answer, { x with others })

end Client

namespace ClientLine

variable {σ : Type}

/-- Change the client. -/
def modify (t : ClientLine σ) (f : Client σ → Client σ) : ClientLine σ := { t with world := f t.world }

/-! ## Carrying out orders -/

/-- Start what the gate admits. -/
def launch (t : ClientLine σ) : ClientLine σ :=
  let (jobs, gate) := t.world.gate.claim
  jobs.foldl
    (fun t job => t.spawn ((loadDuties t.world.loading job.epoch).run.bind fun r =>
      .done (.attempted job r)))
    (t.modify fun x => { x with gate })

/-- Perform a duty of a slot that started at a time. -/
def start (t : ClientLine σ) (d : Duty) (started : Nat) : ClientLine σ :=
  t.spawn (.pause ((d.perform t.world.execution started).run.bind fun r => .done (.performed d r)))

/-- Carry out an order. -/
def obey (t : ClientLine σ) : Order → ClientLine σ
  | .load epoch => t.spawn (.done (.attempt { epoch }))
  | .dispatch set slot started => (set.dutiesAt slot).foldl (·.start · started) t
  | .forget oldest => { t with forks := t.forks.prune oldest }

/-- Take over a schedule and carry out its orders. -/
def follow (t : ClientLine σ) (x : List Order × Schedule) : ClientLine σ :=
  x.1.foldl obey (t.modify fun client => { client with schedule := x.2 })

/-! ## Signals -/

/-- An epoch has begun. -/
def onEpoch (t : ClientLine σ) (epoch : Epoch) : ClientLine σ :=
  t.follow (t.world.schedule.onEpoch epoch)

/-- A slot has begun. -/
def onSlot (t : ClientLine σ) (slot : Slot) : ClientLine σ :=
  t.follow (t.world.schedule.onSlot slot t.now)

/-- Attempt a load if its epoch is still wanted. -/
def attempt (t : ClientLine σ) (job : LoadJob) : ClientLine σ :=
  match job.next (t.world.schedule.inWindow job.epoch) with
  | .error cause => t.follow (t.world.schedule.finish job.epoch (.error cause))
  | .ok job => (t.modify fun x => { x with gate := x.gate.push job }).launch

/-- Go on after an attempt of a load. -/
def settled (t : ClientLine σ) (job : LoadJob) (result : Attempt LoadError DutySet) : ClientLine σ :=
  match job.verdict t.world.retry (loadOutcome result) with
  | .finish result => t.follow (t.world.schedule.finish job.epoch result)
  | .retry 0 => t.attempt job
  | .retry delay => t.wait (t.now + delay) (.run (.done (.attempt job)))

/-- Act on the result of a process. -/
def handle : ClientSignal → ClientLine σ → ClientLine σ
  | .attempt job, t => t.attempt job
  | .attempted job result, t =>
    (t.modify fun x => { x with gate := x.gate.release }).launch.spawn (.done (.settled job result))
  | .settled job result, t => t.settled job result
  | .performed duty result, t =>
    t.modify fun x => { x with reports := x.reports ++ [duty.report result] }

/-- Let time pass until a deadline. -/
def sleepUntil (c : Collaborators σ) (t : ClientLine σ) (deadline : Nat) : ClientLine σ :=
  t.elapse (Client.collaborators c) handle deadline

end ClientLine

end Beacon
