import Beacon.Constants
import Beacon.Events.Event

set_option autoImplicit false

/-! # The slot clock

From time in seconds to slots and back, and the timeline that a clock announces: every slot at its
start, one after the other, beginning with the slot that is in progress, and before the first
announced slot of an epoch that epoch. A clock breaks down when it has announced the last slot of
all, and when the next slot is too far away to wait for (`RunningClock.breaksBy`). While it waits, a
clock hears when it has to stop (`ClockRun.hear`). -/

namespace Beacon

/-- When slots start. -/
structure SlotClock where
  genesisTime : Nat
  secondsPerSlot : Nat
  slotsPerEpoch : Nat
  deriving DecidableEq, Inhabited

namespace SlotClock

/-- A clock; slots last at least a second and epochs at least a slot. -/
def create (genesisTime secondsPerSlot slotsPerEpoch : Nat) : SlotClock where
  genesisTime
  secondsPerSlot := max secondsPerSlot 1
  slotsPerEpoch := max slotsPerEpoch 1

/-- The slot in progress at a time, none before genesis. -/
def slotAt? (c : SlotClock) (time : Nat) : Option Slot :=
  if time < c.genesisTime then none else some ((time - c.genesisTime) / c.secondsPerSlot)

/-- The time at which a slot starts, or the last time of all. -/
def slotStart (c : SlotClock) (slot : Slot) : Nat :=
  Word.addSat c.genesisTime (Word.mulSat slot c.secondsPerSlot)

/-- The epoch of a slot. -/
def epochOf (c : SlotClock) (slot : Slot) : Epoch := slot / c.slotsPerEpoch

/-- The first number of seconds that cannot be waited for. Moments are told in seconds since the
machine was started, of which there are fewer than two to the 63rd, and at least one has passed. -/
def horizon : Nat := 9223372036854775807

end SlotClock

/-! ## The timeline -/

/-- A clock that runs. -/
structure RunningClock where
  clock : SlotClock
  /-- The time at which it was started. -/
  startedAt : Nat
  /-- The slot that is announced next. -/
  next : Slot
  /-- The latest announced epoch. -/
  announced : Option Epoch := none
  deriving DecidableEq

namespace RunningClock

/-- Start a clock: the first slot is the one in progress, or slot zero before genesis. -/
def start (clock : SlotClock) (now : Nat) : RunningClock where
  clock
  startedAt := now
  next := (clock.slotAt? now).getD 0

/-- Seconds from the start of the clock to the next announcement. -/
def wait (r : RunningClock) : Nat := r.clock.slotStart r.next - r.startedAt

/-- Milliseconds from the start of the clock to the next announcement. -/
def due (r : RunningClock) : Nat := r.wait * 1000

/-- Whether the epoch of the next slot has to be announced first. -/
def entersEpoch (r : RunningClock) : Bool :=
  match r.announced with
  | none => true
  | some epoch => epoch < r.clock.epochOf r.next

/-- What is announced next. -/
def events (r : RunningClock) : List ChainEvent :=
  let epoch := r.clock.epochOf r.next
  (if r.entersEpoch then [.epochStarted epoch] else []) ++ [.slotStarted r.next]

/-- Announce; there is nothing after the last slot of all. -/
def advance (r : RunningClock) : Checked RunningClock := do
  let next ← Word.add r.next 1
  return { r with
    next
    announced := if r.entersEpoch then some (r.clock.epochOf r.next) else r.announced }

/-- The announcements of as many slots as `count`, each with its time, as far as there are slots that
can be waited for. -/
def timeline : Nat → RunningClock → List (Nat × ChainEvent)
  | 0, _ => []
  | count + 1, r =>
    if SlotClock.horizon ≤ r.wait then []
    else
      r.events.map (r.due, ·) ++
        match r.advance with
        | .ok r => timeline count r
        | .error _ => []

/-- How many slots that are due at once a clock announces before others have their turn. -/
def burst : Nat := 128

/-- Whether the clock has broken down by a time, in milliseconds, before it announces more slots than
`count`. -/
def breaksBy (time : Nat) : Nat → RunningClock → Bool
  | 0, _ => false
  | count + 1, r =>
    if SlotClock.horizon ≤ r.wait then true
    else if time < r.due then false
    else
      match r.advance with
      | .ok r => breaksBy time count r
      | .error _ => true

end RunningClock

/-! ## Waiting and stopping -/

/-- What a clock may hear while it waits. -/
inductive StopSignal where
  /-- The flag by which it is stopped has been written. -/
  | flag (stop : Bool)
  /-- Nobody is left who could write the flag. -/
  | abandoned
  deriving DecidableEq

/-- Whether a clock that hears the signal stops. -/
def StopSignal.stops : StopSignal → Bool
  | .flag stop => stop
  | .abandoned => true

/-- The run of a clock. -/
structure ClockRun where
  clock : RunningClock
  /-- Milliseconds since the start of the clock. -/
  time : Nat := 0
  /-- The announcements so far, each with its time. -/
  announced : List (Nat × ChainEvent) := []
  running : Bool := true
  deriving DecidableEq

namespace ClockRun

/-- The run of a clock that is started now. -/
def start (clock : SlotClock) (now : Nat) : ClockRun := { clock := .start clock now }

/-- The wait for the next slot ends: at once if its time has passed. -/
def announce (x : ClockRun) : ClockRun :=
  let time := max x.time x.clock.due
  let announced := x.announced ++ x.clock.events.map (time, ·)
  match x.clock.advance with
  | .ok clock => { x with clock, time, announced }
  | .error _ => { x with time, announced, running := false }

/-- Something is heard at a time during the wait: the clock stops, or waits on. -/
def hear (x : ClockRun) (time : Nat) (signal : StopSignal) : ClockRun :=
  { x with time, running := x.running && !signal.stops }

end ClockRun

end Beacon
