import Beacon.Duties.Forks
import Beacon.Duties.Process

set_option autoImplicit false

/-! # The timeline of processes

Many processes run by turns. A process runs on until it has to wait: for a time, for the answer to a
call, for the fork of an epoch. Those that need not wait any longer are ready and go on first come,
first served; time moves only when none is ready, and then to the earliest of the times that are
waited for. Everything is decided by the order of the two queues, so that the same beginning always
takes the same course.

A timeline knows nothing of what its processes are for: `step` hands out the results of those that
are done. -/

namespace Beacon

/-- How a process goes on once it has the fork of an epoch. -/
abbrev ForkTicket (κ : Type) : Type := Attempt ForkLookupError ForkInfo → Process κ

/-- A process at the point where it goes on. -/
inductive Task (κ : Type) where
  | run (process : Process κ)
  /-- Take the answer to a call. -/
  | receive (call : Call) (next : call.Answer → Process κ)
  /-- Take the turn to ask on behalf of a fork lookup. -/
  | askFork (id : Nat) (epoch : Epoch) (next : ForkTicket κ)
  /-- Take the answer on behalf of a fork lookup. -/
  | receiveFork (id : Nat) (epoch : Epoch) (next : ForkTicket κ)

/-- Processes with results in `κ`, among collaborators with states in `σ`. -/
structure Timeline (σ κ : Type) where
  /-- Milliseconds since the beginning. -/
  now : Nat := 0
  world : σ
  forks : Forks (ForkTicket κ) := {}
  /-- What can go on, first come first. -/
  ready : List (Task κ) := []
  /-- What waits for a time, earliest first, of equal times first come first. -/
  timers : List (Nat × Task κ) := []

namespace Timeline

variable {σ κ : Type}

/-- Start a process after those that are ready. -/
def spawn (t : Timeline σ κ) (p : Process κ) : Timeline σ κ := { t with ready := t.ready ++ [.run p] }

/-- Put a task behind those that wait for the same time or an earlier one. -/
def insertTimer (time : Nat) (task : Task κ) : List (Nat × Task κ) → List (Nat × Task κ)
  | [] => [(time, task)]
  | x :: xs => if time < x.1 then (time, task) :: x :: xs else x :: insertTimer time task xs

/-- Let a task wait for a time. -/
def wait (t : Timeline σ κ) (time : Nat) (task : Task κ) : Timeline σ κ :=
  { t with timers := insertTimer time task t.timers }

/-- Make the tasks ready whose time has come. -/
def wake (t : Timeline σ κ) : Timeline σ κ :=
  { t with
    ready := t.ready ++ (t.timers.filter (·.1 ≤ t.now)).map (·.2)
    timers := t.timers.filter (t.now < ·.1) }

/-- Move to a time and wake what waits for it. -/
def moveTo (t : Timeline σ κ) (time : Nat) : Timeline σ κ := { t with now := time }.wake

/-! ## Calls -/

variable (c : Collaborators σ)

/-- Make a call: it is noted, and its answer is due after the latency given back. -/
def call (t : Timeline σ κ) (call : Call) : Nat × Timeline σ κ :=
  (c.latency t.world call, { t with world := c.note t.world t.now call })

/-- Take the answer to a call. -/
def receive (t : Timeline σ κ) (call : Call) : call.Answer × Timeline σ κ :=
  let (answer, world) := c.answer t.world call
  (answer, { t with world })

/-- Take the answer on behalf of a fork lookup. What it is means everything to those in line: they
have their answer too, or the first of them has the turn. -/
def receiveFork (t : Timeline σ κ) (id : Nat) (epoch : Epoch) :
    Attempt ForkLookupError ForkInfo × Timeline σ κ :=
  let (answer, t) := t.receive c (.api (.forkInfo epoch))
  match answer with
  | .ok fork =>
    let (line, forks) := t.forks.answered id fork
    (.ok fork, { t with forks, ready := t.ready ++ line.map fun next => .run (next (.ok fork)) })
  | .error cause =>
    let (next, forks) := t.forks.failed id
    (Attempt.widen (ForkLookupError.mk epoch) (.error cause),
      { t with forks, ready := t.ready ++ next.toList.map (.askFork id epoch) })

/-! ## Turns -/

/-- Let a process run on until it has to wait or is done. -/
def advance : Process κ → Timeline σ κ → Option κ × Timeline σ κ
  | .done result, t => (some result, t)
  | .pause next, t => (none, t.spawn next)
  | .sleepUntil time next, t =>
    if time ≤ t.now then advance next t else (none, t.wait time (.run next))
  | .forkFor epoch next, t =>
    let (entry, forks) := t.forks.enter epoch next
    let t := { t with forks }
    match entry with
    | .known fork => advance (next (.ok fork)) t
    | .wait => (none, t)
    | .ask id =>
      let (latency, t) := t.call c (.api (.forkInfo epoch))
      if latency = 0 then
        let (answer, t) := t.receiveFork c id epoch
        advance (next answer) t
      else (none, t.wait (t.now + latency) (.receiveFork id epoch next))
  | .ask request next, t =>
    let (latency, t) := t.call c request
    if latency = 0 then
      let (answer, t) := t.receive c request
      advance (next answer) t
    else (none, t.wait (t.now + latency) (.receive request next))

/-- Let a task go on. -/
def perform (t : Timeline σ κ) : Task κ → Option κ × Timeline σ κ
  | .run process => advance c process t
  | .receive request next =>
    let (answer, t) := t.receive c request
    advance c (next answer) t
  | .askFork id epoch next =>
    let (latency, t) := t.call c (.api (.forkInfo epoch))
    if latency = 0 then
      let (answer, t) := t.receiveFork c id epoch
      advance c (next answer) t
    else (none, t.wait (t.now + latency) (.receiveFork id epoch next))
  | .receiveFork id epoch next =>
    let (answer, t) := t.receiveFork c id epoch
    advance c (next answer) t

/-- Let the first ready task go on; the answer is what it results in, if it is done. -/
def step (t : Timeline σ κ) : Option (Option κ × Timeline σ κ) :=
  match t.ready with
  | [] => none
  | task :: rest => some ({ t with ready := rest }.perform c task)

/-- The earliest time that is waited for. -/
def next? (t : Timeline σ κ) : Option Nat := t.timers.head?.map (·.1)

/-! ## Running

Whoever uses a timeline says what the result of a process means: it may change the world and start
further processes. -/

/-- More tasks than go on at one time, and more times than processes ever wait for. -/
def turns : Nat := 1000000000000

/-- Let tasks go on until none is ready, at most as many as the given number. -/
def settleIn (handle : κ → Timeline σ κ → Timeline σ κ) : Nat → Timeline σ κ → Timeline σ κ
  | 0, t => t
  | count + 1, t =>
    match t.step c with
    | none => t
    | some (none, t) => settleIn handle count t
    | some (some result, t) => settleIn handle count (handle result t)

/-- Let tasks go on until none is ready. -/
def settle (handle : κ → Timeline σ κ → Timeline σ κ) (t : Timeline σ κ) : Timeline σ κ :=
  t.settleIn c handle turns

/-- Go through the times before `deadline` that are waited for, at most as many as the given number,
and then to the deadline. -/
def elapseIn (handle : κ → Timeline σ κ → Timeline σ κ) (deadline : Nat) :
    Nat → Timeline σ κ → Timeline σ κ
  | 0, t => t.moveTo deadline
  | count + 1, t =>
    let t := t.settle c handle
    match t.next? with
    | some time =>
      if time < deadline then elapseIn handle deadline count (t.moveTo time) else t.moveTo deadline
    | none => t.moveTo deadline

/-- Let time pass until a deadline. What waits for the deadline itself is ready then, but has not
gone on. Nothing happens when the deadline has passed. -/
def elapse (handle : κ → Timeline σ κ → Timeline σ κ) (t : Timeline σ κ) (deadline : Nat) :
    Timeline σ κ :=
  if deadline ≤ t.now then t else t.elapseIn c handle deadline (deadline - t.now)

/-- Go through all times that are waited for, at most as many as the given number. -/
def exhaustIn (handle : κ → Timeline σ κ → Timeline σ κ) : Nat → Timeline σ κ → Timeline σ κ
  | 0, t => t
  | count + 1, t =>
    let t := t.settle c handle
    match t.next? with
    | some time => exhaustIn handle count (t.moveTo time)
    | none => t

/-- Let time pass until nothing waits for a time any more. -/
def exhaust (handle : κ → Timeline σ κ → Timeline σ κ) (t : Timeline σ κ) : Timeline σ κ :=
  t.exhaustIn c handle turns

end Timeline

end Beacon
