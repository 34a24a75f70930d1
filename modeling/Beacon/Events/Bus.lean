import Beacon.Events.Event

set_option autoImplicit false

/-! # The event bus

Events are numbered as they are published, and the bus retains the latest of them. A subscription
is a place in that numbering: receiving takes the event at that place and moves on. A subscription
that has fallen behind what is retained first moves up to the oldest retained event, and counts what
it skipped. Publishing never waits. -/

namespace Beacon

/-- The smallest power of two that is at least `n`. -/
def nextPowerOfTwo (n : Nat) : Nat := if n ≤ 1 then 1 else Nat.pow 2 (Nat.log2 (n - 1) + 1)

/-- The published events, newest last, of which the latest are retained. -/
structure EventBus where
  /-- How many events are retained. -/
  capacity : Nat
  /-- Publications so far, heard or not. -/
  published : Nat := 0
  /-- Number of the event that is published next to a listener. -/
  next : Nat := 0
  /-- The latest events, at most `capacity` of them. -/
  retained : List ChainEvent := []
  /-- Subscriptions that have not been given up. -/
  subscribers : Nat := 0

/-- A place in the numbering of events. -/
structure Subscription where
  filter : EventFilter := {}
  next : Nat
  /-- Events skipped so far. -/
  lagged : Nat := 0
  deriving DecidableEq

/-- Events retained unless a bus is told otherwise. -/
def defaultBusCapacity : Nat := 1000

/-- The largest number of retained events for which a machine can set room aside: two to the
56th. -/
def largestBusCapacity : Nat := 72057594037927936

namespace EventBus

/-- A bus that retains at least the given number of events, and at least one; a fault when there is
no room for so many. -/
def create (capacity : Nat) : Checked EventBus :=
  if capacity ≤ largestBusCapacity then .ok { capacity := nextPowerOfTwo capacity }
  else Attempt.fault .noRoom

/-- Number of the oldest retained event. -/
def oldest (b : EventBus) : Nat := b.next - b.retained.length

/-- Subscribe to the events that are published from now on. -/
def subscribe (b : EventBus) (filter : EventFilter) : EventBus × Subscription :=
  ({ b with subscribers := b.subscribers + 1 }, { filter, next := b.next })

/-- Give up a subscription. -/
def unsubscribe (b : EventBus) : EventBus := { b with subscribers := b.subscribers - 1 }

/-- Publish an event to everyone who is subscribed; without listeners it is lost. -/
def publish (b : EventBus) (e : ChainEvent) : EventBus :=
  if b.subscribers = 0 then { b with published := b.published + 1 }
  else
    let all := b.retained ++ [e]
    { b with
      published := b.published + 1
      next := b.next + 1
      retained := all.drop (all.length - b.capacity) }

end EventBus

namespace Subscription

/-- Move up to the oldest event that is retained. -/
def catchUp (s : Subscription) (b : EventBus) : Subscription :=
  if s.next < b.oldest then
    { s with next := b.oldest, lagged := Word.addSat s.lagged (b.oldest - s.next) }
  else s

/-- Events retained for a subscription, oldest first. -/
def pending (s : Subscription) (b : EventBus) : List ChainEvent := b.retained.drop (s.next - b.oldest)

/-- Skip what was not asked for; the first event that was is the answer, and how many were passed. -/
def firstAccepted (f : EventFilter) : List ChainEvent → Option ChainEvent × Nat
  | [] => (none, 0)
  | e :: es =>
    if f.accepts e then (some e, 1)
    else
      let (found, passed) := firstAccepted f es
      (found, passed + 1)

/-- Receive the next event that was asked for, if one has been published. -/
def receive (s : Subscription) (b : EventBus) : Option ChainEvent × Subscription :=
  let s := s.catchUp b
  let (found, passed) := firstAccepted s.filter (s.pending b)
  (found, { s with next := s.next + passed })

/-- Receive everything that was asked for and has been published. -/
def drain (s : Subscription) (b : EventBus) : List ChainEvent × Subscription :=
  let s := s.catchUp b
  ((s.pending b).filter s.filter.accepts, { s with next := b.next })

end Subscription

end Beacon
