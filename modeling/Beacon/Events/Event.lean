import Beacon.Chain.Registry

set_option autoImplicit false

/-! # Events

What a node announces: the slots and epochs of its clock, and what happens to the head of its
chain. -/

namespace Beacon

/-- Something that a node announces. -/
inductive ChainEvent where
  | slotStarted (slot : Slot)
  | epochStarted (epoch : Epoch)
  | blockImported (slot : Slot) (root : Root) (proposer : ValidatorIndex)
  | checkpointFinalized (checkpoint : Checkpoint)
  deriving DecidableEq

/-- A kind of event that can be asked for. -/
inductive EventTopic where
  | clock
  | chain
  | all
  deriving DecidableEq, Repr

namespace ChainEvent

/-- The kind of an event. -/
def topic : ChainEvent → EventTopic
  | .slotStarted _ | .epochStarted _ => .clock
  | .blockImported .. | .checkpointFinalized _ => .chain

/-- The slot that an event speaks of. -/
def slot? : ChainEvent → Option Slot
  | .slotStarted slot | .blockImported slot .. => some slot
  | .epochStarted _ | .checkpointFinalized _ => none

end ChainEvent

/-- The kinds that a subscriber asks for; none means all. -/
structure EventFilter where
  topics : List EventTopic := []
  deriving DecidableEq, Inhabited

/-- Whether a subscriber asked for an event. -/
def EventFilter.accepts (f : EventFilter) (e : ChainEvent) : Bool :=
  f.topics.isEmpty || f.topics.contains .all || f.topics.contains e.topic

end Beacon
