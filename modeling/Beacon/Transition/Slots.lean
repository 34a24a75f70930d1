import Beacon.Transition.Rejection

set_option autoImplicit false

/-! # Slots

Moving a state by one slot: the state root goes into the latest header if that has none yet, the
root of that header is recorded for the slot that is left, and its randao mix is carried to the next
slot. -/

namespace Beacon

/-- The root of no block. -/
def Root.none : Root := Bytes.zero 32

/-- Refuse a state whose rings do not have the lengths that the constants give them. -/
def checkRings (c : Constants) (s : ChainState) : Attempt SlotError Unit := do
  Attempt.require (s.blockRoots.size = c.slotsPerHistoricalRoot)
    (.ringLength s.slot .blockRoots s.blockRoots.size c.slotsPerHistoricalRoot)
  Attempt.require (s.randaoMixes.size = c.randaoMixesLength)
    (.ringLength s.slot .randaoMixes s.randaoMixes.size c.randaoMixesLength)

/-- The latest header with a state root in it: its own, or that of the state. -/
def ChainState.filledHeader (s : ChainState) : BlockHeader :=
  if s.latestBlockHeader.stateRoot = Root.none then
    { s.latestBlockHeader with stateRoot := hashRoot s }
  else s.latestBlockHeader

/-- Move a state to the next slot. -/
def nextSlot (c : Constants) (s : ChainState) : Attempt SlotError ChainState := do
  checkRings c s
  let next := s.slot + 1
  Attempt.require (next < Word.limit) .overflow
  let header := s.filledHeader
  let mix := s.randaoMixes.getD (s.slot % c.randaoMixesLength) Root.none
  return { s with
    slot := next
    latestBlockHeader := header
    randaoMixes := s.randaoMixes.setIfInBounds (next % c.randaoMixesLength) mix
    blockRoots := s.blockRoots.setIfInBounds (s.slot % c.slotsPerHistoricalRoot) (hashRoot header) }

/-- The root of the block that headed the chain at an earlier slot, while the ring holds it. -/
def ChainState.blockRootAt? (s : ChainState) (c : Constants) (slot : Slot) : Option Root :=
  if slot < s.slot ∧ s.slot ≤ Word.addSat slot c.slotsPerHistoricalRoot then
    s.blockRoots[slot % c.slotsPerHistoricalRoot]?
  else none

/-- The epoch at which an activation or exit decided during `epoch` takes effect: late enough that
the next active set stays as it is. -/
def activationExitEpoch (epoch : Epoch) : Epoch := Word.addSat epoch 2

end Beacon
