import Beacon.Transition.Rejection

set_option autoImplicit false

/-! # Committees and proposers

The validators active at an epoch are shuffled by a seed and cut into committees of nearly equal
size, a fixed number for each slot; the proposer of a slot is picked from them by the same seed. The
seed of an epoch comes from the randao mix of the last slot two epochs before it, so that the duties
of an epoch are known one epoch ahead. -/

namespace Beacon

/-! ## The shuffle -/

/-- The seed of the next swap after `seed`, for position `i`. -/
def shuffleRound (seed : Root) (i : Nat) : Root :=
  taggedDigest "shuffle" [.digest seed, .word i]

/-- Swap positions `i`, `i - 1`, … `1`, each with one at or below it that the seed picks. -/
def shuffleFrom {α : Type} : Nat → Root → Array α → Array α
  | 0, _, xs => xs
  | i + 1, seed, xs =>
    let round := shuffleRound seed (i + 1)
    shuffleFrom i round (xs.swapIfInBounds (i + 1) (round.leadingWord % (i + 2)))

/-- The elements of `xs` in the order that `seed` gives them. -/
def shuffle {α : Type} (xs : Array α) (seed : Root) : Array α := shuffleFrom (xs.size - 1) seed xs

@[simp] theorem size_shuffleFrom {α : Type} (i : Nat) (seed : Root) (xs : Array α) :
    (shuffleFrom i seed xs).size = xs.size := by
  induction i generalizing seed xs with
  | zero => rfl
  | succ i ih => simp [shuffleFrom, ih]

@[simp] theorem size_shuffle {α : Type} (xs : Array α) (seed : Root) :
    (shuffle xs seed).size = xs.size := by
  simp [shuffle]

/-! ## Committees of an epoch -/

/-- The committees of one epoch, slot by slot. -/
structure EpochCommittees where
  epoch : Epoch
  committeesPerSlot : Nat
  slotsPerEpoch : Nat
  /-- Committee `index` of `slot` stands at `slot % slotsPerEpoch * committeesPerSlot + index`. -/
  members : Array (List ValidatorIndex)
  deriving DecidableEq

namespace EpochCommittees

/-- The members of a committee of the epoch. -/
def committee? (e : EpochCommittees) (slot : Slot) (index : CommitteeIndex) :
    Option (List ValidatorIndex) :=
  if slot / e.slotsPerEpoch = e.epoch ∧ index < e.committeesPerSlot then
    e.members[slot % e.slotsPerEpoch * e.committeesPerSlot + index]?
  else none

/-- All committees with their slots and indices; a fault when the epoch goes on after the last slot
of all. -/
def entries (e : EpochCommittees) : Checked (List (Slot × CommitteeIndex × List ValidatorIndex)) := do
  let start ← Word.mul e.epoch e.slotsPerEpoch
  e.members.toList.zipIdx.mapM fun (ms, i) => do
    let slot ← Word.add start (i / e.committeesPerSlot)
    return (slot, i % e.committeesPerSlot, ms)

end EpochCommittees

/-- Cut a list into `total` runs of nearly equal length. -/
def slices {α : Type} (xs : Array α) (total : Nat) : Array (List α) :=
  Array.ofFn fun k : Fin total =>
    (xs.extract (xs.size * k / total) (xs.size * (k + 1) / total)).toList

/-! ## Seeds -/

/-- Refuse an epoch outside the two before and the one after the current one. -/
def checkWindow (c : Constants) (s : ChainState) (epoch : Epoch) : Attempt CommitteeError Unit := do
  let current := s.currentEpoch c
  let twoLater ← Word.add epoch 2
  if twoLater < current then Attempt.reject (.epochOutOfRange epoch current)
  else
    let next ← Word.add current 1
    Attempt.require (epoch ≤ next) (.epochOutOfRange epoch current)

/-- The slot whose mix seeds an epoch: the last one two epochs before it, or slot zero. -/
def anchorSlot (c : Constants) (epoch : Epoch) : Checked Slot := do
  let back ← Word.add c.slotsPerEpoch 1
  return c.epochStart epoch - back

/-- The seed of an epoch. -/
def seedOf (c : Constants) (s : ChainState) (epoch : Epoch) : Attempt CommitteeError Root := do
  checkWindow c s epoch
  let anchor ← anchorSlot c epoch
  match s.randaoMixes[anchor % max s.randaoMixes.size 1]? with
  | some mix => return taggedDigest "epoch-seed" [.word epoch, .digest mix]
  | none => Attempt.reject (.missingRandaoMix anchor)

/-! ## Assignments -/

/-- The active set of an epoch, refused when it is empty. -/
def activeSet (s : ChainState) (epoch : Epoch) : Attempt CommitteeError (Array ValidatorIndex) := do
  let active := s.activeIndices epoch
  Attempt.require (active ≠ []) (.noActiveValidators epoch)
  return active.toArray

/-- The committees of an epoch: the shuffled active set, cut into as many runs as the epoch has
committees. -/
def committeesOf (c : Constants) (s : ChainState) (epoch : Epoch) :
    Attempt CommitteeError EpochCommittees := do
  let seed ← seedOf c s epoch
  let active ← activeSet s epoch
  let perSlot := c.committeesPerSlot active.size
  let total ← Word.mul perSlot c.slotsPerEpoch
  Word.require (active.size * total)
  return { epoch
           committeesPerSlot := perSlot
           slotsPerEpoch := c.slotsPerEpoch
           members := slices (shuffle active seed) total }

/-- The proposer of a slot, picked from the active set of its epoch. -/
def proposerOf (c : Constants) (s : ChainState) (slot : Slot) :
    Attempt CommitteeError ValidatorIndex := do
  let epoch := c.epochAt slot
  let seed ← seedOf c s epoch
  let active ← activeSet s epoch
  let pick := taggedDigest "proposer" [.digest seed, .word slot]
  return active.getD (pick.leadingWord % active.size) 0

end Beacon
