import Beacon.Chain.Block

set_option autoImplicit false

/-! # Pools of operations

Attestations and proposer slashings that wait for a block. The attestation pool keeps only the
widest votes: an attestation covers another with the same data if it has all of its bits, and no
pooled attestation covers another one. -/

namespace Beacon

/-! ## Attestations -/

/-- Whether every bit of `narrower` is set in `wider`, for the same data and committee size. -/
def Attestation.covers (wider narrower : Attestation) : Bool :=
  wider.data == narrower.data && wider.bits.length == narrower.bits.length
    && (wider.bits.zip narrower.bits).all fun p => p.1 || !p.2

/-- Attestations that wait for a block, in the order in which they came. -/
structure AttestationPool where
  slotsPerEpoch : Nat
  minInclusionDelay : Nat
  attestations : List Attestation := []

namespace AttestationPool

/-- The empty pool of a chain. -/
def empty (c : Constants) : AttestationPool where
  slotsPerEpoch := c.slotsPerEpoch
  minInclusionDelay := c.minAttestationInclusionDelay

/-- Whether a pooled attestation already covers `a`. -/
def isRedundant (p : AttestationPool) (a : Attestation) : Bool := p.attestations.any (·.covers a)

/-- Add an attestation unless it is redundant, in place of those that it covers. -/
def add (p : AttestationPool) (a : Attestation) : AttestationPool :=
  if p.isRedundant a then p
  else { p with attestations := p.attestations.filter (fun q => !a.covers q) ++ [a] }

/-- Drop the attestations that no block at `slot` or later can include. -/
def prune (p : AttestationPool) (slot : Slot) : AttestationPool :=
  { p with attestations :=
      p.attestations.filter fun a => slot ≤ Word.addSat a.data.slot p.slotsPerEpoch }

/-- Drop the attestations that are covered by one of those an imported block carries. -/
def dropIncluded (p : AttestationPool) (included : List Attestation) : AttestationPool :=
  { p with attestations := p.attestations.filter fun a => !included.any (·.covers a) }

/-- The widest attestation for the given data, of equally wide ones the latest. -/
def best? (p : AttestationPool) (data : AttestationData) : Option Attestation :=
  (p.attestations.filter (·.data = data)).foldl (fun best a =>
    match best with
    | some b => if b.participants ≤ a.participants then some a else best
    | none => some a) none

/-- Whether a block at `slot` may include an attestation, as far as its age goes. -/
def inWindow (p : AttestationPool) (slot : Slot) (a : Attestation) : Bool :=
  Word.addSat a.data.slot p.minInclusionDelay ≤ slot
    && slot ≤ Word.addSat a.data.slot p.slotsPerEpoch

/-- Wider attestations come first, of equally wide ones the earlier. -/
def comesBefore (a b : Attestation) : Bool :=
  b.participants < a.participants || (a.participants == b.participants && a.data.slot ≤ b.data.slot)

/-- The attestations to offer for a block at `slot`, best first. -/
def select (p : AttestationPool) (slot : Slot) : List Attestation :=
  (p.attestations.filter (p.inWindow slot)).mergeSort comesBefore

end AttestationPool

/-! ## Slashings -/

/-- Evidence against proposers that waits for a block, each piece once. -/
structure SlashingPool where
  slashings : List ProposerSlashing := []
  deriving Inhabited

namespace SlashingPool

/-- Add a piece of evidence unless it is there. -/
def add (p : SlashingPool) (x : ProposerSlashing) : SlashingPool :=
  if p.slashings.contains x then p else { p with slashings := p.slashings ++ [x] }

/-- Drop the evidence that an imported block carries. -/
def dropIncluded (p : SlashingPool) (included : List ProposerSlashing) : SlashingPool :=
  { p with slashings := p.slashings.filter fun x => !included.contains x }

end SlashingPool

end Beacon
