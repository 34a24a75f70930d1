import Beacon.Transition.Engine

set_option autoImplicit false

/-! # Chains on one machine

Honest attesters and proposers for local chains: attestations in which a chosen pattern of committee
members takes part, pending attestations put straight into a state, and a chain that grows block by
block. -/

namespace Beacon.LocalChain

/-! ## Who takes part -/

/-- Which members take part; the pattern starts again when it is used up. -/
abbrev Pattern : Type := List Bool

/-- The bits of `count` members, from the given place of the pattern on. -/
def Pattern.bits (p : Pattern) (start count : Nat) : List Bool :=
  (List.range count).map fun i => p.getD ((start + i) % p.length) false

/-- Numbered validators: the number, counted from one, as eight bytes six times over. -/
def numberedKey (i : Nat) : PublicKey :=
  let word := littleEndian 8 (i + 1)
  Vector.ofFn fun j : Fin 48 => word.getD (j.val % 8) 0

/-! ## Beginning -/

/-- An engine, and the first state of a chain that it runs. -/
def start (c : Constants) (time : Nat) (validators : List Validator) (record : ExternalData)
    (fork : Fork) : Attempt InvalidSetting (Engine × ChainState) := do
  let e ← Engine.create c
  c.requireRings
  return (e, ChainState.genesis c time validators record fork)

/-! ## Attesting -/

/-- The block root at a slot, or the root of no block. -/
def rootAt (e : Engine) (s : ChainState) (slot : Slot) : Root :=
  (e.blockRootAt? s slot).getD Root.none

/-- The members of a committee; an epoch out of reach has none. -/
def membersOf (e : Engine) (s : ChainState) (slot : Slot) (index : CommitteeIndex) :
    Attempt TransitionError (List ValidatorIndex) :=
  match e.committees s (e.constants.epochAt slot) with
  | .ok committees => .ok ((committees.committee? slot index).getD [])
  | .error (.rejected _) => .ok []
  | .error (.fault f) => .error (.fault f)

/-- What an honest attester of a committee votes for. -/
def attestationData (e : Engine) (s : ChainState) (slot : Slot) (index : CommitteeIndex) :
    AttestationData :=
  let c := e.constants
  let epoch := c.epochAt slot
  { slot
    index
    beaconBlockRoot := rootAt e s slot
    source := if epoch = s.currentEpoch c then s.currentJustified else s.previousJustified
    target := ⟨epoch, rootAt e s (c.epochStart epoch)⟩ }

/-- An attestation of the members that take part. -/
def attest (e : Engine) (s : ChainState) (slot : Slot) (index : CommitteeIndex) (p : Pattern) :
    Attempt TransitionError Attestation := do
  let members ← membersOf e s slot index
  return { bits := p.bits 0 members.length
           data := attestationData e s slot index
           signature := Bytes.fill 96 3 }

/-- The attestations of all committees of a slot. -/
def attestSlot (e : Engine) (s : ChainState) (slot : Slot) (p : Pattern) :
    Attempt TransitionError (List Attestation) := do
  let committees ← e.committees s (e.constants.epochAt slot)
  (List.range committees.committeesPerSlot).mapM fun index => attest e s slot index p

/-! ## Pending attestations -/

/-- How every committee of an epoch is made to have attested. A root that is not given is the one
that the state remembers for the slot: that of no block for the slot of the state and those after. -/
structure Ballot where
  epoch : Epoch
  /-- Whether the votes join those of the previous epoch. -/
  previous : Bool := false
  pattern : Pattern := [true]
  /-- The root of the target; the one at the first slot of the epoch if absent. -/
  targetRoot : Option Root := none
  /-- The root of the head; the one at the slot of each committee if absent. -/
  headRoot : Option Root := none
  source : Checkpoint := {}
  delay : Nat := 1
  proposer : ValidatorIndex := 0

/-- Give every committee its bits; the pattern runs on over all of them. -/
def spread (p : Pattern) : Nat → List (Slot × CommitteeIndex × List ValidatorIndex) →
    List (Slot × CommitteeIndex × List Bool)
  | _, [] => []
  | start, (slot, index, members) :: rest =>
    (slot, index, p.bits start members.length) :: spread p (start + members.length) rest

/-- Put the votes of a ballot into a state. -/
def cast (c : Constants) (s : ChainState) (b : Ballot) : Attempt CommitteeError ChainState := do
  let committees ← committeesOf c s b.epoch
  let entries ← committees.entries
  let remembered (slot : Slot) : Root := (s.blockRootAt? c slot).getD Root.none
  let target : Checkpoint := ⟨b.epoch, b.targetRoot.getD (remembered (c.epochStart b.epoch))⟩
  let votes := (spread b.pattern 0 entries).map fun (slot, index, bits) =>
    ({ bits
       data := { slot, index, source := b.source, target
                 beaconBlockRoot := b.headRoot.getD (remembered slot) }
       inclusionDelay := b.delay
       proposerIndex := b.proposer } : PendingAttestation)
  return if b.previous then
    { s with previousEpochAttestations := s.previousEpochAttestations ++ votes }
  else
    { s with currentEpochAttestations := s.currentEpochAttestations ++ votes }

/-! ## Growing -/

/-- The reveal of a slot: its low byte, made odd, throughout. -/
def revealOf (slot : Slot) : Signature := Bytes.fill 96 (UInt8.ofNat slot ||| 1)

/-- How a chain grows. -/
structure Growth where
  /-- Who attests the slot before each block; nobody if absent. -/
  pattern : Option Pattern := none
  /-- The slots left empty. -/
  skip : List Slot := []
  /-- The record that blocks vote for; the one in force if absent. -/
  vote : Option ExternalData := none
  deposits : List Deposit := []

/-- Propose and import the block of one slot. -/
def growBy (e : Engine) (g : Growth) (s : ChainState) (slot : Slot) :
    Attempt TransitionError (ChainState × CandidateBlock) := do
  let advanced ← e.advance s slot
  let attestations ← match g.pattern with
    | some p => attestSlot e advanced (slot - 1) p
    | none => .ok []
  let proposer ← e.proposer advanced slot
  let block ← e.createBlock advanced proposer (hashRoot advanced.latestBlockHeader)
    { randaoReveal := revealOf slot
      externalData := g.vote.getD advanced.externalData
      attestations
      deposits := g.deposits }
  let s ← e.importBlock s block
  return (s, block)

/-- Grow through as many slots as `count`, from `slot` on. -/
def growFrom (e : Engine) (g : Growth) : Nat → Slot → ChainState →
    ChainState × List CandidateBlock × Option (Failure TransitionError)
  | 0, _, s => (s, [], none)
  | count + 1, slot, s =>
    if g.skip.contains slot then growFrom e g count (slot + 1) s
    else
      match growBy e g s slot with
      | .error f => (s, [], some f)
      | .ok (s, block) =>
        let (last, blocks, stop) := growFrom e g count (slot + 1) s
        (last, block :: blocks, stop)

/-- Grow through the slots after the state's up to `last` as far as that succeeds: the state
reached, its blocks, and what stopped the growth. -/
def grow (e : Engine) (g : Growth) (s : ChainState) (last : Slot) :
    ChainState × List CandidateBlock × Option (Failure TransitionError) :=
  growFrom e g (last - s.slot) (s.slot + 1) s

end Beacon.LocalChain
