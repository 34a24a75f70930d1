import Beacon.Production.Pools
import Beacon.Transition.Engine

set_option autoImplicit false

/-! # Assembling blocks

A proposer's block: advance the state of the parent to the slot, ask each source what it has to
offer, and let the engine pack it. Assembly reads its sources and changes none of them. -/

namespace Beacon

/-! ## Settings -/

/-- Settings of block production. -/
structure ProductionConfig where
  /-- Text that goes into every block, at most 32 bytes. -/
  graffiti : String := ""
  deriving DecidableEq, Inhabited

namespace ProductionConfig

/-- Refuse a text that is too long. -/
def validate (p : ProductionConfig) : Attempt InvalidSetting Unit :=
  Attempt.require (p.graffiti.utf8ByteSize ≤ 32)
    ⟨"graffiti", s!"is {p.graffiti.utf8ByteSize} bytes, at most 32 allowed"⟩

/-- The first 32 bytes of the text, filled up with zeros. -/
def graffitiBytes (p : ProductionConfig) : Root :=
  let bytes := p.graffiti.toUTF8
  Vector.ofFn fun i : Fin 32 => bytes.data.getD i.val 0

end ProductionConfig

/-! ## Sources -/

/-- Where the operations of a block come from. -/
structure BlockSources where
  /-- Attestations for a block at a slot, best first. -/
  attestations : Slot → List Attestation
  /-- Deposits that a state has not processed, in order. -/
  deposits : ChainState → List Deposit
  /-- The record that a proposer on a state votes for. -/
  vote : ChainState → ExternalData
  slashings : List ProposerSlashing

/-- Assemble a block for `slot` on top of `parent`, whose result is `s`. -/
def assembleBlock (e : Engine) (p : ProductionConfig) (sources : BlockSources) (s : ChainState)
    (parent : CandidateBlock) (slot : Slot) (reveal : Signature) :
    Attempt TransitionError CandidateBlock := do
  let s ← e.advance s slot
  let proposer ← e.proposer s slot
  e.createBlock s proposer parent.root
    { randaoReveal := reveal
      externalData := sources.vote s
      graffiti := p.graffitiBytes
      proposerSlashings := sources.slashings
      attestations := sources.attestations slot
      deposits := sources.deposits s }

/-! ## Counting -/

/-- What has been assembled so far; counters start again at zero after the largest word. -/
structure ProductionTally where
  assembled : Nat := 0
  failures : Nat := 0
  attestations : Nat := 0
  deposits : Nat := 0
  slashings : Nat := 0
  skipped : Nat := 0
  deriving DecidableEq, Repr, Inhabited

namespace ProductionTally

/-- Count an assembled block and the empty slots before it. -/
def record (t : ProductionTally) (attestations deposits slashings skipped : Nat) : ProductionTally :=
  { t with
    assembled := Word.wrap (t.assembled + 1)
    attestations := Word.wrap (t.attestations + attestations)
    deposits := Word.wrap (t.deposits + deposits)
    slashings := Word.wrap (t.slashings + slashings)
    skipped := Word.wrap (t.skipped + skipped) }

/-- Count a failure. -/
def recordFailure (t : ProductionTally) : ProductionTally :=
  { t with failures := Word.wrap (t.failures + 1) }

/-- Count how an assembly on a state ended; a fault is not counted. -/
def recordOutcome (t : ProductionTally) (s : ChainState) :
    Attempt TransitionError CandidateBlock → ProductionTally
  | .ok b => t.record b.body.attestations.length b.body.deposits.length
      b.body.proposerSlashings.length (b.slot - s.slot - 1)
  | .error (.rejected _) => t.recordFailure
  | .error (.fault _) => t

/-- Attestations per block on average, zero before the first block. -/
def averageAttestations (t : ProductionTally) : Float :=
  if t.assembled = 0 then 0.0 else t.attestations.toUInt64.toFloat / t.assembled.toUInt64.toFloat

end ProductionTally

end Beacon
