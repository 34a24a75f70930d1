import Beacon.DepositChain.Tracker
import Beacon.Duties.Settings
import Beacon.Environment
import Beacon.Events.Bus
import Beacon.Production.Assembly

set_option autoImplicit false

/-! # Settings of a node

The settings of a node and of everything in it, checked once before anything is built. -/

namespace Beacon

/-- Settings of a node. -/
structure NodeConfig where
  /-- When slot zero starts. -/
  genesisTime : Nat := 0
  secondsPerSlot : Nat := 12
  /-- Validators of the development network. -/
  validatorCount : Nat := 64
  /-- Events that the bus retains for slow subscribers. -/
  busCapacity : Nat := defaultBusCapacity
  /-- Seconds between blocks of the development deposit chain. -/
  depositSecondsPerBlock : Nat := 14
  constants : Constants := {}
  duties : DutyConfig := {}
  deposits : DepositConfig := {}
  production : ProductionConfig := {}
  deriving Inhabited

namespace NodeConfig

/-- A small local network with short slots. -/
def devnet (genesisTime : Nat) : NodeConfig where
  genesisTime
  secondsPerSlot := 6
  validatorCount := 32
  constants := Constants.minimal
  duties := { attestationDelay := 2000, aggregationDelay := 4000 }
  deposits := { followDistance := 8 }

/-- Refuse settings of zero, duties that do not fit in a slot, and what the parts refuse. -/
def validate (c : NodeConfig) : Attempt InvalidSetting Unit := do
  Attempt.require (c.secondsPerSlot ≠ 0) ⟨"seconds_per_slot", "must be at least 1"⟩
  Attempt.require (c.validatorCount ≠ 0) ⟨"validator_count", "must be at least 1"⟩
  Attempt.require (c.busCapacity ≠ 0) ⟨"bus_capacity", "must be at least 1"⟩
  Attempt.require (c.depositSecondsPerBlock ≠ 0)
    ⟨"deposit_chain_seconds_per_block", "must be at least 1"⟩
  let slotLength := Word.mulSat c.secondsPerSlot 1000
  Attempt.require (c.duties.aggregationDelay < slotLength)
    ⟨"duties.aggregation_delay_ms", s!"must be shorter than the {slotLength}ms slot"⟩
  c.constants.validate
  c.duties.validate
  c.deposits.validate
  c.production.validate

/-- Take what the environment sets; numbers that are none are ignored. -/
def override (c : NodeConfig) (e : Environment) : NodeConfig :=
  { c with
    genesisTime := e.numberOr "QC_GENESIS_TIME" c.genesisTime
    secondsPerSlot := e.numberOr "QC_SECONDS_PER_SLOT" c.secondsPerSlot
    validatorCount := e.numberOr "QC_VALIDATOR_COUNT" c.validatorCount
    production := { c.production with
      graffiti := (e.get? "QC_GRAFFITI").getD c.production.graffiti } }

end NodeConfig

end Beacon
