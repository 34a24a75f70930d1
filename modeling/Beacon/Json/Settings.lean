import Beacon.Json.Entities
import Beacon.Node.Settings

set_option autoImplicit false

/-! # The JSON forms of settings

Settings are read with their defaults for whatever is absent. They are written for inspection: the
factor of a retry policy by the bits of its double. -/

namespace Beacon

/-- A number of at most 32 bits. -/
def readShort : Style → Json → Option Nat
  | style, j => (read style j : Option Nat).bind fun n => if n < Word.shortLimit then some n else none

/-- A factor; tools may name the doubles that no number spells. -/
def readFactor : Style → Json → Option Float
  | .terse, .string "nan" => some (0.0 / 0.0)
  | .terse, .string "inf" => some (1.0 / 0.0)
  | .terse, .string "-inf" => some (-1.0 / 0.0)
  | _, j => j.toFloat?

/-- Nothing, or what a reader finds. -/
def readOptional {α : Type} (reader : Style → Json → Option α) : Style → Json → Option (Option α)
  | _, .null => some none
  | style, j => (reader style j).map some

instance : Form RetryPolicy where
  write s p := .object [("initial_delay_ms", write s p.initialDelay),
    ("max_delay_ms", write s p.maxDelay), ("multiplier_bits", .natural p.multiplier.toBits.toNat),
    ("jitter", write s p.jitter), ("max_attempts", write s p.maxAttempts)]
  read s j := do
    let d : RetryPolicy := {}
    let r ← Row.read? s ["initial_delay_ms", "max_delay_ms", "backoff_multiplier", "jitter",
      "max_attempts"] j
    return { initialDelay := ← r.getD "initial_delay_ms" d.initialDelay
             maxDelay := ← r.getD "max_delay_ms" d.maxDelay
             multiplier := ← r.viaD readFactor "backoff_multiplier" d.multiplier
             jitter := ← r.getD "jitter" d.jitter
             maxAttempts := ← r.viaD (readOptional readShort) "max_attempts" d.maxAttempts }

instance : Form DutyConfig where
  write s c := .object [("retry", write s c.retry),
    ("max_concurrent_loads", write s c.maxConcurrentLoads),
    ("lookahead_epochs", write s c.lookahead),
    ("attestation_delay_ms", write s c.attestationDelay),
    ("aggregation_delay_ms", write s c.aggregationDelay)]
  read s j := do
    let d : DutyConfig := {}
    let r ← Row.read? s ["retry", "max_concurrent_loads", "lookahead_epochs",
      "attestation_delay_ms", "aggregation_delay_ms"] j
    return { retry := ← r.getD "retry" d.retry
             maxConcurrentLoads := ← r.getD "max_concurrent_loads" d.maxConcurrentLoads
             lookahead := ← r.getD "lookahead_epochs" d.lookahead
             attestationDelay := ← r.getD "attestation_delay_ms" d.attestationDelay
             aggregationDelay := ← r.getD "aggregation_delay_ms" d.aggregationDelay }

instance : Form DepositConfig where
  write s c := .object [("max_concurrent_requests", write s c.maxConcurrentRequests),
    ("follow_distance", write s c.followDistance),
    ("max_tracked_blocks", write s c.maxTrackedBlocks),
    ("deposit_contract", write s c.depositContract)]
  read s j := do
    let d : DepositConfig := {}
    let r ← Row.read? s ["max_concurrent_requests", "follow_distance", "max_tracked_blocks",
      "deposit_contract"] j
    return { maxConcurrentRequests := ← r.getD "max_concurrent_requests" d.maxConcurrentRequests
             followDistance := ← r.getD "follow_distance" d.followDistance
             maxTrackedBlocks := ← r.getD "max_tracked_blocks" d.maxTrackedBlocks
             depositContract := ← r.getD "deposit_contract" d.depositContract }

instance : Form ProductionConfig where
  write s c := .object [("graffiti", write s c.graffiti)]
  read s j := do
    let r ← Row.read? s ["graffiti"] j
    return { graffiti := ← r.getD "graffiti" "" }

instance : Form NodeConfig where
  write s c := .object [("genesis_time", write s c.genesisTime),
    ("seconds_per_slot", write s c.secondsPerSlot),
    ("validator_count", write s c.validatorCount), ("bus_capacity", write s c.busCapacity),
    ("deposit_chain_seconds_per_block", write s c.depositSecondsPerBlock),
    ("constants", write s c.constants), ("duties", write s c.duties),
    ("deposit_chain", write s c.deposits), ("graffiti", write s c.production.graffiti)]
  read s j := do
    let d : NodeConfig := {}
    let r ← Row.read? s ["genesis_time", "seconds_per_slot", "validator_count", "bus_capacity",
      "deposit_chain_seconds_per_block", "constants", "duties", "deposit_chain",
      "block_production"] j
    return { genesisTime := ← r.getD "genesis_time" d.genesisTime
             secondsPerSlot := ← r.getD "seconds_per_slot" d.secondsPerSlot
             validatorCount := ← r.getD "validator_count" d.validatorCount
             busCapacity := ← r.getD "bus_capacity" d.busCapacity
             depositSecondsPerBlock :=
               ← r.getD "deposit_chain_seconds_per_block" d.depositSecondsPerBlock
             constants := ← r.getD "constants" d.constants
             duties := ← r.getD "duties" d.duties
             deposits := ← r.getD "deposit_chain" d.deposits
             production := ← r.getD "block_production" d.production }

instance : Form LogConfig where
  write s c := .object [("service_name", write s c.serviceName), ("log_level", write s c.level),
    ("console_output", write s c.consoleOutput), ("json_logs", write s c.json),
    ("network", write s c.network)]
  read s j := do
    let d : LogConfig := {}
    let r ← Row.read? s ["service_name", "log_level", "console_output", "json_logs", "network"] j
    return { serviceName := ← r.getD "service_name" d.serviceName
             level := ← r.getD "log_level" d.level
             consoleOutput := ← r.getD "console_output" d.consoleOutput
             json := ← r.getD "json_logs" d.json
             network := ← r.getD "network" d.network }

/-- The texts of an object. -/
def Environment.ofJson? : Json → Option Environment
  | .object ms => ms.mapM fun m => (read .stored m.2).map (m.1, ·)
  | .null => some []
  | _ => none

end Beacon
