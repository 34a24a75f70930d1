import Beacon.Constants

set_option autoImplicit false

/-! # Settings of the duties

How failed loads are repeated and when duties are performed within their slot. The wait after a
failed attempt grows exponentially up to a maximum; a jitter that depends on the epoch and the
attempt alone keeps loads of different epochs apart and the schedule reproducible. -/

namespace Beacon

/-! ## Repeating failed loads -/

/-- How failed loads are repeated. -/
structure RetryPolicy where
  initialDelay : Nat := 1000
  maxDelay : Nat := 30000
  /-- Factor from one wait to the next. -/
  multiplier : Float := 2.0
  jitter : Bool := true
  /-- Attempts before giving up; without a number, as long as the epoch is wanted. -/
  maxAttempts : Option Nat := none
  deriving Inhabited

/-- The power of a double, by squaring; the low bits of the exponent come first. -/
def powerBySquaring : Nat → Float → Nat → Float → Float
  | 0, _, _, result => result
  | bits + 1, base, exponent, result =>
    let result := if exponent % 2 = 1 then result * base else result
    if exponent / 2 = 0 then result else powerBySquaring bits (base * base) (exponent / 2) result

/-- The power of a double with an exponent below 64. -/
def Float.power (base : Float) (exponent : Nat) : Float := powerBySquaring 6 base exponent 1.0

namespace RetryPolicy

/-- Refuse a policy that would wait for nothing, shrink, or never try. -/
def validate (p : RetryPolicy) : Attempt InvalidSetting Unit := do
  Attempt.require (p.initialDelay ≠ 0) ⟨"retry.initial_delay_ms", "must be positive"⟩
  Attempt.require (p.initialDelay ≤ p.maxDelay)
    ⟨"retry.max_delay_ms", "must not be below initial_delay_ms"⟩
  Attempt.require (p.multiplier ≥ 1.0 ∧ p.multiplier.isFinite)
    ⟨"retry.backoff_multiplier", "must be a finite value of at least 1.0"⟩
  Attempt.require (p.maxAttempts ≠ some 0) ⟨"retry.max_attempts", "must be at least 1"⟩

/-- The wait after attempt `attempt`, counted from one, before jitter. -/
def baseDelay (p : RetryPolicy) (attempt : Nat) : Nat :=
  let scaled := p.initialDelay.toUInt64.toFloat * Float.power p.multiplier (min (attempt - 1) 63)
  if scaled.isFinite && scaled < p.maxDelay.toUInt64.toFloat then scaled.toUInt64.toNat
  else p.maxDelay

/-- A number that depends on the epoch and the attempt, spread over all words. -/
def spread (epoch attempt : Nat) : Nat :=
  let mixed := Word.wrap (epoch * 0x9E3779B97F4A7C15) ^^^ Word.wrap (attempt * 7919 + 104729)
  mixed ^^^ (mixed >>> 29)

/-- The wait in milliseconds after attempt `attempt`, counted from one, to load `epoch`. -/
def delay (p : RetryPolicy) (epoch attempt : Nat) : Nat :=
  let base := p.baseDelay attempt
  if p.jitter then min (Word.addSat base (spread epoch attempt % (base / 4 + 1))) p.maxDelay
  else base

end RetryPolicy

/-! ## Performing duties -/

/-- Settings of the duty schedule. -/
structure DutyConfig where
  retry : RetryPolicy := {}
  /-- Loads that may run at once. -/
  maxConcurrentLoads : Nat := 2
  /-- Epochs after the current one that are loaded ahead. -/
  lookahead : Nat := 1
  /-- Milliseconds from the start of a slot to its attestations. -/
  attestationDelay : Nat := 4000
  /-- Milliseconds from the start of a slot to its aggregates. -/
  aggregationDelay : Nat := 8000
  deriving Inhabited

/-- Refuse settings under which nothing would be loaded or aggregates came before attestations. -/
def DutyConfig.validate (c : DutyConfig) : Attempt InvalidSetting Unit := do
  c.retry.validate
  Attempt.require (c.maxConcurrentLoads ≠ 0) ⟨"max_concurrent_loads", "must be at least 1"⟩
  Attempt.require (c.attestationDelay ≤ c.aggregationDelay)
    ⟨"aggregation_delay_ms", "must not be below attestation_delay_ms"⟩

end Beacon
