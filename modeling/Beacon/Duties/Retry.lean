import Beacon.Duties.Duty
import Beacon.Duties.Failure
import Beacon.Duties.Settings

set_option autoImplicit false

/-! # Repeating loads

A load is attempted while its epoch is wanted, until an attempt succeeds, fails for good, or was the
last that the policy allows; between attempts it waits. Each attempt passes a gate that bounds how
many run at once; a load that waits for its next attempt holds no slot of the gate. -/

namespace Beacon

/-- A load of an epoch with the number of attempts so far. -/
structure LoadJob where
  epoch : Epoch
  attempts : Nat := 0
  deriving DecidableEq, Inhabited

/-- What follows an attempt. -/
inductive LoadVerdict where
  /-- The load is over. -/
  | finish (result : Except LoadError DutySet)
  /-- Another attempt follows after some milliseconds. -/
  | retry (delay : Nat)

namespace LoadJob

/-- The largest number of attempts that is counted. -/
def maxAttempts : Nat := Word.shortLimit - 1

/-- Count another attempt, if the epoch is still wanted. -/
def next (j : LoadJob) (wanted : Bool) : Except LoadError LoadJob :=
  if wanted then .ok { j with attempts := min (j.attempts + 1) maxAttempts }
  else .error (.noLongerNeeded j.epoch)

/-- What follows the latest attempt. -/
def verdict (j : LoadJob) (p : RetryPolicy) : Except LoadError DutySet → LoadVerdict
  | .ok set => .finish (.ok set)
  | .error cause =>
    if !cause.isRecoverable then .finish (.error cause)
    else if p.maxAttempts.any (· ≤ j.attempts) then
      .finish (.error (.retriesExhausted j.epoch j.attempts cause))
    else .retry (p.delay j.epoch j.attempts)

end LoadJob

/-- The name of the gate that loads pass. -/
def loaderGate : String := "duty-loader"

/-- What an attempt came to; one that stopped in the middle was given up by its gate. -/
def loadOutcome : Attempt LoadError DutySet → Except LoadError DutySet
  | .ok set => .ok set
  | .error (.rejected cause) => .error cause
  | .error (.fault _) => .error (.gate (.abandoned loaderGate))

end Beacon
