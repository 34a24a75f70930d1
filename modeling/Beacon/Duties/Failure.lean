import Beacon.Gate.Basic
import Beacon.Constants

set_option autoImplicit false

/-! # What goes wrong with duties

The causes that a node, a signer, a fork lookup, a load and an execution give, and which of them a
repetition may mend. -/

namespace Beacon

/-- Why a node did not do what it was asked. -/
inductive ApiError where
  | unavailable (reason : String)
  | rejected (reason : String)
  deriving DecidableEq, Repr

/-- The text of the cause. -/
def ApiError.message : ApiError → String
  | .unavailable reason => s!"Validator API unavailable: {reason}"
  | .rejected reason => s!"Validator API rejected request: {reason}"

/-- Why nothing was signed. -/
inductive SignerError where
  | unavailable (reason : String)
  /-- The signature would be dangerous. -/
  | refused (reason : String)
  | unknownKey (key : String)
  deriving DecidableEq, Repr

/-- The text of the cause. -/
def SignerError.message : SignerError → String
  | .unavailable reason => s!"Signer unavailable: {reason}"
  | .refused reason => s!"Signer refused to sign: {reason}"
  | .unknownKey key => s!"No key for validator 0x{key}"

/-- Why the fork of an epoch is not known. -/
structure ForkLookupError where
  epoch : Epoch
  cause : ApiError
  deriving DecidableEq, Repr

/-- The text of the cause. -/
def ForkLookupError.message (e : ForkLookupError) : String :=
  s!"Fork lookup for epoch {e.epoch} failed: {e.cause.message}"

/-- Why the duties of an epoch are not loaded. -/
inductive LoadError where
  | api (cause : ApiError)
  | fork (cause : ForkLookupError)
  | signer (cause : SignerError)
  | gate (cause : GateError)
  /-- The epoch left the window while its load was being repeated. -/
  | noLongerNeeded (epoch : Epoch)
  | retriesExhausted (epoch : Epoch) (attempts : Nat) (last : LoadError)
  deriving DecidableEq, Repr

namespace LoadError

/-- The text of the cause. -/
def message : LoadError → String
  | .api cause => s!"Duty request failed: {cause.message}"
  | .fork cause => cause.message
  | .signer cause => s!"Selection proof signing failed: {cause.message}"
  | .gate cause => cause.message
  | .noLongerNeeded epoch => s!"Duties for epoch {epoch} are no longer needed"
  | .retriesExhausted epoch attempts last =>
    s!"Duty load for epoch {epoch} gave up after {attempts} attempts: {last.message}"

/-- Whether another attempt may succeed. -/
def isRecoverable : LoadError → Bool
  | .api _ | .fork _ | .gate _ => true
  | .signer (.unknownKey _) => false
  | .signer _ => true
  | .noLongerNeeded _ | .retriesExhausted .. => false

end LoadError

/-- Why a duty was not performed. -/
inductive ExecutionError where
  | api (cause : ApiError)
  | signer (cause : SignerError)
  | fork (cause : ForkLookupError)
  /-- The assignment places the validator outside its committee. -/
  | invalidAssignment (slot : Slot) (position size : Nat)
  /-- The duty stopped without a result. -/
  | aborted (slot : Slot)
  deriving DecidableEq, Repr

namespace ExecutionError

/-- The text of the cause. -/
def message : ExecutionError → String
  | .api cause => s!"Validator API call failed: {cause.message}"
  | .signer cause => s!"Signing failed: {cause.message}"
  | .fork cause => cause.message
  | .invalidAssignment slot position size =>
    s!"Committee position {position} out of range for committee of {size} at slot {slot}"
  | .aborted slot => s!"Duty task for slot {slot} aborted"

/-- A duty is never performed again: its slot has passed. -/
def isRecoverable (_ : ExecutionError) : Bool := false

end ExecutionError

end Beacon
