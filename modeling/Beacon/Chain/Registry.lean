import Beacon.Commitment
import Beacon.Constants

set_option autoImplicit false

/-! # Forks, checkpoints and validators

The fork schedule entry that says which version is in force at an epoch, the checkpoints that
finality speaks about, and the record of one validator with the epochs at which it may attest and
at which it may be slashed. -/

namespace Beacon

/-! ## Forks -/

/-- One entry of the fork schedule. -/
structure Fork where
  /-- In force before `epoch`. -/
  previousVersion : Version := Bytes.zero 4
  /-- In force from `epoch` on. -/
  currentVersion : Version := Bytes.zero 4
  epoch : Epoch := 0
  deriving DecidableEq, Inhabited

/-- The version in force at `epoch`. -/
def Fork.versionAt (f : Fork) (epoch : Epoch) : Version :=
  if epoch < f.epoch then f.previousVersion else f.currentVersion

instance : HasRoot Fork where
  commitment f := .tagged "Fork"
    [.bytes f.previousVersion.toByteArray, .bytes f.currentVersion.toByteArray, .word f.epoch]

/-! ## Checkpoints -/

/-- The root of the block that heads the chain when `epoch` starts. -/
structure Checkpoint where
  epoch : Epoch := 0
  root : Root := Bytes.zero 32
  deriving DecidableEq, Inhabited

instance : HasRoot Checkpoint where
  commitment c := .tagged "Checkpoint" [.word c.epoch, .digest c.root]

/-! ## Validators -/

/-- The registry record of one validator. -/
structure Validator where
  pubkey : PublicKey := Bytes.zero 48
  withdrawalCredentials : Root := Bytes.zero 32
  effectiveBalance : Gwei := 0
  slashed : Bool := false
  activationEpoch : Epoch := 0
  exitEpoch : Epoch := 0
  withdrawableEpoch : Epoch := 0
  deriving DecidableEq, Inhabited

namespace Validator

/-- A validator that is active from the first epoch on and never leaves. -/
def genesis (pubkey : PublicKey) (balance : Gwei) : Validator where
  pubkey
  effectiveBalance := balance
  exitEpoch := farFuture
  withdrawableEpoch := farFuture

/-- Active from the activation epoch up to the exit epoch. -/
def isActiveAt (v : Validator) (epoch : Epoch) : Bool :=
  v.activationEpoch ≤ epoch && epoch < v.exitEpoch

/-- Slashable once, from the activation epoch up to the withdrawable epoch. -/
def isSlashableAt (v : Validator) (epoch : Epoch) : Bool :=
  !v.slashed && v.activationEpoch ≤ epoch && epoch < v.withdrawableEpoch

end Validator

instance : HasRoot Validator where
  commitment v := .tagged "Validator"
    [.bytes v.pubkey.toByteArray, .digest v.withdrawalCredentials, .word v.effectiveBalance,
     .flag v.slashed, .word v.activationEpoch, .word v.exitEpoch, .word v.withdrawableEpoch]

end Beacon
