import Mathlib
import Beacon.Proofs.Attempts
import Beacon.Transition.Engine

set_option autoImplicit false

/-! # What valid constants grant

`Constants.Consistent` says in arithmetic what `Constants.validate` checks, and `valid_iff` that it
checks nothing else. Under it slots and epochs behave as they should: a slot either stays in its
epoch or starts the next one, and the start of an epoch is where its slots begin. -/

namespace Beacon

namespace Constants

/-- The conditions that `validate` checks, as facts. -/
structure Consistent (c : Constants) : Prop where
  slotsPerEpoch_pos : 0 < c.slotsPerEpoch
  slotsPerHistoricalRoot_pos : 0 < c.slotsPerHistoricalRoot
  randaoMixesLength_pos : 0 < c.randaoMixesLength
  maxCommitteesPerSlot_pos : 0 < c.maxCommitteesPerSlot
  targetCommitteeSize_pos : 0 < c.targetCommitteeSize
  attestationSubnetCount_pos : 0 < c.attestationSubnetCount
  epochsPerVotingPeriod_pos : 0 < c.epochsPerVotingPeriod
  targetAggregatorsPerCommittee_pos : 0 < c.targetAggregatorsPerCommittee
  effectiveBalanceIncrement_pos : 0 < c.effectiveBalanceIncrement
  baseRewardFactor_pos : 0 < c.baseRewardFactor
  inactivityPenaltyQuotient_pos : 0 < c.inactivityPenaltyQuotient
  minSlashingPenaltyQuotient_pos : 0 < c.minSlashingPenaltyQuotient
  maxAttestations_pos : 0 < c.maxAttestations
  twoEpochs_le : 2 * c.slotsPerEpoch ≤ c.slotsPerHistoricalRoot
  fiveEpochs_lt : 5 * c.slotsPerEpoch < Word.limit
  fiveEpochs_le : 5 * c.slotsPerEpoch ≤ c.randaoMixesLength
  increment_le : c.effectiveBalanceIncrement ≤ c.maxEffectiveBalance

theorem requirePositive_eq_ok {setting : String} {value : Nat} {u : Unit} :
    requirePositive setting value = .ok u ↔ 0 < value := by
  rw [requirePositive, Attempt.require_eq_ok, Nat.pos_iff_ne_zero]

theorem valid_iff (c : Constants) : c.Valid ↔ c.Consistent := by
  simp only [Valid, validate, Attempt.bind_eq_ok, requirePositive_eq_ok, Attempt.require_eq_ok,
    Attempt.liftM_eq_ok, Word.mul_eq_ok]
  constructor
  · rintro ⟨_, h1, _, h2, _, h3, _, h4, _, h5, _, h6, _, h7, _, h8, _, h9, _, h10, _, h11, _, h12,
      _, h13, two, ⟨rfl, _⟩, _, h14, five, ⟨rfl, h15⟩, _, h16, h17⟩
    exact ⟨h1, h2, h3, h4, h5, h6, h7, h8, h9, h10, h11, h12, h13, h14, h15, h16, h17⟩
  · rintro ⟨h1, h2, h3, h4, h5, h6, h7, h8, h9, h10, h11, h12, h13, h14, h15, h16, h17⟩
    exact ⟨(), h1, (), h2, (), h3, (), h4, (), h5, (), h6, (), h7, (), h8, (), h9, (), h10, (), h11,
      (), h12, (), h13, _, ⟨rfl, by omega⟩, (), h14, _, ⟨rfl, h15⟩, (), h16, h17⟩

/-! ## Slots and epochs -/

variable {c : Constants}

theorem isEpochStart_iff {slot : Slot} :
    c.isEpochStart slot = true ↔ slot % c.slotsPerEpoch = 0 := by
  simp [isEpochStart]

/-- A slot that starts an epoch is the first one of the epoch after that of the slot before. -/
theorem epochAt_succ_of_start {slot : Slot} (h : c.isEpochStart (slot + 1) = true) :
    c.epochAt (slot + 1) = c.epochAt slot + 1 := by
  have hdvd : c.slotsPerEpoch ∣ slot + 1 := Nat.dvd_of_mod_eq_zero (isEpochStart_iff.1 h)
  rw [epochAt, epochAt, Nat.succ_div_of_dvd hdvd]

/-- Any other slot lies in the epoch of the slot before. -/
theorem epochAt_succ_of_not_start {slot : Slot} (h : ¬ c.isEpochStart (slot + 1) = true) :
    c.epochAt (slot + 1) = c.epochAt slot := by
  have hdvd : ¬ c.slotsPerEpoch ∣ slot + 1 :=
    fun hd => h (isEpochStart_iff.2 (Nat.mod_eq_zero_of_dvd hd))
  rw [epochAt, epochAt, Nat.succ_div_of_not_dvd hdvd]

/-- The epoch that starts with a slot, times its length, is that slot. -/
theorem epochAt_mul_of_start {slot : Slot} (h : c.isEpochStart slot = true) :
    c.epochAt slot * c.slotsPerEpoch = slot :=
  Nat.div_mul_cancel (Nat.dvd_of_mod_eq_zero (isEpochStart_iff.1 h))

theorem epochAt_mono {a b : Slot} (h : a ≤ b) : c.epochAt a ≤ c.epochAt b :=
  Nat.div_le_div_right h

theorem epochAt_le (slot : Slot) : c.epochAt slot ≤ slot := Nat.div_le_self ..

theorem epochAt_mul_le (slot : Slot) : c.epochAt slot * c.slotsPerEpoch ≤ slot :=
  Nat.div_mul_le_self ..

namespace Consistent

theorem lt_epochAt_succ_mul (hc : c.Consistent) (slot : Slot) :
    slot < (c.epochAt slot + 1) * c.slotsPerEpoch := by
  rw [Nat.mul_comm]
  exact Nat.lt_mul_div_succ slot hc.slotsPerEpoch_pos

/-- A slot of an epoch up to that of another one lies less than an epoch after it. -/
theorem lt_add_of_epochAt_le (hc : c.Consistent) {a b : Slot} (h : c.epochAt a ≤ c.epochAt b) :
    a < b + c.slotsPerEpoch := by
  calc a < (c.epochAt a + 1) * c.slotsPerEpoch := hc.lt_epochAt_succ_mul a
    _ ≤ (c.epochAt b + 1) * c.slotsPerEpoch := Nat.mul_le_mul_right _ (Nat.succ_le_succ h)
    _ = c.epochAt b * c.slotsPerEpoch + c.slotsPerEpoch := Nat.succ_mul ..
    _ ≤ b + c.slotsPerEpoch := Nat.add_le_add_right (epochAt_mul_le b) _

end Consistent

theorem epochStart_of_lt {epoch : Epoch} (h : epoch * c.slotsPerEpoch < Word.limit) :
    c.epochStart epoch = epoch * c.slotsPerEpoch :=
  Word.mulSat_of_lt h

end Constants

/-- Two to the 62nd: no sum of slots and epochs up to here leaves the 64-bit range. -/
def horizon : Slot := 4611686018427387904

/-- The constants of an engine are consistent. -/
theorem Engine.consistent (e : Engine) : e.constants.Consistent :=
  (Constants.valid_iff _).1 e.valid

end Beacon
