import Mathlib
import Beacon.Proofs.Transition.Epochs

set_option autoImplicit false

/-! # Effective balances track real ones

An effective balance stays where it is while the real one is near, and is set anew from it when it
is not. Either way it ends up near (`StaysNear`): one that stays has passed both comparisons, and one
that is set anew lies below the real balance, by less than an increment unless the maximum cuts it
off. What a record is set to depends on the real balance alone, so that doing it twice is doing it
once. The two thresholds are a quarter and five quarters of an increment; the second of them has to
be a word, which is the only thing that can go wrong (`updateEffectiveBalances_eq_ok`). -/

namespace Beacon

variable {c : Constants} {s s' : ChainState}

/-! ## One balance -/

/-- An effective balance is at most a quarter of an increment above the real one, and at most five
    quarters below it unless it is the largest there is. -/
structure StaysNear (c : Constants) (effective balance : Gwei) : Prop where
  le_balance : effective ≤ balance + c.effectiveBalanceIncrement / 4
  balance_le : balance ≤ effective + 5 * (c.effectiveBalanceIncrement / 4) ∨
    effective = c.maxEffectiveBalance

/-- A balance that is set anew loses less than an increment, unless the maximum cuts it off. -/
theorem Constants.staysNear_effective (hpositive : 0 < c.effectiveBalanceIncrement)
    (hquarters : 4 ∣ c.effectiveBalanceIncrement) (balance : Gwei) :
    StaysNear c (c.effective balance) balance := by
  have hlost : balance % c.effectiveBalanceIncrement < c.effectiveBalanceIncrement :=
    Nat.mod_lt _ hpositive
  have hwhole : balance % c.effectiveBalanceIncrement ≤ balance := Nat.mod_le ..
  have hincrement : c.effectiveBalanceIncrement / 4 * 4 = c.effectiveBalanceIncrement :=
    Nat.div_mul_cancel hquarters
  unfold Constants.effective
  rcases Nat.le_total (balance - balance % c.effectiveBalanceIncrement) c.maxEffectiveBalance
    with hle | hcut
  · rw [Nat.min_eq_left hle]
    exact ⟨by lia, .inl (by lia)⟩
  · rw [Nat.min_eq_right hcut]
    exact ⟨by lia, .inr rfl⟩

/-- What a sum reaches that stops at the largest word, the exact sum reaches too. -/
theorem Word.le_add_of_not_addSat_lt {a b n : Nat} (h : ¬ Word.addSat a b < n) : n ≤ a + b :=
  (not_lt.1 h).trans (min_le_left ..)

/-- A record follows its balance. -/
theorem Validator.staysNear_followBalance (hpositive : 0 < c.effectiveBalanceIncrement)
    (hquarters : 4 ∣ c.effectiveBalanceIncrement) (v : Validator) (balance : Gwei) :
    StaysNear c (v.followBalance c (c.effectiveBalanceIncrement / 4)
      (c.effectiveBalanceIncrement / 4 * 5) balance).effectiveBalance balance := by
  unfold followBalance
  split
  · exact c.staysNear_effective hpositive hquarters balance
  · next hnear =>
      rw [not_or] at hnear
      refine ⟨Word.le_add_of_not_addSat_lt hnear.1, .inl ?_⟩
      rw [Nat.mul_comm]
      exact Word.le_add_of_not_addSat_lt hnear.2

/-- Only the effective balance of a record follows. -/
theorem Validator.followBalance_eq (c : Constants) (downward upward : Gwei) (v : Validator)
    (balance : Gwei) :
    v.followBalance c downward upward balance =
      { v with
        effectiveBalance := (v.followBalance c downward upward balance).effectiveBalance } := by
  unfold followBalance
  split <;> rfl

/-- A record that has followed a balance stays where it is. -/
theorem Validator.followBalance_followBalance (c : Constants) (downward upward : Gwei)
    (v : Validator) (balance : Gwei) :
    (v.followBalance c downward upward balance).followBalance c downward upward balance
      = v.followBalance c downward upward balance := by
  by_cases hfar : Word.addSat balance downward < v.effectiveBalance ∨
      Word.addSat v.effectiveBalance upward < balance
  · -- It has been set anew, and would be set to the same again.
    rw [followBalance.eq_def c downward upward v, if_pos hfar]
    unfold followBalance
    exact ite_self _
  · have hstays : v.followBalance c downward upward balance = v := if_neg hfar
    rw [hstays, hstays]

/-! ## The registry -/

/-- Where five quarters of an increment are no word, nothing is updated. -/
theorem updateEffectiveBalances_eq_fault
    (hvast : Word.limit ≤ c.effectiveBalanceIncrement / 4 * 5) :
    updateEffectiveBalances c s = .error (.fault .overflow) := by
  rw [updateEffectiveBalances, Word.mul_eq_fault.2 ⟨hvast, rfl⟩]
  rfl

theorem ChainState.getElem?_withFollowed_of_some {i : ValidatorIndex} {v : Validator}
    {balance : Gwei} (hv : s.validators[i]? = some v) (hbalance : s.balances[i]? = some balance) :
    (s.withFollowed c).validators[i]? =
      some (v.followBalance c (c.effectiveBalanceIncrement / 4)
        (c.effectiveBalanceIncrement / 4 * 5) balance) := by
  rw [getElem?_withFollowed, hv, hbalance]
  rfl

theorem ChainState.size_withFollowed (c : Constants) (s : ChainState) :
    (s.withFollowed c).validators.size = s.validators.size :=
  Array.size_mapIdx

theorem ChainState.withFollowed_withFollowed (c : Constants) (s : ChainState) :
    (s.withFollowed c).withFollowed c = s.withFollowed c := by
  have hvalidators : ((s.withFollowed c).withFollowed c).validators
      = (s.withFollowed c).validators := by
    refine Array.ext_getElem? fun i => ?_
    rw [getElem?_withFollowed, getElem?_withFollowed, Option.map_map]
    refine congrArg (Option.map · s.validators[i]?) (funext fun v => ?_)
    show (s.balances[i]?).elim _ _ = _
    cases hbalance : s.balances[i]? with
    | none => rfl
    | some balance => exact v.followBalance_followBalance c _ _ balance
  show { s.withFollowed c with validators := ((s.withFollowed c).withFollowed c).validators } = _
  rw [hvalidators]

/-- Once a boundary has been processed, every effective balance tracks the real one. -/
theorem processEpoch_staysNear {summary : EpochSummary} (hpositive : 0 < c.effectiveBalanceIncrement)
    (hquarters : 4 ∣ c.effectiveBalanceIncrement)
    (hprocess : processEpoch c s = .ok (summary, s')) {i : ValidatorIndex} {v : Validator}
    (hv : s'.validators[i]? = some v) :
    ∃ balance, s'.balances[i]? = some balance ∧ StaysNear c v.effectiveBalance balance := by
  have hsizes := (processEpoch_frame hprocess).sizes'
  obtain ⟨-, -, s₂, s₃, -, -, hupdate, rfl⟩ := processEpoch_eq_ok.1 hprocess
  obtain ⟨-, rfl⟩ := updateEffectiveBalances_eq_ok.1 hupdate
  have hplace := (Array.getElem?_eq_some_iff.1 hv).1
  have hbalance := Array.getElem?_eq_getElem (hsizes ▸ hplace)
  refine ⟨_, hbalance, ?_⟩
  obtain ⟨w, hw⟩ : ∃ w, (activateValidators c (s.currentEpoch c) s₂).validators[i]? = some w :=
    ⟨_, Array.getElem?_eq_getElem (by simpa [ChainState.size_withFollowed] using hplace)⟩
  rw [ChainState.settled_validators, ChainState.getElem?_withFollowed_of_some hw hbalance] at hv
  obtain rfl := Option.some.inj hv
  exact w.staysNear_followBalance hpositive hquarters _

/-! ## The theorem -/

/-- **Effective balances track real balances.** For an increment of whole quarters, on a state with
    as many balances as validators, the update gives a state exactly if five quarters of an
    increment are a word, and overflows else. Then every effective balance tracks the real one,
    nothing but effective balances has changed, and a second update changes nothing. -/
theorem effective_balances_track (hpositive : 0 < c.effectiveBalanceIncrement)
    (hquarters : 4 ∣ c.effectiveBalanceIncrement) (hsizes : s.validators.size = s.balances.size) :
    (c.effectiveBalanceIncrement / 4 * 5 < Word.limit →
      ∃ s', updateEffectiveBalances c s = .ok s' ∧
        (∀ (i : ValidatorIndex) (v : Validator), s.validators[i]? = some v →
          ∃ balance effective, s.balances[i]? = some balance ∧
            s'.validators[i]? = some { v with effectiveBalance := effective } ∧
            effective ≤ balance + c.effectiveBalanceIncrement / 4 ∧
            (balance ≤ effective + 5 * (c.effectiveBalanceIncrement / 4) ∨
              effective = c.maxEffectiveBalance)) ∧
        s' = { s with validators := s'.validators } ∧
        s'.validators.size = s.validators.size ∧
        updateEffectiveBalances c s' = .ok s') ∧
    (Word.limit ≤ c.effectiveBalanceIncrement / 4 * 5 →
      updateEffectiveBalances c s = .error (.fault .overflow)) := by
  refine ⟨fun hfits => ⟨s.withFollowed c, updateEffectiveBalances_eq_ok.2 ⟨hfits, rfl⟩, ?_, rfl,
    s.size_withFollowed c, ?_⟩, updateEffectiveBalances_eq_fault⟩
  · intro i v hv
    have hplace : i < s.balances.size := hsizes ▸ (Array.getElem?_eq_some_iff.1 hv).1
    have hbalance : s.balances[i]? = some s.balances[i] := Array.getElem?_eq_getElem hplace
    have hnear := v.staysNear_followBalance hpositive hquarters s.balances[i]
    refine ⟨_, _, hbalance, ?_, hnear.le_balance, hnear.balance_le⟩
    rw [ChainState.getElem?_withFollowed_of_some hv hbalance, ← Validator.followBalance_eq]
  · exact updateEffectiveBalances_eq_ok.2 ⟨hfits, (s.withFollowed_withFollowed c).symm⟩

/-- Constants with an increment of four. -/
def Constants.fours : Constants :=
  { Constants.minimal with maxEffectiveBalance := 32, effectiveBalanceIncrement := 4 }

/-- Four records around the thresholds of an increment of four: one a little too high, one a little
    too low, one above the maximum but near its balance, and one far below what the maximum lets it
    reach. -/
def ChainState.wavering : ChainState where
  validators := #[{ effectiveBalance := 8 }, { effectiveBalance := 8 }, { effectiveBalance := 40 },
    { effectiveBalance := 8 }]
  balances := #[6, 14, 39, 1000]

/-- The first two records follow, the third stays, the last is cut off. -/
theorem effective_balances_track_wavering :
    ∃ s, updateEffectiveBalances Constants.fours ChainState.wavering = .ok s ∧
      s.validators.toList.map (·.effectiveBalance) = [4, 12, 40, 32] ∧
      s = { ChainState.wavering with validators := s.validators } ∧
      updateEffectiveBalances Constants.fours s = .ok s := by
  obtain ⟨s, hupdate, -, hframe, -, hagain⟩ :=
    (effective_balances_track (c := .fours) (s := .wavering) (by decide) (by decide) rfl).1
      (by decide)
  refine ⟨s, hupdate, ?_, hframe, hagain⟩
  rw [(updateEffectiveBalances_eq_ok.1 hupdate).2, ChainState.withFollowed, Array.toList_mapIdx]
  decide

/-- Constants with the largest increment of whole quarters. -/
def Constants.vast : Constants :=
  { Constants.minimal with
    maxEffectiveBalance := 18446744073709551612
    effectiveBalanceIncrement := 18446744073709551612 }

/-- One validator whose balance and effective balance are one increment. -/
def ChainState.vast : ChainState :=
  { validators := #[.genesis (Bytes.zero 48) 18446744073709551612]
    balances := #[18446744073709551612] }

/-- These constants pass the check, but there is no update under them: five quarters of the
    increment are no word. -/
theorem effective_balances_stop_vast :
    Constants.vast.Valid ∧ 0 < Constants.vast.effectiveBalanceIncrement ∧
      4 ∣ Constants.vast.effectiveBalanceIncrement ∧
      ChainState.vast.validators.size = ChainState.vast.balances.size ∧
      updateEffectiveBalances Constants.vast ChainState.vast = .error (.fault .overflow) := by
  refine ⟨by decide, by decide, by decide, rfl, ?_⟩
  exact updateEffectiveBalances_eq_fault (by decide)

end Beacon
