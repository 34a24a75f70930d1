import Mathlib
import Beacon.Proofs.Constants

set_option autoImplicit false

/-! # Active sets under changes of the registry

The active set of an epoch is a filter over the places of the registry (`activeIndices_eq_filter`),
so it depends on the registry only place by place, and places past its end do not count. What an
operation decides during an epoch takes effect two epochs later: a slashed validator stays active
for the next epoch, and a newly activated or deposited one is not active before the one after it.
`SameActive n s s'` says that the active sets of all epochs up to `n` agree. -/

namespace Beacon

/-! ## The active set as a filter -/

/-- Whether the validator at a place of the registry is active at an epoch. -/
def ChainState.isActive (s : ChainState) (epoch : Epoch) (i : ValidatorIndex) : Bool :=
  s.validators[i]?.any (·.isActiveAt epoch)

private theorem zipIdx_filter_map {α : Type} (p : α → Bool) (xs : List α) :
    (xs.zipIdx.filter fun q => p q.1).map (·.2)
      = (List.range xs.length).filter fun i => xs[i]?.any p := by
  induction xs using List.reverseRecOn with
  | nil => rfl
  | append_singleton xs x ih =>
      have hrest : (List.range xs.length).filter (fun i => (xs ++ [x])[i]?.any p)
          = (List.range xs.length).filter fun i => xs[i]?.any p := by
        refine List.filter_congr fun i hi => ?_
        rw [List.getElem?_append_left (List.mem_range.1 hi)]
      rw [List.zipIdx_append, List.filter_append, List.map_append, ih, List.length_append,
        List.length_singleton, List.range_succ, List.filter_append, hrest]
      congr 1
      by_cases hx : p x = true <;> simp [hx]

theorem ChainState.activeIndices_eq_filter (s : ChainState) (epoch : Epoch) :
    s.activeIndices epoch = (List.range s.validators.size).filter (s.isActive epoch) := by
  have h := zipIdx_filter_map (fun v : Validator => v.isActiveAt epoch) s.validators.toList
  simp only [Array.getElem?_toList, Array.length_toList] at h
  exact h

theorem ChainState.mem_activeIndices {s : ChainState} {epoch : Epoch} {w : ValidatorIndex} :
    w ∈ s.activeIndices epoch ↔ ∃ v, s.validators[w]? = some v ∧ v.isActiveAt epoch = true := by
  rw [s.activeIndices_eq_filter, List.mem_filter, List.mem_range, ChainState.isActive,
    Option.any_eq_true]
  refine and_iff_right_of_imp fun ⟨v, hv, _⟩ => ?_
  exact (Array.getElem?_eq_some_iff.1 hv).1

theorem ChainState.isActive_eq_false {s : ChainState} {epoch : Epoch} {i : ValidatorIndex}
    (h : s.validators.size ≤ i) : s.isActive epoch i = false := by
  simp [ChainState.isActive, h]

/-- The filter may run over more places than the registry has. -/
theorem ChainState.activeIndices_eq_filter_of_le {s : ChainState} {n : Nat}
    (h : s.validators.size ≤ n) (epoch : Epoch) :
    s.activeIndices epoch = (List.range n).filter (s.isActive epoch) := by
  obtain ⟨k, rfl⟩ := Nat.exists_eq_add_of_le h
  have hpast : ((List.range k).map (s.validators.size + ·)).filter (s.isActive epoch) = [] := by
    rw [List.filter_eq_nil_iff]
    intro i hi
    obtain ⟨j, -, rfl⟩ := List.mem_map.1 hi
    have hfalse : s.isActive epoch (s.validators.size + j) = false :=
      ChainState.isActive_eq_false (Nat.le_add_right _ j)
    simp [hfalse]
  rw [List.range_add, List.filter_append, hpast, List.append_nil, s.activeIndices_eq_filter]

/-- Registries that agree place by place on who is active have the same active set. -/
theorem ChainState.activeIndices_congr {s s' : ChainState} {epoch : Epoch}
    (h : ∀ i, s'.isActive epoch i = s.isActive epoch i) :
    s'.activeIndices epoch = s.activeIndices epoch := by
  rw [activeIndices_eq_filter_of_le (Nat.le_max_left s'.validators.size s.validators.size),
    activeIndices_eq_filter_of_le (Nat.le_max_right s'.validators.size s.validators.size),
    funext h]

theorem ChainState.length_activeIndices_le (s : ChainState) (epoch : Epoch) :
    (s.activeIndices epoch).length ≤ s.validators.size := by
  rw [activeIndices_eq_filter]
  exact (List.length_filter_le _ _).trans_eq List.length_range

/-! ## States with the same active sets -/

/-- The active sets of all epochs up to `n` that ever come are the same. -/
def SameActive (n : Epoch) (s s' : ChainState) : Prop :=
  ∀ epoch, epoch ≤ n → epoch < farFuture → s'.activeIndices epoch = s.activeIndices epoch

namespace SameActive

variable {n m : Epoch} {s s' s'' : ChainState}

theorem refl (n : Epoch) (s : ChainState) : SameActive n s s := fun _ _ _ => rfl

theorem trans (h : SameActive n s s') (h' : SameActive n s' s'') : SameActive n s s'' :=
  fun epoch hle hlt => (h' epoch hle hlt).trans (h epoch hle hlt)

theorem mono (hmn : m ≤ n) (h : SameActive n s s') : SameActive m s s' :=
  fun epoch hle hlt => h epoch (hle.trans hmn) hlt

theorem of_isActive
    (h : ∀ epoch, epoch ≤ n → epoch < farFuture → ∀ i, s'.isActive epoch i = s.isActive epoch i) :
    SameActive n s s' :=
  fun epoch hle hlt => ChainState.activeIndices_congr (h epoch hle hlt)

theorem of_validators_eq (h : s'.validators = s.validators) : SameActive n s s' :=
  of_isActive fun _ _ _ _ => by rw [ChainState.isActive, ChainState.isActive, h]

end SameActive

/-! ## Single validators -/

/-- What is decided during an epoch does not take effect up to the next one. -/
theorem lt_activationExitEpoch {current epoch : Epoch} (hle : epoch ≤ current + 1)
    (hlt : epoch < farFuture) : epoch < activationExitEpoch current := by
  simp only [activationExitEpoch, Word.addSat, farFuture] at *
  lia

theorem Validator.isActiveAt_slash (v : Validator) {current withdrawable epoch : Epoch}
    (hle : epoch ≤ current + 1) (hlt : epoch < farFuture) :
    (v.slash current withdrawable).isActiveAt epoch = v.isActiveAt epoch := by
  have hexit := lt_activationExitEpoch hle hlt
  by_cases hfar : v.exitEpoch = farFuture
  · simp [Validator.slash, Validator.isActiveAt, hfar, hexit, hlt]
  · simp [Validator.slash, Validator.isActiveAt, hfar]

theorem Validator.isActiveAt_ofDeposit (c : Constants) (d : DepositData) {current epoch : Epoch}
    (hle : epoch ≤ current + 1) (hlt : epoch < farFuture) :
    (Validator.ofDeposit c current d).isActiveAt epoch = false := by
  have hactivation := lt_activationExitEpoch hle hlt
  have hnot : ¬ (Validator.ofDeposit c current d).activationEpoch ≤ epoch := by
    simp only [Validator.ofDeposit]
    split <;> lia
  simp [Validator.isActiveAt, hnot]

theorem Validator.isActiveAt_activation (v : Validator) {current epoch : Epoch}
    (hfar : v.activationEpoch = farFuture) (hle : epoch ≤ current + 1) (hlt : epoch < farFuture) :
    { v with activationEpoch := activationExitEpoch current }.isActiveAt epoch
      = v.isActiveAt epoch := by
  have hactivation : ¬ activationExitEpoch current ≤ epoch :=
    Nat.not_le_of_lt (lt_activationExitEpoch hle hlt)
  simp [Validator.isActiveAt, hfar, hactivation, Nat.not_le_of_lt hlt]

@[simp] theorem Validator.isActiveAt_followBalance (c : Constants) (downward upward : Gwei)
    (v : Validator) (balance : Gwei) (epoch : Epoch) :
    (v.followBalance c downward upward balance).isActiveAt epoch = v.isActiveAt epoch := by
  unfold Validator.followBalance
  split <;> rfl

end Beacon
