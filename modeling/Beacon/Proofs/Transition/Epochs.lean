import Mathlib
import Beacon.Proofs.Transition.Slots

set_option autoImplicit false

/-! # What an epoch boundary leaves alone

Each of the four parts of `processEpoch` changes a few fields: justification and finalization the
checkpoints and their bits, rewards the balances, activation and effective balances the registry.
`EpochFrame` collects what follows for a whole boundary, `StepFrame` for a slot with the boundary it
may bring. Neither changes who is active up to the epoch after the one that begins. -/

namespace Beacon

variable {c : Constants} {s s' : ChainState}

/-! ## The parts of a boundary -/

theorem justifyAndFinalize_frame {lookup : CommitteeLookup} {ended : Epoch} {summary : EpochSummary}
    (h : justifyAndFinalize c lookup ended s = .ok (summary, s')) :
    s' = { s with
      previousJustified := s'.previousJustified
      currentJustified := s'.currentJustified
      justificationBits := s'.justificationBits
      finalized := s'.finalized } := by
  unfold justifyAndFinalize at h
  split at h
  · simp only [Attempt.pure_eq_ok, Prod.mk.injEq] at h
    obtain ⟨-, rfl⟩ := h
    rfl
  · simp only [Attempt.bind_eq_ok, Attempt.pure_eq_ok, Prod.mk.injEq] at h
    obtain ⟨_, _, _, _, _, _, _, _, _, _, -, rfl⟩ := h
    rfl

theorem deltasOf_length {scale : RewardScale} {p : Participation} {previous : Epoch}
    {deltas : List Delta} (h : deltasOf c s scale p previous = .ok deltas) :
    deltas.length = s.validators.size := by
  have hall := (Attempt.mapM_eq_ok h).length_eq
  rw [List.length_range] at hall
  exact hall.symm

theorem payRewards_frame {lookup : CommitteeLookup} {ended : Epoch}
    (h : payRewards c lookup ended s = .ok s') :
    s' = { s with balances := s'.balances } ∧
      (s.validators.size = s.balances.size → s'.balances.size = s.balances.size) := by
  unfold payRewards at h
  split at h
  · rw [Attempt.pure_eq_ok] at h
    subst h
    exact ⟨rfl, fun _ => rfl⟩
  · simp only [Attempt.bind_eq_ok, Attempt.liftM_eq_ok, Attempt.pure_eq_ok] at h
    obtain ⟨_, _, deltas, hdeltas, rfl⟩ := h
    refine ⟨rfl, fun hsizes => ?_⟩
    simp [deltasOf_length hdeltas, hsizes]

theorem sameActive_activateValidators (epoch : Epoch) :
    SameActive (epoch + 1) s (activateValidators c epoch s) := by
  refine SameActive.of_isActive fun e hle hlt i => ?_
  simp only [ChainState.isActive, activateValidators, Array.getElem?_map]
  cases s.validators[i]? with
  | none => rfl
  | some v =>
      simp only [Option.map_some, Option.any_some]
      split
      · next hv => exact Validator.isActiveAt_activation v hv.1 hle hlt
      · rfl

/-- The state whose effective balances have followed the real ones. -/
def ChainState.withFollowed (c : Constants) (s : ChainState) : ChainState :=
  { s with validators := s.validators.mapIdx fun i v =>
      match s.balances[i]? with
      | some balance => v.followBalance c (c.effectiveBalanceIncrement / 4)
          (c.effectiveBalanceIncrement / 4 * 5) balance
      | none => v }

theorem updateEffectiveBalances_eq_ok :
    updateEffectiveBalances c s = .ok s' ↔
      c.effectiveBalanceIncrement / 4 * 5 < Word.limit ∧ s' = s.withFollowed c := by
  simp only [updateEffectiveBalances, Attempt.bind_eq_ok, Attempt.pure_eq_ok, Word.mul_eq_ok]
  constructor
  · rintro ⟨_, ⟨rfl, hfits⟩, rfl⟩
    exact ⟨hfits, rfl⟩
  · rintro ⟨hfits, rfl⟩
    exact ⟨_, ⟨rfl, hfits⟩, rfl⟩

/-- A record follows the balance at its place, if there is one. -/
theorem ChainState.getElem?_withFollowed (c : Constants) (s : ChainState) (i : ValidatorIndex) :
    (s.withFollowed c).validators[i]? = s.validators[i]?.map fun v =>
      s.balances[i]?.elim v (v.followBalance c (c.effectiveBalanceIncrement / 4)
        (c.effectiveBalanceIncrement / 4 * 5)) := by
  simp only [withFollowed, Array.getElem?_mapIdx]
  cases s.balances[i]? <;> rfl

theorem updateEffectiveBalances_frame (h : updateEffectiveBalances c s = .ok s') :
    s' = { s with validators := s'.validators } ∧ s'.validators.size = s.validators.size ∧
      ∀ epoch i, s'.isActive epoch i = s.isActive epoch i := by
  obtain ⟨-, rfl⟩ := updateEffectiveBalances_eq_ok.1 h
  refine ⟨rfl, Array.size_mapIdx, fun epoch i => ?_⟩
  rw [ChainState.isActive, ChainState.getElem?_withFollowed, ChainState.isActive]
  cases s.validators[i]? with
  | none => rfl
  | some v => cases s.balances[i]? <;> simp

/-! ## The boundary -/

/-- The state after its epoch has been settled, from the one with settled stakes. -/
@[simps] def ChainState.settled (c : Constants) (s stakes : ChainState) : ChainState :=
  { stakes with
    previousEpochAttestations := stakes.currentEpochAttestations
    currentEpochAttestations := []
    externalDataVotes :=
      if s.currentEpoch c % c.epochsPerVotingPeriod = 0 then [] else stakes.externalDataVotes }

/-- A boundary with its parts, one after the other. -/
theorem processEpoch_eq_ok {summary : EpochSummary} :
    processEpoch c s = .ok (summary, s') ↔
      s.validators.size = s.balances.size ∧ ∃ s₁ s₂ s₃,
        justifyAndFinalize c (committeesOf c s) (s.currentEpoch c - 1) s = .ok (summary, s₁) ∧
        payRewards c (committeesOf c s) (s.currentEpoch c - 1) s₁ = .ok s₂ ∧
        updateEffectiveBalances c (activateValidators c (s.currentEpoch c) s₂) = .ok s₃ ∧
        s' = s.settled c s₃ := by
  have hlookup : committeeLookup c s (s.currentEpoch c - 1) = committeesOf c s :=
    funext (committeeLookup_eq c s _)
  simp only [processEpoch, hlookup, Attempt.bind_eq_ok, Attempt.require_eq_ok, Attempt.liftM_eq_ok,
    Attempt.pure_eq_ok, Prod.exists, Prod.mk.injEq]
  constructor
  · rintro ⟨_, hsizes, _, s₁, hjustify, s₂, hpay, s₃, heffective, rfl, rfl⟩
    exact ⟨hsizes, s₁, s₂, s₃, hjustify, hpay, heffective, rfl⟩
  · rintro ⟨hsizes, s₁, s₂, s₃, hjustify, hpay, heffective, rfl⟩
    exact ⟨(), hsizes, summary, s₁, hjustify, s₂, hpay, s₃, heffective, rfl, rfl⟩

/-- What a boundary leaves alone, and what becomes of the pending attestations. -/
structure EpochFrame (c : Constants) (s s' : ChainState) : Prop where
  sizes : s.validators.size = s.balances.size
  sizes' : s'.validators.size = s'.balances.size
  slot : s'.slot = s.slot
  latestBlockHeader : s'.latestBlockHeader = s.latestBlockHeader
  blockRoots : s'.blockRoots = s.blockRoots
  randaoMixes : s'.randaoMixes = s.randaoMixes
  externalData : s'.externalData = s.externalData
  externalDataVotes : s'.externalDataVotes ⊆ s.externalDataVotes
  previous : s'.previousEpochAttestations = s.currentEpochAttestations
  current : s'.currentEpochAttestations = []
  active : SameActive (s.currentEpoch c + 1) s s'

theorem processEpoch_frame {summary : EpochSummary} (h : processEpoch c s = .ok (summary, s')) :
    EpochFrame c s s' := by
  obtain ⟨hsizes, s₁, s₂, s₃, hjustify, hpay, heffective, rfl⟩ := processEpoch_eq_ok.1 h
  -- What each part leaves alone, in the order in which they run.
  have h₁ := justifyAndFinalize_frame hjustify
  obtain ⟨h₂, hbalances⟩ := payRewards_frame hpay
  obtain ⟨h₃, hsize₃, hactive₃⟩ := updateEffectiveBalances_frame heffective
  have hvalidators : s₂.validators = s.validators := by rw [h₂, h₁]
  have hbalances₂ : s₂.balances.size = s.balances.size := by
    rw [hbalances (by rw [h₁]; exact hsizes), h₁]
  have hactive : SameActive (s.currentEpoch c + 1) s s₃ :=
    (SameActive.of_validators_eq hvalidators).trans
      ((sameActive_activateValidators _).trans (SameActive.of_isActive fun e _ _ => hactive₃ e))
  refine ⟨hsizes, ?_, ?_, ?_, ?_, ?_, ?_, ?_, ?_, rfl, hactive⟩
  · show s₃.validators.size = s₃.balances.size
    rw [hsize₃, h₃]
    simp [activateValidators, hvalidators, hbalances₂, hsizes]
  · show s₃.slot = s.slot
    rw [h₃, activateValidators, h₂, h₁]
  · show s₃.latestBlockHeader = s.latestBlockHeader
    rw [h₃, activateValidators, h₂, h₁]
  · show s₃.blockRoots = s.blockRoots
    rw [h₃, activateValidators, h₂, h₁]
  · show s₃.randaoMixes = s.randaoMixes
    rw [h₃, activateValidators, h₂, h₁]
  · show s₃.externalData = s.externalData
    rw [h₃, activateValidators, h₂, h₁]
  · -- The votes start afresh, or are those of the state before.
    have hvotes : s₃.externalDataVotes = s.externalDataVotes := by
      rw [h₃, activateValidators, h₂, h₁]
    rw [ChainState.settled_externalDataVotes]
    split
    · exact List.nil_subset _
    · rw [hvotes]
      exact List.Subset.refl _
  · show s₃.currentEpochAttestations = s.currentEpochAttestations
    rw [h₃, activateValidators, h₂, h₁]

/-! ## A slot with its boundary -/

theorem step_eq_ok :
    Engine.step c s = .ok s' ↔
      RingsFit c s ∧ s.slot + 1 < Word.limit ∧
        if c.isEpochStart (s.slot + 1) then
          ∃ summary, processEpoch c (s.atNextSlot c) = .ok (summary, s')
        else s' = s.atNextSlot c := by
  simp only [Engine.step, Attempt.bind_eq_ok, Attempt.widen_eq_ok, nextSlot_eq_ok]
  by_cases hstart : c.isEpochStart (s.slot + 1) = true
  · rw [if_pos hstart]
    constructor
    · rintro ⟨_, ⟨hrings, hlt, rfl⟩, h⟩
      simp only [ChainState.atNextSlot_slot, if_pos hstart, Attempt.bind_eq_ok,
        Attempt.widen_eq_ok, Attempt.pure_eq_ok, Prod.exists] at h
      obtain ⟨summary, t, ht, rfl⟩ := h
      exact ⟨hrings, hlt, summary, ht⟩
    · rintro ⟨hrings, hlt, summary, ht⟩
      refine ⟨s.atNextSlot c, ⟨hrings, hlt, rfl⟩, ?_⟩
      simp only [ChainState.atNextSlot_slot, if_pos hstart, Attempt.bind_eq_ok,
        Attempt.widen_eq_ok, Attempt.pure_eq_ok, Prod.exists]
      exact ⟨summary, s', ht, rfl⟩
  · rw [if_neg hstart]
    constructor
    · rintro ⟨_, ⟨hrings, hlt, rfl⟩, h⟩
      rw [ChainState.atNextSlot_slot, if_neg hstart, Attempt.pure_eq_ok] at h
      exact ⟨hrings, hlt, h.symm⟩
    · rintro ⟨hrings, hlt, rfl⟩
      refine ⟨s.atNextSlot c, ⟨hrings, hlt, rfl⟩, ?_⟩
      rw [ChainState.atNextSlot_slot, if_neg hstart, Attempt.pure_eq_ok]

/-- Either a slot starts an epoch, and the epoch that ends with it is processed, or it is only
    entered. -/
theorem step_cases (h : Engine.step c s = .ok s') :
    (c.isEpochStart (s.slot + 1) = true ∧
      ∃ summary, processEpoch c (s.atNextSlot c) = .ok (summary, s')) ∨
    (¬ c.isEpochStart (s.slot + 1) = true ∧ s' = s.atNextSlot c) := by
  obtain ⟨-, -, h⟩ := step_eq_ok.1 h
  by_cases hstart : c.isEpochStart (s.slot + 1) = true
  · rw [if_pos hstart] at h
    exact Or.inl ⟨hstart, h⟩
  · rw [if_neg hstart] at h
    exact Or.inr ⟨hstart, h⟩

/-- What a slot changes and what it leaves alone. -/
structure StepFrame (c : Constants) (s s' : ChainState) : Prop where
  rings : RingsFit c s
  slot : s'.slot = s.slot + 1
  slot_lt : s'.slot < Word.limit
  latestBlockHeader : s'.latestBlockHeader = s.filledHeader
  blockRoots : s'.blockRoots = (s.atNextSlot c).blockRoots
  randaoMixes : s'.randaoMixes = (s.atNextSlot c).randaoMixes
  externalData : s'.externalData = s.externalData
  externalDataVotes : s'.externalDataVotes ⊆ s.externalDataVotes
  active : SameActive (s'.currentEpoch c + 1) s s'

theorem step_frame (h : Engine.step c s = .ok s') : StepFrame c s s' := by
  obtain ⟨hrings, hlt, -⟩ := step_eq_ok.1 h
  rcases step_cases h with ⟨-, summary, hprocess⟩ | ⟨-, rfl⟩
  · have hframe := processEpoch_frame hprocess
    refine ⟨hrings, hframe.slot, ?_, hframe.latestBlockHeader, hframe.blockRoots,
      hframe.randaoMixes, hframe.externalData, hframe.externalDataVotes, ?_⟩
    · rw [hframe.slot]
      exact hlt
    · rw [show s'.currentEpoch c = (s.atNextSlot c).currentEpoch c by
        rw [ChainState.currentEpoch, hframe.slot, ChainState.currentEpoch]]
      exact (SameActive.of_validators_eq rfl).trans hframe.active
  · exact ⟨hrings, rfl, hlt, rfl, rfl, rfl, rfl, List.Subset.refl _,
      SameActive.of_validators_eq rfl⟩

theorem StepFrame.ringsFit (h : StepFrame c s s') : RingsFit c s' := by
  have hfit := h.rings.atNextSlot
  exact ⟨by rw [h.blockRoots]; exact hfit.blockRoots, by rw [h.randaoMixes]; exact hfit.randaoMixes⟩

end Beacon
