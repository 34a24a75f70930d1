import Mathlib
import Beacon.Proofs.Transition.MachineForms

set_option autoImplicit false

/-! # Applying a block never faults

A block is refused or applied on every state of moderate size, however its rings, balances, epochs
and checkpoints look: what stands in the block is a reason to refuse it at worst. Each part of
`processBlock` is within the leeway of a refusal; the slot and the size of the registry, on which all
bounds rest, are kept by evidence and attestations, and deposits cannot run past the count in force.
The states on which header, evidence and attestations are judged (`CandidateBlock.Meets`) keep all
quotients and positions in their domains, too (`InDomain`). -/

namespace Beacon

variable {c : Constants} {e : Engine} {s t : ChainState} {b : CandidateBlock}

/-! ## Header, reveal and vote -/

theorem checkRings_refusal (c : Constants) (s : ChainState) : (checkRings c s).Within .refusal :=
  Attempt.refusal_require.bind fun _ _ => Attempt.refusal_require

/-- The proposer is looked up for the slot of the state, since the block has been compared with it
    before. -/
theorem checkHeader_refusal (hc : c.Consistent) (hmoderate : Moderate c s) (b : CandidateBlock) :
    (checkHeader c s b).Within .refusal := by
  refine Attempt.refusal_require.bind fun _ hslot => ?_
  refine Attempt.refusal_require.bind fun _ _ => ?_
  rw [Attempt.require_eq_ok] at hslot
  have hepoch := hmoderate.currentEpoch_le
  have hfits : c.epochAt b.slot + 2 < Word.limit ∧ s.currentEpoch c + 1 < Word.limit := by
    rw [hslot]
    simp only [ChainState.currentEpoch, horizon, Word.limit] at *
    lia
  refine ((proposerOf_within hc (.inr hfits) (.inl trivial)).widen _).bind fun _ _ => ?_
  refine Attempt.refusal_require.bind fun _ _ => ?_
  refine Attempt.refusal_require.bind fun _ _ => ?_
  split
  · trivial
  · exact Attempt.refusal_require.bind fun _ _ => trivial

theorem mixReveal_refusal (c : Constants) (s : ChainState) (reveal : Signature) :
    (mixReveal c s reveal).Within .refusal := by
  refine Attempt.refusal_require.bind fun _ _ => ?_
  dsimp only
  split <;> trivial

theorem countVote_refusal {vote : ExternalData} (hfits : VoteFits c s vote) :
    (countVote c s vote).Within .refusal := by
  rw [countVote, externalDataAfterVote_eq_ok.2 ⟨hfits, rfl⟩]
  trivial

/-! ## Operations -/

/-- Only the slot and the number of validators count. -/
theorem Moderate.congr (h : Moderate c s) (hslot : t.slot = s.slot)
    (hsize : t.validators.size = s.validators.size) : Moderate c t :=
  ⟨h.slotsPerEpoch_le, h.epochsPerVotingPeriod_le, h.minAttestationInclusionDelay_le,
    h.minValidatorWithdrawabilityDelay_le, hslot.trans_le h.slot_le, hsize.trans_le h.validators_le⟩

theorem Moderate.afterSlashing {whistleblower : ValidatorIndex} {x : ProposerSlashing}
    (h : Moderate c s) (happly : applySlashing c whistleblower s x = .ok t) : Moderate c t := by
  refine h.congr (applySlashing_frame happly).slot ?_
  obtain ⟨index, v, balance, -, -, -, -, rfl⟩ := applySlashing_eq_ok.1 happly
  simp

theorem Moderate.afterAttestation {proposer : ValidatorIndex} {a : Attestation}
    (h : Moderate c s) (happly : applyAttestation c proposer s a = .ok t) : Moderate c t :=
  h.congr (applyAttestation_frame happly).slot
    (congrArg Array.size (applyAttestation_validators happly))

theorem Moderate.afterSlashings {whistleblower : ValidatorIndex} {xs : List ProposerSlashing}
    (h : Moderate c s) (hfold : xs.foldlM (applySlashing c whistleblower) s = .ok t) :
    Moderate c t :=
  Attempt.foldlM_invariant (fun _ _ _ ht => ht.afterSlashing) h hfold

theorem Moderate.afterAttestations {proposer : ValidatorIndex} {as : List Attestation}
    (h : Moderate c s) (hfold : as.foldlM (applyAttestation c proposer) s = .ok t) :
    Moderate c t :=
  Attempt.foldlM_invariant (fun _ _ _ ht => ht.afterAttestation) h hfold

/-- The withdrawable epoch of a slashed validator is a word. -/
theorem applySlashing_refusal {whistleblower : ValidatorIndex} (h : Moderate c s)
    (x : ProposerSlashing) : (applySlashing c whistleblower s x).Within .refusal := by
  have hfits : s.currentEpoch c + c.minValidatorWithdrawabilityDelay < Word.limit := by
    have hepoch := h.currentEpoch_le
    have hdelay := h.minValidatorWithdrawabilityDelay_le
    simp only [horizon, Word.limit] at *
    lia
  refine (checkSlashing_within c s x).bind fun index _ => ?_
  split
  · trivial
  · refine (Word.add_within (.inr hfits)).lift.bind fun _ _ => ?_
    split <;> trivial

/-- An attestation that is judged well is not newer than the state. -/
theorem applyAttestation_refusal {proposer : ValidatorIndex} (hc : c.Consistent) (h : Moderate c s)
    (a : Attestation) : (applyAttestation c proposer s a).Within .refusal := by
  refine ((checkAttestation_within hc trivial (.inr h) a).widen _).bind fun _ hcheck => ?_
  rw [Attempt.widen_eq_ok] at hcheck
  have hdelay : Word.sub s.slot a.data.slot = .ok (s.slot - a.data.slot) :=
    if_pos (checkAttestation_slot_le hcheck)
  rw [hdelay]
  trivial

theorem applyDeposit_refusal (hfits : s.depositIndex + 1 < Word.limit) (d : Deposit) :
    (applyDeposit c s d).Within .refusal := by
  refine Attempt.refusal_require.bind fun _ _ => ?_
  refine (Word.add_within (.inr hfits)).lift.bind fun _ _ => ?_
  split
  · split <;> trivial
  · trivial

/-- The deposits of a block do not run past the count in force. -/
theorem foldlM_applyDeposit_refusal {ds : List Deposit}
    (hfits : ds ≠ [] → s.depositIndex + ds.length < Word.limit) :
    (ds.foldlM (applyDeposit c) s).Within .refusal := by
  refine Attempt.Within.foldlM (P := fun rest t =>
    rest ≠ [] → t.depositIndex + rest.length < Word.limit) ?_ ds s hfits
  intro d rest t ht
  have hlt := ht (List.cons_ne_nil d rest)
  rw [List.length_cons] at hlt
  refine ⟨applyDeposit_refusal (by lia) d, fun t' happly _ => ?_⟩
  rw [applyDeposit_depositIndex happly]
  lia

theorem applyOperations_refusal (hc : c.Consistent) (h : Moderate c s)
    (hcount : s.externalData.depositCount < Word.limit) (b : CandidateBlock) :
    (applyOperations c s b).Within .refusal := by
  refine Attempt.refusal_require.bind fun _ _ => ?_
  refine Attempt.refusal_require.bind fun _ _ => ?_
  refine Attempt.refusal_require.bind fun _ _ => ?_
  refine Attempt.refusal_require.bind fun _ hdue => ?_
  rw [Attempt.require_eq_ok] at hdue
  refine (Attempt.Within.foldlM (P := fun _ => Moderate c) (fun x _ t ht =>
    ⟨applySlashing_refusal ht x, fun t' => ht.afterSlashing⟩) _ s h).bind fun s₁ hs₁ => ?_
  have h₁ := h.afterSlashings hs₁
  refine (Attempt.Within.foldlM (P := fun _ => Moderate c) (fun a _ t ht =>
    ⟨applyAttestation_refusal hc ht a, fun t' => ht.afterAttestation⟩) _ s₁ h₁).bind
      fun s₂ hs₂ => ?_
  refine foldlM_applyDeposit_refusal fun hne => ?_
  rw [(foldlM_applyAttestation_frame hs₂).2, (foldlM_applySlashing_frame hs₁).2]
  have hpos := List.length_pos_of_ne_nil hne
  have hle : b.body.deposits.length ≤ s.externalData.depositCount - s.depositIndex :=
    hdue.trans_le (min_le_left ..)
  lia

/-- The reveal changes the mixes alone. -/
theorem mixReveal_frame {reveal : Signature} (h : mixReveal c s reveal = .ok t) :
    t = { s with randaoMixes := t.randaoMixes } := by
  simp only [mixReveal, Attempt.bind_eq_ok] at h
  obtain ⟨-, -, h⟩ := h
  split at h
  · simp at h
  · rw [Attempt.pure_eq_ok] at h
    rw [← h]

theorem processBlock_refusal (hc : c.Consistent) (h : Moderate c s)
    (hstored : VotesStored s b.body.externalData) : (processBlock c s b).Within .refusal := by
  refine ((checkRings_refusal c s).widen _).bind fun _ _ => ?_
  refine Attempt.refusal_require.bind fun _ _ => ?_
  refine (checkHeader_refusal hc h b).bind fun header _ => ?_
  refine (mixReveal_refusal c _ _).bind fun s₁ hs₁ => ?_
  have hframe := mixReveal_frame hs₁
  have hslot : s₁.slot = s.slot := by rw [hframe]
  have hvalidators : s₁.validators = s.validators := by rw [hframe]
  have hrecord : s₁.externalData = s.externalData := by rw [hframe]
  have hvotes : s₁.externalDataVotes = s.externalDataVotes := by rw [hframe]
  have hfits : VoteFits c s₁ b.body.externalData := by
    have hfits := h.voteFits hstored
    rwa [VoteFits, ← hvotes] at hfits
  refine (countVote_refusal hfits).lift.bind fun s₂ hs₂ => ?_
  rw [Attempt.liftM_eq_ok, countVote, externalDataAfterVote_eq_ok.2 ⟨hfits, rfl⟩, Attempt.ok_bind,
    Attempt.pure_eq_ok] at hs₂
  subst hs₂
  refine applyOperations_refusal hc ?_ ?_ b
  · exact h.congr hslot (congrArg Array.size hvalidators)
  · show (recordAfterVote c s₁ b.body.externalData).depositCount < Word.limit
    unfold recordAfterVote
    split
    · exact hstored.vote
    · exact hrecord ▸ hstored.inForce

/-! ## States that a block meets -/

/-- The states on which the parts of a block are judged: its own for the header, the reveal and the
    vote, and those that each piece of evidence and each attestation finds. Deposits come last, and
    look at no committees. -/
inductive CandidateBlock.Meets (c : Constants) (s : ChainState) (b : CandidateBlock) :
    ChainState → Prop where
  | header : Meets c s b s
  | slashing {done rest : List ProposerSlashing} {t : ChainState}
      (hsplit : done ++ rest = b.body.proposerSlashings)
      (h : done.foldlM (applySlashing c b.proposerIndex) (s.opened c b) = .ok t) : Meets c s b t
  | attestation {done rest : List Attestation} {s₁ t : ChainState}
      (hslashings : b.body.proposerSlashings.foldlM (applySlashing c b.proposerIndex) (s.opened c b)
        = .ok s₁)
      (hsplit : done ++ rest = b.body.attestations)
      (h : done.foldlM (applyAttestation c b.proposerIndex) s₁ = .ok t) : Meets c s b t

theorem Moderate.meets (h : Moderate c s) (hmeets : b.Meets c s t) : Moderate c t := by
  have hopened : Moderate c (s.opened c b) := h.congr rfl rfl
  cases hmeets with
  | header => exact h
  | slashing _ hdone => exact hopened.afterSlashings hdone
  | attestation hslashings _ hdone =>
      exact (hopened.afterSlashings hslashings).afterAttestations hdone

/-! ## The theorem -/

/-- **Applying a block never faults.** On a state of moderate size, however malformed, a block is
    applied or refused as a block, whatever stands in it; no sum, difference or product leaves the
    range on the way. On every state that the block meets, the quotients, remainders, swaps and cuts
    of the transition, and the positions that it reads without a check, are in their domains. -/
theorem applyBlock_never_faults (e : Engine) (s : ChainState) (b : CandidateBlock)
    (hmoderate : Moderate e.constants s) (hstored : VotesStored s b.body.externalData) :
    ((∃ s', e.applyBlock s b = .ok s') ∨
      ∃ cause : BlockError, e.applyBlock s b = .error (.rejected (.block cause))) ∧
    ∀ t, b.Meets e.constants s t → InDomain e.constants t := by
  refine ⟨?_, fun t hmeets => (hmoderate.meets hmeets).inDomain e.consistent⟩
  have hrefusal := processBlock_refusal e.consistent hmoderate hstored
  cases hprocess : processBlock e.constants s b with
  | ok next =>
      by_cases hroot : b.stateRoot = hashRoot next
      · exact .inl ⟨next, applyBlock_eq_ok.2 ⟨hprocess, hroot⟩⟩
      · refine .inr ⟨.stateRootMismatch (hashRoot next) b.stateRoot, ?_⟩
        simp only [Engine.applyBlock, hprocess, Attempt.widen, Attempt.ok_bind, Attempt.require,
          if_neg hroot]
        rfl
  | error failure =>
      rw [hprocess] at hrefusal
      cases failure with
      | rejected cause => exact .inr ⟨cause, by rw [Engine.applyBlock, hprocess]; rfl⟩
      | fault => exact hrefusal.elim

/-- A state without mixes and balances, past all deposits, with checkpoints of the last epoch. -/
def ChainState.torn : ChainState :=
  { ChainState.solo with
    slot := horizon
    randaoMixes := #[]
    balances := #[]
    depositIndex := Word.max
    currentJustified := { epoch := Word.max }
    finalized := { epoch := Word.max } }

/-- A block with the largest numbers is refused on the torn state. -/
theorem applyBlock_never_faults_torn :
    let b : CandidateBlock := { slot := Word.max, proposerIndex := Word.max }
    (∃ cause : BlockError, Engine.tightest.applyBlock ChainState.torn b
      = .error (.rejected (.block cause))) ∧ InDomain Constants.tightest ChainState.torn := by
  intro b
  obtain ⟨houtcome, hmet⟩ := applyBlock_never_faults .tightest ChainState.torn b
    ⟨by decide, by decide, by decide, by decide, by decide, by decide⟩
    ⟨by decide, by decide, by decide⟩
  refine ⟨houtcome.resolve_left ?_, hmet _ .header⟩
  rintro ⟨s', happly⟩
  have hrings := (applyBlock_frame happly).may.rings
  exact absurd hrings.randaoMixes (by decide)

end Beacon
