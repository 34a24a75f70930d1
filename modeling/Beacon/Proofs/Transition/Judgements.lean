import Mathlib
import Beacon.Proofs.Transition.Blocks
import Beacon.Proofs.Transition.Committees

set_option autoImplicit false

/-! # Judgements while a block is applied

A proposer judges all operations on the state it builds on, a block applies them one after the
other to states that have changed meanwhile. The judgements agree: an attestation is judged by the
committees of the present and the previous epoch, which neither the block's reveal nor any operation
changes, and the evidence against a proposer by that proposer's own record. So operations that have
been judged well on the first state apply in a row, and deposits do exactly when their indices are
the next ones. -/

namespace Beacon

variable {c : Constants} {s t : ChainState} {epoch : Epoch} {ℓ : Leeway}

/-! ## Attestations -/

/-- The judgement of an attestation reads the slot, the justified checkpoints and the committees of
    two epochs. -/
theorem checkAttestation_congr (hslot : t.slot = s.slot)
    (hcommittees : ∀ epoch, epoch = s.currentEpoch c ∨ epoch = s.currentEpoch c - 1 →
      committeesOf c t epoch = committeesOf c s epoch)
    (hcurrent : t.currentJustified = s.currentJustified)
    (hprevious : t.previousJustified = s.previousJustified) (a : Attestation) :
    checkAttestation c t a = checkAttestation c s a := by
  have hepoch : t.currentEpoch c = s.currentEpoch c := by
    rw [ChainState.currentEpoch, hslot, ChainState.currentEpoch]
  simp only [checkAttestation, hepoch, hslot, hcurrent, hprevious]
  by_cases htarget : a.data.target.epoch = s.currentEpoch c ∨
      a.data.target.epoch = s.currentEpoch c - 1
  · rw [hcommittees _ htarget]
  · rw [Attempt.require, if_neg htarget]
    rfl

/-- No operation changes how attestations are judged. -/
theorem OperationFrame.checkAttestation (h : OperationFrame c s t) (hc : c.Consistent)
    (hcomes : s.currentEpoch c < farFuture) (a : Attestation) :
    checkAttestation c t a = checkAttestation c s a := by
  refine checkAttestation_congr h.slot ?_ h.currentJustified h.previousJustified a
  intro epoch hepoch
  have hle : epoch ≤ s.currentEpoch c := by lia
  have hwindow : checkWindow c t epoch = checkWindow c s epoch := by
    rw [checkWindow, h.currentEpoch, checkWindow]
  have hmix : t.anchorMix? c epoch = s.anchorMix? c epoch := by
    rw [ChainState.anchorMix?, h.randaoMixes, ChainState.anchorMix?]
  exact committeesOf_congr (seedOf_congr hc hwindow hmix)
    (h.active epoch (by lia) (lt_of_le_of_lt hle hcomes))

/-- The reveal goes into the mix of the present slot, which seeds a later epoch. -/
theorem checkAttestation_opened (hc : c.Consistent) (hrings : RingsFit c s) (hpos : 0 < s.slot)
    (hlimit : s.slot < Word.limit) (b : CandidateBlock) (a : Attestation) :
    checkAttestation c (s.opened c b) a = checkAttestation c s a := by
  refine checkAttestation_congr (s := s) (t := s.opened c b) rfl ?_ rfl rfl a
  intro epoch hepoch
  have hwindow : InWindow c s epoch := by
    rw [InWindow]
    lia
  have hround := hwindow.slot_lt_round hc
  have hpast : epoch * c.slotsPerEpoch ≤ s.slot := by
    calc epoch * c.slotsPerEpoch ≤ s.currentEpoch c * c.slotsPerEpoch :=
          Nat.mul_le_mul_right _ (by lia)
      _ ≤ s.slot := Constants.epochAt_mul_le s.slot
  have hstart := lt_of_le_of_lt hpast hlimit
  have hanchor : anchorOf c epoch < s.slot := by
    rw [anchorOf_eq hstart]
    lia
  rw [← anchorOf_eq hstart] at hround
  have hrings' : RingsFit c (s.opened c b) := ⟨hrings.blockRoots, by simpa using hrings.randaoMixes⟩
  have hmix : (s.opened c b).anchorMix? c epoch = s.anchorMix? c epoch :=
    anchorMix?_congr hrings hrings'
      (Array.getElem?_setIfInBounds_ne (place_ne_of_lt_round hanchor hround).symm)
      hc.randaoMixesLength_pos
  exact committeesOf_congr (seedOf_congr hc rfl hmix) rfl

theorem checkAttestation_slot_le {a : Attestation} (h : checkAttestation c s a = .ok ()) :
    a.data.slot ≤ s.slot := by
  obtain ⟨committees, hmay⟩ := checkAttestation_eq_ok.1 h
  exact (Nat.le_add_right _ _).trans hmay.early

/-- An attestation that is judged well names a committee, so that the epoch after the present one is
    still a word. -/
theorem checkAttestation_comes (hc : c.Consistent) {a : Attestation}
    (h : checkAttestation c s a = .ok ()) : s.currentEpoch c < farFuture := by
  obtain ⟨committees, hmay⟩ := checkAttestation_eq_ok.1 h
  obtain ⟨-, hnext, -⟩ := window_of_committeesOf hc hmay.committees_eq
  simp only [farFuture, Word.max, Word.limit] at *
  lia

/-- Attestations that are judged well on one state apply in a row. -/
theorem foldlM_applyAttestation_within (hc : c.Consistent) {proposer : ValidatorIndex}
    {as : List Attestation} (hvalid : ∀ a ∈ as, checkAttestation c s a = .ok ()) :
    (as.foldlM (applyAttestation c proposer) s).Within ℓ := by
  refine Attempt.Within.foldlM (P := fun rest t => OperationFrame c s t ∧
    ∀ a ∈ rest, checkAttestation c s a = .ok ()) ?_ as s ⟨OperationFrame.refl c s, hvalid⟩
  intro a rest t ⟨hframe, hrest⟩
  have hcheck : checkAttestation c s a = .ok () := hrest a (List.mem_cons_self ..)
  rw [← hframe.checkAttestation hc (checkAttestation_comes hc hcheck)] at hcheck
  have happly : applyAttestation c proposer t a = .ok (t.recording c proposer a) :=
    applyAttestation_eq_ok.2 ⟨hcheck, checkAttestation_slot_le hcheck, rfl⟩
  refine ⟨by rw [happly]; trivial, fun t' ht' => ?_⟩
  exact ⟨hframe.trans (applyAttestation_frame ht'), fun b hb => hrest b (List.mem_cons_of_mem _ hb)⟩

theorem applyAttestation_validators {proposer : ValidatorIndex} {a : Attestation}
    (h : applyAttestation c proposer s a = .ok t) : t.validators = s.validators := by
  obtain ⟨-, -, rfl⟩ := applyAttestation_eq_ok.1 h
  unfold ChainState.recording
  split <;> rfl

theorem foldlM_applyAttestation_frame {proposer : ValidatorIndex} {as : List Attestation}
    (h : as.foldlM (applyAttestation c proposer) s = .ok t) :
    OperationFrame c s t ∧ t.depositIndex = s.depositIndex := by
  refine Attempt.foldlM_invariant (P := fun t => OperationFrame c s t ∧
    t.depositIndex = s.depositIndex) ?_ ⟨OperationFrame.refl c s, rfl⟩ h
  intro a t t' ⟨hframe, hindex⟩ ht'
  refine ⟨hframe.trans (applyAttestation_frame ht'), ?_⟩
  obtain ⟨-, -, rfl⟩ := applyAttestation_eq_ok.1 ht'
  rw [← hindex, ChainState.recording]
  split <;> rfl

/-! ## Evidence against proposers -/

/-- The proposer whom a piece of evidence accuses. -/
def ProposerSlashing.accused (x : ProposerSlashing) : ValidatorIndex :=
  x.header1.message.proposerIndex

/-- The judgement of evidence reads the epoch and the record of the accused. -/
theorem checkSlashing_congr {x : ProposerSlashing} (hslot : t.slot = s.slot)
    (hrecord : t.validators[x.accused]? = s.validators[x.accused]?) :
    checkSlashing c t x = checkSlashing c s x := by
  have hepoch : t.currentEpoch c = s.currentEpoch c := by
    rw [ChainState.currentEpoch, hslot, ChainState.currentEpoch]
  rw [ProposerSlashing.accused] at hrecord
  simp only [checkSlashing, hepoch, hrecord]

theorem checkSlashing_accused {x : ProposerSlashing} {index : ValidatorIndex}
    (h : checkSlashing c s x = .ok index) : index = x.accused :=
  (checkSlashing_eq_ok.1 h).2.2.2.1

theorem applySlashing_within {whistleblower : ValidatorIndex} {x : ProposerSlashing}
    (hsizes : s.validators.size = s.balances.size)
    (hfits : ℓ.faults .overflow ∨ s.currentEpoch c + c.minValidatorWithdrawabilityDelay < Word.limit)
    (hholds : ∃ index, checkSlashing c s x = .ok index) :
    (applySlashing c whistleblower s x).Within ℓ := by
  obtain ⟨index, hcheck⟩ := hholds
  obtain ⟨-, -, -, -, v, hv, -⟩ := checkSlashing_eq_ok.1 hcheck
  have hplace : index < s.balances.size := hsizes ▸ (Array.getElem?_eq_some_iff.1 hv).1
  simp only [applySlashing, hcheck, Attempt.ok_bind, hv, Array.getElem?_eq_getElem hplace]
  exact (Word.add_within hfits).lift.bind fun _ _ => trivial

/-- A slashing changes no record but that of the accused. -/
theorem applySlashing_checkSlashing {whistleblower : ValidatorIndex} {x y : ProposerSlashing}
    (h : applySlashing c whistleblower s x = .ok t) (hne : x.accused ≠ y.accused) :
    checkSlashing c t y = checkSlashing c s y := by
  obtain ⟨index, v, balance, hcheck, -, -, -, rfl⟩ := applySlashing_eq_ok.1 h
  obtain rfl := checkSlashing_accused hcheck
  exact checkSlashing_congr rfl (Array.getElem?_setIfInBounds_ne hne)

/-- Pieces of evidence that hold on one state, against different proposers, apply in a row. -/
theorem foldlM_applySlashing_within {whistleblower : ValidatorIndex} {xs : List ProposerSlashing}
    (hsizes : s.validators.size = s.balances.size)
    (hfits : ℓ.faults .overflow ∨ s.currentEpoch c + c.minValidatorWithdrawabilityDelay < Word.limit)
    (hvalid : ∀ x ∈ xs, ∃ index, checkSlashing c s x = .ok index)
    (hdistinct : xs.Pairwise fun x y => x.accused ≠ y.accused) :
    (xs.foldlM (applySlashing c whistleblower) s).Within ℓ := by
  refine Attempt.Within.foldlM (P := fun rest t => OperationFrame c s t ∧
    (rest.Pairwise fun x y => x.accused ≠ y.accused) ∧
    ∀ x ∈ rest, ∃ index, checkSlashing c t x = .ok index) ?_ xs s
    ⟨OperationFrame.refl c s, hdistinct, hvalid⟩
  intro x rest t ⟨hframe, hdistinct, hrest⟩
  obtain ⟨hne, hdistinct⟩ := List.pairwise_cons.1 hdistinct
  refine ⟨applySlashing_within (hframe.sizes hsizes) (by rw [hframe.currentEpoch]; exact hfits)
    (hrest x (List.mem_cons_self ..)), fun t' ht' => ⟨hframe.trans (applySlashing_frame ht'),
    hdistinct, fun y hy => ?_⟩⟩
  -- The others are judged by their own records, which stay as they are.
  rw [applySlashing_checkSlashing ht' (hne y hy)]
  exact hrest y (List.mem_cons_of_mem _ hy)

theorem foldlM_applySlashing_frame {whistleblower : ValidatorIndex} {xs : List ProposerSlashing}
    (h : xs.foldlM (applySlashing c whistleblower) s = .ok t) :
    OperationFrame c s t ∧ t.depositIndex = s.depositIndex := by
  refine Attempt.foldlM_invariant (P := fun t => OperationFrame c s t ∧
    t.depositIndex = s.depositIndex) ?_ ⟨OperationFrame.refl c s, rfl⟩ h
  intro x t t' ⟨hframe, hindex⟩ ht'
  refine ⟨hframe.trans (applySlashing_frame ht'), ?_⟩
  obtain ⟨index, v, balance, -, -, -, -, rfl⟩ := applySlashing_eq_ok.1 ht'
  exact hindex

/-! ## Deposits -/

/-- The next deposit applies. -/
theorem applyDeposit_within {d : Deposit} (hsizes : s.validators.size = s.balances.size)
    (hfits : ℓ.faults .overflow ∨ s.depositIndex + 1 < Word.limit)
    (hindex : d.index = s.depositIndex) :
    (applyDeposit c s d).Within ℓ := by
  refine (Attempt.within_require (Or.inr hindex)).bind fun _ _ => ?_
  refine (Word.add_within hfits).lift.bind fun _ _ => ?_
  cases hkey : s.validatorIndex? d.data.pubkey with
  | none => trivial
  | some index =>
      have hplace : index < s.balances.size := by
        rw [← hsizes, ← Array.length_toList]
        exact (List.findIdx?_eq_some_iff_findIdx_eq.1 hkey).1
      simp only [Array.getElem?_eq_getElem hplace]
      trivial

theorem applyDeposit_depositIndex {d : Deposit} (h : applyDeposit c s d = .ok t) :
    t.depositIndex = s.depositIndex + 1 := by
  obtain ⟨-, -, ⟨index, balance, -, -, rfl⟩ | ⟨-, rfl⟩⟩ := applyDeposit_eq_ok.1 h
  · rfl
  · rfl

/-- Deposits whose indices are the next ones apply in a row. -/
theorem foldlM_applyDeposit_within {ds : List Deposit}
    (hsizes : s.validators.size = s.balances.size)
    (hfits : ℓ.faults .overflow ∨ (ds ≠ [] → s.depositIndex + ds.length < Word.limit))
    (hindices : ds.map (·.index) = List.range' s.depositIndex ds.length) :
    (ds.foldlM (applyDeposit c) s).Within ℓ := by
  induction ds generalizing s with
  | nil => trivial
  | cons d ds ih =>
      simp only [List.map_cons, List.length_cons, List.range'_succ, List.cons.injEq] at hindices
      rw [List.foldlM_cons]
      have hlt := hfits.imp_right fun hfits => hfits (List.cons_ne_nil d ds)
      refine (applyDeposit_within hsizes (hlt.imp_right fun hlt => ?_) hindices.1).bind
        fun u hu => ?_
      · rw [List.length_cons] at hlt
        lia
      · have hnext := applyDeposit_depositIndex hu
        refine ih ((applyDeposit_frame hu).sizes hsizes) (hlt.imp_right fun hlt _ => ?_)
          (hnext ▸ hindices.2)
        rw [List.length_cons] at hlt
        lia

/-- Deposits that apply in a row have the next indices. -/
theorem index_of_foldlM_applyDeposit {ds : List Deposit} (h : ds.foldlM (applyDeposit c) s = .ok t) :
    ds.map (·.index) = List.range' s.depositIndex ds.length := by
  induction ds generalizing s with
  | nil => rfl
  | cons d ds ih =>
      rw [List.foldlM_cons, Attempt.bind_eq_ok] at h
      obtain ⟨u, hu, htail⟩ := h
      rw [List.map_cons, List.length_cons, List.range'_succ, (applyDeposit_eq_ok.1 hu).1, ih htail,
        applyDeposit_depositIndex hu]

end Beacon
