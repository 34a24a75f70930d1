import Mathlib
import Beacon.Proofs.Transition.Committees
import Beacon.Proofs.Transition.Runs

set_option autoImplicit false

/-! # Pending attestations keep their committees

An attestation is included only if it names a committee of its epoch (`checkAttestation_seated`),
and which committees there are depends on the size of the active set of that epoch alone. That set
stays as it is until the attestation has been settled, so every pending attestation of a reachable
state is still `Seated`. `Coherent` collects what a state needs for its next epoch boundary: rings
and registry of the right sizes, and seats for all pending attestations. -/

namespace Beacon

variable {c : Constants} {e : Engine} {s s' : ChainState} {epoch : Epoch}

/-! ## Seats -/

/-- The attestation is one of `epoch`, and names a committee that this epoch has in the state. -/
structure Seated (c : Constants) (s : ChainState) (epoch : Epoch) (data : AttestationData) :
    Prop where
  target : data.target.epoch = epoch
  slot : c.epochAt data.slot = epoch
  comes : epoch < farFuture
  active : s.activeIndices epoch ≠ []
  index : data.index < c.committeesPerSlot (s.activeIndices epoch).length

theorem Seated.congr {data : AttestationData} (h : Seated c s epoch data)
    (hactive : s'.activeIndices epoch = s.activeIndices epoch) : Seated c s' epoch data :=
  ⟨h.target, h.slot, h.comes, hactive ▸ h.active, hactive ▸ h.index⟩

/-- An attestation that may be included is seated, in the epoch of the state or the one before. -/
theorem checkAttestation_seated {a : Attestation} (h : checkAttestation c s a = .ok ()) :
    Seated c s a.data.target.epoch a.data ∧
      (a.data.target.epoch = s.currentEpoch c ∨ a.data.target.epoch + 1 = s.currentEpoch c) := by
  obtain ⟨committees, hmay⟩ := checkAttestation_eq_ok.1 h
  obtain ⟨seed, hseed, hactive, -, rfl⟩ := committeesOf_eq_ok.1 hmay.committees_eq
  have hepoch := hmay.epoch
  refine ⟨⟨rfl, hmay.slot.symm, ?_, hactive, hmay.index⟩, by lia⟩
  simp only [seedOf, Attempt.bind_eq_ok] at hseed
  obtain ⟨_, hwindow, -⟩ := hseed
  have hfits := (checkWindow_eq_ok.1 hwindow).1
  simp only [farFuture, Word.max]
  lia

/-! ## Coherent states -/

/-- What a state needs for its next boundary. -/
structure Coherent (c : Constants) (s : ChainState) : Prop where
  rings : RingsFit c s
  sizes : s.validators.size = s.balances.size
  current : ∀ a ∈ s.currentEpochAttestations, Seated c s (s.currentEpoch c) a.data
  previous : ∀ a ∈ s.previousEpochAttestations,
    ∃ epoch, epoch + 1 = s.currentEpoch c ∧ Seated c s epoch a.data

theorem coherent_genesis (c : Constants) (time : Nat) (validators : List Validator)
    (data : ExternalData) (fork : Fork) :
    Coherent c (ChainState.genesis c time validators data fork) := by
  refine ⟨ringsFit_genesis .., ?_, ?_, ?_⟩ <;> simp [ChainState.genesis]

/-- A state with the same pending attestations and active sets in the same epoch. -/
theorem Coherent.congr (h : Coherent c s) (hrings : RingsFit c s')
    (hsizes : s'.validators.size = s'.balances.size) (hepoch : s'.currentEpoch c = s.currentEpoch c)
    (hcurrent : s'.currentEpochAttestations = s.currentEpochAttestations)
    (hprevious : s'.previousEpochAttestations = s.previousEpochAttestations)
    (hactive : SameActive (s.currentEpoch c) s s') : Coherent c s' := by
  refine ⟨hrings, hsizes, ?_, ?_⟩
  · intro a ha
    have hseat := h.current a (hcurrent ▸ ha)
    exact hepoch ▸ hseat.congr (hactive _ le_rfl hseat.comes)
  · intro a ha
    obtain ⟨epoch, hnext, hseat⟩ := h.previous a (hprevious ▸ ha)
    exact ⟨epoch, hnext.trans hepoch.symm, hseat.congr (hactive _ (by lia) hseat.comes)⟩

/-! ## Slots keep coherence -/

/-- At a boundary the attestations of the epoch that ends become those of the previous one. -/
theorem Coherent.step (h : Coherent c s) (hstep : Engine.step c s = .ok s') : Coherent c s' := by
  have hfit := (step_frame hstep).ringsFit
  rcases step_cases hstep with ⟨hstart, summary, hprocess⟩ | ⟨hstart, rfl⟩
  · have hframe := processEpoch_frame hprocess
    have hepoch : s'.currentEpoch c = s.currentEpoch c + 1 := by
      rw [ChainState.currentEpoch, hframe.slot]
      exact Constants.epochAt_succ_of_start hstart
    refine ⟨hfit, hframe.sizes', ?_, ?_⟩
    · -- No attestation of the epoch that begins has been included yet.
      rw [hframe.current]
      simp
    · -- The set of the epoch that ends is one of those that a boundary keeps.
      rw [hframe.previous]
      intro a ha
      have hseat : Seated c s (s.currentEpoch c) a.data := h.current a ha
      refine ⟨s.currentEpoch c, hepoch.symm, hseat.congr ?_⟩
      refine hframe.active _ ?_ hseat.comes
      exact (Constants.epochAt_mono (Nat.le_succ s.slot)).trans (Nat.le_succ _)
  · exact h.congr hfit h.sizes (Constants.epochAt_succ_of_not_start hstart) rfl rfl
      (SameActive.of_validators_eq rfl)

/-! ## Blocks keep coherence -/

/-- Opening a block touches neither the registry nor the pending attestations. -/
theorem Coherent.opened (h : Coherent c s) (b : CandidateBlock) : Coherent c (s.opened c b) := by
  refine h.congr ⟨h.rings.blockRoots, ?_⟩ h.sizes rfl rfl rfl (SameActive.of_validators_eq rfl)
  simpa using h.rings.randaoMixes

theorem OperationFrame.ringsFit (h : OperationFrame c s s') (hfit : RingsFit c s) :
    RingsFit c s' :=
  ⟨h.blockRoots ▸ hfit.blockRoots, h.randaoMixes ▸ hfit.randaoMixes⟩

theorem Coherent.operation (h : Coherent c s) (hframe : OperationFrame c s s')
    (hcurrent : s'.currentEpochAttestations = s.currentEpochAttestations)
    (hprevious : s'.previousEpochAttestations = s.previousEpochAttestations) : Coherent c s' :=
  h.congr (hframe.ringsFit h.rings) (hframe.sizes h.sizes) hframe.currentEpoch hcurrent hprevious
    (hframe.active.mono (Nat.le_succ _))

/-- A recorded attestation joins the list of the epoch in which it is seated. -/
theorem Coherent.applyAttestation {proposer : ValidatorIndex} {a : Attestation} (h : Coherent c s)
    (happly : applyAttestation c proposer s a = .ok s') : Coherent c s' := by
  obtain ⟨hcheck, -, rfl⟩ := applyAttestation_eq_ok.1 happly
  obtain ⟨hseat, hepoch⟩ := checkAttestation_seated hcheck
  unfold ChainState.recording
  split
  · next htarget =>
      refine ⟨⟨h.rings.blockRoots, h.rings.randaoMixes⟩, h.sizes, ?_, ?_⟩
      · intro pending hpending
        rcases List.mem_append.1 hpending with hold | hnew
        · exact (h.current pending hold).congr rfl
        · obtain rfl := List.mem_singleton.1 hnew
          exact htarget ▸ hseat.congr rfl
      · intro pending hpending
        obtain ⟨epoch, hnext, hseat'⟩ := h.previous pending hpending
        exact ⟨epoch, hnext, hseat'.congr rfl⟩
  · next htarget =>
      refine ⟨⟨h.rings.blockRoots, h.rings.randaoMixes⟩, h.sizes, ?_, ?_⟩
      · exact fun pending hpending => (h.current pending hpending).congr rfl
      · intro pending hpending
        rcases List.mem_append.1 hpending with hold | hnew
        · obtain ⟨epoch, hnext, hseat'⟩ := h.previous pending hold
          exact ⟨epoch, hnext, hseat'.congr rfl⟩
        · obtain rfl := List.mem_singleton.1 hnew
          exact ⟨_, hepoch.resolve_left htarget, hseat.congr rfl⟩

theorem Coherent.processBlock (h : Coherent c s) (hc : c.Consistent) {b : CandidateBlock}
    (hblock : processBlock c s b = .ok s') : Coherent c s' := by
  obtain ⟨-, -, -, -, hops⟩ := (processBlock_eq_ok hc).1 hblock
  refine applyOperations_invariant (P := Coherent c) ?_ ?_ ?_ (h.opened b) hops
  · intro evidence t t' ht happly
    have hframe := applySlashing_frame happly
    obtain ⟨index, v, balance, -, -, -, -, rfl⟩ := applySlashing_eq_ok.1 happly
    exact ht.operation hframe rfl rfl
  · exact fun a t t' ht happly => ht.applyAttestation happly
  · intro d t t' ht happly
    have hframe := applyDeposit_frame happly
    obtain ⟨-, -, ⟨index, balance, -, -, rfl⟩ | ⟨-, rfl⟩⟩ := applyDeposit_eq_ok.1 happly
    · exact ht.operation hframe rfl rfl
    · exact ht.operation hframe rfl rfl

/-! ## Reachable states are coherent -/

theorem Engine.Reachable.coherent (h : e.Reachable s) : Coherent e.constants s := by
  obtain ⟨time, validators, data, fork, hrun⟩ := h
  refine hrun.invariant (fun t t' ht hmove => ?_) (coherent_genesis ..)
  cases hmove with
  | step hstep => exact ht.step hstep
  | block b hb => exact ht.processBlock e.consistent (applyBlock_eq_ok.1 hb).1

end Beacon
