import Mathlib
import Beacon.Proofs.SoleVoter

set_option autoImplicit false

/-! # Duties are known ahead and do not change

The committees and proposers of an epoch come from the mix of its anchor slot, the last slot two
epochs before, and from its active set. Once no block can be applied at the anchor slot any more
(`Settled`), every move of the chain keeps both: a slot or a block writes the mix of a later slot,
and the ring has room for the slots up to two epochs after the epoch; what a block or a boundary
decides about validators takes effect two epochs later. So all states of a run whose epoch lies in
the window of an epoch give it the same duties (`duties_stable`). -/

namespace Beacon

variable {c : Constants} {e : Engine} {s s' : ChainState} {epoch : Epoch}

/-! ## Settled epochs -/

/-- No block can be applied at the anchor slot of the epoch any more: the slot is over, or its block
    has been applied. -/
def Settled (c : Constants) (s : ChainState) (epoch : Epoch) : Prop :=
  anchorOf c epoch < s.slot ∨ anchorOf c epoch = s.slot ∧ s.slot ≤ s.latestBlockHeader.slot

/-- What the duties of an epoch are worked out from is the same in both states. -/
structure SameSources (c : Constants) (s s' : ChainState) (epoch : Epoch) : Prop where
  mix : s'.anchorMix? c epoch = s.anchorMix? c epoch
  active : s'.activeIndices epoch = s.activeIndices epoch

theorem SameSources.trans {s'' : ChainState} (h : SameSources c s s' epoch)
    (h' : SameSources c s' s'' epoch) : SameSources c s s'' epoch :=
  ⟨h'.mix.trans h.mix, h'.active.trans h.active⟩

/-- A slot writes the mix of the slot that it enters. -/
theorem StepFrame.sameSources (hc : c.Consistent) (h : StepFrame c s s')
    (hstart : epoch * c.slotsPerEpoch < Word.limit) (hcomes : epoch < farFuture)
    (hanchor : anchorOf c epoch < s'.slot)
    (hround : s'.slot < anchorOf c epoch + c.randaoMixesLength) : SameSources c s s' epoch := by
  refine ⟨anchorMix?_congr h.rings h.ringsFit ?_ hc.randaoMixesLength_pos, ?_⟩
  · rw [h.randaoMixes]
    refine ChainState.getElem?_atNextSlot_randaoMixes ?_
    rw [← h.slot]
    exact (place_ne_of_lt_round hanchor hround).symm
  · rw [anchorOf_eq hstart] at hanchor
    exact h.active epoch (le_epochAt_succ hc hanchor) hcomes

/-- A block writes the mix of its own slot. -/
theorem BlockFrame.sameSources (hc : c.Consistent) {b : CandidateBlock}
    (h : BlockFrame c s s' b) (hstart : epoch * c.slotsPerEpoch < Word.limit)
    (hcomes : epoch < farFuture) (hanchor : anchorOf c epoch < s.slot)
    (hround : s.slot < anchorOf c epoch + c.randaoMixesLength) : SameSources c s s' epoch := by
  refine ⟨anchorMix?_congr h.may.rings h.ringsFit ?_ hc.randaoMixesLength_pos, ?_⟩
  · rw [h.frame.randaoMixes]
    exact Array.getElem?_setIfInBounds_ne (place_ne_of_lt_round hanchor hround).symm
  · rw [anchorOf_eq hstart] at hanchor
    exact h.active epoch (le_epochAt_succ hc hanchor) hcomes

/-- A move keeps an epoch settled, and what its duties are worked out from. -/
theorem Settled.move (h : Settled e.constants s epoch) (hmove : e.Move s s')
    (hstart : epoch * e.constants.slotsPerEpoch < Word.limit) (hcomes : epoch < farFuture) :
    Settled e.constants s' epoch ∧
      (s'.slot < anchorOf e.constants epoch + e.constants.randaoMixesLength →
        SameSources e.constants s s' epoch) := by
  cases hmove with
  | step hstep =>
      have hframe := step_frame hstep
      have hslot := hframe.slot
      have hanchor : anchorOf e.constants epoch < s'.slot := by
        rcases h with h | ⟨h, -⟩ <;> lia
      exact ⟨Or.inl hanchor, hframe.sameSources e.consistent hstart hcomes hanchor⟩
  | block b hb =>
      have hframe := applyBlock_frame hb
      have hslot := hframe.slot
      -- The block is newer than the latest header, so its slot is not the anchor.
      have hanchor : anchorOf e.constants epoch < s.slot := by
        rcases h with h | ⟨-, h⟩
        · exact h
        · exact absurd hframe.may.newer (Nat.not_lt_of_le h)
      refine ⟨Or.inl (hslot ▸ hanchor), fun hround => ?_⟩
      exact hframe.sameSources e.consistent hstart hcomes hanchor (hslot ▸ hround)

/-- Along every run from a settled state, as long as the ring has not gone round. -/
theorem Settled.run (h : Settled e.constants s epoch) (hrun : e.Reaches s s')
    (hstart : epoch * e.constants.slotsPerEpoch < Word.limit) (hcomes : epoch < farFuture)
    (hround : s'.slot < anchorOf e.constants epoch + e.constants.randaoMixesLength) :
    SameSources e.constants s s' epoch := by
  have hall := hrun.invariant
    (P := fun t => Settled e.constants t epoch ∧
      (t.slot < anchorOf e.constants epoch + e.constants.randaoMixesLength →
        SameSources e.constants s t epoch))
    (fun t t' ht hmove => by
      obtain ⟨hsettled, hsame⟩ := ht
      obtain ⟨hsettled', hsame'⟩ := hsettled.move hmove hstart hcomes
      exact ⟨hsettled', fun hlt =>
        (hsame (lt_of_le_of_lt hmove.slot_le hlt)).trans (hsame' hlt)⟩)
    ⟨h, fun _ => ⟨rfl, rfl⟩⟩
  exact hall.2 hround

/-! ## The same duties -/

/-- Both states give the epoch the same committees and its slots the same proposers. -/
structure SameDuties (c : Constants) (s s' : ChainState) (epoch : Epoch) : Prop where
  committees : committeesOf c s epoch = committeesOf c s' epoch
  proposers : ∀ slot, c.epochAt slot = epoch → proposerOf c s slot = proposerOf c s' slot

theorem SameSources.sameDuties (hc : c.Consistent) (h : SameSources c s s' epoch)
    (hwindow : checkWindow c s epoch = checkWindow c s' epoch) : SameDuties c s s' epoch := by
  have hseed := seedOf_congr hc hwindow h.mix.symm
  refine ⟨committeesOf_congr hseed h.active.symm, ?_⟩
  rintro slot rfl
  exact proposerOf_congr hseed h.active.symm

/-- All states of the window that are reached from a settled state give the epoch the same
    duties. -/
theorem Settled.sameDuties {s₀ : ChainState} (h : Settled e.constants s₀ epoch)
    (hrun : e.Reaches s₀ s) (hrun' : e.Reaches s₀ s') (hwindow : InWindow e.constants s epoch)
    (hwindow' : InWindow e.constants s' epoch) (hslot : s.slot ≤ horizon)
    (hslot' : s'.slot ≤ horizon) : SameDuties e.constants s s' epoch := by
  have hstart := hwindow.start_lt e.consistent hslot
  have hcomes : epoch < farFuture := by
    have hcurrent : s.currentEpoch e.constants ≤ s.slot := Constants.epochAt_le s.slot
    have := hwindow.2
    simp only [horizon, farFuture, Word.max, Word.limit] at *
    lia
  have hround := hwindow.slot_lt_round e.consistent
  have hround' := hwindow'.slot_lt_round e.consistent
  rw [← anchorOf_eq hstart] at hround hround'
  have hsame := h.run hrun hstart hcomes hround
  have hsame' := h.run hrun' hstart hcomes hround'
  have hboth : SameSources e.constants s s' epoch :=
    ⟨hsame'.mix.trans hsame.mix.symm, hsame'.active.trans hsame.active.symm⟩
  refine hboth.sameDuties e.consistent ?_
  rw [hwindow.checkWindow hslot, hwindow'.checkWindow hslot']

/-- An epoch is settled for every state of its window. -/
theorem InWindow.settled (hc : c.Consistent) (h : InWindow c s epoch) (hslot : s.slot ≤ horizon) :
    Settled c s epoch := by
  have hle : epoch * c.slotsPerEpoch ≤ (s.currentEpoch c + 1) * c.slotsPerEpoch :=
    Nat.mul_le_mul_right _ h.2
  have hcurrent := Constants.epochAt_mul_le (c := c) s.slot
  rw [Settled, anchorOf_eq (h.start_lt hc hslot)]
  simp only [ChainState.currentEpoch] at *
  lia

/-- The start of an epoch, and of the one before it, lies in its window. -/
theorem inWindow_of_start (hc : c.Consistent)
    (h : s.slot = (epoch - 1) * c.slotsPerEpoch ∨ s.slot = epoch * c.slotsPerEpoch) :
    InWindow c s epoch := by
  have hdiv (n : Nat) (hn : s.slot = n * c.slotsPerEpoch) : s.currentEpoch c = n := by
    rw [ChainState.currentEpoch, Constants.epochAt, hn, Nat.mul_div_cancel _ hc.slotsPerEpoch_pos]
  rcases h with h | h
  · rw [InWindow, hdiv _ h]
    lia
  · rw [InWindow, hdiv _ h]
    lia

/-- **Lookahead is stable.** Two states of one run whose epochs lie in the window of an epoch give
    it the same committees and proposers. So does the state after the block of the last slot two
    epochs before, advanced through empty slots to the start of the epoch or of the one before it,
    with every state that the chain reaches from that block. -/
theorem duties_stable (e : Engine) (epoch : Epoch) :
    (∀ s s', e.Reaches s s' → InWindow e.constants s epoch → InWindow e.constants s' epoch →
      s'.slot ≤ horizon → SameDuties e.constants s s' epoch) ∧
    (∀ s₀ s s' target, s₀.slot + 1 = (epoch - 1) * e.constants.slotsPerEpoch →
      s₀.latestBlockHeader.slot = s₀.slot →
      target = e.constants.epochStart (epoch - 1) ∨ target = e.constants.epochStart epoch →
      e.advance s₀ target = .ok s → e.Reaches s₀ s' → InWindow e.constants s' epoch →
      target ≤ horizon → s'.slot ≤ horizon → SameDuties e.constants s s' epoch) := by
  refine ⟨?_, ?_⟩
  · -- The first state of the run lies in the window, so the epoch is settled for it.
    intro s s' hrun hwindow hwindow' hslot'
    have hslot : s.slot ≤ horizon := hrun.slot_le.trans hslot'
    exact (hwindow.settled e.consistent hslot).sameDuties (.refl s) hrun hwindow hwindow' hslot
      hslot'
  · -- Here the block of the last slot two epochs before settles it.
    intro s₀ s s' target hlast hblock htarget hadvance hrun' hwindow' hhorizon hslot'
    have hstart := hwindow'.start_lt e.consistent hslot'
    have hepoch : 1 ≤ epoch := by
      by_contra hzero
      simp [Nat.lt_one_iff.1 (Nat.lt_of_not_le hzero)] at hlast
    have hnext : (epoch - 1) * e.constants.slotsPerEpoch + e.constants.slotsPerEpoch
        = epoch * e.constants.slotsPerEpoch := by
      rw [← Nat.succ_mul, Nat.succ_eq_add_one, Nat.sub_add_cancel hepoch]
    have hsettled : Settled e.constants s₀ epoch := by
      refine Or.inr ⟨?_, hblock.ge⟩
      rw [anchorOf_eq hstart]
      lia
    rw [Constants.epochStart_of_lt hstart, Constants.epochStart_of_lt (by lia),
      ← advance_slot hadvance] at htarget
    have hslot : s.slot ≤ horizon := advance_slot hadvance ▸ hhorizon
    exact hsettled.sameDuties (.of_advance hadvance) hrun' (inWindow_of_start e.consistent htarget)
      hwindow' hslot hslot'

/-- A single validator puts blocks with its votes on the chain at slots one and four. Both states, at
    the two ends of the window of epoch two, give it the same duties; and those of epoch three are
    fixed by the first block, from which an empty slot leads to the start of epoch two. -/
theorem duties_stable_solo :
    ∃ b₁ s₁ b₂ s₂ s, Engine.solo.importBlock .solo b₁ = .ok s₁ ∧ s₁.slot = 1 ∧
      s₁.previousEpochAttestations ≠ [] ∧ Engine.solo.importBlock s₁ b₂ = .ok s₂ ∧ s₂.slot = 4 ∧
      s₂.previousEpochAttestations ≠ [] ∧ SameDuties Constants.solo s₁ s₂ 2 ∧
      Engine.solo.advance s₁ 2 = .ok s ∧ SameDuties Constants.solo s s₂ 3 := by
  obtain ⟨t₁, b₁, h₁, s₁, hadvance₁, hb₁, hs₁, himport₁, hat₁, -⟩ :=
    soleAt_solo.exists_importBlock (m := 1) Constants.brief_solo {}
      (by decide) (by decide) rfl
  obtain ⟨t₂, b₂, h₂, s₂, -, -, hs₂, himport₂, hat₂, -⟩ := hat₁.exists_importBlock (m := 4)
    Constants.brief_solo {} (by decide) (by decide) rfl
  obtain ⟨h, s, hadvance, hat, -⟩ := hat₁.exists_advance (m := 2) Constants.brief_solo
    (by decide) (by decide)
  have hwindow {n epoch : Nat} {h : Chronicle} {t : ChainState} (hat : SoleAt Engine.solo n h t)
      (hends : n ≤ epoch + 2 ∧ epoch ≤ n + 1) : InWindow Constants.solo t epoch := by
    rw [InWindow, ChainState.currentEpoch, Constants.brief_solo.epochAt_eq, hat.slot]
    exact hends
  have hhorizon : s₂.slot ≤ horizon := hat₂.slot.trans_le (by decide)
  have hreach : Engine.solo.Reaches s₁ s₂ := .of_importBlock himport₂
  refine ⟨b₁, s₁, b₂, s₂, s, himport₁, hat₁.slot, by simp [hs₁], himport₂, hat₂.slot, by simp [hs₂],
    ?_, hadvance, ?_⟩
  · exact (duties_stable .solo 2).1 s₁ s₂ hreach (hwindow hat₁ (by decide))
      (hwindow hat₂ (by decide)) hhorizon
  · -- The header of the block is the latest one of its state.
    have hlatest : s₁.latestBlockHeader.slot = s₁.slot := by
      rw [hs₁]
      exact hb₁.slot
    exact (duties_stable .solo 3).2 s₁ s s₂ 2 (by rw [hat₁.slot]; rfl) hlatest (Or.inl rfl) hadvance
      hreach (hwindow hat₂ (by decide)) (by decide) hhorizon

end Beacon
