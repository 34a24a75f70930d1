import Mathlib
import Beacon.Proofs.Transition.Runs
import Beacon.Proofs.Transition.Verdicts

set_option autoImplicit false

/-! # Checkpoints in order

The finalized checkpoint of a reachable state is no later than the previous justified one, that no
later than the current justified one, and that lies before the running epoch (`Ordered`). A boundary
moves the current one to an epoch it has just counted, the previous one to the current one, and
finalizes one of the two. So the order stays, and all three only move `Forward`. -/

namespace Beacon

variable {c : Constants} {e : Engine} {s s' s'' : ChainState}

/-! ## The order -/

/-- The checkpoints of a state in their order. -/
structure Ordered (c : Constants) (s : ChainState) : Prop where
  finalized_le : s.finalized.epoch ≤ s.previousJustified.epoch
  previous_le : s.previousJustified.epoch ≤ s.currentJustified.epoch
  current_le : s.currentJustified.epoch ≤ s.currentEpoch c - 1

/-- No checkpoint of the second state is of an earlier epoch than that of the first. -/
structure Forward (s s' : ChainState) : Prop where
  finalized : s.finalized.epoch ≤ s'.finalized.epoch
  previous : s.previousJustified.epoch ≤ s'.previousJustified.epoch
  current : s.currentJustified.epoch ≤ s'.currentJustified.epoch

theorem Forward.refl (s : ChainState) : Forward s s := ⟨le_rfl, le_rfl, le_rfl⟩

theorem Forward.trans (h₁ : Forward s s') (h₂ : Forward s' s'') : Forward s s'' :=
  ⟨h₁.finalized.trans h₂.finalized, h₁.previous.trans h₂.previous, h₁.current.trans h₂.current⟩

theorem ordered_genesis (c : Constants) (time : Nat) (validators : List Validator)
    (data : ExternalData) (fork : Fork) :
    Ordered c (ChainState.genesis c time validators data fork) :=
  ⟨le_rfl, le_rfl, Nat.zero_le _⟩

theorem SameCheckpoints.forward (hsame : SameCheckpoints s s') : Forward s s' :=
  ⟨by rw [hsame.finalized], by rw [hsame.previousJustified], by rw [hsame.currentJustified]⟩

/-- With the same checkpoints the order stays as the epochs go by. -/
theorem Ordered.congr (hord : Ordered c s) (hsame : SameCheckpoints s s')
    (hepoch : s.currentEpoch c ≤ s'.currentEpoch c) : Ordered c s' := by
  refine ⟨?_, ?_, ?_⟩
  · rw [hsame.finalized, hsame.previousJustified]
    exact hord.finalized_le
  · rw [hsame.previousJustified, hsame.currentJustified]
    exact hord.previous_le
  · rw [hsame.currentJustified]
    exact hord.current_le.trans (Nat.sub_le_sub_right hepoch 1)

/-! ## Slots and blocks -/

/-- What a boundary justifies is later than what was justified, and what it finalizes was
    justified. -/
theorem Verdict.advances {total : Gwei} {ended : Epoch} {t : Tally} {summary : EpochSummary}
    (hverdict : Verdict s s' total ended t summary) (hord : Ordered c s)
    (hended : s.currentJustified.epoch ≤ ended - 1) (hepoch : s'.currentEpoch c = ended + 1) :
    Ordered c s' ∧ Forward s s' := by
  have hprevious := congrArg Checkpoint.epoch hverdict.previousJustified
  have hfinalizedLe := hord.finalized_le
  have hpreviousLe := hord.previous_le
  -- The new justified checkpoint is the old one, or one of the two counted epochs.
  have hcurrent : s.currentJustified.epoch ≤ s'.currentJustified.epoch ∧
      s'.currentJustified.epoch ≤ ended := by
    rw [hverdict.currentJustified]
    cases hjustified : t.justified? total ended with
    | none =>
        rw [Option.getD_none]
        lia
    | some cp =>
        rw [Option.getD_some]
        rcases Tally.justified?_epoch hjustified with hcp | hcp <;> lia
  -- The new finalized checkpoint is the old one, or one of the two justified ones.
  have hfinalized : s.finalized.epoch ≤ s'.finalized.epoch ∧
      s'.finalized.epoch ≤ s.currentJustified.epoch := by
    rw [hverdict.finalized]
    cases hsome : summary.finalized with
    | none =>
        rw [Option.getD_none]
        lia
    | some cp =>
        rw [Option.getD_some]
        cases hverdict.rule hsome with
        | previous heq =>
            rw [heq]
            lia
        | current heq =>
            rw [heq]
            lia
  refine ⟨⟨?_, ?_, ?_⟩, ⟨hfinalized.1, ?_, hcurrent.1⟩⟩
  · exact hprevious ▸ hfinalized.2
  · exact hprevious ▸ hcurrent.1
  · rw [hepoch, Nat.add_sub_cancel]
    exact hcurrent.2
  · exact hprevious ▸ hpreviousLe

theorem Ordered.step (hord : Ordered c s) (hstep : Engine.step c s = .ok s') :
    Ordered c s' ∧ Forward s s' := by
  have hslot := (step_frame hstep).slot
  have hmono : s.currentEpoch c ≤ s'.currentEpoch c :=
    Constants.epochAt_mono (by lia)
  rcases step_cases hstep with ⟨hstart, summary, hprocess⟩ | ⟨hstart, rfl⟩
  · have hended : (s.atNextSlot c).currentEpoch c - 1 = s.currentEpoch c :=
      Nat.sub_eq_of_eq_add (Constants.epochAt_succ_of_start hstart)
    rcases processEpoch_verdict hprocess with ⟨-, -, hsame⟩ | ⟨hlate, t, -, hverdict⟩
    · -- Entering the slot does not touch the checkpoints either.
      have hsame' : SameCheckpoints s s' :=
        ⟨hsame.previousJustified, hsame.currentJustified, hsame.justificationBits,
          hsame.finalized⟩
      exact ⟨hord.congr hsame' hmono, hsame'.forward⟩
    · rw [hended] at hverdict
      have hentry : Ordered c (s.atNextSlot c) :=
        hord.congr ⟨rfl, rfl, rfl, rfl⟩ (Constants.epochAt_mono (Nat.le_succ s.slot))
      have hepoch : s'.currentEpoch c = s.currentEpoch c + 1 := by
        rw [ChainState.currentEpoch, hslot]
        exact Constants.epochAt_succ_of_start hstart
      obtain ⟨hord', hforward⟩ := hverdict.advances hentry hord.current_le hepoch
      exact ⟨hord', hforward.finalized, hforward.previous, hforward.current⟩
  · have hsame : SameCheckpoints s (s.atNextSlot c) := ⟨rfl, rfl, rfl, rfl⟩
    exact ⟨hord.congr hsame hmono, hsame.forward⟩

theorem Ordered.move (hord : Ordered e.constants s) (hmove : e.Move s s') :
    Ordered e.constants s' ∧ Forward s s' := by
  cases hmove with
  | step hstep => exact hord.step hstep
  | block b hblock =>
      have hframe := applyBlock_frame hblock
      have hepoch : s.currentEpoch e.constants ≤ s'.currentEpoch e.constants :=
        Constants.epochAt_mono hframe.slot.ge
      exact ⟨hord.congr hframe.sameCheckpoints hepoch, hframe.sameCheckpoints.forward⟩

theorem Ordered.reaches (hord : Ordered e.constants s) (hreach : e.Reaches s s') :
    Ordered e.constants s' ∧ Forward s s' :=
  hreach.invariant (P := fun t => Ordered e.constants t ∧ Forward s t)
    (fun _ _ ht hmove =>
      have hnext := ht.1.move hmove
      ⟨hnext.1, ht.2.trans hnext.2⟩)
    ⟨hord, .refl s⟩

theorem Engine.Reachable.ordered (hreach : e.Reachable s) : Ordered e.constants s := by
  obtain ⟨time, validators, data, fork, hreach⟩ := hreach
  exact ((ordered_genesis ..).reaches hreach).1

end Beacon
