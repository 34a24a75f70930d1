import Mathlib
import Beacon.Proofs.Rewards
import Beacon.Proofs.Transition.Amendments
import Beacon.Proofs.Transition.Ordering

set_option autoImplicit false

/-! # Advancing malformed states

Settling an epoch meets whatever a state holds: rings and balances of any length, attestations of
epochs that are long over, checkpoints that no chain justified. All of it is a reason to refuse the
slot or the boundary; only numbers stand in the way, since sums are worked out before anything is
refused. `InRange` says which of them have to be small: the epochs that attestations and checkpoints
name, the stakes, and what the constants make of those. It is kept from slot to slot, so that an
advance from such a state ends with an answer (`advance_ends`), which is a state if a run has come to
it (`Engine.Reachable.exists_advance`). -/

namespace Beacon

variable {c : Constants} {e : Engine} {s s' : ChainState} {ended last : Epoch} {target : Slot}
  {ℓ : Leeway}

/-! ## What a boundary reads may be missing -/

/-- The committee that an attestation names may be refused, as long as its size can be worked
    out. -/
theorem attestersOf_refusable (hc : c.Consistent) (hrejections : ℓ.rejections)
    {a : PendingAttestation} (hfits : ℓ.faults .overflow ∨ SizesFit c s a.data.target.epoch) :
    (attestersOf (committeesOf c s) a).Within ℓ := by
  refine ((committeesOf_within hc hfits (Or.inl hrejections)).widen _).bind fun committees _ => ?_
  split
  · exact hrejections
  · trivial

theorem settleable_of_rejections (hc : c.Consistent) (hrejections : ℓ.rejections)
    (hfits : ∀ a ∈ s.pending, ℓ.faults .overflow ∨ SizesFit c s a.data.target.epoch) :
    Settleable ℓ c s (committeesOf c s) ended where
  current a ha := attestersOf_refusable hc hrejections (hfits a (List.mem_append_right _ ha))
  previous a ha := attestersOf_refusable hc hrejections (hfits a (List.mem_append_left _ ha))
  heads _ _ := Or.inl hrejections
  before _ := Or.inl hrejections
  last := Or.inl hrejections

/-! ## Numbers in range -/

/-- Constants and a state whose numbers are small enough to settle the epochs up to `last`. -/
structure InRange (c : Constants) (last : Epoch) (s : ChainState) : Prop where
  slotsPerEpoch_le : c.slotsPerEpoch ≤ 2147483648
  affordable : c.Affordable s.validators.size last
  stakes : StakesFit c s
  targets : ∀ a ∈ s.pending, a.data.target.epoch + 2 < Word.limit
  checkpoints : CheckpointsFit s

namespace InRange

theorem atNextSlot (h : InRange c last s) : InRange c last (s.atNextSlot c) :=
  ⟨h.slotsPerEpoch_le, h.affordable, h.stakes, h.targets, h.checkpoints⟩

theorem sizesFit (h : InRange c last s) (hslot : s.slot ≤ horizon) {a : PendingAttestation}
    (ha : a ∈ s.pending) : SizesFit c s a.data.target.epoch := by
  have hcurrent : s.currentEpoch c ≤ horizon := (Constants.epochAt_le s.slot).trans hslot
  refine ⟨⟨h.targets a ha, ?_⟩, committeesFit_of_le h.slotsPerEpoch_le h.affordable.few _⟩
  simp only [horizon, Word.limit] at *
  lia

/-- A fraction of an increment is as small as a full stake. -/
theorem increment_lt (h : InRange c last s) (hc : c.Consistent) :
    c.effectiveBalanceIncrement / 4 * 5 < Word.limit := by
  have hstake : c.maxEffectiveBalance ≤ c.maxEffectiveBalance * c.baseRewardFactor :=
    Nat.le_mul_of_pos_right _ hc.baseRewardFactor_pos
  have hincrement := hc.increment_le
  have hunit := h.affordable.unit
  simp only [Word.limit]
  lia

/-- What a boundary justifies is one of the two epochs that it counts. -/
theorem checkpointsFit_of_processEpoch {summary : EpochSummary} (h : CheckpointsFit s)
    (hslot : s.slot ≤ horizon) (hprocess : processEpoch c s = .ok (summary, s')) :
    CheckpointsFit s' := by
  have hcurrent : s.currentEpoch c ≤ horizon := (Constants.epochAt_le s.slot).trans hslot
  rcases processEpoch_verdict hprocess with ⟨-, -, hsame⟩ | ⟨-, t, -, hverdict⟩
  · rw [CheckpointsFit, hsame.previousJustified, hsame.currentJustified]
    exact h
  · rw [CheckpointsFit, hverdict.previousJustified, hverdict.currentJustified]
    refine ⟨h.2, ?_⟩
    cases hjustified : t.justified? (activeBalance c s (s.currentEpoch c - 1))
        (s.currentEpoch c - 1) with
    | none => exact h.2
    | some cp =>
        rw [Option.getD_some]
        have hepoch := Tally.justified?_epoch hjustified
        simp only [horizon, Word.limit] at *
        lia

theorem step (h : InRange c last s) (hslot : s.slot < horizon)
    (hstep : Engine.step c s = .ok s') : InRange c last s' where
  slotsPerEpoch_le := h.slotsPerEpoch_le
  affordable := (step_validators_size hstep).symm ▸ h.affordable
  stakes := (step_amended hstep).forall_validators
    (fun _ _ hv hamend => hamend.effectiveBalance_le hv) (fun _ => c.effective_le _) h.stakes
  targets a ha := h.targets a (pending_subset_of_step hstep ha)
  checkpoints := by
    rcases step_cases hstep with ⟨-, summary, hprocess⟩ | ⟨-, rfl⟩
    · exact checkpointsFit_of_processEpoch (s := s.atNextSlot c) h.checkpoints hslot hprocess
    · exact h.checkpoints

end InRange

/-! ## Slots -/

/-- A boundary is settled or refused. -/
theorem processEpoch_refusable (hc : c.Consistent) (hrejections : ℓ.rejections)
    (hfits : ℓ.faults .overflow ∨
      s.slot ≤ horizon ∧ s.currentEpoch c ≤ last ∧ InRange c last s) :
    (processEpoch c s).Within ℓ := by
  refine processEpoch_within (Or.inl hrejections) ?_ ?_ ?_
  · exact settleable_of_rejections hc hrejections fun a ha =>
      hfits.imp_right fun h => h.2.2.sizesFit h.1 ha
  · exact hfits.imp_right fun h => ⟨h.2.2.checkpoints, h.2.2.increment_lt hc⟩
  · intro summary t hjustify
    rcases hfits with hoverflow | ⟨-, hlast, h⟩
    · exact deltasFit_overflow hoverflow
    · -- Justification leaves the registry alone.
      have hvalidators : t.validators = s.validators := by rw [justifyAndFinalize_frame hjustify]
      have haffordable : c.Affordable t.validators.size last := hvalidators ▸ h.affordable
      have hstakes : StakesFit c t := by
        rw [StakesFit, hvalidators]
        exact h.stakes
      exact deltasFit_of_affordable hc haffordable hstakes ((Nat.sub_le ..).trans hlast)

/-- A slot is entered or refused. -/
theorem step_refusable (hc : c.Consistent) (hrejections : ℓ.rejections)
    (hfits : ℓ.faults .overflow ∨
      s.slot < horizon ∧ c.epochAt (s.slot + 1) ≤ last ∧ InRange c last s) :
    (Engine.step c s).Within ℓ := by
  refine ((nextSlot_within (Or.inl hrejections)).widen _).bind fun t ht => ?_
  obtain ⟨-, -, rfl⟩ := nextSlot_eq_ok.1 (Attempt.widen_eq_ok.1 ht)
  refine .ite ?_ trivial
  exact ((processEpoch_refusable hc hrejections (hfits.imp_right fun h =>
    ⟨h.1, h.2.1, h.2.2.atNextSlot⟩)).widen _).bind fun _ _ => trivial

theorem stepBy_refusable (hc : c.Consistent) (hrejections : ℓ.rejections) (n : Nat)
    (hfits : ℓ.faults .overflow ∨
      s.slot + n ≤ horizon ∧ c.epochAt (s.slot + n) ≤ last ∧ InRange c last s) :
    (Engine.stepBy c n s).Within ℓ := by
  induction n generalizing s with
  | zero => trivial
  | succ n ih =>
      have hfirst : ℓ.faults .overflow ∨
          s.slot < horizon ∧ c.epochAt (s.slot + 1) ≤ last ∧ InRange c last s :=
        hfits.imp_right fun h => ⟨by lia, (Constants.epochAt_mono (by lia)).trans h.2.1, h.2.2⟩
      refine (step_refusable hc hrejections hfirst).bind fun t ht =>
        ih (hfits.imp_right fun h => ?_)
      have hslot : t.slot + n = s.slot + (n + 1) := by
        rw [(step_frame ht).slot]
        lia
      rw [hslot]
      exact ⟨h.1, h.2.1, h.2.2.step (by lia) ht⟩

/-- An advance to a slot before the horizon ends with an answer where numbers are in range; and in
    any case it only stops with a number that is not. -/
theorem advance_refusable (hrejections : ℓ.rejections)
    (hfits : ℓ.faults .overflow ∨
      target ≤ horizon ∧ InRange e.constants (e.constants.epochAt target) s) :
    (e.advance s target).Within ℓ := by
  refine (Attempt.within_require (Or.inl hrejections)).bind fun _ hle => ?_
  rw [Attempt.require_eq_ok] at hle
  have hslots : ℓ.faults .overflow ∨ s.slot + (target - s.slot) ≤ horizon ∧
      e.constants.epochAt (s.slot + (target - s.slot)) ≤ e.constants.epochAt target ∧
      InRange e.constants (e.constants.epochAt target) s := by
    rw [Nat.add_sub_of_le hle]
    exact hfits.imp_right fun h => ⟨h.1, le_rfl, h.2⟩
  exact stepBy_refusable e.consistent hrejections _ hslots

/-! ## Runs -/

/-- The numbers of a run are in range as long as its constants and stakes are: attestations and
    justified checkpoints are of epochs that have begun. -/
theorem Engine.Reachable.inRange (hreach : e.Reachable s)
    (hslots : e.constants.slotsPerEpoch ≤ 2147483648)
    (haffordable : e.constants.Affordable s.validators.size last)
    (hstakes : StakesFit e.constants s) (hslot : s.slot ≤ horizon) : InRange e.constants last s := by
  have hcoherent := hreach.coherent
  have hord := hreach.ordered
  have hcurrent : s.currentEpoch e.constants ≤ horizon := (Constants.epochAt_le s.slot).trans hslot
  refine ⟨hslots, haffordable, hstakes, fun a ha => ?_, ?_⟩
  · have hbegun : a.data.target.epoch ≤ s.currentEpoch e.constants := by
      rcases List.mem_append.1 ha with ha | ha
      · obtain ⟨epoch, hnext, hseat⟩ := hcoherent.previous a ha
        rw [hseat.target, ← hnext]
        exact Nat.le_succ epoch
      · exact (hcoherent.current a ha).target.le
    simp only [horizon, Word.limit] at *
    lia
  · have hprevious := hord.previous_le
    have hcurrentLe := hord.current_le
    constructor <;> simp only [horizon, Word.limit] at * <;> lia

/-- Such a run goes on: what a reachable state meets is there, so that it is not refused, and its
    numbers do not stop it. -/
theorem Engine.Reachable.exists_advance (hreach : e.Reachable s) (hle : s.slot ≤ target)
    (htarget : target ≤ horizon) (hrange : InRange e.constants (e.constants.epochAt target) s) :
    ∃ s', e.advance s target = .ok s' := by
  have hoverflow : (e.advance s target).Within .overflow :=
    hreach.advance_within hle (htarget.trans_lt (by decide))
  have hrefusal : (e.advance s target).Within .refusal :=
    advance_refusable trivial (Or.inr ⟨htarget, hrange⟩)
  exact hoverflow.ok_or_overflow.resolve_right (Attempt.within_refusal_iff.1 hrefusal _)

/-! ## Refusals -/

theorem step_refusal {cause : TransitionError}
    (h : Engine.step c s = .error (.rejected cause)) :
    (∃ inner : SlotError, cause = .slot inner) ∨ ∃ inner : EpochError, cause = .epoch inner := by
  rcases Attempt.bind_eq_rejected.1 h with h | ⟨t, -, h⟩
  · obtain ⟨inner, -, rfl⟩ := Attempt.widen_eq_rejected.1 h
    exact Or.inl ⟨inner, rfl⟩
  · split at h
    · rcases Attempt.bind_eq_rejected.1 h with h | ⟨_, -, h⟩
      · obtain ⟨inner, -, rfl⟩ := Attempt.widen_eq_rejected.1 h
        exact Or.inr ⟨inner, rfl⟩
      · cases h
    · cases h

theorem stepBy_refusal {n : Nat} {cause : TransitionError}
    (h : Engine.stepBy c n s = .error (.rejected cause)) :
    (∃ inner : SlotError, cause = .slot inner) ∨ ∃ inner : EpochError, cause = .epoch inner := by
  induction n generalizing s with
  | zero => cases h
  | succ n ih =>
      rcases Attempt.bind_eq_rejected.1 h with h | ⟨t, -, h⟩
      · exact step_refusal h
      · exact ih h

/-- An advance is refused for a slot or for a boundary. -/
theorem advance_refusal {cause : TransitionError}
    (h : e.advance s target = .error (.rejected cause)) :
    (∃ inner : SlotError, cause = .slot inner) ∨ ∃ inner : EpochError, cause = .epoch inner := by
  rcases Attempt.bind_eq_rejected.1 h with h | ⟨_, -, h⟩
  · obtain ⟨-, rfl⟩ := Attempt.require_eq_rejected.1 h
    exact Or.inl ⟨_, rfl⟩
  · exact stepBy_refusal h

/-! ## The theorem -/

/-- **An advance ends with an answer, unless a number leaves the 64-bit range.** Whatever a state
    holds, advancing it gives a state at the target, or is refused for a slot or for a boundary, or
    stops with an overflow, and with no other fault. It does not stop where the numbers of the state
    are in range: up to two to the 31st slots in an epoch and to the 20th validators, units of
    rewards below two to the 44th, no stake beyond the maximum, and pending attestations and
    justified checkpoints of epochs to which a few can be added. -/
theorem advance_ends (e : Engine) (s : ChainState) (target : Slot) :
    ((∃ s', e.advance s target = .ok s' ∧ s'.slot = target) ∨
      (∃ cause : SlotError, e.advance s target = .error (.rejected (.slot cause))) ∨
      (∃ cause : EpochError, e.advance s target = .error (.rejected (.epoch cause))) ∨
      e.advance s target = .error (.fault .overflow)) ∧
    (target ≤ horizon → InRange e.constants (e.constants.epochAt target) s →
      e.advance s target ≠ .error (.fault .overflow)) := by
  refine ⟨?_, fun htarget h => ?_⟩
  · have hends : (e.advance s target).Within .refusalOrOverflow :=
      advance_refusable trivial (Or.inl rfl)
    cases hadvance : e.advance s target with
    | ok s' => exact Or.inl ⟨s', rfl, advance_slot hadvance⟩
    | error failure =>
        cases failure with
        | rejected cause =>
            rcases advance_refusal hadvance with ⟨inner, rfl⟩ | ⟨inner, rfl⟩
            · exact Or.inr (Or.inl ⟨inner, rfl⟩)
            · exact Or.inr (Or.inr (Or.inl ⟨inner, rfl⟩))
        | fault f =>
            rw [hadvance] at hends
            obtain rfl : f = .overflow := hends
            exact Or.inr (Or.inr (Or.inr rfl))
  · have hends : (e.advance s target).Within .refusal :=
      advance_refusable trivial (Or.inr ⟨htarget, h⟩)
    intro hoverflow
    rw [hoverflow] at hends
    exact hends

/-- The single validator's state at slot one, with an attestation of an epoch that was never
    there. -/
def ChainState.stray (target : Epoch) : ChainState :=
  { ChainState.solo with
    slot := 1
    previousEpochAttestations := [{ data := { target := { epoch := target } } }] }

/-- An attestation of a later epoch is refused at the boundary. -/
theorem advance_ends_stray :
    Engine.tightest.advance (.stray 7) 2
      = .error (.rejected (.epoch (.committee (.epochOutOfRange 7 2)))) ∧
    Engine.tightest.advance (.stray 7) 2 ≠ .error (.fault .overflow) := by
  refine ⟨by decide +kernel, (advance_ends .tightest (.stray 7) 2).2 (by decide) ?_⟩
  exact ⟨by decide, ⟨by decide, by decide, by decide +kernel, by decide +kernel, by decide⟩,
    by unfold StakesFit; decide, by decide, ⟨by decide, by decide⟩⟩

/-- But one of the last epoch of all stops the boundary, since the window is left with a sum. -/
theorem advance_stops_stray :
    Constants.tightest.slotsPerEpoch ≤ 2147483648 ∧
    Constants.tightest.epochsPerVotingPeriod ≤ 2147483648 ∧
    Constants.tightest.maxEffectiveBalance * Constants.tightest.baseRewardFactor
      < 17592186044416 ∧
    (ChainState.stray Word.max).slot ≤ horizon ∧
    (ChainState.stray Word.max).validators.size ≤ 1048576 ∧
    Engine.tightest.advance (.stray Word.max) 2 = .error (.fault .overflow) :=
  ⟨by decide, by decide, by decide, by decide, by decide, by decide +kernel⟩

end Beacon
