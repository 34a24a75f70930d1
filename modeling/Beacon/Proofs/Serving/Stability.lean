import Mathlib
import Beacon.Proofs.Lookahead
import Beacon.Proofs.Serving.Heads
import Beacon.Proofs.Transition.Ballots

set_option autoImplicit false

/-! # What a chain keeps for the votes of a slot

A vote names two roots of the chain and the checkpoint that it starts from, and it is read by the
committees of its epoch. None of this changes while the vote may still be included and until it has
been settled: the roots stay in the ring for two epochs once later blocks follow, the justified
checkpoint of the epoch becomes the previous one when the next epoch begins, and the committees are
settled before the epoch starts. -/

namespace Beacon

variable {c : Constants} {e : Engine} {s s' t : ChainState} {slot u : Slot} {epoch : Epoch}
  {root : Root}

/-! ## Roots -/

/-- The root for a slot is read from the ring once the slot is over, and recorded there when it is
    left. -/
theorem ChainState.blockRootAt?_atNextSlot (hrings : RingsFit e.constants s)
    (hlimit : s.slot + 1 < Word.limit) (hle : u ≤ s.slot)
    (hround : s.slot + 1 ≤ u + e.constants.slotsPerHistoricalRoot)
    (hroot : e.blockRootAt? s u = some root) :
    (s.atNextSlot e.constants).blockRootAt? e.constants u = some root := by
  rw [ChainState.blockRootAt?_eq hlimit, if_pos ⟨Nat.lt_succ_of_le hle, hround⟩]
  by_cases hnow : u = s.slot
  · rw [Engine.blockRootAt?, if_pos hnow] at hroot
    rw [hnow, ChainState.getElem?_atNextSlot_blockRoots_self hrings
      e.consistent.slotsPerHistoricalRoot_pos]
    exact hroot
  · have hlt : u < s.slot := Nat.lt_of_le_of_ne hle hnow
    rw [Engine.blockRootAt?, if_neg hnow, ChainState.blockRootAt?_eq (Nat.lt_of_succ_lt hlimit),
      if_pos ⟨hlt, Nat.le_of_succ_le hround⟩] at hroot
    rw [ChainState.getElem?_atNextSlot_blockRoots_ne (place_ne_of_lt_round hlt hround).symm]
    exact hroot

/-- **Roots stay.** Once later blocks follow, the roots for slots up to then are found as long as
    the ring has not gone round. -/
theorem Engine.ReachesAfter.blockRootAt? (hreach : e.ReachesAfter slot t s) (hu : u ≤ slot)
    (hslot : slot ≤ t.slot) (hroot : e.blockRootAt? t u = some root)
    (hround : s.slot ≤ u + e.constants.slotsPerHistoricalRoot) :
    e.blockRootAt? s u = some root := by
  have hall := hreach.invariant
    (P := fun s => slot ≤ s.slot ∧
      (s.slot ≤ u + e.constants.slotsPerHistoricalRoot → e.blockRootAt? s u = some root))
    (fun s s' ⟨hslot, hroot⟩ hstep => by
      have hframe := step_frame hstep
      have hnext := hframe.slot
      have hlimit := hframe.slot_lt
      refine ⟨by lia, fun hround => ?_⟩
      rw [hnext] at hround hlimit
      rw [Engine.blockRootAt?, if_neg (by lia), ChainState.blockRootAt?, hnext,
        hframe.blockRoots]
      exact ChainState.blockRootAt?_atNextSlot hframe.rings hlimit (hu.trans hslot) hround
        (hroot (Nat.le_of_succ_le hround)))
    (fun s s' b ⟨hslot, hroot⟩ hlater hblock => by
      -- A block changes the header of its own slot only.
      have hframe := applyBlock_frame hblock
      have hsame := hframe.slot
      rw [hsame]
      refine ⟨hslot, fun hround => ?_⟩
      have hroot := hroot hround
      have hne : u ≠ s.slot := by lia
      rw [Engine.blockRootAt?, if_neg hne, ChainState.blockRootAt?] at hroot
      rw [Engine.blockRootAt?, hsame, if_neg hne, ChainState.blockRootAt?, hsame,
        hframe.frame.blockRoots]
      exact hroot)
    ⟨hslot, fun _ => hroot⟩
  exact hall.2 hround

/-! ## The checkpoint that votes start from -/

/-- The checkpoint that votes of an epoch start from, on a state of this epoch or the next one. -/
def ChainState.sourceFor (c : Constants) (s : ChainState) (epoch : Epoch) : Checkpoint :=
  if s.currentEpoch c = epoch then s.currentJustified else s.previousJustified

/-- A slot keeps it: when the next epoch begins, the justified checkpoint becomes the previous
    one. -/
theorem ChainState.sourceFor_step (hearly : s.currentEpoch c ≤ 2 →
    s.previousJustified = s.currentJustified) (hfrom : epoch ≤ s.currentEpoch c)
    (hto : s'.currentEpoch c ≤ epoch + 1) (hstep : Engine.step c s = .ok s') :
    s'.sourceFor c epoch = s.sourceFor c epoch := by
  have hslot := (step_frame hstep).slot
  rcases step_cases hstep with ⟨hstart, summary, hprocess⟩ | ⟨hstart, rfl⟩
  · have hnext : s'.currentEpoch c = s.currentEpoch c + 1 := by
      rw [ChainState.currentEpoch, hslot]
      exact Constants.epochAt_succ_of_start hstart
    have hnow : s.currentEpoch c = epoch := by lia
    rw [sourceFor, if_neg (by lia), sourceFor, if_pos hnow]
    exact (checkpoints_of_boundary hearly hstart hprocess).1
  · have hsame : (s.atNextSlot c).currentEpoch c = s.currentEpoch c :=
      Constants.epochAt_succ_of_not_start hstart
    rw [sourceFor, hsame]
    rfl

/-- **Sources stay.** The checkpoint that votes of an epoch start from is the same up to the end of
    the next epoch. -/
theorem Engine.Reaches.sourceFor (hreach : e.Reaches t s) (ht : e.Reachable t)
    (hfrom : epoch ≤ t.currentEpoch e.constants)
    (hto : s.currentEpoch e.constants ≤ epoch + 1) :
    s.sourceFor e.constants epoch = t.sourceFor e.constants epoch := by
  obtain ⟨h, hrun⟩ := ht.exists_run
  refine hrun.invariant (P := fun s => s.currentEpoch e.constants ≤ epoch + 1 →
    s.sourceFor e.constants epoch = t.sourceFor e.constants epoch) hreach ?_ ?_ (fun _ => rfl) hto
  · intro h s s' hrun hle hsame hstep hto
    have hmono : s.currentEpoch e.constants ≤ s'.currentEpoch e.constants :=
      Constants.epochAt_mono (Engine.Move.step hstep).slot_le
    rw [ChainState.sourceFor_step hrun.remembers.early (hfrom.trans (Constants.epochAt_mono hle))
      hto hstep]
    exact hsame (hmono.trans hto)
  · intro h s s' b _ _ hsame hblock hto
    have hframe := applyBlock_frame hblock
    rw [ChainState.currentEpoch, hframe.slot] at hto
    rw [ChainState.sourceFor, ChainState.currentEpoch, hframe.slot,
      hframe.frame.currentJustified, hframe.frame.previousJustified]
    exact hsame hto

/-! ## Committees -/

theorem lt_farFuture (htwo : epoch + 2 < Word.limit) : epoch < farFuture := by
  simp only [farFuture, Word.max]
  lia

/-- Once an epoch has started, what its committees are worked out from is the same up to the end of
    the second epoch after it. -/
theorem Engine.Reaches.sameSources (hreach : e.Reaches t s)
    (hstart : epoch * e.constants.slotsPerEpoch ≤ t.slot) (hlimit : t.slot < Word.limit)
    (hcomes : epoch < farFuture) (hto : s.currentEpoch e.constants ≤ epoch + 2) :
    InWindow e.constants s epoch ∧ SameSources e.constants t s epoch := by
  have hstart_lt := hstart.trans_lt hlimit
  have hfrom : epoch ≤ t.currentEpoch e.constants :=
    (Nat.le_div_iff_mul_le e.consistent.slotsPerEpoch_pos).2 hstart
  have hmono : t.currentEpoch e.constants ≤ s.currentEpoch e.constants :=
    Constants.epochAt_mono hreach.slot_le
  have hwindow : InWindow e.constants s epoch := ⟨hto, (hfrom.trans hmono).trans (Nat.le_succ _)⟩
  have hround := hwindow.slot_lt_round e.consistent
  rw [← anchorOf_eq hstart_lt] at hround
  have hsettled : Settled e.constants t epoch := by
    rw [Settled, anchorOf_eq hstart_lt]
    lia
  exact ⟨hwindow, hsettled.run hreach hstart_lt hcomes hround⟩

theorem SameSources.committeesOf (h : SameSources c s s' epoch) (hc : c.Consistent)
    {committees : EpochCommittees} (hcommittees : committeesOf c s epoch = .ok committees)
    (hwindow : checkWindow c s' epoch = .ok ()) : committeesOf c s' epoch = .ok committees := by
  have hwindow₀ : checkWindow c s epoch = .ok () :=
    checkWindow_eq_ok.2 (window_of_committeesOf hc hcommittees)
  rw [← committeesOf_congr (seedOf_congr hc (hwindow₀.trans hwindow.symm) h.mix.symm)
    h.active.symm]
  exact hcommittees

/-- **Committees stay.** The committees of an epoch that has started are the same up to the end of
    the second epoch after it. -/
theorem Engine.Reaches.committees (hreach : e.Reaches t s)
    (hstart : epoch * e.constants.slotsPerEpoch ≤ t.slot) (hlimit : t.slot < Word.limit)
    {committees : EpochCommittees} (hcommittees : committeesOf e.constants t epoch = .ok committees)
    (hto : s.currentEpoch e.constants ≤ epoch + 2)
    (hnext : s.currentEpoch e.constants + 1 < Word.limit) :
    committeesOf e.constants s epoch = .ok committees := by
  obtain ⟨htwo, -⟩ := window_of_committeesOf e.consistent hcommittees
  obtain ⟨hwindow, hsame⟩ := hreach.sameSources hstart hlimit (lt_farFuture htwo) hto
  exact hsame.committeesOf e.consistent hcommittees (checkWindow_eq_ok.2 ⟨htwo, hnext, hwindow⟩)

/-- And so they are when a slot is entered, before an epoch is settled. -/
theorem Engine.Reaches.committees_atNextSlot (hreach : e.Reaches t s)
    (hstart : epoch * e.constants.slotsPerEpoch ≤ t.slot) (hlimit : t.slot < Word.limit)
    {committees : EpochCommittees} (hcommittees : committeesOf e.constants t epoch = .ok committees)
    (hstep : Engine.step e.constants s = .ok s')
    (hto : s'.currentEpoch e.constants ≤ epoch + 2)
    (hnext : s'.currentEpoch e.constants + 1 < Word.limit) :
    committeesOf e.constants (s.atNextSlot e.constants) epoch = .ok committees := by
  have hframe := step_frame hstep
  obtain ⟨htwo, -⟩ := window_of_committeesOf e.consistent hcommittees
  have hcomes := lt_farFuture htwo
  have hepoch : (s.atNextSlot e.constants).currentEpoch e.constants
      = s'.currentEpoch e.constants := by
    rw [ChainState.currentEpoch, ChainState.currentEpoch, hframe.slot]
    rfl
  have hmono : s.currentEpoch e.constants ≤ s'.currentEpoch e.constants :=
    Constants.epochAt_mono (hframe.slot ▸ Nat.le_succ _)
  -- The active set is still that of the state before, the mixes are already those of the one after.
  obtain ⟨-, hbefore⟩ := hreach.sameSources hstart hlimit hcomes (hmono.trans hto)
  obtain ⟨hwindow, hafter⟩ := Engine.Reaches.sameSources
    (hreach.tail (.advance _ (advance_of_step hstep))) hstart hlimit hcomes hto
  have hmix : (s.atNextSlot e.constants).anchorMix? e.constants epoch
      = s'.anchorMix? e.constants epoch := by
    rw [ChainState.anchorMix?, ChainState.anchorMix?, hframe.randaoMixes]
  have hsame : SameSources e.constants t (s.atNextSlot e.constants) epoch :=
    ⟨hmix.trans hafter.mix, hbefore.active⟩
  refine hsame.committeesOf e.consistent hcommittees (checkWindow_eq_ok.2 ⟨htwo, ?_, ?_⟩)
  · rw [hepoch]
    exact hnext
  · rw [InWindow, hepoch]
    exact hwindow

end Beacon
