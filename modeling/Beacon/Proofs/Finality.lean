import Mathlib
import Beacon.Proofs.Checkpoints
import Beacon.Proofs.LoneVoter

set_option autoImplicit false

/-! # Finality is sound

The rules of finality look at four bits and two old checkpoints. Behind a set bit stands the boundary
that counted the epoch (`BitsRest`): for the latest bit it is the last boundary, where all counted
ballots start from what is the previous justified checkpoint since; for the older ones it is some
boundary before. So whatever a boundary finalizes is the source of two thirds of the stake for an
epoch one or two later, and in the second case the epoch between has been justified as well
(`finalization_sound`). -/

namespace Beacon

variable {c : Constants} {e : Engine} {h h' : Chronicle} {s s' : ChainState} {x y : Boundary}
  {t : Tally} {source cp : Checkpoint} {epoch : Epoch}

/-! ## Links between checkpoints -/

/-- The boundary justifies an epoch by ballots that all start from `source`, of unslashed validators
    with two thirds of the active stake. -/
def Boundary.JustifiesFrom (c : Constants) (x : Boundary) (source : Checkpoint) (epoch : Epoch) :
    Prop :=
  ∃ root, x.Justifies c ⟨epoch, root⟩ ∧
    (∀ b ∈ x.ballotsFor ⟨epoch, root⟩, b.data.source = source) ∧
    2 * x.stake c ≤ 3 * x.supportFor c ⟨epoch, root⟩

/-- Some boundary of the chronicle justifies the epoch. -/
def Chronicle.JustifiedEpoch (c : Constants) (h : Chronicle) (epoch : Epoch) : Prop :=
  ∃ x ∈ h.boundaries, ∃ root, x.Justifies c ⟨epoch, root⟩

theorem Chronicle.JustifiedEpoch.extend (hjustified : h.JustifiedEpoch c epoch)
    (hext : h.Extends h') : h'.JustifiedEpoch c epoch := by
  obtain ⟨x, hx, hroot⟩ := hjustified
  exact ⟨x, hext.boundaries.subset hx, hroot⟩

/-- A counted ballot of the epoch that ends starts from the justified checkpoint of its time. -/
theorem Engine.Crosses.justifiesLast (hcross : e.Crosses h s x)
    (hfits : StakeFits e.constants x.entry (x.ended e.constants)) (hlate : 1 < x.ended e.constants)
    (hcounts : t.Counts e.constants x.entry (committeesOf e.constants x.entry)
      (x.ended e.constants))
    (hpass : t.passesLast (activeBalance e.constants x.entry (x.ended e.constants)) = true) :
    x.JustifiesFrom e.constants s.currentJustified (x.ended e.constants) := by
  have htallies := hcross.tally (by lia) hcounts
  refine ⟨t.last, .last hlate hcounts hpass rfl, ?_,
    (htallies.passesLast_iff e.consistent hfits).1 hpass⟩
  intro b hb
  obtain ⟨hmem, htarget⟩ := List.mem_filter.1 hb
  rw [decide_eq_true_iff] at htarget
  refine hcross.run.remembers.currentSource b (hcross.blocks ▸ hmem) ?_
  rw [htarget, ← hcross.ended]

/-- A counted ballot of the epoch before starts from the checkpoint that was justified then. -/
theorem Engine.Crosses.justifiesBefore (hcross : e.Crosses h s x)
    (hfits : StakeFits e.constants x.entry (x.ended e.constants)) (hlate : 1 < x.ended e.constants)
    (hcounts : t.Counts e.constants x.entry (committeesOf e.constants x.entry)
      (x.ended e.constants))
    (hpass : t.passesBefore (activeBalance e.constants x.entry (x.ended e.constants)) = true) :
    x.JustifiesFrom e.constants s.previousJustified (x.ended e.constants - 1) := by
  have htallies := hcross.tally (by lia) hcounts
  refine ⟨t.before, .before hlate hcounts hpass rfl, ?_,
    (htallies.passesBefore_iff e.consistent hfits).1 hpass⟩
  intro b hb
  obtain ⟨hmem, htarget⟩ := List.mem_filter.1 hb
  rw [decide_eq_true_iff] at htarget
  refine hcross.run.remembers.previousSource b (hcross.blocks ▸ hmem) ?_
  rw [htarget, ← hcross.ended]
  exact Nat.sub_add_cancel (by lia)

/-! ## What the bits rest on -/

/-- The latest bit rests on the last boundary, whose ballots start from what is now the previous
    justified checkpoint; each bit rests on some boundary of the run. -/
structure BitsRest (c : Constants) (h : Chronicle) (s : ChainState) : Prop where
  latest : bitAt s.justificationBits 0 = true → ∃ epoch y, epoch + 1 = s.currentEpoch c ∧
    h.boundaries[epoch]? = some y ∧ y.JustifiesFrom c s.previousJustified epoch
  all : ∀ k, bitAt s.justificationBits k = true →
    ∃ epoch, epoch + k + 1 = s.currentEpoch c ∧ h.JustifiedEpoch c epoch

/-- With the same checkpoints and bits in the same epoch. -/
theorem BitsRest.congr (hrest : BitsRest c h s) (hext : h.Extends h')
    (hepoch : s'.currentEpoch c = s.currentEpoch c) (hsame : SameCheckpoints s s') :
    BitsRest c h' s' := by
  refine ⟨?_, ?_⟩
  · rw [hsame.justificationBits, hsame.previousJustified, hepoch]
    intro hbit
    obtain ⟨epoch, y, hnext, hy, hfrom⟩ := hrest.latest hbit
    exact ⟨epoch, y, hnext, hext.boundary hy, hfrom⟩
  · rw [hsame.justificationBits, hepoch]
    intro k hbit
    obtain ⟨epoch, hnext, hjustified⟩ := hrest.all k hbit
    exact ⟨epoch, hnext, hjustified.extend hext⟩

/-- An epoch is justified from the third boundary on, and never the first one. -/
theorem Boundary.Justifies.epoch_pos (hjustifies : x.Justifies c cp) : 0 < cp.epoch := by
  cases hjustifies with
  | last late _ _ eq =>
      rw [eq]
      exact Nat.zero_lt_of_lt late
  | before late _ _ eq =>
      rw [eq]
      exact Nat.sub_pos_of_lt late

/-- A boundary of the first two epochs has no bits to shift. -/
theorem BitsRest.unset (hrest : BitsRest c h s) (hearly : s.currentEpoch c ≤ 1) {k : Nat} :
    ¬ bitAt s.justificationBits k = true := by
  intro hbit
  obtain ⟨epoch, hnext, y, -, root, hjustifies⟩ := hrest.all k hbit
  have hpos : 0 < epoch := hjustifies.epoch_pos
  lia

/-- Behind the second bit after a boundary stand ballots from the previous justified checkpoint,
    counted at this boundary or at the last one. -/
theorem Engine.Crosses.secondBit (hcross : e.Crosses h s x) (hrest : BitsRest e.constants h s)
    (hfits : StakeFits e.constants x.entry (x.ended e.constants)) (hlate : 1 < x.ended e.constants)
    (hcounts : t.Counts e.constants x.entry (committeesOf e.constants x.entry)
      (x.ended e.constants))
    (hbit : bitAt (t.shifted (activeBalance e.constants x.entry (x.ended e.constants))
      x.entry.justificationBits) 1 = true) :
    ∃ y, (y = x ∨ ∃ n, n + 1 = x.ended e.constants ∧ h.boundaries[n]? = some y) ∧
      y.JustifiesFrom e.constants s.previousJustified (x.ended e.constants - 1) := by
  have hbits : x.entry.justificationBits = s.justificationBits := by
    rw [hcross.entry]
    rfl
  have hcases : bitAt s.justificationBits 0 = true ∨
      t.passesBefore (activeBalance e.constants x.entry (x.ended e.constants)) = true := by
    rw [← hbits, ← Bool.or_eq_true]
    exact hbit
  rcases hcases with hold | hpass
  · obtain ⟨epoch, y, hnext, hy, hfrom⟩ := hrest.latest hold
    rw [← hcross.ended] at hnext
    obtain rfl : epoch = x.ended e.constants - 1 := by lia
    exact ⟨y, Or.inr ⟨_, hnext, hy⟩, hfrom⟩
  · exact ⟨x, Or.inl rfl, hcross.justifiesBefore hfits hlate hcounts hpass⟩

/-- A boundary sets the bits that it has counted, and shifts the others by an epoch. -/
theorem BitsRest.crosses (hrest : BitsRest e.constants h s) (hcross : e.Crosses h s x)
    (hfits : StakeFits e.constants x.entry (x.ended e.constants)) :
    BitsRest e.constants (h.afterSlot e.constants s x.exit) x.exit := by
  have hext := Chronicle.extends_afterSlot e.constants h s x.exit
  have hended := hcross.ended
  have hplace : (h.afterSlot e.constants s x.exit).boundaries[x.ended e.constants]? = some x := by
    rw [hcross.boundaries, hended, ← hcross.run.length_boundaries, List.getElem?_concat_length]
  have hmem : x ∈ (h.afterSlot e.constants s x.exit).boundaries := List.mem_of_getElem? hplace
  have hepoch := hcross.currentEpoch_exit
  have hbits : x.entry.justificationBits = s.justificationBits := by
    rw [hcross.entry]
    rfl
  obtain ⟨summary, -, ⟨hearly, -, hsame⟩ | ⟨hlate, t, hcounts, hverdict⟩⟩ := hcross.verdict
  · have hunset (k : Nat) : ¬ bitAt x.exit.justificationBits k = true := by
      rw [hsame.justificationBits, hbits]
      exact hrest.unset (hended ▸ hearly)
    exact ⟨fun hbit => absurd hbit (hunset 0), fun k hbit => absurd hbit (hunset k)⟩
  · have hlatest (hpass : t.passesLast
        (activeBalance e.constants x.entry (x.ended e.constants)) = true) :
        x.JustifiesFrom e.constants x.exit.previousJustified (x.ended e.constants) := by
      rw [hverdict.previousJustified, hcross.entry, ChainState.atNextSlot_currentJustified]
      exact hcross.justifiesLast hfits hlate hcounts hpass
    refine ⟨?_, ?_⟩
    · rw [hverdict.justificationBits, hepoch]
      intro hpass
      exact ⟨_, x, rfl, hplace, hlatest hpass⟩
    · rw [hverdict.justificationBits, hepoch]
      intro k hbit
      match k with
      | 0 =>
          obtain ⟨root, hjustifies, -⟩ := hlatest hbit
          exact ⟨x.ended e.constants, rfl, x, hmem, root, hjustifies⟩
      | 1 =>
          obtain ⟨y, hy, root, hjustifies, -⟩ := hcross.secondBit hrest hfits hlate hcounts hbit
          refine ⟨x.ended e.constants - 1, by lia, y, ?_, root, hjustifies⟩
          rcases hy with rfl | ⟨n, -, hy⟩
          · exact hmem
          · exact hext.boundaries.subset (List.mem_of_getElem? hy)
      | k + 2 =>
          have hold := Tally.bitAt_shifted_add_two hbit
          rw [hbits] at hold
          obtain ⟨epoch, hnext, hjustified⟩ := hrest.all (k + 1) hold
          exact ⟨epoch, by lia, hjustified.extend hext⟩

/-- **The bits of a run rest on its boundaries.** -/
theorem Engine.Run.bitsRest (hrun : e.Run h s)
    (hfits : ∀ x ∈ h.boundaries, StakeFits e.constants x.entry (x.ended e.constants)) :
    BitsRest e.constants h s := by
  induction hrun with
  | genesis =>
      have hunset (k : Nat) : ¬ bitAt (Vector.replicate 4 false) k = true := by
        rw [bitAt_replicate_false]
        exact Bool.false_ne_true
      exact ⟨fun hbit => absurd hbit (hunset 0), fun k hbit => absurd hbit (hunset k)⟩
  | @slot h s s' hrun hstep ih =>
      have hext := Chronicle.extends_afterSlot e.constants h s s'
      have hrest := ih fun x hx => hfits x (hext.boundaries.subset hx)
      rcases step_cases hstep with ⟨hstart, -⟩ | ⟨hstart, rfl⟩
      · have hcross : e.Crosses h s ⟨s.atNextSlot e.constants, s', h.blocks⟩ :=
          ⟨hrun, hstart, hstep, rfl, rfl⟩
        refine hrest.crosses hcross (hfits _ ?_)
        rw [hcross.boundaries]
        exact List.mem_concat_self
      · exact hrest.congr hext (Constants.epochAt_succ_of_not_start hstart) ⟨rfl, rfl, rfl, rfl⟩
  | block hrun hblock ih =>
      have hframe := applyBlock_frame hblock
      refine (ih hfits).congr (Chronicle.extends_afterBlock ..) ?_ hframe.sameCheckpoints
      rw [ChainState.currentEpoch, hframe.slot, ChainState.currentEpoch]

/-- The epoch of a set bit has been justified by one of the boundaries up to now. -/
theorem Engine.Run.exists_justifies (hrun : e.Run h s) (hrest : BitsRest e.constants h s) {k : Nat}
    (hbit : bitAt s.justificationBits k = true)
    (hepoch : epoch + k + 1 = s.currentEpoch e.constants) :
    ∃ n y root, n < s.currentEpoch e.constants ∧ h.boundaries[n]? = some y ∧
      y.Justifies e.constants ⟨epoch, root⟩ := by
  obtain ⟨epoch', hnext, y, hy, root, hjustifies⟩ := hrest.all k hbit
  obtain rfl : epoch' = epoch := by lia
  obtain ⟨n, hn, hget⟩ := List.getElem_of_mem hy
  refine ⟨n, y, root, hrun.length_boundaries ▸ hn, ?_, hjustifies⟩
  rw [List.getElem?_eq_getElem hn, hget]

/-! ## The theorem -/

/-- **Finality is sound.** In a run with an active stake of at least two increments at every
    boundary, whatever a boundary finalizes is the source of a justified epoch one or two later: at
    this boundary or the last one, included ballots for that epoch have had two thirds of the active
    stake behind them, from unslashed validators, and all of them start from the finalized
    checkpoint. If that epoch is two later, this boundary or an earlier one has justified the epoch
    between as well. -/
theorem finalization_sound (hrun : e.Run h s) {n : Nat} (hx : h.boundaries[n]? = some x)
    (hfits : ∀ y ∈ h.boundaries, StakeFits e.constants y.entry (y.ended e.constants))
    (hfinalizes : x.Finalizes e.constants cp) :
    ∃ epoch, (epoch = cp.epoch + 1 ∨ epoch = cp.epoch + 2) ∧
      (∃ y, (y = x ∨ ∃ m, m + 1 = n ∧ h.boundaries[m]? = some y) ∧
        y.JustifiesFrom e.constants cp epoch) ∧
      (epoch = cp.epoch + 2 → ∃ m z root, m ≤ n ∧ h.boundaries[m]? = some z ∧
        z.Justifies e.constants ⟨cp.epoch + 1, root⟩) := by
  obtain ⟨h₀, s₀, hcross, hext⟩ := hrun.exists_crosses (List.mem_of_getElem? hx)
  obtain rfl : x.ended e.constants = n := hrun.boundary_ended hx
  have hx' := hfits x (List.mem_of_getElem? hx)
  have hrest : BitsRest e.constants h₀ s₀ := by
    refine hcross.run.bitsRest fun y hy => hfits y ?_
    exact ((Chronicle.extends_afterSlot ..).trans hext).boundaries.subset hy
  obtain ⟨summary, hprocess, hsummary⟩ := hfinalizes
  obtain ⟨summary', hprocess', hverdict⟩ := hcross.verdict
  obtain rfl : summary = summary' :=
    congrArg Prod.fst (Except.ok.inj (hprocess.symm.trans hprocess'))
  obtain ⟨-, rfl, -⟩ | ⟨hlate, t, hcounts, hverdict⟩ := hverdict
  · cases hsummary
  -- The epoch before the one that ends is counted here or has been at the last boundary.
  have hsecond (hbit : bitAt x.exit.justificationBits 1 = true) :
      ∃ y, (y = x ∨ ∃ m, m + 1 = x.ended e.constants ∧ h.boundaries[m]? = some y) ∧
        y.JustifiesFrom e.constants s₀.previousJustified (x.ended e.constants - 1) := by
    rw [hverdict.justificationBits] at hbit
    obtain ⟨y, hy, hfrom⟩ := hcross.secondBit hrest hx' hlate hcounts hbit
    refine ⟨y, hy.imp_right ?_, hfrom⟩
    rintro ⟨m, hm, hy⟩
    exact ⟨m, hm, ((Chronicle.extends_afterSlot ..).trans hext).boundary hy⟩
  -- Any epoch whose bit is set after this boundary has been justified by now.
  have hbetween (k : Nat) (hbit : bitAt x.exit.justificationBits k = true) {epoch : Epoch}
      (hepoch : epoch + k = x.ended e.constants) :
      ∃ m z root, m ≤ x.ended e.constants ∧ h.boundaries[m]? = some z ∧
        z.Justifies e.constants ⟨epoch, root⟩ := by
    have hnow := hcross.currentEpoch_exit
    have hsum : epoch + k + 1 = x.exit.currentEpoch e.constants := by lia
    obtain ⟨m, z, root, hm, hz, hjustifies⟩ :=
      (hcross.run.slot hcross.step).exists_justifies (hrest.crosses hcross hx') hbit hsum
    exact ⟨m, z, root, by lia, hext.boundary hz, hjustifies⟩
  have hprevious : x.entry.previousJustified = s₀.previousJustified := by
    rw [hcross.entry]
    rfl
  have hcurrent : x.entry.currentJustified = s₀.currentJustified := by
    rw [hcross.entry]
    rfl
  cases hverdict.rule hsummary with
  | previous heq hsecondBit hthirdBit hdistance =>
      -- The link ends in the epoch before the one that ends.
      refine ⟨x.ended e.constants - 1, by lia, ?_, fun htwo => ?_⟩
      · rw [heq, hprevious]
        exact hsecond hsecondBit
      · exact hbetween 2 hthirdBit (by lia)
  | current heq hfirstBit hsecondBit hdistance =>
      -- The link ends in the epoch that ends.
      refine ⟨x.ended e.constants, by lia, ⟨x, Or.inl rfl, ?_⟩, fun htwo => ?_⟩
      · rw [heq, hcurrent]
        rw [hverdict.justificationBits] at hfirstBit
        exact hcross.justifiesLast hx' hlate hcounts hfirstBit
      · exact hbetween 1 hsecondBit (by lia)

/-- The boundary into slot five of the lone validator's chain finalizes a checkpoint of epoch one. -/
theorem finalization_sound_lone :
    ∃ h s x cp, Engine.lone.Run h s ∧ h.boundaries[4]? = some x ∧ x.Finalizes Constants.lone cp ∧
      cp.epoch = 1 ∧ ∃ epoch, (epoch = 2 ∨ epoch = 3) ∧
        ∃ y, (y = x ∨ ∃ m, m + 1 = 4 ∧ h.boundaries[m]? = some y) ∧
          y.JustifiesFrom Constants.lone cp epoch := by
  obtain ⟨h, s, hat⟩ := exists_loneAt (n := 5) (by decide) (by decide)
  obtain ⟨x, summary, cp, hx, -, hprocess, hfinalized, hcp⟩ := hat.finalized le_rfl
  have hfinalizes : x.Finalizes Constants.lone cp := ⟨summary, hprocess, hfinalized⟩
  obtain ⟨epoch, hepoch, hfrom, -⟩ := finalization_sound hat.run hx hat.fits hfinalizes
  exact ⟨h, s, x, cp, hat.run, hx, hfinalizes, by lia, epoch, by lia, hfrom⟩

end Beacon
