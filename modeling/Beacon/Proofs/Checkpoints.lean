import Mathlib
import Beacon.Proofs.Justification
import Beacon.Proofs.LoneVoter
import Beacon.Proofs.Transition.Ordering

set_option autoImplicit false

/-! # Checkpoints only move forward

What a boundary justifies it has counted, and what it finalizes was justified before (`Holds`). A
justified checkpoint names the root that was written for the start of its epoch, so that there is at
most one for each epoch. With the order of the checkpoints this gives `checkpoints_advance`. -/

namespace Beacon

variable {c : Constants} {e : Engine} {h : Chronicle} {s s' : ChainState} {x : Boundary}
  {cp : Checkpoint}

/-! ## One root for each epoch -/

/-- A boundary justifies a checkpoint: the target of the epoch that ends, or of the one before it,
    has passed the count. -/
inductive Boundary.Justifies (c : Constants) (x : Boundary) (cp : Checkpoint) : Prop where
  | last {t : Tally} (late : 1 < x.ended c)
      (counts : t.Counts c x.entry (committeesOf c x.entry) (x.ended c))
      (passes : t.passesLast (activeBalance c x.entry (x.ended c)) = true)
      (eq : cp = ⟨x.ended c, t.last⟩)
  | before {t : Tally} (late : 1 < x.ended c)
      (counts : t.Counts c x.entry (committeesOf c x.entry) (x.ended c))
      (passes : t.passesBefore (activeBalance c x.entry (x.ended c)) = true)
      (eq : cp = ⟨x.ended c - 1, t.before⟩)

/-- A boundary finalizes a checkpoint. -/
def Boundary.Finalizes (c : Constants) (x : Boundary) (cp : Checkpoint) : Prop :=
  ∃ summary, processEpoch c x.entry = .ok (summary, x.exit) ∧ summary.finalized = some cp

/-- The checkpoint is the default one, or some boundary of the chronicle has justified it. -/
def Chronicle.Justified (c : Constants) (h : Chronicle) (cp : Checkpoint) : Prop :=
  cp = {} ∨ ∃ x ∈ h.boundaries, x.Justifies c cp

theorem Chronicle.Justified.extend {h' : Chronicle} (hjustified : h.Justified c cp)
    (hext : h.Extends h') : h'.Justified c cp := by
  rcases hjustified with hdefault | ⟨x, hx, hjustifies⟩
  · exact Or.inl hdefault
  · exact Or.inr ⟨x, hext.boundaries.subset hx, hjustifies⟩

/-- The justified checkpoints of a state are justified, and so is the finalized one. -/
structure Holds (c : Constants) (h : Chronicle) (s : ChainState) : Prop where
  finalized : h.Justified c s.finalized
  previous : h.Justified c s.previousJustified
  current : h.Justified c s.currentJustified

theorem Holds.congr {h' : Chronicle} (hholds : Holds c h s) (hext : h.Extends h')
    (hsame : SameCheckpoints s s') : Holds c h' s' :=
  ⟨hsame.finalized ▸ hholds.finalized.extend hext,
    hsame.previousJustified ▸ hholds.previous.extend hext,
    hsame.currentJustified ▸ hholds.current.extend hext⟩

/-- What a boundary justifies it has counted, and what it finalizes was justified before. -/
theorem Engine.Crosses.holds (hcross : e.Crosses h s x) (hholds : Holds e.constants h s) :
    Holds e.constants (h.afterSlot e.constants s x.exit) x.exit ∧
      ∀ cp, x.Finalizes e.constants cp → h.Justified e.constants cp := by
  have hext := Chronicle.extends_afterSlot e.constants h s x.exit
  have hprevious : x.entry.previousJustified = s.previousJustified := by
    rw [hcross.entry]
    rfl
  have hcurrent : x.entry.currentJustified = s.currentJustified := by
    rw [hcross.entry]
    rfl
  have hold : x.entry.finalized = s.finalized := by
    rw [hcross.entry]
    rfl
  obtain ⟨summary, hprocess, ⟨-, hsummary, hsame⟩ | ⟨hlate, t, hcounts, hverdict⟩⟩ := hcross.verdict
  · refine ⟨hholds.congr hext ⟨hsame.previousJustified.trans hprevious,
      hsame.currentJustified.trans hcurrent, ?_, hsame.finalized.trans hold⟩, ?_⟩
    · rw [hsame.justificationBits, hcross.entry]
      rfl
    · rintro cp ⟨summary', hprocess', hfinalized⟩
      obtain rfl : summary = summary' :=
        congrArg Prod.fst (Except.ok.inj (hprocess.symm.trans hprocess'))
      rw [hsummary] at hfinalized
      cases hfinalized
  · -- Whatever is finalized is one of the two checkpoints that were justified.
    have hrule : ∀ cp, summary.finalized = some cp → h.Justified e.constants cp := by
      intro cp hcp
      cases hverdict.rule hcp with
      | previous heq => exact heq ▸ hprevious ▸ hholds.previous
      | current heq => exact heq ▸ hcurrent ▸ hholds.current
    refine ⟨⟨?_, ?_, ?_⟩, ?_⟩
    · rw [hverdict.finalized]
      cases hfinalized : summary.finalized with
      | none => exact hold ▸ hholds.finalized.extend hext
      | some cp => exact (hrule cp hfinalized).extend hext
    · rw [hverdict.previousJustified, hcurrent]
      exact hholds.current.extend hext
    · have hx : x ∈ (h.afterSlot e.constants s x.exit).boundaries := by
        rw [hcross.boundaries]
        exact List.mem_concat_self
      rw [hverdict.currentJustified, Tally.justified?]
      split
      · next hpass => exact Or.inr ⟨x, hx, .last hlate hcounts hpass rfl⟩
      · split
        · next hpass => exact Or.inr ⟨x, hx, .before hlate hcounts hpass rfl⟩
        · exact hcurrent ▸ hholds.current.extend hext
    · rintro cp ⟨summary', hprocess', hfinalized⟩
      obtain rfl : summary = summary' :=
        congrArg Prod.fst (Except.ok.inj (hprocess.symm.trans hprocess'))
      exact hrule cp hfinalized

theorem Engine.Run.holds (hrun : e.Run h s) : Holds e.constants h s := by
  induction hrun with
  | genesis => exact ⟨Or.inl rfl, Or.inl rfl, Or.inl rfl⟩
  | @slot h s s' hrun hstep ih =>
      rcases step_cases hstep with ⟨hstart, -⟩ | ⟨hstart, rfl⟩
      · have hcross : e.Crosses h s ⟨s.atNextSlot e.constants, s', h.blocks⟩ :=
          ⟨hrun, hstart, hstep, rfl, rfl⟩
        exact (hcross.holds ih).1
      · exact ih.congr (Chronicle.extends_afterSlot ..) ⟨rfl, rfl, rfl, rfl⟩
  | block hrun hblock ih =>
      have hframe := applyBlock_frame hblock
      exact ih.congr (Chronicle.extends_afterBlock ..) hframe.sameCheckpoints

/-- A boundary justifies roots that headed the chain when their epochs started. -/
theorem Engine.Run.headOf?_of_justifies (hrun : e.Run h s) (hx : x ∈ h.boundaries)
    (hjustifies : x.Justifies e.constants cp) : h.headOf? e.constants cp.epoch = some cp.root := by
  obtain ⟨h₀, s₀, hcross, hext⟩ := hrun.exists_crosses hx
  cases hjustifies with
  | last hlate hcounts _ heq =>
      rw [heq]
      exact hext.headOf? (hcross.tally (by lia) hcounts).last
  | before hlate hcounts _ heq =>
      rw [heq]
      exact hext.headOf? (hcross.tally (by lia) hcounts).before

/-- What has been justified names the root of its epoch. -/
theorem Engine.Run.headOf?_of_justified (hrun : e.Run h s) (hjustified : h.Justified e.constants cp)
    (hpos : 0 < cp.epoch) : h.headOf? e.constants cp.epoch = some cp.root := by
  rcases hjustified with hdefault | ⟨x, hx, hjustifies⟩
  · rw [hdefault] at hpos
    exact absurd hpos (Nat.lt_irrefl 0)
  · exact hrun.headOf?_of_justifies hx hjustifies

theorem Engine.Run.justified_of_finalizes (hrun : e.Run h s) (hx : x ∈ h.boundaries)
    (hfinalizes : x.Finalizes e.constants cp) : h.Justified e.constants cp := by
  obtain ⟨h₀, s₀, hcross, hext⟩ := hrun.exists_crosses hx
  have hjustified := (hcross.holds hcross.run.holds).2 cp hfinalizes
  exact hjustified.extend ((Chronicle.extends_afterSlot ..).trans hext)

/-! ## The theorem -/

/-- **Checkpoints stay in order and only move forward.** In a run the finalized checkpoint is no
    later than the previous justified one, that no later than the current one, and that before the
    running epoch; no further calls take any of the three back. The three are default ones or have
    been justified by a boundary; and once a boundary has justified a checkpoint of an epoch after
    the first, no boundary of the run justifies or finalizes another one of the same epoch. -/
theorem checkpoints_advance (hrun : e.Run h s) :
    Ordered e.constants s ∧ (∀ s', e.Reaches s s' → Forward s s') ∧ Holds e.constants h s ∧
      ∀ x ∈ h.boundaries, ∀ y ∈ h.boundaries, ∀ cp cp' : Checkpoint,
        x.Justifies e.constants cp → 0 < cp.epoch →
        y.Justifies e.constants cp' ∨ y.Finalizes e.constants cp' →
        cp'.epoch = cp.epoch → cp' = cp := by
  have hord := hrun.reachable.ordered
  refine ⟨hord, fun s' hreach => (hord.reaches hreach).2, hrun.holds, ?_⟩
  intro x hx y hy cp cp' hjustifies hpos hother hepoch
  have hroot := hrun.headOf?_of_justifies hx hjustifies
  have hroot' : h.headOf? e.constants cp'.epoch = some cp'.root := by
    rcases hother with hjustifies' | hfinalizes
    · exact hrun.headOf?_of_justifies hy hjustifies'
    · exact hrun.headOf?_of_justified (hrun.justified_of_finalizes hy hfinalizes) (hepoch ▸ hpos)
  -- The root of an epoch is written once.
  rw [hepoch, hroot] at hroot'
  obtain ⟨epoch, root⟩ := cp
  obtain ⟨epoch', root'⟩ := cp'
  obtain rfl : epoch' = epoch := hepoch
  obtain rfl : root = root' := Option.some.inj hroot'
  rfl

/-- At slot five of the lone validator's chain, where all three have moved. -/
theorem checkpoints_advance_lone :
    ∃ h s, Engine.lone.Run h s ∧ s.currentJustified.epoch = 3 ∧ s.previousJustified.epoch = 2 ∧
      Ordered Constants.lone s ∧ (∀ s', Engine.lone.Reaches s s' → Forward s s') ∧
      Holds Constants.lone h s := by
  obtain ⟨h, s, hat⟩ := exists_loneAt (n := 5) (by decide) (by decide)
  obtain ⟨hordered, hforward, hholds, -⟩ := checkpoints_advance hat.run
  obtain ⟨-, hcurrent⟩ := hat.second (by decide)
  obtain ⟨-, hprevious⟩ := hat.third (by decide)
  exact ⟨h, s, hat.run, by lia, by lia, hordered, hforward, hholds⟩

end Beacon
