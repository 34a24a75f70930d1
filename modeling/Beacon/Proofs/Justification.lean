import Mathlib
import Beacon.Proofs.LoneVoter
import Beacon.Proofs.Transition.Ballots

set_option autoImplicit false

/-! # Two thirds justify

A boundary counts what the state remembers; by `Crosses.tally` that is the support of all ballots
included so far for the two roots that headed the chain when the last two epochs started. With the
sums in range, the bits and the justified checkpoint after a boundary say exactly which of the two
targets has two thirds of the active stake behind it (`justified_iff_two_thirds`). -/

namespace Beacon

variable {e : Engine} {h : Chronicle} {s : ChainState} {x : Boundary}

/-! ## The root of an epoch -/

/-- The last block that a boundary knows up to the start of an epoch. -/
def Boundary.headBlock? (c : Constants) (h : Chronicle) (x : Boundary) (epoch : Epoch) :
    Option CandidateBlock :=
  lastUpTo (chainFrom h.first x.blocks) (epoch * c.slotsPerEpoch)

/-- The root that is written for the start of an epoch is that of the block that headed the chain
    then, unless some state root is that of no block. -/
theorem Engine.Run.headBlock (hrun : e.Run h s) (hx : x ∈ h.boundaries)
    (hroots : ∀ b ∈ chainFrom h.first x.blocks, b.stateRoot ≠ Root.none) {epoch : Epoch}
    (hle : epoch ≤ x.ended e.constants) {root : Root}
    (hroot : h.headOf? e.constants epoch = some root) :
    ∃ b, x.headBlock? e.constants h epoch = some b ∧ b.root = root := by
  obtain ⟨h₀, s₀, hcross, hext⟩ := hrun.exists_crosses hx
  have hrun₀ := hcross.run.slot hcross.step
  have hslot := (step_frame hcross.step).slot
  have hchain : (h₀.afterSlot e.constants s₀ x.exit).chain = chainFrom h.first x.blocks := by
    rw [hext.first, hcross.blocks]
    rfl
  have hpast : epoch * e.constants.slotsPerEpoch < x.exit.slot := by
    calc epoch * e.constants.slotsPerEpoch
        ≤ s₀.currentEpoch e.constants * e.constants.slotsPerEpoch :=
          Nat.mul_le_mul_right _ (hcross.ended ▸ hle)
      _ ≤ s₀.slot := Constants.epochAt_mul_le s₀.slot
      _ < x.exit.slot := by lia
  obtain ⟨b, hlast, hhead⟩ := (hrun₀.heads_eq (hchain ▸ hroots)).2 _ hpast
  have hsame : h.headOf? e.constants epoch = some b.root := hext.headOf? hhead
  refine ⟨b, ?_, Option.some.inj (hsame.symm.trans hroot)⟩
  rw [Boundary.headBlock?, ← hchain]
  exact hlast

/-! ## The theorem -/

/-- **Justification needs, and only needs, two thirds.** At every boundary of a run from the third
    epoch on, with an active stake that is a word and at least two increments: the first bit says
    whether two thirds of it support the root that headed the chain when the epoch that ends
    started, the second one whether that was so before or two thirds support the root of the epoch
    before, and the later of the supported targets becomes the justified checkpoint. Both roots are
    those of the blocks that headed the chain, unless some state root is that of no block. -/
theorem justified_iff_two_thirds (hrun : e.Run h s) (hx : x ∈ h.boundaries)
    (hlate : 2 ≤ x.ended e.constants)
    (hfits : StakeFits e.constants x.entry (x.ended e.constants)) :
    ∃ last before, h.headOf? e.constants (x.ended e.constants) = some last ∧
      h.headOf? e.constants (x.ended e.constants - 1) = some before ∧
      ((∀ b ∈ chainFrom h.first x.blocks, b.stateRoot ≠ Root.none) →
        (∃ b, x.headBlock? e.constants h (x.ended e.constants) = some b ∧ b.root = last) ∧
        ∃ b, x.headBlock? e.constants h (x.ended e.constants - 1) = some b ∧ b.root = before) ∧
      (bitAt x.exit.justificationBits 0 = true ↔
        2 * x.stake e.constants
          ≤ 3 * x.supportFor e.constants ⟨x.ended e.constants, last⟩) ∧
      (bitAt x.exit.justificationBits 1 = true ↔
        bitAt x.entry.justificationBits 0 = true ∨
          2 * x.stake e.constants
            ≤ 3 * x.supportFor e.constants ⟨x.ended e.constants - 1, before⟩) ∧
      x.exit.currentJustified =
        if 2 * x.stake e.constants ≤ 3 * x.supportFor e.constants ⟨x.ended e.constants, last⟩ then
          ⟨x.ended e.constants, last⟩
        else if 2 * x.stake e.constants
            ≤ 3 * x.supportFor e.constants ⟨x.ended e.constants - 1, before⟩ then
          ⟨x.ended e.constants - 1, before⟩
        else x.entry.currentJustified := by
  obtain ⟨h₀, s₀, hcross, hext⟩ := hrun.exists_crosses hx
  obtain ⟨summary, -, ⟨hearly, -⟩ | ⟨-, t, hcounts, hverdict⟩⟩ := hcross.verdict
  · exact absurd hlate (by lia)
  have htallies := (hcross.tally (by lia) hcounts).extend hext
  have hpassLast := htallies.passesLast_iff e.consistent hfits
  have hpassBefore := htallies.passesBefore_iff e.consistent hfits
  refine ⟨t.last, t.before, htallies.last, htallies.before, ?_, ?_, ?_, ?_⟩
  · exact fun hroots => ⟨hrun.headBlock hx hroots le_rfl htallies.last,
      hrun.headBlock hx hroots (Nat.sub_le ..) htallies.before⟩
  · rw [hverdict.justificationBits, ← hpassLast]
    rfl
  · rw [hverdict.justificationBits, ← hpassBefore, ← Bool.or_eq_true]
    rfl
  · rw [hverdict.currentJustified, Tally.justified?]
    simp only [← hpassLast, ← hpassBefore]
    split
    · rfl
    · split <;> rfl

/-- At the boundary into slot five of the lone validator's chain, which justifies the epoch before
    the one that ends. -/
theorem justified_iff_two_thirds_lone :
    ∃ h s x last before, Engine.lone.Run h s ∧ x ∈ h.boundaries ∧ x.ended Constants.lone = 4 ∧
      StakeFits Constants.lone x.entry 4 ∧ h.headOf? Constants.lone 4 = some last ∧
      h.headOf? Constants.lone 3 = some before ∧
      (bitAt x.exit.justificationBits 0 = true ↔
        2 * x.stake Constants.lone ≤ 3 * x.supportFor Constants.lone ⟨4, last⟩) ∧
      (bitAt x.exit.justificationBits 1 = true ↔ bitAt x.entry.justificationBits 0 = true ∨
        2 * x.stake Constants.lone ≤ 3 * x.supportFor Constants.lone ⟨3, before⟩) ∧
      bitAt x.exit.justificationBits 1 = true ∧ x.exit.currentJustified.epoch = 3 := by
  obtain ⟨h, s, hat⟩ := exists_loneAt (n := 5) (by decide) (by decide)
  obtain ⟨x, -, -, hx, rfl, -⟩ := hat.finalized le_rfl
  have hended : x.ended Engine.lone.constants = 4 := hat.run.boundary_ended hx
  have hmem := List.mem_of_getElem? hx
  have hfits := hat.fits x hmem
  obtain ⟨last, before, hlast, hbefore, -, hfirst, hsecond, -⟩ :=
    justified_iff_two_thirds hat.run hmem (hended.symm ▸ by decide) hfits
  rw [hended] at hlast hbefore hfirst hsecond
  obtain ⟨hbit, hcurrent⟩ := hat.second (by decide)
  exact ⟨h, x.exit, x, last, before, hat.run, hmem, hended, hended ▸ hfits, hlast, hbefore, hfirst,
    hsecond, hbit, by lia⟩

end Beacon
