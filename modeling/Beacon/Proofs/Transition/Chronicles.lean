import Mathlib
import Beacon.Proofs.Transition.Attestations
import Beacon.Proofs.Transition.Tracking

set_option autoImplicit false

/-! # Chronicles of a chain

A state forgets: its rings go round, and a boundary drops the attestations that it has settled. A
`Chronicle` writes down what a run has done since its first state: the blocks, the root that headed
the chain when each slot was left, and the epoch boundaries with the states on both sides of them.
`e.Run h s` says that a run from a first state with chronicle `h` has come to `s`; every reachable
state has one (`Engine.Reachable.exists_run`). Boundary number `n` closes epoch `n`
(`Run.boundary_ended`), and the ring of block roots is the end of the written roots
(`Run.blockRoots`). -/

namespace Beacon

/-! ## Writing a run down -/

/-- The start of an epoch in a run. -/
structure Boundary where
  /-- The state that has entered the slot, before the epoch that ended is settled. -/
  entry : ChainState
  /-- The state after that. -/
  exit : ChainState
  /-- The blocks that the run had imported, oldest first. -/
  blocks : List CandidateBlock

/-- The epoch that a boundary closes. -/
def Boundary.ended (c : Constants) (x : Boundary) : Epoch := x.entry.currentEpoch c - 1

/-- What a run has done since its first state, oldest first. -/
structure Chronicle where
  first : ChainState
  blocks : List CandidateBlock := []
  /-- The roots of the headers that headed the chain when the slots from zero on were left. -/
  heads : List Root := []
  boundaries : List Boundary := []

namespace Chronicle

variable {c : Constants} {h h' : Chronicle} {x : Boundary}

/-- The chronicle after a slot that leads from `s` to `s'`. -/
@[simps] def afterSlot (c : Constants) (h : Chronicle) (s s' : ChainState) : Chronicle where
  first := h.first
  blocks := h.blocks
  heads := h.heads ++ [hashRoot s.filledHeader]
  boundaries :=
    if c.isEpochStart (s.slot + 1) then h.boundaries ++ [⟨s.atNextSlot c, s', h.blocks⟩]
    else h.boundaries

/-- The chronicle after a block. -/
@[simps] def afterBlock (h : Chronicle) (b : CandidateBlock) : Chronicle where
  first := h.first
  blocks := h.blocks ++ [b]
  heads := h.heads
  boundaries := h.boundaries

/-- The blocks of the chain, with the one that stands for the first state. -/
def chain (h : Chronicle) : List CandidateBlock := chainFrom h.first h.blocks

/-- The root of the header that headed the chain when `epoch` started. -/
def headOf? (c : Constants) (h : Chronicle) (epoch : Epoch) : Option Root :=
  h.heads[epoch * c.slotsPerEpoch]?

/-- The second chronicle goes on where the first one ends. -/
structure Extends (h h' : Chronicle) : Prop where
  first : h'.first = h.first
  blocks : h.blocks <+: h'.blocks
  heads : h.heads <+: h'.heads
  boundaries : h.boundaries <+: h'.boundaries

theorem Extends.refl (h : Chronicle) : h.Extends h :=
  ⟨rfl, List.prefix_rfl, List.prefix_rfl, List.prefix_rfl⟩

theorem Extends.trans {h'' : Chronicle} (h₁ : h.Extends h') (h₂ : h'.Extends h'') :
    h.Extends h'' :=
  ⟨h₂.first.trans h₁.first, h₁.blocks.trans h₂.blocks, h₁.heads.trans h₂.heads,
    h₁.boundaries.trans h₂.boundaries⟩

theorem extends_afterSlot (c : Constants) (h : Chronicle) (s s' : ChainState) :
    h.Extends (h.afterSlot c s s') := by
  refine ⟨rfl, List.prefix_rfl, List.prefix_append .., ?_⟩
  rw [afterSlot_boundaries]
  split
  · exact List.prefix_append ..
  · exact List.prefix_rfl

theorem extends_afterBlock (h : Chronicle) (b : CandidateBlock) : h.Extends (h.afterBlock b) :=
  ⟨rfl, List.prefix_append .., List.prefix_rfl, List.prefix_rfl⟩

/-- What has been written stays as it is. -/
theorem Extends.headOf? (hext : h.Extends h') {epoch : Epoch} {root : Root}
    (hroot : h.headOf? c epoch = some root) : h'.headOf? c epoch = some root := by
  obtain ⟨hlt, hget⟩ := List.getElem?_eq_some_iff.1 hroot
  rw [Chronicle.headOf?, List.getElem?_eq_some_iff]
  exact ⟨hlt.trans_le hext.heads.length_le, (hext.heads.getElem hlt).symm.trans hget⟩

theorem Extends.boundary (hext : h.Extends h') {n : Nat} (hx : h.boundaries[n]? = some x) :
    h'.boundaries[n]? = some x := by
  obtain ⟨hlt, hget⟩ := List.getElem?_eq_some_iff.1 hx
  rw [List.getElem?_eq_some_iff]
  exact ⟨hlt.trans_le hext.boundaries.length_le, (hext.boundaries.getElem hlt).symm.trans hget⟩

end Chronicle

/-- A run from a first state to `s`, slot by slot and block by block, with its chronicle. -/
inductive Engine.Run (e : Engine) : Chronicle → ChainState → Prop where
  | genesis (time : Nat) (validators : List Validator) (data : ExternalData) (fork : Fork) :
      e.Run { first := ChainState.genesis e.constants time validators data fork }
        (ChainState.genesis e.constants time validators data fork)
  | slot {h : Chronicle} {s s' : ChainState} (hrun : e.Run h s)
      (hstep : Engine.step e.constants s = .ok s') : e.Run (h.afterSlot e.constants s s') s'
  | block {h : Chronicle} {s s' : ChainState} {b : CandidateBlock} (hrun : e.Run h s)
      (hblock : e.applyBlock s b = .ok s') : e.Run (h.afterBlock b) s'

variable {e : Engine} {h : Chronicle} {s s' : ChainState} {x : Boundary}

/-! ## Runs and calls -/

/-- A slot is an advance by one. -/
theorem advance_succ_eq_ok :
    e.advance s (s.slot + 1) = .ok s' ↔ Engine.step e.constants s = .ok s' := by
  rw [advance_eq_ok, Nat.add_sub_cancel_left, and_iff_right (Nat.le_succ _), stepBy_succ_eq_ok]
  constructor
  · rintro ⟨t, hstep, hdone⟩
    obtain rfl : t = s' := by simpa [Engine.stepBy] using hdone
    exact hstep
  · exact fun hstep => ⟨s', hstep, rfl⟩

theorem advance_of_step (hstep : Engine.step e.constants s = .ok s') :
    e.advance s (s.slot + 1) = .ok s' :=
  advance_succ_eq_ok.2 hstep

/-- A block at the slot of the state is imported without advancing. -/
theorem importBlock_of_applyBlock {b : CandidateBlock} (hblock : e.applyBlock s b = .ok s') :
    e.importBlock s b = .ok s' := by
  have hslot := (applyBlock_frame hblock).blockSlot
  refine importBlock_eq_ok.2 ⟨s, advance_eq_ok.2 ⟨hslot.ge, ?_⟩, hblock⟩
  rw [hslot, Nat.sub_self]
  rfl

theorem Engine.Run.reachable (hrun : e.Run h s) : e.Reachable s := by
  induction hrun with
  | genesis time validators data fork => exact ⟨time, validators, data, fork, .refl _⟩
  | slot _ hstep ih => exact ih.reaches (.of_advance (advance_of_step hstep))
  | block _ hblock ih => exact ih.reaches (.of_importBlock (importBlock_of_applyBlock hblock))

/-- A run goes on with every further call. -/
theorem Engine.Run.extend (hrun : e.Run h s) (hreach : e.Reaches s s') :
    ∃ h', e.Run h' s' ∧ h.Extends h' := by
  have hmoves := hreach.moves
  clear hreach
  induction hmoves with
  | refl => exact ⟨h, hrun, .refl h⟩
  | tail _ hmove ih =>
      obtain ⟨h', hrun', hext⟩ := ih
      cases hmove with
      | step hstep => exact ⟨_, hrun'.slot hstep, hext.trans (Chronicle.extends_afterSlot ..)⟩
      | block b hblock => exact ⟨_, hrun'.block hblock, hext.trans (Chronicle.extends_afterBlock ..)⟩

/-- An advance writes no block. -/
theorem Engine.Run.advance (hrun : e.Run h s) {target : Slot}
    (hadvance : e.advance s target = .ok s') :
    ∃ h', e.Run h' s' ∧ h.Extends h' ∧ h'.blocks = h.blocks := by
  refine stepBy_invariant (P := fun t => ∃ h', e.Run h' t ∧ h.Extends h' ∧ h'.blocks = h.blocks)
    (fun t t' ht hstep => ?_) ⟨h, hrun, .refl h, rfl⟩ (advance_eq_ok.1 hadvance).2
  obtain ⟨h', hrun', hext, hblocks⟩ := ht
  exact ⟨_, hrun'.slot hstep, hext.trans (Chronicle.extends_afterSlot ..), hblocks⟩

/-- An import writes its block. -/
theorem Engine.Run.importBlock (hrun : e.Run h s) {b : CandidateBlock}
    (himport : e.importBlock s b = .ok s') :
    ∃ h', e.Run h' s' ∧ h.Extends h' ∧ h'.blocks = h.blocks ++ [b] := by
  obtain ⟨t, hadvance, hblock⟩ := importBlock_eq_ok.1 himport
  obtain ⟨h', hrun', hext, hblocks⟩ := hrun.advance hadvance
  refine ⟨_, hrun'.block hblock, hext.trans (Chronicle.extends_afterBlock ..), ?_⟩
  rw [Chronicle.afterBlock_blocks, hblocks]

/-- Every reachable state has a chronicle. -/
theorem Engine.Reachable.exists_run (hreach : e.Reachable s) : ∃ h, e.Run h s := by
  obtain ⟨time, validators, data, fork, hreach⟩ := hreach
  obtain ⟨h, hrun, -⟩ := (Engine.Run.genesis time validators data fork).extend hreach
  exact ⟨h, hrun⟩

/-- What slots and blocks keep from a state of a run on, the rest of the run keeps. -/
theorem Engine.Run.invariant {P : ChainState → Prop} (hrun : e.Run h s) (hreach : e.Reaches s s')
    (slot : ∀ h t t', e.Run h t → s.slot ≤ t.slot → P t → Engine.step e.constants t = .ok t' → P t')
    (block : ∀ h t t' b, e.Run h t → s.slot ≤ t.slot → P t → e.applyBlock t b = .ok t' → P t')
    (hs : P s) : P s' := by
  have hall := hreach.invariant (P := fun t => (∃ h, e.Run h t) ∧ s.slot ≤ t.slot ∧ P t)
    (fun t t' ht hmove => by
      obtain ⟨⟨h, hrun⟩, hle, ht⟩ := ht
      have hle' := hle.trans hmove.slot_le
      cases hmove with
      | step hstep => exact ⟨⟨_, hrun.slot hstep⟩, hle', slot h t t' hrun hle ht hstep⟩
      | block b hblock => exact ⟨⟨_, hrun.block hblock⟩, hle', block h t t' b hrun hle ht hblock⟩)
    ⟨⟨h, hrun⟩, le_rfl, hs⟩
  exact hall.2.2

/-! ## Written roots and the ring -/

namespace Engine.Run

theorem slot_lt (hrun : e.Run h s) : s.slot < Word.limit := by
  induction hrun with
  | genesis => exact Nat.zero_lt_succ _
  | slot _ hstep => exact (step_frame hstep).slot_lt
  | block _ hblock ih =>
      rw [(applyBlock_frame hblock).slot]
      exact ih

theorem length_heads (hrun : e.Run h s) : h.heads.length = s.slot := by
  induction hrun with
  | genesis => rfl
  | slot _ hstep ih => simp [(step_frame hstep).slot, ih]
  | block _ hblock ih =>
      rw [(applyBlock_frame hblock).slot]
      exact ih

/-- The ring of block roots holds the last round of the written roots. -/
theorem blockRoots (hrun : e.Run h s) {u : Slot} (hlt : u < s.slot)
    (hround : s.slot ≤ u + e.constants.slotsPerHistoricalRoot) :
    s.blockRoots[u % e.constants.slotsPerHistoricalRoot]? = h.heads[u]? := by
  induction hrun with
  | genesis => exact absurd hlt (Nat.not_lt_zero u)
  | @slot h s s' hrun hstep ih =>
      have hframe := step_frame hstep
      have hlength := hrun.length_heads
      rw [hframe.slot] at hlt hround
      rw [hframe.blockRoots, Chronicle.afterSlot_heads]
      by_cases heq : u = s.slot
      · -- The slot that is left gets the root that is written for it.
        subst heq
        rw [ChainState.getElem?_atNextSlot_blockRoots_self hframe.rings
          e.consistent.slotsPerHistoricalRoot_pos, ← hlength, List.getElem?_concat_length]
      · have hlt' : u < s.slot := by lia
        rw [ChainState.getElem?_atNextSlot_blockRoots_ne (place_ne_of_lt_round hlt' (by lia)).symm,
          List.getElem?_append_left (by lia)]
        exact ih hlt' (by lia)
  | block _ hblock ih =>
      have hframe := applyBlock_frame hblock
      rw [hframe.slot] at hlt hround
      rw [hframe.frame.blockRoots]
      exact ih hlt hround

/-- While no state root is that of no block, the written roots are those of the blocks that headed
    the chain. -/
theorem heads_eq (hrun : e.Run h s) (hroots : ∀ b ∈ h.chain, b.stateRoot ≠ Root.none) :
    Tracks e.constants h.chain s ∧
      ∀ u, u < s.slot → ∃ b, lastUpTo h.chain u = some b ∧ h.heads[u]? = some b.root := by
  induction hrun with
  | genesis => exact ⟨tracks_genesis .., fun u hu => absurd hu (Nat.not_lt_zero u)⟩
  | @slot h s s' hrun hstep ih =>
      obtain ⟨htracks, hheads⟩ := ih hroots
      refine ⟨htracks.step e.consistent hroots hstep, fun u hu => ?_⟩
      have hlength := hrun.length_heads
      rw [(step_frame hstep).slot] at hu
      rw [Chronicle.afterSlot_heads]
      by_cases heq : u = s.slot
      · subst heq
        obtain ⟨tip, htip, hheaded⟩ := htracks.header
        refine ⟨tip, lastUpTo_of_getLast? htip hheaded.slot_le, ?_⟩
        rw [← hlength, List.getElem?_concat_length, hheaded.filled]
        rfl
      · rw [List.getElem?_append_left (by lia)]
        exact hheads u (by lia)
  | @block h s s' b hrun hblock ih =>
      have hframe := applyBlock_frame hblock
      obtain ⟨htracks, hheads⟩ := ih fun b hb => hroots b (List.mem_append_left _ hb)
      refine ⟨htracks.applyBlock hblock, fun u hu => ?_⟩
      rw [hframe.slot] at hu
      obtain ⟨b', hlast, hhead⟩ := hheads u hu
      refine ⟨b', ?_, hhead⟩
      show lastUpTo (h.chain ++ [b]) u = some b'
      rw [lastUpTo_append_of_lt (by rw [hframe.blockSlot]; exact hu), hlast]

/-! ## Boundaries -/

/-- As many boundaries have been written as epochs are over. -/
theorem length_boundaries (hrun : e.Run h s) :
    h.boundaries.length = s.currentEpoch e.constants := by
  induction hrun with
  | genesis => simp [ChainState.currentEpoch, Constants.epochAt, ChainState.genesis]
  | slot _ hstep ih =>
      rw [Chronicle.afterSlot_boundaries, ChainState.currentEpoch, (step_frame hstep).slot]
      split
      · next hstart =>
          rw [List.length_append, List.length_singleton, ih, ChainState.currentEpoch,
            Constants.epochAt_succ_of_start hstart]
      · next hstart =>
          rw [ih, ChainState.currentEpoch, Constants.epochAt_succ_of_not_start hstart]
  | block _ hblock ih =>
      rw [ChainState.currentEpoch, (applyBlock_frame hblock).slot]
      exact ih

end Engine.Run

/-- A boundary of a run: the run up to it, which has entered the slot and settled the epoch. -/
structure Engine.Crosses (e : Engine) (h : Chronicle) (s : ChainState) (x : Boundary) : Prop where
  run : e.Run h s
  start : e.constants.isEpochStart (s.slot + 1) = true
  step : Engine.step e.constants s = .ok x.exit
  entry : x.entry = s.atNextSlot e.constants
  blocks : x.blocks = h.blocks

namespace Engine.Crosses

/-- The boundary closes the epoch of the state before it. -/
theorem ended (hcross : e.Crosses h s x) : x.ended e.constants = s.currentEpoch e.constants := by
  rw [Boundary.ended, hcross.entry]
  exact Nat.sub_eq_of_eq_add (Constants.epochAt_succ_of_start hcross.start)

/-- And opens the one after it. -/
theorem currentEpoch_exit (hcross : e.Crosses h s x) :
    x.exit.currentEpoch e.constants = x.ended e.constants + 1 := by
  rw [hcross.ended, ChainState.currentEpoch, (step_frame hcross.step).slot]
  exact Constants.epochAt_succ_of_start hcross.start

theorem settled (hcross : e.Crosses h s x) :
    ∃ summary, processEpoch e.constants x.entry = .ok (summary, x.exit) := by
  have hsettled := (step_eq_ok.1 hcross.step).2.2
  rw [if_pos hcross.start] at hsettled
  exact hcross.entry ▸ hsettled

theorem boundaries (hcross : e.Crosses h s x) :
    (h.afterSlot e.constants s x.exit).boundaries = h.boundaries ++ [x] := by
  rw [Chronicle.afterSlot_boundaries, if_pos hcross.start, ← hcross.entry, ← hcross.blocks]

end Engine.Crosses

namespace Engine.Run

/-- The run up to one of its boundaries. -/
theorem exists_crosses (hrun : e.Run h s) (hx : x ∈ h.boundaries) :
    ∃ h₀ s₀, e.Crosses h₀ s₀ x ∧ (h₀.afterSlot e.constants s₀ x.exit).Extends h := by
  induction hrun with
  | genesis => exact absurd hx List.not_mem_nil
  | @slot h s s' hrun hstep ih =>
      by_cases hold : x ∈ h.boundaries
      · obtain ⟨h₀, s₀, hcross, hext⟩ := ih hold
        exact ⟨h₀, s₀, hcross, hext.trans (Chronicle.extends_afterSlot ..)⟩
      · -- Otherwise the slot has written the boundary itself.
        rw [Chronicle.afterSlot_boundaries] at hx
        split at hx
        · next hstart =>
            obtain rfl := List.mem_singleton.1 ((List.mem_append.1 hx).resolve_left hold)
            exact ⟨h, s, ⟨hrun, hstart, hstep, rfl, rfl⟩, .refl _⟩
        · exact absurd hx hold
  | block _ _ ih =>
      obtain ⟨h₀, s₀, hcross, hext⟩ := ih hx
      exact ⟨h₀, s₀, hcross, hext.trans (Chronicle.extends_afterBlock ..)⟩

/-- Boundary number `n` closes epoch `n`. -/
theorem boundary_ended (hrun : e.Run h s) {n : Nat} (hx : h.boundaries[n]? = some x) :
    x.ended e.constants = n := by
  induction hrun with
  | genesis => simp at hx
  | @slot h s s' hrun hstep ih =>
      rw [Chronicle.afterSlot_boundaries] at hx
      split at hx
      · next hstart =>
          rw [List.getElem?_append] at hx
          split at hx
          · exact ih hx
          · next hlt =>
              have hlength := hrun.length_boundaries
              have hn : n - h.boundaries.length = 0 := by
                simpa using (List.getElem?_eq_some_iff.1 hx).1
              rw [hn] at hx
              obtain rfl := Option.some.inj hx
              rw [Engine.Crosses.ended (x := ⟨s.atNextSlot e.constants, s', h.blocks⟩)
                ⟨hrun, hstart, hstep, rfl, rfl⟩]
              lia
      · exact ih hx
  | block _ _ ih => exact ih hx

end Engine.Run

end Beacon
