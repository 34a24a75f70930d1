import Mathlib
import Beacon.Proofs.Advancing
import Beacon.Proofs.Digests

set_option autoImplicit false

/-! # The history of block roots

A state tracks its chain: the ring has the roots of the last slots, and the present slot is answered
from the latest header. So block roots looked up on a state are those of the chain, as far back as
the ring reaches (`history_exact`). -/

namespace Beacon

variable {c : Constants} {e : Engine} {s s' : ChainState} {chain : List CandidateBlock}

/-- The slots that a state at slot `t` can answer for: its own, and those of one round before. -/
def Remembered (c : Constants) (t u : Slot) : Prop :=
  u = t ∨ u < t ∧ t ≤ u + c.slotsPerHistoricalRoot

theorem Tracks.blockRootAt? (h : Tracks e.constants chain s) (u : Slot) :
    (Remembered e.constants s.slot u →
      ∃ b, lastUpTo chain u = some b ∧ e.blockRootAt? s u = some b.root) ∧
    (¬ Remembered e.constants s.slot u → e.blockRootAt? s u = none) := by
  rw [Engine.blockRootAt?, ChainState.blockRootAt?_eq h.slot_lt]
  refine ⟨?_, ?_⟩
  · rintro (rfl | ⟨hlt, hround⟩)
    · obtain ⟨tip, htip, hheaded⟩ := h.header
      refine ⟨tip, lastUpTo_of_getLast? htip hheaded.slot_le, ?_⟩
      rw [if_pos rfl, hheaded.filled]
      rfl
    · obtain ⟨b, hlast, hroot⟩ := h.recorded u hlt hround
      refine ⟨b, hlast, ?_⟩
      rw [if_neg (Nat.ne_of_lt hlt), if_pos ⟨hlt, hround⟩, hroot]
  · intro hforgotten
    rw [if_neg fun heq => hforgotten (Or.inl heq), if_neg fun hin => hforgotten (Or.inr hin)]

/-! ## A chain with two blocks -/

/-- Epochs of four slots, and the shortest rings that are accepted for them. -/
def Constants.quad : Constants where
  slotsPerEpoch := 4
  slotsPerHistoricalRoot := 8
  randaoMixesLength := 20

/-- The engine of these constants. -/
def Engine.quad : Engine := ⟨Constants.quad, by decide⟩

/-- The first state with a single validator. -/
def ChainState.quad : ChainState :=
  ChainState.genesis Constants.quad 0 [Validator.genesis (Bytes.zero 48) 32000000000] {} {}

/-- A block of the first validator without operations, before its state root is filled in. -/
def ChainState.emptyBlock (s : ChainState) : CandidateBlock where
  slot := s.slot
  parentRoot := hashRoot s.latestBlockHeader
  body := { randaoReveal := Bytes.fill 96 1 }

/-- The state with this block. -/
def ChainState.afterEmpty (c : Constants) (s : ChainState) : ChainState :=
  s.opened c s.emptyBlock

/-- The block as it is published. -/
def ChainState.sealedBlock (c : Constants) (s : ChainState) : CandidateBlock :=
  { s.emptyBlock with stateRoot := hashRoot (s.afterEmpty c) }

@[simp] theorem ChainState.sealedBlock_stateRoot (c : Constants) (s : ChainState) :
    (s.sealedBlock c).stateRoot = hashRoot (s.afterEmpty c) := rfl

namespace IsSole

theorem afterEmpty (hsole : IsSole c s) : IsSole c (s.afterEmpty c) := hsole.opened rfl

/-- The single validator can propose such a block. -/
theorem applyBlock_sealedBlock (hsole : IsSole e.constants s) (hslot : s.slot ≤ horizon)
    (hnewer : s.latestBlockHeader.slot < s.slot) (hvote : VoteFits e.constants s {}) :
    e.applyBlock s (s.sealedBlock e.constants) = .ok (s.afterEmpty e.constants) := by
  have hdue : depositsDue e.constants (s.afterEmpty e.constants)
      (s.afterEmpty e.constants).externalData = 0 := depositsDue_eq_zero hsole.afterEmpty.depositCount
  have hops : applyOperations e.constants (s.afterEmpty e.constants) s.emptyBlock
      = .ok (s.afterEmpty e.constants) :=
    applyOperations_eq_ok.2
      ⟨⟨Nat.zero_le _, Nat.zero_le _, Nat.zero_le _, hdue.symm⟩, _, _, rfl, rfl, rfl⟩
  have hpost : processBlock e.constants s s.emptyBlock = .ok (s.afterEmpty e.constants) :=
    (processBlock_eq_ok e.consistent).2 ⟨rfl, hsole.mayPropose e.consistent hslot hnewer,
      (by decide : Bytes.fill 96 1 ≠ Bytes.zero 96), hvote, hops⟩
  exact applyBlock_eq_ok.2 ⟨(processBlock_stateRoot _ _).trans hpost, rfl⟩

/-- Within an epoch a slot is only entered. -/
theorem advance_succ (hsole : IsSole e.constants s) (hlimit : s.slot + 1 < Word.limit)
    (hstart : ¬ e.constants.isEpochStart (s.slot + 1) = true) :
    e.advance s (s.slot + 1) = .ok (s.atNextSlot e.constants) :=
  advance_of_step (step_eq_ok.2 ⟨hsole.rings, hlimit, by rw [if_neg hstart]⟩)

end IsSole

/-- The state with a block at slot one. -/
def ChainState.quadOne : ChainState :=
  (ChainState.quad.atNextSlot Constants.quad).afterEmpty Constants.quad

/-- This block. -/
def quadBlockOne : CandidateBlock :=
  (ChainState.quad.atNextSlot Constants.quad).sealedBlock Constants.quad

/-- The state with another block at slot three. -/
def ChainState.quadThree : ChainState :=
  ((ChainState.quadOne.atNextSlot Constants.quad).atNextSlot Constants.quad).afterEmpty
    Constants.quad

/-- This block. -/
def quadBlockThree : CandidateBlock :=
  ((ChainState.quadOne.atNextSlot Constants.quad).atNextSlot Constants.quad).sealedBlock
    Constants.quad

theorem isSole_quad : IsSole Constants.quad ChainState.quad :=
  ⟨ringsFit_genesis .., ⟨_, rfl, rfl, rfl, rfl, le_rfl⟩, rfl, rfl⟩

theorem isSole_quadOne : IsSole Constants.quad ChainState.quadOne :=
  isSole_quad.atNextSlot.afterEmpty

theorem importBlock_quadBlockOne : Engine.quad.importBlock .quad quadBlockOne = .ok .quadOne := by
  have hadvance : Engine.quad.advance .quad 1 = .ok (ChainState.quad.atNextSlot Constants.quad) :=
    isSole_quad.advance_succ (e := Engine.quad) (by decide) (by decide)
  refine importBlock_eq_ok.2 ⟨_, hadvance, ?_⟩
  refine isSole_quad.atNextSlot.applyBlock_sealedBlock (e := Engine.quad) (by decide) ?_
    ⟨by decide, by decide⟩
  rw [ChainState.atNextSlot_latestBlockHeader, ChainState.filledHeader_slot]
  decide

theorem importBlock_quadBlockThree :
    Engine.quad.importBlock .quadOne quadBlockThree = .ok .quadThree := by
  have hadvance : Engine.quad.advance .quadOne 3
      = .ok ((ChainState.quadOne.atNextSlot Constants.quad).atNextSlot Constants.quad) := by
    have hsecond := isSole_quadOne.advance_succ (e := Engine.quad) (by decide) (by decide)
    have hthird := isSole_quadOne.atNextSlot.advance_succ (e := Engine.quad) (by decide) (by decide)
    exact (advance_of_advance (by decide) hsecond).symm.trans hthird
  refine importBlock_eq_ok.2 ⟨_, hadvance, ?_⟩
  refine isSole_quadOne.atNextSlot.atNextSlot.applyBlock_sealedBlock (e := Engine.quad) (by decide) ?_
    ⟨by decide, by decide⟩
  simp only [ChainState.atNextSlot_latestBlockHeader, ChainState.filledHeader_slot]
  decide

/-- None of the state roots of this chain is that of no block. -/
theorem hashRoots_quad_ne : hashRoot ChainState.quad ≠ Root.none ∧
    hashRoot ChainState.quadOne ≠ Root.none ∧ hashRoot ChainState.quadThree ≠ Root.none := by
  simp only [ChainState.quadThree, ChainState.quadOne, ChainState.quad, ChainState.genesis,
    ChainState.afterEmpty, ChainState.emptyBlock, ChainState.opened, ChainState.atNextSlot,
    ChainState.filledHeader, CandidateBlock.header, recordAfterVote, hashRoot_eq, taggedDigest_eq,
    keccak256_eq, commitment, Field.of, Array.toList_replicate, List.map_nil, List.map_replicate]
  decide +kernel

theorem hashRoot_solo_ne : hashRoot ChainState.solo ≠ Root.none := by
  simp only [ChainState.solo, ChainState.genesis, hashRoot_eq, taggedDigest_eq, commitment, Field.of,
    Array.toList_replicate, List.map_nil, List.map_replicate]
  decide +kernel

/-! ## The theorem -/

/-- **The history is exact.** Blocks that have been imported one after the other, onto a first
    state, are children of one another at increasing slots; and after advancing to slot `t` the
    root looked up for a slot is that of the last block up to it if the slot is `t` or at most one
    round of the ring before, and none otherwise. -/
theorem history_exact (e : Engine) (time : Nat) (validators : List Validator) (data : ExternalData)
    (fork : Fork) (blocks : List CandidateBlock) {first s s' : ChainState} {t : Slot}
    (hfirst : first = ChainState.genesis e.constants time validators data fork)
    (himport : blocks.foldlM e.importBlock first = .ok s) (hadvance : e.advance s t = .ok s')
    (hroots : ∀ b ∈ chainFrom first blocks, b.stateRoot ≠ Root.none) :
    (chainFrom first blocks).IsChain Follows ∧
    ∀ u,
      (Remembered e.constants t u →
        ∃ b, lastUpTo (chainFrom first blocks) u = some b ∧ e.blockRootAt? s' u = some b.root) ∧
      (¬ Remembered e.constants t u → e.blockRootAt? s' u = none) := by
  subst hfirst
  have htracks := ((tracks_genesis ..).importBlocks hroots himport).advance hroots hadvance
  have hslot : s'.slot = t := advance_slot hadvance
  exact ⟨htracks.linked, fun u => hslot ▸ htracks.blockRootAt? u⟩

/-- The single validator puts blocks on the chain at slots one and three. At slot nine the empty slot
    two is answered with the first of them and slot eight with the second one; slot zero is one
    round of the ring and a slot before, and forgotten. -/
theorem history_exact_quad :
    ∃ s', Engine.quad.advance .quadThree 9 = .ok s' ∧
      [quadBlockOne, quadBlockThree].foldlM Engine.quad.importBlock .quad = .ok .quadThree ∧
      quadBlockOne.parentRoot = (CandidateBlock.genesis (hashRoot ChainState.quad)).root ∧
      quadBlockThree.parentRoot = quadBlockOne.root ∧
      Engine.quad.blockRootAt? s' 0 = none ∧
      Engine.quad.blockRootAt? s' 2 = some quadBlockOne.root ∧
      Engine.quad.blockRootAt? s' 8 = some quadBlockThree.root := by
  obtain ⟨s', h'⟩ : ∃ s', Engine.quad.advance .quadThree 9 = .ok s' :=
    Attempt.exists_ok_of_isOk (by decide +kernel)
  have himport : [quadBlockOne, quadBlockThree].foldlM Engine.quad.importBlock .quad
      = .ok .quadThree := by
    rw [List.foldlM_cons, importBlock_quadBlockOne, Attempt.ok_bind, List.foldlM_cons,
      importBlock_quadBlockThree]
    rfl
  have hroots : ∀ b ∈ chainFrom .quad [quadBlockOne, quadBlockThree], b.stateRoot ≠ Root.none := by
    obtain ⟨hfirst, hone, hthree⟩ := hashRoots_quad_ne
    have hblockOne : quadBlockOne.stateRoot ≠ Root.none := by
      rw [quadBlockOne, ChainState.sealedBlock_stateRoot, ← ChainState.quadOne]
      exact hone
    have hblockThree : quadBlockThree.stateRoot ≠ Root.none := by
      rw [quadBlockThree, ChainState.sealedBlock_stateRoot, ← ChainState.quadThree]
      exact hthree
    exact List.forall_mem_cons.2 ⟨hfirst, List.forall_mem_cons.2 ⟨hblockOne,
      List.forall_mem_cons.2 ⟨hblockThree, fun b hb => absurd hb List.not_mem_nil⟩⟩⟩
  obtain ⟨hlinked, hhistory⟩ := history_exact .quad 0 _ {} {} _ rfl himport h' hroots
  obtain ⟨hfirst, hlinked⟩ := List.isChain_cons_cons.1 hlinked
  obtain ⟨hsecond, -⟩ := List.isChain_cons_cons.1 hlinked
  have hremembered (u : Slot) (hu : u < 9 ∧ 9 ≤ u + 8) : Remembered Constants.quad 9 u := Or.inr hu
  have hforgotten : ¬ Remembered Constants.quad 9 0 := by
    rintro (h | ⟨-, h⟩) <;> exact absurd h (by decide)
  obtain ⟨b, hlast, hroot⟩ := (hhistory 2).1 (hremembered 2 (by decide))
  obtain ⟨b', hlast', hroot'⟩ := (hhistory 8).1 (hremembered 8 (by decide))
  have hone : lastUpTo (chainFrom .quad [quadBlockOne, quadBlockThree]) 2 = some quadBlockOne := rfl
  have hthree : lastUpTo (chainFrom .quad [quadBlockOne, quadBlockThree]) 8 = some quadBlockThree :=
    rfl
  obtain rfl := Option.some.inj (hlast.symm.trans hone)
  obtain rfl := Option.some.inj (hlast'.symm.trans hthree)
  exact ⟨s', h', himport, hfirst.parentRoot, hsecond.parentRoot, (hhistory 0).2 hforgotten, hroot,
    hroot'⟩

end Beacon
