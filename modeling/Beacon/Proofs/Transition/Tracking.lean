import Mathlib
import Beacon.Proofs.Transition.Runs

set_option autoImplicit false

/-! # States that know their chain

A chain is the list of its blocks, oldest first, with a block that stands for the first state at its
head. The state root of a header is filled in one slot late, the ring takes the root of the filled
header for every slot that is left, and the present slot is answered from the header itself.
`Tracks` ties the three to the list of blocks; slots and blocks keep it. -/

namespace Beacon

variable {c : Constants} {e : Engine} {s s' : ChainState} {chain : List CandidateBlock}

/-! ## Chains of blocks -/

/-- The blocks of a chain: the one that stands for the first state, then the imported ones. -/
def chainFrom (first : ChainState) (blocks : List CandidateBlock) : List CandidateBlock :=
  CandidateBlock.genesis (hashRoot first) :: blocks

/-- The second block is a later child of the first. -/
structure Follows (parent child : CandidateBlock) : Prop where
  later : parent.slot < child.slot
  parentRoot : child.parentRoot = parent.root

/-- The last block of a chain up to a slot. -/
def lastUpTo (chain : List CandidateBlock) (slot : Slot) : Option CandidateBlock :=
  (chain.filter (·.slot ≤ slot)).getLast?

/-- From its own slot on the last block is that of the whole chain. -/
theorem lastUpTo_of_getLast? {tip : CandidateBlock} {slot : Slot} (htip : chain.getLast? = some tip)
    (hle : tip.slot ≤ slot) : lastUpTo chain slot = some tip := by
  obtain ⟨older, rfl⟩ := List.getLast?_eq_some_iff.1 htip
  simp [lastUpTo, hle]

/-- A block changes nothing before its slot. -/
theorem lastUpTo_append_of_lt {b : CandidateBlock} {slot : Slot} (hlt : slot < b.slot) :
    lastUpTo (chain ++ [b]) slot = lastUpTo chain slot := by
  simp [lastUpTo, hlt]

/-! ## States that know their latest block -/

/-- The latest block of a state: its header is filled in from the slot after it on. -/
structure HeadedBy (s : ChainState) (b : CandidateBlock) : Prop where
  slot_le : b.slot ≤ s.slot
  filled : s.filledHeader = b.header
  latest : b.slot < s.slot → s.latestBlockHeader = b.header

theorem headedBy_genesis (c : Constants) (time : Nat) (validators : List Validator)
    (data : ExternalData) (fork : Fork) :
    HeadedBy (ChainState.genesis c time validators data fork)
      (.genesis (hashRoot (ChainState.genesis c time validators data fork))) :=
  ⟨le_rfl, ChainState.filledHeader_of_eq rfl, fun hlt => absurd hlt (Nat.lt_irrefl 0)⟩

namespace HeadedBy

variable {b : CandidateBlock}

theorem latest_slot (h : HeadedBy s b) : s.latestBlockHeader.slot = b.slot := by
  rw [← ChainState.filledHeader_slot, h.filled]
  rfl

/-- A header with a state root stays as it is, so that filling it in changes nothing any more. -/
theorem step (h : HeadedBy s b) (hroot : b.stateRoot ≠ Root.none)
    (hstep : Engine.step c s = .ok s') : HeadedBy s' b := by
  have hframe := step_frame hstep
  have hslot := hframe.slot
  have hle := h.slot_le
  have hheader : s'.latestBlockHeader = b.header := hframe.latestBlockHeader.trans h.filled
  have hne : s'.latestBlockHeader.stateRoot ≠ Root.none := by
    rw [hheader]
    exact hroot
  exact ⟨by lia, (ChainState.filledHeader_of_ne hne).trans hheader, fun _ => hheader⟩

/-- A block becomes the latest one: the root that it claims is that of the state, which is what its
    own header is filled in with. -/
theorem of_applyBlock (hblock : e.applyBlock s b = .ok s') : HeadedBy s' b := by
  obtain ⟨hprocess, hroot⟩ := applyBlock_eq_ok.1 hblock
  have hframe := processBlock_frame e.consistent hprocess
  have hslot := hframe.slot
  have hbslot := hframe.blockSlot
  have hheader : s'.latestBlockHeader = { b.header with stateRoot := Root.none } :=
    hframe.frame.latestBlockHeader
  refine ⟨by lia, ?_, fun hlt => absurd hlt (by lia)⟩
  rw [ChainState.filledHeader_of_eq (by rw [hheader]), hheader, ← hroot]
  rfl

theorem advance (h : HeadedBy s b) (hroot : b.stateRoot ≠ Root.none) {target : Slot}
    (hadvance : e.advance s target = .ok s') : HeadedBy s' b :=
  stepBy_invariant (P := (HeadedBy · b)) (fun _ _ ht hstep => ht.step hroot hstep) h
    (advance_eq_ok.1 hadvance).2

/-- The slot after a block takes over its header as it is; only across further slots the state root
    has to be one that is not filled in again. -/
theorem latest_of_advance (h : HeadedBy s b) {target : Slot} (hlt : s.slot < target)
    (hroot : s.slot + 1 < target → b.stateRoot ≠ Root.none)
    (hadvance : e.advance s target = .ok s') : s'.latestBlockHeader = b.header := by
  by_cases hnext : target = s.slot + 1
  · subst hnext
    have hsteps := (advance_eq_ok.1 hadvance).2
    rw [Nat.add_sub_cancel_left] at hsteps
    obtain ⟨t, hstep, ht⟩ := stepBy_succ_eq_ok.1 hsteps
    obtain rfl := Except.ok.inj ht
    exact (step_frame hstep).latestBlockHeader.trans h.filled
  · have hle := h.slot_le
    have hslot := advance_slot hadvance
    exact (h.advance (hroot (by lia)) hadvance).latest (by lia)

end HeadedBy

/-! ## States that know their chain -/

/-- The state holds the header of the last block and the roots of one round of slots. -/
structure Tracks (c : Constants) (chain : List CandidateBlock) (s : ChainState) : Prop where
  rings : RingsFit c s
  slot_lt : s.slot < Word.limit
  linked : chain.IsChain Follows
  header : ∃ tip, chain.getLast? = some tip ∧ HeadedBy s tip
  recorded : ∀ u, u < s.slot → s.slot ≤ u + c.slotsPerHistoricalRoot →
    ∃ b, lastUpTo chain u = some b ∧ s.blockRoots[u % c.slotsPerHistoricalRoot]? = some b.root

theorem tracks_genesis (c : Constants) (time : Nat) (validators : List Validator)
    (data : ExternalData) (fork : Fork) :
    Tracks c (chainFrom (ChainState.genesis c time validators data fork) [])
      (ChainState.genesis c time validators data fork) := by
  refine ⟨ringsFit_genesis .., ?_, .singleton _, ?_, ?_⟩
  · show 0 < Word.limit
    decide
  · exact ⟨_, rfl, headedBy_genesis ..⟩
  · exact fun u hu => absurd hu (Nat.not_lt_zero u)

/-- Leaving a slot records the root of the last block for it. -/
theorem Tracks.step (h : Tracks c chain s) (hc : c.Consistent)
    (hroots : ∀ b ∈ chain, b.stateRoot ≠ Root.none) (hstep : Engine.step c s = .ok s') :
    Tracks c chain s' := by
  have hframe := step_frame hstep
  have hslot := hframe.slot
  obtain ⟨tip, htip, hheaded⟩ := h.header
  refine ⟨hframe.ringsFit, hframe.slot_lt, h.linked, ?_, ?_⟩
  · exact ⟨tip, htip, hheaded.step (hroots tip (List.mem_of_getLast? htip)) hstep⟩
  · -- The slot that is left gets the root of the last block, the others keep theirs.
    intro u hu hround
    rw [hframe.blockRoots]
    by_cases heq : u = s.slot
    · subst heq
      refine ⟨tip, lastUpTo_of_getLast? htip hheaded.slot_le, ?_⟩
      rw [ChainState.getElem?_atNextSlot_blockRoots_self hframe.rings hc.slotsPerHistoricalRoot_pos,
        hheaded.filled]
      rfl
    · have hlt : u < s.slot := by lia
      rw [ChainState.getElem?_atNextSlot_blockRoots_ne (place_ne_of_lt_round hlt (by lia)).symm]
      exact h.recorded u hlt (by lia)

/-- A block is a child of the last one, and becomes the last one itself. -/
theorem Tracks.applyBlock (h : Tracks e.constants chain s) {b : CandidateBlock}
    (hblock : e.applyBlock s b = .ok s') : Tracks e.constants (chain ++ [b]) s' := by
  have hframe := applyBlock_frame hblock
  have hslot := hframe.slot
  have hbslot := hframe.blockSlot
  obtain ⟨tip, htip, hheaded⟩ := h.header
  have hnewer : tip.slot < s.slot := hheaded.latest_slot ▸ hframe.may.newer
  have hfollows : Follows tip b := by
    refine ⟨hbslot ▸ hnewer, ?_⟩
    rw [hframe.may.parent_eq, hheaded.latest hnewer]
    rfl
  refine ⟨hframe.ringsFit, hslot ▸ h.slot_lt, ?_, ?_, ?_⟩
  · -- The block names the header that the slot has filled in as its parent.
    refine List.isChain_append.2 ⟨h.linked, .singleton b, ?_⟩
    simpa [htip] using hfollows
  · exact ⟨b, List.getLast?_concat, .of_applyBlock hblock⟩
  · intro u hu hround
    rw [hslot] at hu hround
    rw [lastUpTo_append_of_lt (by lia), hframe.frame.blockRoots]
    exact h.recorded u hu hround

/-! ## Runs -/

theorem Tracks.advance (h : Tracks e.constants chain s)
    (hroots : ∀ b ∈ chain, b.stateRoot ≠ Root.none) {target : Slot}
    (hadvance : e.advance s target = .ok s') : Tracks e.constants chain s' :=
  stepBy_invariant (fun _ _ ht hstep => ht.step e.consistent hroots hstep) h
    (advance_eq_ok.1 hadvance).2

/-- Importing blocks one after the other appends them to the chain. -/
theorem Tracks.importBlocks {first : ChainState} {blocks : List CandidateBlock}
    (h : Tracks e.constants (chainFrom first []) first)
    (hroots : ∀ b ∈ chainFrom first blocks, b.stateRoot ≠ Root.none)
    (himport : blocks.foldlM e.importBlock first = .ok s) :
    Tracks e.constants (chainFrom first blocks) s := by
  refine Attempt.foldlM_done (P := fun done t => Tracks e.constants (chainFrom first done) t) ?_ h
    himport
  intro done b rest t t' hblocks ht hb
  obtain ⟨u, hu, hb⟩ := importBlock_eq_ok.1 hb
  have hdone : ∀ b ∈ chainFrom first done, b.stateRoot ≠ Root.none := by
    intro b hb
    refine hroots b ?_
    rw [← hblocks]
    exact List.mem_append_left _ hb
  exact (ht.advance hdone hu).applyBlock hb

end Beacon
