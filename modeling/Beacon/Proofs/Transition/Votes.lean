import Mathlib
import Beacon.Proofs.Transition.Chronicles

set_option autoImplicit false

/-! # Votes for a record of the deposit chain

Every block votes for a record of the deposit chain, and a state keeps the votes of the running
voting period. They are exactly those of the blocks that have been applied since the period began
(`Run.externalDataVotes`), at most one for each of its slots. -/

namespace Beacon

variable {c : Constants} {e : Engine} {h : Chronicle} {s s' : ChainState} {b : CandidateBlock}
  {blocks : List CandidateBlock} {n k : Nat}

/-! ## Periods -/

/-- Slots in one voting period, as a number. -/
def Constants.votingSlots (c : Constants) : Nat := c.epochsPerVotingPeriod * c.slotsPerEpoch

theorem Constants.slotsPerVotingPeriod_eq_ok :
    c.slotsPerVotingPeriod = .ok n ↔ n = c.votingSlots ∧ c.votingSlots < Word.limit := by
  rw [slotsPerVotingPeriod, Word.mul_eq_ok]
  rfl

theorem Constants.Consistent.votingSlots_pos (hc : c.Consistent) : 0 < c.votingSlots :=
  Nat.mul_pos hc.epochsPerVotingPeriod_pos hc.slotsPerEpoch_pos

/-- A period starts where an epoch does whose number is a multiple of the epochs in a period. -/
theorem Constants.Consistent.periodStart_iff (hc : c.Consistent) {slot : Slot} :
    slot % c.votingSlots = 0 ↔
      c.isEpochStart slot = true ∧ c.epochAt slot % c.epochsPerVotingPeriod = 0 := by
  have hpos := hc.slotsPerEpoch_pos
  rw [votingSlots, Nat.mul_comm, Nat.mod_mul, Nat.add_eq_zero_iff, isEpochStart_iff, epochAt,
    Nat.mul_eq_zero, or_iff_right hpos.ne']

/-- The votes in the blocks of period number `k`, when periods have `n` slots. -/
def votesIn (n k : Nat) (blocks : List CandidateBlock) : List ExternalData :=
  (blocks.filter fun b => b.slot / n = k).map (·.body.externalData)

theorem votesIn_concat_self (n : Nat) (blocks : List CandidateBlock) (b : CandidateBlock) :
    votesIn n (b.slot / n) (blocks ++ [b])
      = votesIn n (b.slot / n) blocks ++ [b.body.externalData] := by
  simp [votesIn]

/-- Blocks at different slots are no more than the slots of their period. -/
theorem length_votesIn_le (hpos : 0 < n) (hrising : blocks.Pairwise (·.slot < ·.slot)) :
    (votesIn n k blocks).length ≤ n := by
  have hdistinct : ((blocks.filter fun b => b.slot / n = k).map (·.slot)).Nodup := by
    rw [List.Nodup, List.pairwise_map]
    exact (hrising.filter _).imp Nat.ne_of_lt
  have hperiod : ((blocks.filter fun b => b.slot / n = k).map (·.slot)) ⊆ List.range' (k * n) n := by
    intro slot hslot
    obtain ⟨b, hb, rfl⟩ := List.mem_map.1 hslot
    obtain rfl := of_decide_eq_true (List.mem_filter.1 hb).2
    have hlast := Nat.lt_mul_div_succ b.slot hpos
    rw [Nat.mul_comm, Nat.succ_mul] at hlast
    exact List.mem_range'_1.2 ⟨Nat.div_mul_le_self .., hlast⟩
  calc (votesIn n k blocks).length
      = ((blocks.filter fun b => b.slot / n = k).map (·.slot)).length := by simp [votesIn]
    _ ≤ (List.range' (k * n) n).length := (hdistinct.subperm hperiod).length_le
    _ = n := List.length_range'

/-! ## What slots and blocks do to votes and record -/

theorem processEpoch_externalDataVotes {summary : EpochSummary}
    (hprocess : processEpoch c s = .ok (summary, s')) :
    s'.externalDataVotes =
      if s.currentEpoch c % c.epochsPerVotingPeriod = 0 then [] else s.externalDataVotes := by
  obtain ⟨-, s₁, s₂, s₃, hjustify, hpay, heffective, rfl⟩ := processEpoch_eq_ok.1 hprocess
  have hvotes : s₃.externalDataVotes = s.externalDataVotes := by
    rw [(updateEffectiveBalances_frame heffective).1, activateValidators, (payRewards_frame hpay).1,
      justifyAndFinalize_frame hjustify]
  rw [ChainState.settled_externalDataVotes, hvotes]

/-- A slot drops the votes exactly when a period begins with it. -/
theorem step_externalDataVotes (hc : c.Consistent) (hstep : Engine.step c s = .ok s') :
    s'.externalDataVotes = if (s.slot + 1) % c.votingSlots = 0 then [] else s.externalDataVotes := by
  rcases step_cases hstep with ⟨hstart, summary, hprocess⟩ | ⟨hstart, rfl⟩
  · have hperiod : (s.slot + 1) % c.votingSlots = 0 ↔
        (s.atNextSlot c).currentEpoch c % c.epochsPerVotingPeriod = 0 :=
      hc.periodStart_iff.trans (and_iff_right hstart)
    simp only [processEpoch_externalDataVotes hprocess, hperiod]
    rfl
  · rw [if_neg fun hperiod => hstart (hc.periodStart_iff.1 hperiod).1]
    rfl

/-- A block adds its vote. -/
theorem BlockFrame.externalDataVotes (hframe : BlockFrame c s s' b) :
    s'.externalDataVotes = s.externalDataVotes ++ [b.body.externalData] :=
  hframe.frame.externalDataVotes

theorem BlockFrame.externalData (hframe : BlockFrame c s s' b) :
    s'.externalData = recordAfterVote c s b.body.externalData :=
  hframe.frame.externalData

theorem advance_externalData {target : Slot} (hadvance : e.advance s target = .ok s') :
    s'.externalData = s.externalData :=
  stepBy_invariant (P := fun t => t.externalData = s.externalData)
    (fun _ _ ht hstep => (step_frame hstep).externalData.trans ht) rfl (advance_eq_ok.1 hadvance).2

/-! ## Runs -/

/-- The blocks of a run rise from slot to slot, up to the one of the latest header. -/
structure Rising (blocks : List CandidateBlock) (s : ChainState) : Prop where
  pairwise : blocks.Pairwise (·.slot < ·.slot)
  upTo : ∀ b ∈ blocks, b.slot ≤ s.latestBlockHeader.slot
  header_le : s.latestBlockHeader.slot ≤ s.slot

theorem Engine.Run.rising (hrun : e.Run h s) : Rising h.blocks s := by
  induction hrun with
  | genesis => exact ⟨.nil, fun b hb => absurd hb List.not_mem_nil, le_rfl⟩
  | slot hrun hstep ih =>
      have hframe := step_frame hstep
      have hheader := hframe.latestBlockHeader
      refine ⟨ih.pairwise, ?_, ?_⟩
      · rw [hheader, ChainState.filledHeader_slot]
        exact ih.upTo
      · rw [hheader, ChainState.filledHeader_slot, hframe.slot]
        exact Nat.le_succ_of_le ih.header_le
  | @block h s s' b hrun hblock ih =>
      have hframe := applyBlock_frame hblock
      have hheader : s'.latestBlockHeader.slot = b.slot :=
        congrArg BlockHeader.slot hframe.frame.latestBlockHeader
      have hnewer : s.latestBlockHeader.slot < b.slot := hframe.blockSlot ▸ hframe.may.newer
      refine ⟨?_, ?_, ?_⟩
      · refine List.pairwise_append.2 ⟨ih.pairwise, List.pairwise_singleton .., ?_⟩
        intro b₀ hb₀ b₁ hb₁
        rw [List.mem_singleton.1 hb₁]
        exact (ih.upTo b₀ hb₀).trans_lt hnewer
      · intro b₀ hb₀
        rw [hheader]
        rcases List.mem_append.1 hb₀ with hold | hnew
        · exact (ih.upTo b₀ hold).trans hnewer.le
        · exact (congrArg CandidateBlock.slot (List.mem_singleton.1 hnew)).le
      · rw [hheader, hframe.blockSlot, hframe.slot]

/-- There is at most one block in each slot. -/
theorem Rising.length_le (h : Rising blocks s) : blocks.length ≤ s.slot + 1 := by
  have hall : (blocks.filter fun b => b.slot / (s.slot + 1) = 0) = blocks :=
    List.filter_eq_self.2 fun b hb => decide_eq_true
      (Nat.div_eq_of_lt (Nat.lt_succ_of_le ((h.upTo b hb).trans h.header_le)))
  have hlength := length_votesIn_le (k := 0) (Nat.succ_pos s.slot) h.pairwise
  rwa [votesIn, hall, List.length_map] at hlength

/-- **The votes of a state are those of the running period.** -/
theorem Engine.Run.externalDataVotes (hrun : e.Run h s) :
    s.externalDataVotes
      = votesIn e.constants.votingSlots (s.slot / e.constants.votingSlots) h.blocks := by
  induction hrun with
  | genesis => rfl
  | @slot h s s' hrun hstep ih =>
      rw [step_externalDataVotes e.consistent hstep, (step_frame hstep).slot]
      split
      · next hstart =>
          -- All blocks lie before the period that begins.
          rw [Nat.succ_div_of_dvd (Nat.dvd_of_mod_eq_zero hstart), Chronicle.afterSlot_blocks,
            votesIn, eq_comm, List.map_eq_nil_iff, List.filter_eq_nil_iff]
          intro b hb
          have hle := Nat.div_le_div_right (c := e.constants.votingSlots)
            ((hrun.rising.upTo b hb).trans hrun.rising.header_le)
          rw [decide_eq_true_iff]
          lia
      · next hstart =>
          rw [Nat.succ_div_of_not_dvd fun hdvd => hstart (Nat.mod_eq_zero_of_dvd hdvd), ih]
          rfl
  | @block h s s' b hrun hblock ih =>
      have hframe := applyBlock_frame hblock
      rw [hframe.externalDataVotes, hframe.slot, ← hframe.blockSlot, Chronicle.afterBlock_blocks,
        votesIn_concat_self, ih, hframe.blockSlot]

theorem Engine.Run.length_externalDataVotes_le (hrun : e.Run h s) :
    s.externalDataVotes.length ≤ e.constants.votingSlots := by
  rw [hrun.externalDataVotes]
  exact length_votesIn_le e.consistent.votingSlots_pos hrun.rising.pairwise

end Beacon
