import Mathlib
import Beacon.Proofs.AdvanceSafety
import Beacon.Proofs.Packing
import Beacon.Proofs.Transition.Ballots
import Beacon.Proofs.Transition.Votes

set_option autoImplicit false

/-! # Chains of a single validator

With epochs of one slot, a single validator that is never slashed makes up every committee and
proposes in every slot. As long as its rewards stay words its chain goes on: every later slot can be
entered (`SoleAt.exists_advance`), and a block can be put on the chain there, which votes for any
record that brings no deposits and holds the validator's attestation of the slot before
(`SoleAt.exists_importBlock`). -/

namespace Beacon

variable {c : Constants} {e : Engine} {h : Chronicle} {s s' : ChainState} {v v' : Validator}
  {a : Attestation} {record : ExternalData} {epoch : Epoch} {last target : Slot}

/-! ## Constants and states -/

/-- Constants with epochs of one slot, and with rewards that stay words for one validator up to a
    last slot. -/
structure Constants.Brief (c : Constants) (last : Slot) : Prop where
  consistent : c.Consistent
  slotsPerEpoch_eq : c.slotsPerEpoch = 1
  minAttestationInclusionDelay_eq : c.minAttestationInclusionDelay = 1
  epochsPerVotingPeriod_le : c.epochsPerVotingPeriod ≤ 2147483648
  minValidatorWithdrawabilityDelay_le : c.minValidatorWithdrawabilityDelay ≤ 2147483648
  last_le : last ≤ horizon
  affordable : c.Affordable 1 last

namespace Constants.Brief

theorem epochAt_eq (hbrief : c.Brief last) (slot : Slot) : c.epochAt slot = slot := by
  rw [epochAt, hbrief.slotsPerEpoch_eq, Nat.div_one]

theorem isEpochStart_eq (hbrief : c.Brief last) (slot : Slot) : c.isEpochStart slot = true := by
  rw [isEpochStart_iff, hbrief.slotsPerEpoch_eq, Nat.mod_one]

/-- One validator makes one committee. -/
theorem committeesPerSlot_one (hbrief : c.Brief last) : c.committeesPerSlot 1 = 1 := by
  rw [committeesPerSlot, hbrief.slotsPerEpoch_eq, Nat.div_one]
  exact max_eq_left ((min_le_right ..).trans (Nat.div_le_self ..))

end Constants.Brief

/-- A validator that is active in every epoch. -/
structure Validator.Serves (c : Constants) (v : Validator) : Prop where
  slashed : v.slashed = false
  activationEpoch : v.activationEpoch = 0
  exitEpoch : v.exitEpoch = farFuture
  effectiveBalance_le : v.effectiveBalance ≤ c.maxEffectiveBalance

theorem Validator.Serves.isActiveAt (hserves : v.Serves c) (hcomes : epoch < farFuture) :
    v.isActiveAt epoch = true := by
  simp [Validator.isActiveAt, hserves.activationEpoch, hserves.exitEpoch, hcomes]

/-- Only a slashing could end this. -/
theorem Validator.Serves.amends (hserves : v.Serves c) (hamends : v.Amends c epoch v')
    (hunslashed : v'.slashed = false) : v'.Serves c := by
  induction hamends with
  | refl => exact hserves
  | tail _ hamend ih =>
      cases hamend with
      | slash => cases hunslashed
      | activate hnever =>
          have hfirst := (ih hunslashed).activationEpoch
          exact absurd (hfirst.symm.trans hnever) (by decide)
      | follow balance =>
          obtain ⟨hslashed, hactivation, hexit, -⟩ := ih hunslashed
          exact ⟨hslashed, hactivation, hexit, c.effective_le balance⟩

/-- The state has the rings that the constants ask for, a single validator with its balance, and no
    deposits to come. -/
structure IsSole (c : Constants) (s : ChainState) : Prop where
  rings : RingsFit c s
  validator : ∃ v, s.validators = #[v] ∧ v.Serves c
  balances_size : s.balances.size = 1
  depositCount : s.externalData.depositCount = 0

theorem slices_one {α : Type} (xs : Array α) : slices xs 1 = #[xs.toList] := by
  simp [slices, Array.ofFn_succ]

namespace IsSole

theorem validators_size (hsole : IsSole c s) : s.validators.size = 1 := by
  obtain ⟨v, hv, -⟩ := hsole.validator
  rw [hv]
  rfl

theorem sizes (hsole : IsSole c s) : s.validators.size = s.balances.size :=
  hsole.validators_size.trans hsole.balances_size.symm

theorem stakesFit (hsole : IsSole c s) : StakesFit c s := by
  obtain ⟨v, hv, hserves⟩ := hsole.validator
  rw [StakesFit, hv]
  simpa using hserves.effectiveBalance_le

theorem isUnslashed (hsole : IsSole c s) : s.isUnslashed 0 = true := by
  obtain ⟨v, hv, hserves⟩ := hsole.validator
  simp [ChainState.isUnslashed, hv, hserves.slashed]

theorem activeIndices (hsole : IsSole c s) (hcomes : epoch < farFuture) :
    s.activeIndices epoch = [0] := by
  obtain ⟨v, hv, hserves⟩ := hsole.validator
  simp [ChainState.activeIndices, hv, hserves.isActiveAt hcomes]

theorem moderate (hsole : IsSole c s) (hbrief : c.Brief last) (hslot : s.slot ≤ last) :
    Moderate c s where
  slotsPerEpoch_le := by
    rw [hbrief.slotsPerEpoch_eq]
    decide
  epochsPerVotingPeriod_le := hbrief.epochsPerVotingPeriod_le
  minAttestationInclusionDelay_le := by
    rw [hbrief.minAttestationInclusionDelay_eq]
    decide
  minValidatorWithdrawabilityDelay_le := hbrief.minValidatorWithdrawabilityDelay_le
  slot_le := hslot.trans hbrief.last_le
  validators_le := by
    rw [hsole.validators_size]
    decide

theorem atNextSlot (hsole : IsSole c s) : IsSole c (s.atNextSlot c) :=
  ⟨hsole.rings.atNextSlot, hsole.validator, hsole.balances_size, hsole.depositCount⟩

/-! ### Votes of the validator -/

/-- The only committee of an epoch is the validator. -/
theorem committee (hsole : IsSole c s) (hbrief : c.Brief last)
    (hwindow : checkWindow c s epoch = .ok ()) (hcomes : epoch < farFuture) :
    ∃ committees, committeesOf c s epoch = .ok committees ∧
      committees.committeesPerSlot = 1 ∧ committees.committee? epoch 0 = some [0] := by
  obtain ⟨mix, hmix⟩ : ∃ mix, s.anchorMix? c epoch = some mix :=
    ChainState.anchorMix?_isSome (hsole.rings.randaoMixes_pos hbrief.consistent)
  have hseed := (seedOf_eq_ok hbrief.consistent).2 ⟨hwindow, mix, hmix, rfl⟩
  have hactive := hsole.activeIndices hcomes
  have hfits : CommitteesFit c s epoch := by
    refine committeesFit_of_le ?_ ?_ epoch
    · rw [hbrief.slotsPerEpoch_eq]
      decide
    · rw [hsole.validators_size]
      decide
  have hone : c.committeesPerSlot (s.activeIndices epoch).length = 1 := by
    rw [hactive]
    exact hbrief.committeesPerSlot_one
  refine ⟨_, committeesOf_eq_ok.2 ⟨_, hseed, ?_, hfits, rfl⟩, hone, ?_⟩
  · rw [hactive]
    exact List.cons_ne_nil _ _
  · -- A shuffle of one place changes nothing, and the one run it is cut into is the whole.
    have hcount : committeeCount c s epoch = 1 := by
      rw [committeeCount, hone, hbrief.slotsPerEpoch_eq]
    have hindex : 0 < c.committeesPerSlot [0].length :=
      hbrief.committeesPerSlot_one.symm ▸ Nat.zero_lt_one
    have hshuffle (seed : Root) : shuffle #[0] seed = #[0] := rfl
    simp only [EpochCommittees.committee?, hactive, hcount, slices_one, hshuffle]
    rw [if_pos ⟨hbrief.epochAt_eq epoch, hindex⟩, hbrief.slotsPerEpoch_eq, Nat.mod_one,
      Nat.zero_mul]
    rfl

/-- The validator speaks for its committee in the ballot of a set bit. -/
theorem voters (hsole : IsSole c s) (hbrief : c.Brief last)
    (hwindow : checkWindow c s epoch = .ok ()) (hcomes : epoch < farFuture) {b : Ballot}
    (hbits : b.bits = [true]) (hindex : b.data.index = 0) (hslot : b.data.slot = epoch)
    (htarget : b.data.target.epoch = epoch) : b.voters c s = [0] := by
  obtain ⟨committees, hcommittees, -, hmembers⟩ := hsole.committee hbrief hwindow hcomes
  simp only [Ballot.voters, htarget, hcommittees, hslot, hindex, hmembers, hbits]
  rfl

/-- Ballots in which the validator votes have it behind them. -/
theorem supporters (hsole : IsSole c s) {ballots : List Ballot} {b : Ballot} (hb : b ∈ ballots)
    (hvoters : 0 ∈ b.voters c s) : supporters c s ballots = [0] := by
  have hvotes : ∃ b ∈ ballots, 0 ∈ b.voters c s := ⟨b, hb, hvoters⟩
  simp [Beacon.supporters, hsole.validators_size, hsole.isUnslashed, hvotes]

end IsSole

/-! ## A block with a vote -/

/-- The attestation of the slot before, for the header that heads the chain. -/
def ChainState.soleVote (s : ChainState) : Attestation where
  bits := [true]
  data :=
    { slot := s.slot - 1
      source := s.previousJustified
      target := ⟨s.slot - 1, hashRoot s.latestBlockHeader⟩ }

/-- What the validator offers for its block: one attestation, and its vote for a record. -/
def Attestation.soleContents (a : Attestation) (record : ExternalData) : BlockContents where
  randaoReveal := Bytes.fill 96 1
  externalData := record
  attestations := [a]

/-- The state after a block with an attestation of the epoch before and no other operation. -/
@[simps] def ChainState.afterVote (c : Constants) (s : ChainState) (b : CandidateBlock)
    (a : Attestation) : ChainState :=
  { s.opened c b with
    previousEpochAttestations := s.previousEpochAttestations ++ [pendingOf s b.proposerIndex a] }

/-- A block of the validator: it votes for the record, and its only operation is the attestation. -/
structure SoleBlock (e : Engine) (s : ChainState) (a : Attestation) (record : ExternalData)
    (b : CandidateBlock) : Prop where
  applies : e.applyBlock s b = .ok (s.afterVote e.constants b a)
  externalData : b.body.externalData = record
  attestations : b.body.attestations = [a]

namespace SoleBlock

variable {b : CandidateBlock}

theorem slot (hb : SoleBlock e s a record b) : b.slot = s.slot :=
  (applyBlock_frame hb.applies).blockSlot

theorem importBlock (hb : SoleBlock e s' a record b) (hadvance : e.advance s target = .ok s') :
    e.importBlock s b = .ok (s'.afterVote e.constants b a) := by
  rw [← advance_slot hadvance, ← hb.slot] at hadvance
  exact importBlock_eq_ok.2 ⟨s', hadvance, hb.applies⟩

end SoleBlock

theorem depositsDue_eq_zero (hrecord : record.depositCount = 0) : depositsDue c s record = 0 := by
  rw [depositsDue, hrecord, Nat.zero_sub, Nat.zero_min]

namespace IsSole

theorem mayPropose (hsole : IsSole c s) (hc : c.Consistent) (hslot : s.slot ≤ horizon)
    (hnewer : s.latestBlockHeader.slot < s.slot) :
    MayPropose c s 0 (hashRoot s.latestBlockHeader) := by
  have hcomes : c.epochAt s.slot < farFuture :=
    lt_of_le_of_lt ((Constants.epochAt_le s.slot).trans hslot) (by decide)
  obtain ⟨v, hv, hserves⟩ := hsole.validator
  refine ⟨hsole.rings, hsole.sizes, hnewer, ?_, rfl, v, by rw [hv]; rfl, hserves.slashed⟩
  exact proposerOf_single hc hsole.rings hslot (hsole.activeIndices hcomes)

/-- The vote for the epoch before may be included. -/
theorem checkAttestation_soleVote (hsole : IsSole c s) (hbrief : c.Brief last)
    (hslot : s.slot ≤ last) (hpos : 0 < s.slot) : checkAttestation c s s.soleVote = .ok () := by
  have hepoch : s.currentEpoch c = s.slot := hbrief.epochAt_eq s.slot
  have hhorizon : s.slot ≤ horizon := hslot.trans hbrief.last_le
  have hwindow : InWindow c s (s.slot - 1) := by
    rw [InWindow, hepoch]
    lia
  have hlimit : s.slot < Word.limit := lt_of_le_of_lt hhorizon (by decide)
  have hcomes : s.slot - 1 < farFuture :=
    lt_of_le_of_lt ((Nat.sub_le ..).trans hhorizon) (by decide)
  obtain ⟨committees, hcommittees, hperSlot, hmembers⟩ :=
    hsole.committee hbrief (hwindow.checkWindow hhorizon) hcomes
  have hnext : s.slot - 1 + 1 = s.slot := Nat.sub_add_cancel hpos
  refine checkAttestation_eq_ok.2 ⟨committees, Or.inr ?_, (hbrief.epochAt_eq _).symm, ?_, ?_, ?_,
    ?_, hcommittees, ?_, ?_, (by decide : [true].count true ≠ 0), ?_⟩
  · rw [hepoch]
    rfl
  · rw [hbrief.minAttestationInclusionDelay_eq]
    exact hnext.trans_lt hlimit
  · rw [hbrief.minAttestationInclusionDelay_eq]
    exact hnext.le
  · rw [hbrief.slotsPerEpoch_eq]
    exact hnext.trans_lt hlimit
  · rw [hbrief.slotsPerEpoch_eq]
    exact hnext.ge
  · rw [hperSlot]
    exact Nat.zero_lt_one
  · show 1 = ((committees.committee? (s.slot - 1) 0).getD []).length
    rw [hmembers]
    rfl
  · rw [hepoch]
    exact (if_neg (by show ¬ s.slot - 1 = s.slot; lia)).symm

theorem recordAfterVote (hsole : IsSole c s) (hrecord : record.depositCount = 0) :
    (recordAfterVote c s record).depositCount = 0 := by
  unfold Beacon.recordAfterVote
  split
  · exact hrecord
  · exact hsole.depositCount

/-- A vote for a record without deposits makes none due. -/
theorem depositsFollow (hsole : IsSole c s) {contents : BlockContents}
    (hrecord : contents.externalData.depositCount = 0) : DepositsFollow c s contents := by
  have hdue : dueAfterVote c s contents.externalData = 0 :=
    depositsDue_eq_zero (hsole.recordAfterVote hrecord)
  rw [DepositsFollow, hdue]
  exact List.nil_prefix

/-- Header, reveal and vote of a block keep the validator. -/
theorem opened (hsole : IsSole c s) {b : CandidateBlock}
    (hrecord : b.body.externalData.depositCount = 0) : IsSole c (s.opened c b) where
  rings := ⟨hsole.rings.blockRoots, by simpa using hsole.rings.randaoMixes⟩
  validator := hsole.validator
  balances_size := hsole.balances_size
  depositCount := hsole.recordAfterVote hrecord

theorem afterVote (hsole : IsSole e.constants s) {b : CandidateBlock}
    (hb : SoleBlock e s a record b) (hrecord : record.depositCount = 0) :
    IsSole e.constants (s.afterVote e.constants b a) := by
  have hopened := hsole.opened (b := b) (hb.externalData.symm ▸ hrecord)
  exact ⟨⟨hopened.rings.blockRoots, hopened.rings.randaoMixes⟩, hopened.validator,
    hopened.balances_size, hopened.depositCount⟩

variable (hsole : IsSole e.constants s) (hbrief : e.constants.Brief last) (hslot : s.slot ≤ last)
  (hnewer : s.latestBlockHeader.slot < s.slot)
include hsole hbrief hslot hnewer

/-- The validator can propose a block with whatever is offered, if its deposits follow. -/
theorem exists_packed (contents : BlockContents) (hstored : VotesStored s contents.externalData)
    (hreveal : contents.randaoReveal ≠ Bytes.zero 96)
    (hfollow : DepositsFollow e.constants s contents) :
    ∃ b, Packs e s contents b ∧ b.slot = s.slot ∧
      b.body.externalData = contents.externalData := by
  have hmoderate := hsole.moderate hbrief hslot
  obtain ⟨b, hb⟩ := (exists_createBlock hmoderate hstored).2
    ⟨hsole.mayPropose hbrief.consistent (hslot.trans hbrief.last_le) hnewer, hreveal, hfollow⟩
  have hpacks := packs_of_createBlock hmoderate hstored hb
  obtain ⟨post, -, rfl⟩ := (createBlock_eq_ok hmoderate (hmoderate.voteFits hstored)).1 hb
  exact ⟨_, hpacks, rfl, rfl⟩

/-- One of them holds an attestation for the epoch before and nothing else. -/
theorem exists_blockWith (hstored : VotesStored s record) (hrecord : record.depositCount = 0)
    (hcheck : checkAttestation e.constants s a = .ok ()) (hbefore : a.data.target.epoch < s.slot) :
    ∃ b, SoleBlock e s a record b := by
  have hincludable : includableOn e.constants s a = true := by
    rw [includableOn, hcheck]
    rfl
  have hreveal : (a.soleContents record).randaoReveal ≠ Bytes.zero 96 :=
    (by decide : Bytes.fill 96 1 ≠ Bytes.zero 96)
  obtain ⟨b, hpacks, -, hdata⟩ := hsole.exists_packed hbrief hslot hnewer (a.soleContents record)
    hstored hreveal (hsole.depositsFollow hrecord)
  obtain ⟨s', hblock⟩ := hpacks.applies
  have hattestations : b.body.attestations = [a] := by
    rw [hpacks.attestations]
    show ([a].filter (includableOn e.constants s)).take _ = _
    rw [List.filter_cons_of_pos hincludable]
    exact List.take_of_length_le e.consistent.maxAttestations_pos
  have hslashings : b.body.proposerSlashings = [] := hpacks.proposerSlashings.trans List.take_nil
  have hdeposits : b.body.deposits = [] := hpacks.deposits.trans List.take_nil
  -- The attestation is the only operation.
  have hpost := (applyBlock_eq_ok.1 hblock).1
  obtain ⟨-, -, -, -, hops⟩ := (processBlock_eq_ok e.consistent).1 hpost
  obtain ⟨-, s₁, s₂, h₁, h₂, h₃⟩ := applyOperations_eq_ok.1 hops
  rw [hslashings, List.foldlM_nil, Attempt.pure_eq_ok] at h₁
  rw [hdeposits, List.foldlM_nil, Attempt.pure_eq_ok] at h₃
  subst h₁ h₃
  rw [hattestations, List.foldlM_cons, Attempt.bind_eq_ok] at h₂
  obtain ⟨t, ht, h₂⟩ := h₂
  rw [List.foldlM_nil, Attempt.pure_eq_ok] at h₂
  subst h₂
  obtain ⟨-, -, rfl⟩ := applyAttestation_eq_ok.1 ht
  have hother : ¬ a.data.target.epoch = (s.opened e.constants b).currentEpoch e.constants := by
    show ¬ a.data.target.epoch = e.constants.epochAt s.slot
    rw [hbrief.epochAt_eq]
    exact hbefore.ne
  rw [ChainState.recording, if_neg hother] at hblock
  exact ⟨b, hblock, hdata, hattestations⟩

/-- A block with its vote for the slot before is one of them. -/
theorem exists_block (hstored : VotesStored s record) (hrecord : record.depositCount = 0) :
    ∃ b, SoleBlock e s s.soleVote record b := by
  have hpos : 0 < s.slot := Nat.zero_lt_of_lt hnewer
  exact hsole.exists_blockWith hbrief hslot hnewer hstored hrecord
    (hsole.checkAttestation_soleVote hbrief hslot hpos) (Nat.sub_lt hpos Nat.zero_lt_one)

end IsSole

/-! ## The chain goes on -/

namespace IsSole

/-- A slot keeps the validator, whatever it pays or takes. -/
theorem step (hsole : IsSole e.constants s) (hreach : e.Reachable s')
    (hstep : Engine.step e.constants s = .ok s') : IsSole e.constants s' := by
  have hframe := step_frame hstep
  obtain ⟨f, hmap, hf⟩ := step_records hstep
  obtain ⟨v, hv, hserves⟩ := hsole.validator
  obtain ⟨hamends, hslashed⟩ := hf 0 v
  have hvalidators : s'.validators = #[f 0 v] := by
    refine Array.ext_getElem? fun i => ?_
    rw [hmap, hv]
    cases i with
    | zero => rfl
    | succ i => simp
  refine ⟨hframe.ringsFit, ⟨f 0 v, hvalidators, ?_⟩, ?_, ?_⟩
  · exact hserves.amends hamends (hslashed.trans hserves.slashed)
  · rw [← hreach.coherent.sizes, hvalidators]
    rfl
  · rw [hframe.externalData]
    exact hsole.depositCount

theorem advance (hsole : IsSole e.constants s) (hreach : e.Reachable s)
    (hadvance : e.advance s target = .ok s') : IsSole e.constants s' := by
  have hboth : e.Reachable s' ∧ IsSole e.constants s' := by
    refine stepBy_invariant (P := fun t => e.Reachable t ∧ IsSole e.constants t)
      (fun t t' ht hstep => ?_) ⟨hreach, hsole⟩ (advance_eq_ok.1 hadvance).2
    have hreach' := ht.1.reaches (.of_advance (advance_of_step hstep))
    exact ⟨hreach', ht.2.step hreach' hstep⟩
  exact hboth.2

/-- Every later slot can be entered. -/
theorem exists_advance (hsole : IsSole e.constants s) (hbrief : e.constants.Brief last)
    (hreach : e.Reachable s) (hle : s.slot ≤ target) (htarget : target ≤ last) :
    ∃ s', e.advance s target = .ok s' ∧ IsSole e.constants s' := by
  have haffordable : e.constants.Affordable s.validators.size (e.constants.epochAt target) := by
    rw [hsole.validators_size, hbrief.epochAt_eq]
    exact hbrief.affordable.mono le_rfl htarget
  have hrange : InRange e.constants (e.constants.epochAt target) s := by
    refine hreach.inRange ?_ haffordable hsole.stakesFit (hle.trans (htarget.trans hbrief.last_le))
    rw [hbrief.slotsPerEpoch_eq]
    decide
  obtain ⟨s', hadvance⟩ := hreach.exists_advance hle (htarget.trans hbrief.last_le) hrange
  exact ⟨s', hadvance, hsole.advance hreach hadvance⟩

/-- There is room for the votes of the running period. -/
theorem votesStored (hsole : IsSole e.constants s) (hbrief : e.constants.Brief last)
    (hrun : e.Run h s) (hrecord : record.depositCount = 0) : VotesStored s record := by
  refine ⟨?_, by rw [hsole.depositCount]; decide, by rw [hrecord]; decide⟩
  calc s.externalDataVotes.length ≤ e.constants.votingSlots := hrun.length_externalDataVotes_le
    _ = e.constants.epochsPerVotingPeriod := by
        rw [Constants.votingSlots, hbrief.slotsPerEpoch_eq, Nat.mul_one]
    _ ≤ 2147483648 := hbrief.epochsPerVotingPeriod_le
    _ < Constants.ringLimit := by decide

end IsSole

/-- A run of the validator has come to slot `n`. -/
structure SoleAt (e : Engine) (n : Slot) (h : Chronicle) (s : ChainState) : Prop where
  run : e.Run h s
  sole : IsSole e.constants s
  slot : s.slot = n

namespace SoleAt

variable {n m : Slot}

/-- It goes on to every later slot. -/
theorem exists_advance (hat : SoleAt e n h s) (hbrief : e.constants.Brief last) (hle : n ≤ m)
    (hlast : m ≤ last) :
    ∃ h' s', e.advance s m = .ok s' ∧ SoleAt e m h' s' ∧ h.Extends h' ∧ h'.blocks = h.blocks := by
  obtain ⟨s', hadvance, hsole⟩ := hat.sole.exists_advance hbrief hat.run.reachable
    (hat.slot.trans_le hle) hlast
  obtain ⟨h', hrun, hwritten⟩ := hat.run.advance hadvance
  exact ⟨h', s', hadvance, ⟨hrun, hsole, advance_slot hadvance⟩, hwritten⟩

/-- Each slot begins an epoch, and the one that ends is settled. -/
theorem exists_boundary (hat : SoleAt e n h s) (hbrief : e.constants.Brief last) (hlt : n < last) :
    nextSlot e.constants s = .ok (s.atNextSlot e.constants) ∧
      ∃ summary s', processEpoch e.constants (s.atNextSlot e.constants) = .ok (summary, s') := by
  obtain ⟨s', hadvance, -⟩ := hat.sole.exists_advance hbrief hat.run.reachable (Nat.le_succ _)
    (hat.slot.symm ▸ hlt : s.slot < last)
  have hstep := advance_succ_eq_ok.1 hadvance
  obtain ⟨hrings, hlimit, -⟩ := step_eq_ok.1 hstep
  refine ⟨nextSlot_eq_ok.2 ⟨hrings, hlimit, rfl⟩, ?_⟩
  rcases step_cases hstep with ⟨-, summary, hprocess⟩ | ⟨hnot, -⟩
  · exact ⟨summary, s', hprocess⟩
  · exact absurd (hbrief.isEpochStart_eq _) hnot

/-- A block can be put on the chain in every later slot. -/
theorem exists_importBlock (hat : SoleAt e n h s) (hbrief : e.constants.Brief last)
    (record : ExternalData) (hlt : n < m) (hlast : m ≤ last) (hrecord : record.depositCount = 0) :
    ∃ t b h' s', e.advance s m = .ok t ∧ SoleBlock e t t.soleVote record b ∧
      s' = t.afterVote e.constants b t.soleVote ∧ e.importBlock s b = .ok s' ∧
      SoleAt e m h' s' ∧ h.Extends h' ∧ h'.blocks = h.blocks ++ [b] := by
  obtain ⟨h₁, t, hadvance, hat₁, -⟩ := hat.exists_advance hbrief hlt.le hlast
  have hnewer : t.latestBlockHeader.slot < t.slot := by
    rw [advance_latestBlockHeader_slot hadvance, hat₁.slot]
    exact hat.run.rising.header_le.trans_lt (hat.slot.trans_lt hlt)
  obtain ⟨b, hb⟩ := hat₁.sole.exists_block hbrief (hat₁.slot.trans_le hlast) hnewer
    (hat₁.sole.votesStored hbrief hat₁.run hrecord) hrecord
  have himport := hb.importBlock hadvance
  obtain ⟨h', hrun, hwritten⟩ := hat.run.importBlock himport
  exact ⟨t, b, h', _, hadvance, hb, rfl, himport,
    ⟨hrun, hat₁.sole.afterVote hb hrecord, hat₁.slot⟩, hwritten⟩

end SoleAt

/-! ## A small chain -/

/-- Epochs of one slot, with voting periods of three. -/
def Constants.solo : Constants := { Constants.tightest with epochsPerVotingPeriod := 3 }

/-- The engine of these constants. -/
def Engine.solo : Engine := ⟨Constants.solo, by decide⟩

theorem Constants.brief_solo : Constants.solo.Brief 1099511627776 :=
  ⟨Engine.solo.consistent, rfl, rfl, by decide, by decide, by decide,
    by decide, by decide, by decide +kernel, by decide +kernel, by decide⟩

theorem run_solo : Engine.solo.Run { first := ChainState.solo } ChainState.solo :=
  .genesis 0 [Validator.genesis (Bytes.zero 48) 32000000000] {} {}

theorem soleAt_solo : SoleAt Engine.solo 0 { first := ChainState.solo } ChainState.solo :=
  ⟨run_solo, ⟨ringsFit_genesis .., ⟨_, rfl, rfl, rfl, rfl, le_rfl⟩, rfl, rfl⟩, rfl⟩

end Beacon
