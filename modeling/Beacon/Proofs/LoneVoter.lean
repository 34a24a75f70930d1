import Mathlib
import Beacon.Proofs.SoleVoter

set_option autoImplicit false

/-! # A chain that finalizes

The smallest chain with full participation: epochs of one slot, and a single validator that proposes
a block in every slot from the first one on, with its own attestation of the slot before. Stakes are
so small that nobody earns or loses anything. Every epoch is then justified when the next one ends
and finalized two epochs later, up to any slot before the horizon (`exists_loneAt`). -/

namespace Beacon

variable {s s' : ChainState} {h : Chronicle} {epoch : Epoch} {n : Nat}

/-! ## The lone validator -/

/-- Epochs and voting periods of one slot, stakes of two, and rewards that round to nothing. -/
def Constants.lone : Constants where
  slotsPerEpoch := 1
  slotsPerHistoricalRoot := 2
  randaoMixesLength := 5
  epochsPerVotingPeriod := 1
  maxEffectiveBalance := 2
  effectiveBalanceIncrement := 1
  baseRewardFactor := 1
  inactivityPenaltyQuotient := Word.max

/-- The engine of these constants. -/
def Engine.lone : Engine := ⟨Constants.lone, by decide⟩

/-- The only validator, active from the first epoch on. -/
def loneVoter : Validator := Validator.genesis (Bytes.zero 48) 2

/-- The first state with this validator. -/
def ChainState.lone : ChainState := ChainState.genesis Constants.lone 0 [loneVoter] {} {}

/-- The state has the rings that the constants ask for, the lone validator with its stake, and no
    deposits to come. -/
structure IsLone (s : ChainState) : Prop where
  rings : RingsFit Constants.lone s
  validators : s.validators = #[loneVoter]
  balances : s.balances = #[2]
  externalData : s.externalData = {}

theorem isLone_genesis : IsLone ChainState.lone := ⟨ringsFit_genesis .., rfl, rfl, rfl⟩

/-- The constants leave room for the lone validator up to the horizon. -/
theorem Constants.brief_lone : Constants.lone.Brief horizon :=
  ⟨Engine.lone.consistent, rfl, rfl, by decide, by decide, le_rfl,
    by decide, by decide, by decide, by decide, by decide⟩

theorem Constants.epochAt_lone (slot : Slot) : Constants.lone.epochAt slot = slot :=
  Constants.brief_lone.epochAt_eq slot

theorem Constants.isEpochStart_lone (slot : Slot) : Constants.lone.isEpochStart slot = true :=
  Constants.brief_lone.isEpochStart_eq slot

namespace IsLone

/-- With the same rings, registry and record. -/
theorem congr (hlone : IsLone s) (hrings : RingsFit Constants.lone s')
    (hvalidators : s'.validators = s.validators) (hbalances : s'.balances = s.balances)
    (hdata : s'.externalData = s.externalData) : IsLone s' :=
  ⟨hrings, hvalidators.trans hlone.validators, hbalances.trans hlone.balances,
    hdata.trans hlone.externalData⟩

theorem isSole (hlone : IsLone s) : IsSole Constants.lone s :=
  ⟨hlone.rings, ⟨loneVoter, hlone.validators, rfl, rfl, rfl, le_rfl⟩,
    by rw [hlone.balances]; rfl, by rw [hlone.externalData]⟩

theorem getElem?_validators (hlone : IsLone s) : s.validators[0]? = some loneVoter := by
  rw [hlone.validators]
  rfl

theorem activeStake (hlone : IsLone s) (hcomes : epoch < farFuture) : s.activeStake epoch = 2 := by
  have hactive : loneVoter.isActiveAt epoch = true := by
    simp [loneVoter, Validator.genesis, Validator.isActiveAt, hcomes]
  simp [ChainState.activeStake, hlone.validators, hactive]
  rfl

theorem stakeFits (hlone : IsLone s) (hcomes : epoch < farFuture) :
    StakeFits Constants.lone s epoch := by
  rw [StakeFits, hlone.activeStake hcomes]
  decide

/-- Ballots in which the lone validator votes have its stake behind them. -/
theorem support (hlone : IsLone s) {ballots : List Ballot} {b : Ballot} (hb : b ∈ ballots)
    (hvoters : 0 ∈ b.voters Constants.lone s) : support Constants.lone s ballots = 2 := by
  simp [Beacon.support, hlone.isSole.supporters hb hvoters, ChainState.effectiveBalance,
    hlone.getElem?_validators, loneVoter, Validator.genesis]

/-! ### Blocks -/

theorem votesStored (hlone : IsLone s) (hvotes : s.externalDataVotes = []) (record : ExternalData)
    (hcount : record.depositCount < Word.limit) : VotesStored s record :=
  ⟨by rw [hvotes]; decide, by rw [hlone.externalData]; decide, hcount⟩

theorem afterVote (hlone : IsLone s) {a : Attestation} {b : CandidateBlock}
    (hb : SoleBlock Engine.lone s a {} b) : IsLone (s.afterVote Constants.lone b a) := by
  have hrecord : recordAfterVote Constants.lone s b.body.externalData = s.externalData := by
    rw [hb.externalData, recordAfterVote, hlone.externalData, ite_self]
  exact hlone.congr (applyBlock_frame hb.applies).ringsFit rfl rfl hrecord

/-- The lone validator stays as it is after a block with its vote for the slot before. -/
theorem exists_block (hlone : IsLone s) (hslot : s.slot ≤ horizon)
    (hnewer : s.latestBlockHeader.slot < s.slot) (hvotes : s.externalDataVotes = [])
    (hidle : s.currentEpochAttestations = []) :
    ∃ b s', Engine.lone.applyBlock s b = .ok s' ∧ b.body.attestations = [s.soleVote] ∧
      IsLone s' ∧ s'.slot = s.slot ∧ s'.currentEpochAttestations = [] := by
  obtain ⟨b, hb⟩ := hlone.isSole.exists_block (e := Engine.lone) Constants.brief_lone hslot hnewer
    (hlone.votesStored hvotes {} (by decide)) rfl
  exact ⟨b, _, hb.applies, hb.attestations, hlone.afterVote hb, rfl, hidle⟩

end IsLone

/-! ## Nobody earns anything -/

/-- Without a unit of reward there is nothing to earn or to lose, as long as what a late finality
    costs rounds to nothing as well. -/
theorem deltaOf_zero {c : Constants} {scale : RewardScale} {p : Participation} {previous : Epoch}
    (hbase : ∀ i, baseReward c s scale i = .ok 0)
    (hlate : ∀ i, s.effectiveBalance i * scale.finalityDelay < c.inactivityPenaltyQuotient)
    (index : ValidatorIndex) : deltaOf c s scale p previous index = .ok ⟨0, 0⟩ := by
  have hreward (set : List ValidatorIndex) : setReward c s scale set 0 = 0 := by
    unfold setReward
    split
    · rfl
    · simp [Word.wrap]
  have hrewards : setRewards c s scale p index 0 = 0 := by
    simp [setRewards, hreward]
  have hpenalties : setPenalties c s scale p index 0 = 0 := by
    simp [setPenalties, proposerReward, Word.wrap, Nat.div_eq_of_lt (hlate index)]
  have hinclusion (i : Inclusion) : inclusionReward i 0 = 0 := by
    simp [inclusionReward, proposerReward]
  have hshares : proposerReward 0 = 0 := rfl
  simp only [deltaOf, hbase, ite_self, Attempt.ok_bind, hrewards, hpenalties, hshares,
    List.mapM_pure, pure_bind, ← List.sum_eq_foldr, hinclusion, List.sum_map_zero]
  rfl

theorem deltasOf_zero {c : Constants} {scale : RewardScale} {p : Participation} {previous : Epoch}
    (hbase : ∀ i, baseReward c s scale i = .ok 0)
    (hlate : ∀ i, s.effectiveBalance i * scale.finalityDelay < c.inactivityPenaltyQuotient) :
    deltasOf c s scale p previous = .ok ((List.range s.validators.size).map fun _ => ⟨0, 0⟩) := by
  have hall (is : List ValidatorIndex) :
      is.mapM (deltaOf c s scale p previous) = .ok (is.map fun _ => ⟨0, 0⟩) := by
    induction is with
    | nil => rfl
    | cons i is ih =>
        rw [List.mapM_cons, deltaOf_zero hbase hlate, ih]
        rfl
  exact hall _

namespace IsLone

theorem effectiveBalance_le (hlone : IsLone s) (i : ValidatorIndex) : s.effectiveBalance i ≤ 2 := by
  rw [ChainState.effectiveBalance, hlone.validators]
  cases i with
  | zero => exact le_rfl
  | succ i => exact Nat.zero_le _

theorem deltas (hlone : IsLone s) {ended : Epoch} (hended : ended ≤ horizon) (p : Participation) :
    deltasOf Constants.lone s (rewardScale Constants.lone s ended) p (ended - 1)
      = .ok [⟨0, 0⟩] := by
  have hbase (i : ValidatorIndex) :
      baseReward Constants.lone s (rewardScale Constants.lone s ended) i = .ok 0 := by
    have hle := hlone.effectiveBalance_le i
    have hfactor : s.effectiveBalance i * Constants.lone.baseRewardFactor = s.effectiveBalance i :=
      Nat.mul_one _
    have hfits : s.effectiveBalance i < Word.limit := lt_of_le_of_lt hle (by decide)
    rw [baseReward, Word.mul, hfactor, if_pos hfits, Attempt.ok_bind, Nat.div_div_eq_div_mul,
      Nat.div_eq_of_lt]
    · rfl
    · calc s.effectiveBalance i ≤ 2 := hle
        _ < 1 * baseRewardsPerEpoch := by decide
        _ ≤ (rewardScale Constants.lone s ended).sqrtTotal * baseRewardsPerEpoch :=
            Nat.mul_le_mul_right _ (Nat.le_max_right ..)
  have hlate (i : ValidatorIndex) : s.effectiveBalance i
      * (rewardScale Constants.lone s ended).finalityDelay
        < Constants.lone.inactivityPenaltyQuotient := by
    have hdelay : (rewardScale Constants.lone s ended).finalityDelay ≤ horizon :=
      (Nat.sub_le ..).trans ((Nat.sub_le ..).trans hended)
    calc s.effectiveBalance i * (rewardScale Constants.lone s ended).finalityDelay
        ≤ 2 * horizon := Nat.mul_le_mul (hlone.effectiveBalance_le i) hdelay
      _ < Constants.lone.inactivityPenaltyQuotient := by decide
  rw [deltasOf_zero hbase hlate, hlone.isSole.validators_size]
  rfl

/-! ### A slot with its boundary -/

theorem justify (hlone : IsLone s) {lookup : CommitteeLookup} {ended : Epoch}
    {summary : EpochSummary}
    (hjustify : justifyAndFinalize Constants.lone lookup ended s = .ok (summary, s')) :
    IsLone s' := by
  have hframe := justifyAndFinalize_frame hjustify
  refine hlone.congr ⟨?_, ?_⟩ ?_ ?_ ?_
  · rw [hframe]
    exact hlone.rings.blockRoots
  · rw [hframe]
    exact hlone.rings.randaoMixes
  · rw [hframe]
  · rw [hframe]
  · rw [hframe]

theorem payRewards (hlone : IsLone s) {lookup : CommitteeLookup} {ended : Epoch}
    (hended : ended ≤ horizon) (hpay : payRewards Constants.lone lookup ended s = .ok s') :
    IsLone s' := by
  unfold Beacon.payRewards at hpay
  split at hpay
  · rw [Attempt.pure_eq_ok] at hpay
    exact hpay ▸ hlone
  · simp only [Attempt.bind_eq_ok, Attempt.liftM_eq_ok, Attempt.pure_eq_ok, hlone.deltas hended]
      at hpay
    obtain ⟨p, -, deltas, hdeltas, rfl⟩ := hpay
    obtain rfl := Except.ok.inj hdeltas
    refine ⟨⟨hlone.rings.blockRoots, hlone.rings.randaoMixes⟩, hlone.validators, ?_,
      hlone.externalData⟩
    simp [hlone.balances, Word.addSat, Word.max, Word.limit]

theorem updateBalances (hlone : IsLone s) (epoch : Epoch)
    (hupdate : updateEffectiveBalances Constants.lone (activateValidators Constants.lone epoch s)
      = .ok s') : IsLone s' := by
  obtain ⟨-, rfl⟩ := updateEffectiveBalances_eq_ok.1 hupdate
  refine ⟨⟨hlone.rings.blockRoots, hlone.rings.randaoMixes⟩, ?_, hlone.balances,
    hlone.externalData⟩
  have hactive : ¬ (loneVoter.activationEpoch = farFuture) := by decide
  have hstays : loneVoter.followBalance Constants.lone (Constants.lone.effectiveBalanceIncrement / 4)
      (Constants.lone.effectiveBalanceIncrement / 4 * 5) 2 = loneVoter := by decide
  simp [ChainState.withFollowed, activateValidators, hlone.validators, hlone.balances, hactive,
    hstays]

/-- The next slot can be entered, and leaves the lone validator as it is. -/
theorem exists_step (hlone : IsLone s) (hrun : Engine.lone.Run h s) (hslot : s.slot < horizon) :
    ∃ s', Engine.step Constants.lone s = .ok s' ∧ IsLone s' ∧ s'.externalDataVotes = [] := by
  obtain ⟨s', hadvance, -⟩ := hlone.isSole.exists_advance (e := Engine.lone) Constants.brief_lone
    hrun.reachable (Nat.le_succ _) hslot
  have hstep : Engine.step Constants.lone s = .ok s' := advance_succ_eq_ok.1 hadvance
  refine ⟨s', hstep, ?_⟩
  rcases step_cases hstep with ⟨-, summary, hprocess⟩ | ⟨hnot, -⟩
  · have hentry : IsLone (s.atNextSlot Constants.lone) :=
      hlone.congr hlone.rings.atNextSlot rfl rfl rfl
    have hended : (s.atNextSlot Constants.lone).currentEpoch Constants.lone - 1 ≤ horizon := by
      rw [ChainState.currentEpoch, Constants.epochAt_lone]
      exact hslot.le
    obtain ⟨-, s₁, s₂, s₃, hjustify, hpay, hupdate, rfl⟩ := processEpoch_eq_ok.1 hprocess
    have h₃ := ((hentry.justify hjustify).payRewards hended hpay).updateBalances _ hupdate
    exact ⟨⟨⟨h₃.rings.blockRoots, h₃.rings.randaoMixes⟩, h₃.validators, h₃.balances,
      h₃.externalData⟩, if_pos (Nat.mod_one _)⟩
  · exact absurd (Constants.isEpochStart_lone _) hnot

end IsLone

/-! ## The run -/

/-- Nobody stands behind a target without ballots. -/
theorem support_nil (c : Constants) (s : ChainState) : support c s [] = 0 := by
  simp [support, supporters]

/-- The run of the lone validator up to the start of slot `n`: the epoch before the last one is
    justified from the third slot on, the one before that is the previous justified one from the
    fourth on, and from the fifth on the last boundary has finalized a checkpoint. -/
structure LoneAt (n : Nat) (h : Chronicle) (s : ChainState) : Prop where
  run : Engine.lone.Run h s
  lone : IsLone s
  slot : s.slot = n
  newer : s.latestBlockHeader.slot < n
  votes : s.externalDataVotes = []
  idle : s.currentEpochAttestations = []
  head : h.heads[n - 1]? = some (hashRoot s.latestBlockHeader)
  fits : ∀ x ∈ h.boundaries, StakeFits Constants.lone x.entry (x.ended Constants.lone)
  second : 3 ≤ n → bitAt s.justificationBits 1 = true ∧ s.currentJustified.epoch + 2 = n
  third : 4 ≤ n → bitAt s.justificationBits 2 = true ∧ s.previousJustified.epoch + 3 = n
  finalized : 5 ≤ n → ∃ x summary cp, h.boundaries[n - 1]? = some x ∧ x.exit = s ∧
    processEpoch Constants.lone x.entry = .ok (summary, x.exit) ∧ summary.finalized = some cp ∧
    cp.epoch + 4 = n

/-- A state of the lone validator at a slot, with a vote for the epoch before that names the header
    that headed the chain then. -/
structure LoneVoted (h : Chronicle) (s : ChainState) (root : Root) : Prop where
  run : Engine.lone.Run h s
  lone : IsLone s
  pos : 0 < s.slot
  slot : s.slot < horizon
  idle : s.currentEpochAttestations = []
  head : h.heads[s.slot - 1]? = some root
  voted : ∃ b ∈ ballotsOf h.blocks, b.bits = [true] ∧ b.data.slot = s.slot - 1 ∧
    b.data.index = 0 ∧ b.data.target = ⟨s.slot - 1, root⟩

/-- With the second to the fourth bit set, the first rule finalizes the previous justified
    checkpoint. -/
theorem finalizedBy_row {bits : Vector Bool 4} {previous current : Checkpoint} {ended : Epoch}
    {answer : Option Checkpoint}
    (hbits : bitAt bits 1 = true ∧ bitAt bits 2 = true ∧ bitAt bits 3 = true)
    (hdistance : previous.epoch + 3 = ended)
    (h : finalizedBy bits previous current ended = .ok answer) : answer = some previous := by
  have hrow : (bits[1] && bits[2] && bits[3]) = true := by
    show (bitAt bits 1 && bitAt bits 2 && bitAt bits 3) = true
    rw [hbits.1, hbits.2.1, hbits.2.2]
    rfl
  rw [finalizedBy, if_pos hrow, Attempt.bind_eq_ok] at h
  obtain ⟨lies, hlies, h⟩ := h
  rw [liesBefore_eq_ok hlies, if_pos (decide_eq_true hdistance), Attempt.pure_eq_ok] at h
  exact h.symm

namespace LoneVoted

variable {root : Root} {x : Boundary} {t : Tally}

/-- At the boundary the epoch before the one that ends has the whole stake behind it, and the one
    that ends nothing yet. -/
theorem counts (hvoted : LoneVoted h s root) (hcross : Engine.lone.Crosses h s x)
    (hcounts : t.Counts Constants.lone x.entry (committeesOf Constants.lone x.entry)
      (x.ended Constants.lone)) :
    t.passesBefore (activeBalance Constants.lone x.entry (x.ended Constants.lone)) = true ∧
      t.passesLast (activeBalance Constants.lone x.entry (x.ended Constants.lone)) = false := by
  have hpos := hvoted.pos
  have hslot := hvoted.slot
  have hepoch : s.currentEpoch Constants.lone = s.slot := Constants.epochAt_lone s.slot
  have hended : x.ended Constants.lone = s.slot := hcross.ended.trans hepoch
  have hentrySlot : x.entry.slot = s.slot + 1 := by
    rw [hcross.entry]
    rfl
  have hentry : IsLone x.entry := by
    rw [hcross.entry]
    exact hvoted.lone.congr hvoted.lone.rings.atNextSlot rfl rfl rfl
  have hcomes : s.slot < farFuture := hslot.trans (by decide)
  have hstake : x.stake Constants.lone = 2 := by
    rw [Boundary.stake, hended, hentry.activeStake hcomes]
  have hfits : StakeFits Constants.lone x.entry (x.ended Constants.lone) := by
    rw [hended]
    exact hentry.stakeFits hcomes
  have htallies : x.Tallies Constants.lone (h.afterSlot Constants.lone s x.exit) t :=
    hcross.tally (by rw [hcross.ended]; exact hepoch ▸ hpos) hcounts
  -- The root that is counted for the epoch before is the one that the vote names.
  have hroot : t.before = root := by
    have hknown : h.headOf? Constants.lone (s.slot - 1) = some root := by
      rw [Chronicle.headOf?, show Constants.lone.slotsPerEpoch = 1 from rfl, Nat.mul_one]
      exact hvoted.head
    have hwritten := (Chronicle.extends_afterSlot Constants.lone h s x.exit).headOf? hknown
    have hbefore := htallies.before
    rw [hended, hwritten] at hbefore
    exact (Option.some.inj hbefore).symm
  refine ⟨?_, ?_⟩
  · refine (htallies.passesBefore_iff Engine.lone.consistent hfits).2 ?_
    obtain ⟨b, hb, hbits, hbslot, hindex, htarget⟩ := hvoted.voted
    have hwindow : InWindow Constants.lone x.entry (s.slot - 1) := by
      have hnow : x.entry.currentEpoch Constants.lone = s.slot + 1 :=
        (Constants.epochAt_lone _).trans hentrySlot
      rw [InWindow, hnow]
      lia
    have hvoters : b.voters Constants.lone x.entry = [0] :=
      hentry.isSole.voters Constants.brief_lone
        (hwindow.checkWindow (by rw [hentrySlot]; exact hslot)) (by lia) hbits hindex hbslot
        (by rw [htarget])
    have hsupport : x.supportFor Constants.lone ⟨x.ended Constants.lone - 1, t.before⟩ = 2 := by
      refine hentry.support (b := b) ?_ (by rw [hvoters]; exact List.mem_singleton_self 0)
      rw [Boundary.ballotsFor, List.mem_filter, hcross.blocks, decide_eq_true_iff, htarget, hended,
        hroot]
      exact ⟨hb, rfl⟩
    rw [hstake, hsupport]
    decide
  · refine Bool.eq_false_iff.2 (mt (htallies.passesLast_iff Engine.lone.consistent hfits).1 ?_)
    have hnone : x.ballotsFor ⟨x.ended Constants.lone, t.last⟩ = [] := by
      have hpending : [] = (ballotsOf h.blocks).filter fun b =>
          b.data.target.epoch = s.currentEpoch Constants.lone := by
        have hcurrent := hvoted.run.remembers.current
        rw [hvoted.idle] at hcurrent
        exact hcurrent
      rw [Boundary.ballotsFor, hcross.blocks, List.filter_eq_nil_iff]
      intro b hb htarget
      refine List.filter_eq_nil_iff.1 hpending.symm b hb (decide_eq_true ?_)
      rw [of_decide_eq_true htarget]
      exact hcross.ended
    rw [hstake, Boundary.supportFor, hnone, support_nil]
    decide

/-- What the boundary makes of that: the epoch before is justified, the bits move on, and a row of
    three finalizes the previous justified checkpoint. -/
theorem decides (hvoted : LoneVoted h s root) (hcross : Engine.lone.Crosses h s x)
    (hlate : 2 ≤ s.slot) :
    ∃ summary, processEpoch Constants.lone x.entry = .ok (summary, x.exit) ∧
      bitAt x.exit.justificationBits 1 = true ∧
      bitAt x.exit.justificationBits 2 = bitAt s.justificationBits 1 ∧
      bitAt x.exit.justificationBits 3 = bitAt s.justificationBits 2 ∧
      x.exit.currentJustified.epoch + 1 = s.slot ∧
      x.exit.previousJustified = s.currentJustified ∧
      (bitAt s.justificationBits 1 = true ∧ bitAt s.justificationBits 2 = true →
        s.previousJustified.epoch + 3 = s.slot → summary.finalized = some s.previousJustified) := by
  have hended : x.ended Constants.lone = s.slot := hcross.ended.trans (Constants.epochAt_lone _)
  have hbits : x.entry.justificationBits = s.justificationBits := by
    rw [hcross.entry]
    rfl
  have hprevious : x.entry.previousJustified = s.previousJustified := by
    rw [hcross.entry]
    rfl
  have hcurrent : x.entry.currentJustified = s.currentJustified := by
    rw [hcross.entry]
    rfl
  obtain ⟨summary, hprocess, ⟨hearly, -⟩ | ⟨-, t, hcounts, hverdict⟩⟩ := hcross.verdict
  · exact absurd (hended.ge.trans hearly) (Nat.not_le_of_lt hlate)
  obtain ⟨hbefore, hlast⟩ := hvoted.counts hcross hcounts
  replace hverdict : Verdict x.entry x.exit (activeBalance Constants.lone x.entry
    (x.ended Constants.lone)) (x.ended Constants.lone) t summary := hverdict
  rw [hended] at hverdict hbefore hlast
  have hshifted : x.exit.justificationBits
      = #v[false, true, bitAt s.justificationBits 1, bitAt s.justificationBits 2] := by
    rw [hverdict.justificationBits, Tally.shifted, hlast, hbefore, Bool.or_true, hbits]
  have hjustified : x.exit.currentJustified = ⟨s.slot - 1, t.before⟩ := by
    rw [hverdict.currentJustified, Tally.justified?, hlast, if_neg Bool.false_ne_true,
      if_pos hbefore, Option.getD_some]
  refine ⟨summary, hprocess, ?_, ?_, ?_, ?_, hverdict.previousJustified.trans hcurrent, ?_⟩
  · rw [hshifted]
    rfl
  · rw [hshifted]
    rfl
  · rw [hshifted]
    rfl
  · rw [hjustified]
    exact Nat.sub_add_cancel hvoted.pos
  · rintro ⟨hsecond, hthird⟩ hdistance
    have hdecided := hverdict.decided
    rw [hshifted, hprevious] at hdecided
    exact finalizedBy_row ⟨rfl, hsecond, hthird⟩ hdistance hdecided

end LoneVoted

/-- The slots of the lone validator go on. -/
theorem LoneAt.next (hat : LoneAt n h s) (hpos : 0 < n) (hn : n < horizon) :
    ∃ h' s', LoneAt (n + 1) h' s' := by
  have hslot := hat.slot
  obtain ⟨b, s₁, hblock, hvote, hlone₁, hslot₁, hidle₁⟩ := hat.lone.exists_block
    (by rw [hslot]; exact hn.le) (by rw [hslot]; exact hat.newer) hat.votes hat.idle
  have hrun₁ := hat.run.block hblock
  rw [hslot] at hslot₁
  obtain ⟨s₂, hstep, hlone₂, hvotes₂⟩ := hlone₁.exists_step hrun₁ (by rw [hslot₁]; exact hn)
  have hblockFrame := applyBlock_frame hblock
  have hsame := hblockFrame.sameCheckpoints
  have hframe := step_frame hstep
  obtain ⟨x, rfl, hcross⟩ : ∃ x : Boundary, x.exit = s₂ ∧
      Engine.lone.Crosses (h.afterBlock b) s₁ x :=
    ⟨⟨s₁.atNextSlot Constants.lone, s₂, (h.afterBlock b).blocks⟩, rfl, hrun₁,
      Constants.isEpochStart_lone _, hstep, rfl, rfl⟩
  have hended : x.ended Constants.lone = n :=
    hcross.ended.trans ((Constants.epochAt_lone s₁.slot).trans hslot₁)
  have hfits : StakeFits Constants.lone x.entry (x.ended Constants.lone) := by
    rw [hended, hcross.entry]
    exact (hlone₁.congr hlone₁.rings.atNextSlot rfl rfl rfl).stakeFits (hn.trans (by decide))
  have hvoted : LoneVoted (h.afterBlock b) s₁ (hashRoot s.latestBlockHeader) := by
    refine ⟨hrun₁, hlone₁, by rw [hslot₁]; exact hpos, by rw [hslot₁]; exact hn, hidle₁, ?_,
      s.soleVote.ballot, ?_, rfl, ?_, rfl, ?_⟩
    · rw [hslot₁]
      exact hat.head
    · rw [Chronicle.afterBlock_blocks, ballotsOf_concat, hvote]
      exact List.mem_append_right _ (List.mem_singleton_self _)
    · rw [hslot₁, ← hslot]
      rfl
    · rw [hslot₁, ← hslot]
      rfl
  have hlength : h.heads.length = n := hat.run.length_heads.trans hslot
  obtain ⟨_, hsettled⟩ := hcross.settled
  refine ⟨_, x.exit, hrun₁.slot hstep, hlone₂, hframe.slot.trans (by rw [hslot₁]), ?_, hvotes₂,
    (processEpoch_frame hsettled).current, ?_, ?_, ?_, ?_, ?_⟩
  · -- The block's own header heads the chain.
    rw [hframe.latestBlockHeader, ChainState.filledHeader_slot, hblockFrame.frame.latestBlockHeader]
    show b.slot < n + 1
    rw [hblockFrame.blockSlot, hslot]
    exact Nat.lt_succ_self n
  · rw [Chronicle.afterSlot_heads, hframe.latestBlockHeader, Nat.add_sub_cancel]
    exact (congrArg _ hlength.symm).trans List.getElem?_concat_length
  · intro y hy
    rw [hcross.boundaries] at hy
    rcases List.mem_append.1 hy with hy | hy
    · exact hat.fits y hy
    · rwa [List.mem_singleton.1 hy]
  · intro hlate
    obtain ⟨-, -, hsecond, -, -, hcurrent, -⟩ := hvoted.decides hcross (by rw [hslot₁]; lia)
    exact ⟨hsecond, by rw [← hslot₁, ← hcurrent]⟩
  · intro hlate
    obtain ⟨hsecond, hcurrent⟩ := hat.second (Nat.le_of_succ_le_succ hlate)
    obtain ⟨-, -, -, hthird, -, -, hprevious, -⟩ := hvoted.decides hcross (by rw [hslot₁]; lia)
    refine ⟨?_, ?_⟩
    · rw [hthird, hsame.justificationBits]
      exact hsecond
    · rw [hprevious, hsame.currentJustified, ← hcurrent]
  · intro hlate
    obtain ⟨hsecond, -⟩ := hat.second (by lia)
    obtain ⟨hthird, hprevious⟩ := hat.third (Nat.le_of_succ_le_succ hlate)
    obtain ⟨summary, hprocess, -, -, -, -, -, hrow⟩ :=
      hvoted.decides hcross (by rw [hslot₁]; lia)
    refine ⟨x, summary, s₁.previousJustified, ?_, rfl, hprocess, hrow ⟨?_, ?_⟩ ?_, ?_⟩
    · rw [hcross.boundaries, Nat.add_sub_cancel]
      have hboundaries : h.boundaries.length = n :=
        hat.run.length_boundaries.trans ((Constants.epochAt_lone s.slot).trans hslot)
      exact (congrArg _ hboundaries.symm).trans List.getElem?_concat_length
    · rw [hsame.justificationBits]
      exact hsecond
    · rw [hsame.justificationBits]
      exact hthird
    · rw [hsame.previousJustified, hprevious, hslot₁]
    · rw [hsame.previousJustified, ← hprevious]

/-- The first slot is entered without a block. -/
theorem exists_lone_firstSlot :
    ∃ s, Engine.step Constants.lone ChainState.lone = .ok s ∧ IsLone s ∧ s.slot = 1 ∧
      s.latestBlockHeader.slot < 1 ∧ s.externalDataVotes = [] := by
  have hrun : Engine.lone.Run { first := ChainState.lone } ChainState.lone := .genesis ..
  obtain ⟨s, hstep, hlone, hvotes⟩ := isLone_genesis.exists_step hrun (by decide)
  refine ⟨s, hstep, hlone, (step_frame hstep).slot, ?_, hvotes⟩
  rw [(step_frame hstep).latestBlockHeader, ChainState.filledHeader_slot]
  exact Nat.zero_lt_one

/-- The run begins with it. -/
theorem exists_loneAt_one : ∃ h s, LoneAt 1 h s := by
  have hrun : Engine.lone.Run { first := ChainState.lone } ChainState.lone := .genesis ..
  obtain ⟨s, hstep, hlone, hslot, hnewer, hvotes⟩ := exists_lone_firstSlot
  have hframe := step_frame hstep
  obtain ⟨x, rfl, hcross⟩ : ∃ x : Boundary, x.exit = s ∧
      Engine.lone.Crosses { first := ChainState.lone } ChainState.lone x :=
    ⟨⟨ChainState.lone.atNextSlot Constants.lone, s, []⟩, rfl, hrun, Constants.isEpochStart_lone _,
      hstep, rfl, rfl⟩
  obtain ⟨_, hsettled⟩ := hcross.settled
  refine ⟨_, x.exit, hrun.slot hstep, hlone, hslot, hnewer, hvotes,
    (processEpoch_frame hsettled).current, ?_, ?_, ?_, ?_, ?_⟩
  · rw [Chronicle.afterSlot_heads, hframe.latestBlockHeader]
    rfl
  · intro y hy
    rw [hcross.boundaries, List.nil_append, List.mem_singleton] at hy
    rw [hy, show x.ended Constants.lone = 0 from hcross.ended, hcross.entry]
    exact (isLone_genesis.congr isLone_genesis.rings.atNextSlot rfl rfl rfl).stakeFits (by decide)
  all_goals exact fun hlate => absurd hlate (by decide)

/-- **The lone validator finalizes.** Its run comes to every slot before the horizon. -/
theorem exists_loneAt (hpos : 0 < n) (hle : n ≤ horizon) : ∃ h s, LoneAt n h s := by
  induction n, hpos using Nat.le_induction with
  | base => exact exists_loneAt_one
  | succ n hpos ih =>
      obtain ⟨h, s, hat⟩ := ih (Nat.le_of_succ_le hle)
      exact hat.next hpos hle

end Beacon
