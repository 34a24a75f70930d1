import Mathlib
import Beacon.Proofs.AdvanceSafety
import Beacon.Proofs.BlockSafety
import Beacon.Proofs.Lifecycle
import Beacon.Proofs.SoleVoter

set_option autoImplicit false

/-! # Constants that are safe to run with

The check of the constants asks whether the rings cover two and five epochs, and multiplies to find
out: it stops exactly where one of these products is no word (`validate_eq_fault`). What it accepts
has no zero divisor, but it does not bound products of constants with each other or with slots. With
constants of moderate size (`Constants.Modest`) none of the calls that move a chain faults on any
state of its runs: there blocks are no more than slots, so that the votes have room
(`Run.votesStored`), and attestations and checkpoints are of epochs that have begun
(`Run.inRange`). -/

namespace Beacon

variable {c : Constants} {e : Engine} {h : Chronicle} {s s' : ChainState} {b : CandidateBlock}
  {validators : Nat} {last target : Slot} {stop : Fault}

/-! ## The check -/

/-- The settings that must not be zero. -/
def Constants.divisors (c : Constants) : List Nat :=
  [c.slotsPerEpoch, c.slotsPerHistoricalRoot, c.randaoMixesLength, c.maxCommitteesPerSlot,
    c.targetCommitteeSize, c.attestationSubnetCount, c.epochsPerVotingPeriod,
    c.targetAggregatorsPerCommittee, c.effectiveBalanceIncrement, c.baseRewardFactor,
    c.inactivityPenaltyQuotient, c.minSlashingPenaltyQuotient, c.maxAttestations]

theorem requirePositive_ne_fault {setting : String} {value : Nat} :
    requirePositive setting value ≠ .error (.fault stop) :=
  Attempt.require_ne_fault

/-- The check stops exactly where it comes to a product that is no word. -/
theorem validate_eq_fault :
    c.validate = .error (.fault stop) ↔
      stop = .overflow ∧ (∀ value ∈ c.divisors, 0 < value) ∧
        (Word.limit ≤ 2 * c.slotsPerEpoch ∨
          2 * c.slotsPerEpoch ≤ c.slotsPerHistoricalRoot ∧ Word.limit ≤ 5 * c.slotsPerEpoch) := by
  simp only [Constants.validate, Attempt.bind_eq_fault, requirePositive_ne_fault,
    Constants.requirePositive_eq_ok, Attempt.require_ne_fault, Attempt.require_eq_ok,
    Attempt.liftM_eq_fault, Attempt.liftM_eq_ok, Word.mul_eq_fault, Word.mul_eq_ok, false_or,
    exists_const, and_assoc, exists_eq_left, and_false, or_false, Constants.divisors,
    List.forall_mem_cons, List.not_mem_nil, false_implies, implies_true, and_true]
  have htwo := Nat.lt_or_ge (2 * c.slotsPerEpoch) Word.limit
  tauto

/-! ## Constants of moderate size -/

/-- Constants small enough for runs up to `last` with a registry of so many validators. -/
structure Constants.Modest (c : Constants) (validators : Nat) (last : Slot) : Prop where
  slotsPerEpoch_le : c.slotsPerEpoch ≤ 2147483648
  epochsPerVotingPeriod_le : c.epochsPerVotingPeriod ≤ 2147483648
  minAttestationInclusionDelay_le : c.minAttestationInclusionDelay ≤ 2147483648
  minValidatorWithdrawabilityDelay_le : c.minValidatorWithdrawabilityDelay ≤ 2147483648
  last_le : last ≤ 1099511627776
  affordable : c.Affordable validators (c.epochAt last)

/-- The constants of the public network are, for two to the 31st validators and up to the slot that
    the others are measured by. -/
example : Constants.Modest {} 2147483648 1099511627776 :=
  ⟨by decide, by decide, by decide, by decide, by decide,
    by decide, by decide, by decide +kernel, by decide +kernel, by decide⟩

namespace Constants.Modest

theorem last_le_horizon (h : c.Modest validators last) : last ≤ horizon :=
  h.last_le.trans (by decide)

theorem moderate (h : c.Modest validators last) (hslot : s.slot ≤ last)
    (hsize : s.validators.size ≤ validators) : Moderate c s :=
  ⟨h.slotsPerEpoch_le, h.epochsPerVotingPeriod_le, h.minAttestationInclusionDelay_le,
    h.minValidatorWithdrawabilityDelay_le, hslot.trans h.last_le_horizon,
    hsize.trans h.affordable.few⟩

end Constants.Modest

/-! ## States of a run -/

/-- There is room for the votes of a run, which are no more than its slots. -/
theorem Engine.Run.votesStored (hrun : e.Run h s) (hslot : s.slot ≤ 1099511627776)
    (hinForce : s.externalData.depositCount < Word.limit) {vote : ExternalData}
    (hvote : vote.depositCount < Word.limit) : VotesStored s vote := by
  refine ⟨?_, hinForce, hvote⟩
  have hvotes : s.externalDataVotes.length ≤ h.blocks.length := by
    rw [hrun.externalDataVotes, votesIn, List.length_map]
    exact List.length_filter_le ..
  have hblocks := hrun.rising.length_le
  simp only [Constants.ringLimit]
  lia

/-- Its numbers are in range, since stakes are within the maximum when they are at first. -/
theorem Engine.Run.inRange (hrun : e.Run h s) (hmodest : e.constants.Modest validators last)
    (hfirst : StakesFit e.constants h.first) (hslot : s.slot ≤ last) (hle : target ≤ last)
    (hsize : s.validators.size ≤ validators) :
    InRange e.constants (e.constants.epochAt target) s := by
  have hstakes : StakesFit e.constants s :=
    hrun.forall_validators (P := (·.effectiveBalance ≤ e.constants.maxEffectiveBalance))
      (fun _ _ _ hv hamend => hamend.effectiveBalance_le hv)
      (fun _ _ => e.constants.effective_le _) hfirst
  exact hrun.reachable.inRange hmodest.slotsPerEpoch_le
    (hmodest.affordable.mono hsize (Constants.epochAt_mono hle)) hstakes
    (hslot.trans hmodest.last_le_horizon)

/-! ## Calls -/

/-- A block is packed or refused. -/
theorem createBlock_refusal {proposer : ValidatorIndex} {parent : Root} {contents : BlockContents}
    (hmoderate : Moderate e.constants s) (hstored : VotesStored s contents.externalData) :
    (e.createBlock s proposer parent contents).Within .refusal := by
  have hincludable : ∀ a ∈ contents.attestations,
      e.isIncludable s a = .ok (includableOn e.constants s a) :=
    fun a _ => (checkAttestation_within e.consistent trivial (Or.inr hmoderate) a).accepted
  have hdeposits : Engine.selectDeposits e.constants s contents = .ok _ :=
    selectDeposits_eq_ok.2 ⟨hmoderate.voteFits hstored, rfl⟩
  simp only [Engine.createBlock, selectSlashings_nil, firstAccepted_eq hincludable, hdeposits,
    Attempt.liftM_ok, Attempt.ok_bind]
  exact ((processBlock_refusal e.consistent hmoderate hstored).widen _).bind fun _ _ => trivial

theorem applyBlock_refusal (hmoderate : Moderate e.constants s)
    (hstored : VotesStored s b.body.externalData) : (e.applyBlock s b).Within .refusal :=
  ((processBlock_refusal e.consistent hmoderate hstored).widen _).bind fun _ _ =>
    Attempt.refusal_require.bind fun _ _ => trivial

theorem advance_validators_size (hadvance : e.advance s target = .ok s') :
    s'.validators.size = s.validators.size :=
  stepBy_invariant (P := fun t => t.validators.size = s.validators.size)
    (fun _ _ ht hstep => (step_validators_size hstep).trans ht) rfl (advance_eq_ok.1 hadvance).2

/-! ## The theorem -/

/-- **Accepted constants of moderate size are safe to run with.** The check of constants stops only
    with an overflow, and exactly where it comes to the slots of two or of five epochs and their
    number is no word. Constants that pass it and are of moderate size never stop a run whose first
    stakes are within the maximum: on each of its states up to the last slot, as long as the registry
    does not outgrow its bound and deposit counts are words, advancing, packing a block, applying one
    and importing one give a result or are refused. -/
theorem accepted_constants_run (c : Constants) :
    (∀ stop, c.validate = .error (.fault stop) ↔
      stop = .overflow ∧ (∀ value ∈ c.divisors, 0 < value) ∧
        (Word.limit ≤ 2 * c.slotsPerEpoch ∨
          2 * c.slotsPerEpoch ≤ c.slotsPerHistoricalRoot ∧ Word.limit ≤ 5 * c.slotsPerEpoch)) ∧
    ∀ (e : Engine) (h : Chronicle) (s : ChainState) (validators : Nat) (last : Slot),
      e.constants = c → e.Run h s → StakesFit c h.first → c.Modest validators last →
      s.slot ≤ last → s.validators.size ≤ validators →
      s.externalData.depositCount < Word.limit →
      (∀ target ≤ last, ∀ stop, e.advance s target ≠ .error (.fault stop)) ∧
      (∀ proposer parent contents, contents.externalData.depositCount < Word.limit →
        ∀ stop, e.createBlock s proposer parent contents ≠ .error (.fault stop)) ∧
      ∀ b : CandidateBlock, b.body.externalData.depositCount < Word.limit →
        (∀ stop, e.applyBlock s b ≠ .error (.fault stop)) ∧
        (b.slot ≤ last → ∀ stop, e.importBlock s b ≠ .error (.fault stop)) := by
  refine ⟨fun stop => validate_eq_fault, ?_⟩
  rintro e h s validators last rfl hrun hfirst hmodest hslot hsize hcount
  have hmoderate := hmodest.moderate hslot hsize
  have hadvance (target : Slot) (hle : target ≤ last) : (e.advance s target).Within .refusal :=
    advance_refusable trivial (Or.inr ⟨hle.trans hmodest.last_le_horizon,
      hrun.inRange hmodest hfirst hslot hle hsize⟩)
  have hstored {vote : ExternalData} (hvote : vote.depositCount < Word.limit) :
      VotesStored s vote := hrun.votesStored (hslot.trans hmodest.last_le) hcount hvote
  simp only [← Attempt.within_refusal_iff]
  refine ⟨hadvance, fun _ _ _ hvote => createBlock_refusal hmoderate (hstored hvote), fun b hvote =>
    ⟨applyBlock_refusal hmoderate (hstored hvote), fun hle => ?_⟩⟩
  refine (hadvance b.slot hle).bind fun t ht => ?_
  -- The state that the block meets belongs to the run as well.
  obtain ⟨h', hrun', -⟩ := hrun.extend (.of_advance ht)
  have hslot' : t.slot ≤ last := (advance_slot ht).trans_le hle
  refine applyBlock_refusal (hmodest.moderate hslot' ((advance_validators_size ht).trans_le hsize))
    (hrun'.votesStored (hslot'.trans hmodest.last_le) ?_ hvote)
  rw [advance_externalData ht]
  exact hcount

/-- The single validator's chain is of moderate size for a while. After its first block, whose votes
    for a record and for the slot before are there, no call stops it. -/
theorem accepted_constants_run_solo :
    (∀ stop, Constants.solo.validate ≠ .error (.fault stop)) ∧
    ∃ b s, Engine.solo.importBlock .solo b = .ok s ∧ s.externalDataVotes ≠ [] ∧
      s.previousEpochAttestations ≠ [] ∧
      (∀ stop, Engine.solo.advance s 4 ≠ .error (.fault stop)) ∧
      (∀ stop, Engine.solo.createBlock s 0 Root.none {} ≠ .error (.fault stop)) ∧
      ∀ stop, Engine.solo.importBlock s { slot := 3 } ≠ .error (.fault stop) := by
  obtain ⟨hvalidate, hcalls⟩ := accepted_constants_run Constants.solo
  refine ⟨fun stop hstop => absurd ((hvalidate stop).1 hstop).2.2 (by decide), ?_⟩
  obtain ⟨t, b, h, s, -, -, hs, himport, hat, hext, -⟩ := soleAt_solo.exists_importBlock (m := 1)
    Constants.brief_solo {} (by decide) (by decide) rfl
  have hfirst : StakesFit Constants.solo h.first := by
    rw [hext.first]
    exact soleAt_solo.sole.stakesFit
  obtain ⟨hadvances, hcreates, hblocks⟩ := hcalls .solo h s 1 4 rfl hat.run hfirst
    ⟨by decide, by decide, by decide, by decide, by decide,
      by decide, by decide, by decide +kernel, by decide +kernel, by decide⟩
    (hat.slot.trans_le (by decide)) hat.sole.validators_size.le
    (hat.sole.depositCount.trans_lt (by decide))
  exact ⟨b, s, himport, by simp [hs], by simp [hs], hadvances 4 le_rfl,
    hcreates 0 Root.none {} (by decide), (hblocks { slot := 3 } (by decide)).2 (by decide)⟩

/-- The constants of the small chain, with the largest power of two as the reward factor. -/
def Constants.lavish : Constants :=
  { Constants.tightest with baseRewardFactor := 9223372036854775808 }

/-- The engine of these constants. -/
def Engine.lavish : Engine := ⟨Constants.lavish, by decide⟩

/-- The check stops for the longest epochs; and it accepts a reward factor that stops the second
    boundary of a chain with a single full stake. -/
theorem accepted_constants_stop :
    { Constants.minimal with slotsPerEpoch := 9223372036854775808 }.validate
      = .error (.fault .overflow) ∧
    Constants.lavish.Valid ∧ StakesFit Constants.lavish ChainState.solo ∧
    Engine.lavish.Run { first := ChainState.solo } ChainState.solo ∧
    Engine.lavish.advance ChainState.solo 2 = .error (.fault .overflow) := by
  refine ⟨by decide, by decide, by unfold StakesFit; decide, ?_, by decide +kernel⟩
  exact .genesis 0 [Validator.genesis (Bytes.zero 48) 32000000000] {} {}

end Beacon
