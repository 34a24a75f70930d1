import Mathlib
import Beacon.Proofs.Payouts

set_option autoImplicit false

/-! # Attesting never costs, and absence never pays

The parts of a delta are added up for the validators that took part in everything, in nothing, or
neither belong to the epoch nor proposed for it. Outside a leak each set that a validator is in pays
and each one that it misses costs, so the two do not mix (`penalty_of_full`, `delta_of_absent`). In
a leak each set pays or costs one unit, and a penalty of four units less a proposer's part takes
back all that can be earned: the three sets and the inclusion (`reward_le_penalty`). An inclusion at
once earns just that part, so that full participation comes out even (`delta_of_prompt`). -/

namespace Beacon

variable {c : Constants} {s s' : ChainState} {ended : Epoch} {p : Participation} {d : Delta}
  {i : ValidatorIndex} {v : Validator} {balance : Gwei}

/-- Finality is so late that stakes leak. -/
def Leaks (s : ChainState) (ended : Epoch) : Prop :=
  minEpochsToInactivityPenalty < ended - 1 - s.finalized.epoch

instance : Decidable (Leaks s ended) :=
  inferInstanceAs (Decidable (_ < _))

theorem inLeak_rewardScale : (rewardScale c s ended).inLeak = decide (Leaks s ended) := rfl

/-- In a leak a set pays the whole unit. -/
theorem setReward_of_leaks (hleak : Leaks s ended) (set : List ValidatorIndex) (base : Gwei) :
    setReward c s (rewardScale c s ended) set base = base := by
  rw [setReward, inLeak_rewardScale, decide_eq_true hleak, if_pos rfl]

/-! ## Balances -/

theorem Delta.le_settle (hpenalty : d.penalty = 0) (hword : balance < Word.limit) :
    balance ≤ d.settle balance := by
  rw [Delta.settle, hpenalty, Nat.sub_zero, Word.addSat]
  exact le_min (Nat.le_add_right ..) (Nat.le_pred_of_lt hword)

theorem Delta.settle_le (h : d.reward ≤ d.penalty) : d.settle balance ≤ balance :=
  calc d.settle balance ≤ balance + d.reward - d.penalty :=
        Nat.sub_le_sub_right (min_le_left ..) _
    _ ≤ balance := by lia

theorem Delta.settle_of_lt (hword : balance + d.reward < Word.limit) :
    d.settle balance = balance + d.reward - d.penalty := by
  rw [Delta.settle, Word.addSat_of_lt hword]

/-! ## Who is eligible -/

/-- Whoever votes for the epoch that is paid for was active in it. -/
theorem isEligible_of_mem
    (htargets : ∀ a ∈ s.previousEpochAttestations, a.data.target.epoch = ended - 1)
    (hv : s.validators[i]? = some v) (hi : i ∈ sourceVoters c s) :
    isEligible (ended - 1) v = true := by
  obtain ⟨-, b, hb, hvotes⟩ := mem_supporters.1 hi
  obtain ⟨a, ha, rfl⟩ := List.mem_map.1 hb
  have hactive : v.isActiveAt a.data.target.epoch = true := isActiveAt_of_voter hvotes hv
  rw [htargets a ha] at hactive
  rw [isEligible, hactive, Bool.true_or]

/-! ## Deltas -/

section

variable (hp : p.Records c s (ended - 1)) (hv : s.validators[i]? = some v)
  (hd : deltaOf c s (rewardScale c s ended) p (ended - 1) i = .ok d)
include hp hv hd

/-- Outside a leak nothing is taken from a validator that is in all three sets. -/
theorem penalty_of_full (hleak : ¬ Leaks s ended) (hsource : i ∈ sourceVoters c s)
    (htarget : i ∈ targetVoters c s (ended - 1)) (hhead : i ∈ headVoters c s) : d.penalty = 0 := by
  rw [(deltaOf_eq hv hd).2, hp.setPenalties_eq, inLeak_rewardScale, decide_eq_false hleak]
  simp [hsource, htarget, hhead]

/-- A unit is taken for each set from a validator that is in none, and nothing is given. -/
theorem delta_of_absent (hleak : ¬ Leaks s ended) (heligible : isEligible (ended - 1) v = true)
    (hsource : i ∉ sourceVoters c s) (hcredit : ¬ CreditedProposer c s i) :
    d.reward = 0 ∧ d.penalty = 3 * rewardUnit c s ended i := by
  have htarget : i ∉ targetVoters c s (ended - 1) := fun hi =>
    hsource (targetVoters_subset c s _ hi)
  have hhead : i ∉ headVoters c s := fun hi => hsource (headVoters_subset c s hi)
  obtain ⟨hreward, hpenalty⟩ := deltaOf_eq hv hd
  constructor
  · rw [hreward, hp.setRewards_eq, hp.ownPart_of_not_mem _ hsource,
      hp.proposerPart_of_not_credited _ hcredit]
    simp [hsource, htarget, hhead]
  · rw [hpenalty, hp.setPenalties_eq, inLeak_rewardScale, decide_eq_false hleak]
    simp only [heligible, hsource, htarget, hhead, if_true, if_false, Bool.false_eq_true]
    lia

/-- In a leak nobody earns more than is taken from it. -/
theorem reward_le_penalty (hleak : Leaks s ended) (heligible : isEligible (ended - 1) v = true)
    (hcredit : ¬ CreditedProposer c s i) : d.reward ≤ d.penalty := by
  obtain ⟨hreward, hpenalty⟩ := deltaOf_eq hv hd
  have hown := hp.ownPart_le (rewardUnit c s ended) i
  have hpart := proposerReward_le (rewardUnit c s ended i)
  rw [hreward, hpenalty, hp.setRewards_eq, hp.setPenalties_eq,
    hp.proposerPart_of_not_credited _ hcredit, inLeak_rewardScale, decide_eq_true hleak]
  simp only [heligible, setReward_of_leaks hleak, if_true, baseRewardsPerEpoch]
  -- Each set is paid for or fined, and what is left is the inclusion against the common penalty.
  split_ifs at hown ⊢ <;> lia

/-- In a leak an inclusion at once makes up for the common penalty. -/
theorem delta_of_prompt (hleak : Leaks s ended) (heligible : isEligible (ended - 1) v = true)
    (hcredit : ¬ CreditedProposer c s i) (hsource : i ∈ sourceVoters c s)
    (htarget : i ∈ targetVoters c s (ended - 1)) (hhead : i ∈ headVoters c s)
    (hprompt : ∃ a, Earliest c s i a ∧ a.inclusionDelay ≤ 1) :
    d.reward = 4 * rewardUnit c s ended i - proposerReward (rewardUnit c s ended i) ∧
      d.penalty = d.reward := by
  obtain ⟨hreward, hpenalty⟩ := deltaOf_eq hv hd
  obtain ⟨a, ha, hle⟩ := hprompt
  obtain ⟨a', ha', hown⟩ := hp.exists_ownPart (rewardUnit c s ended) hsource
  rw [ha'.delay_eq ha, max_eq_right hle, Nat.div_one] at hown
  have hpart := proposerReward_le (rewardUnit c s ended i)
  rw [hreward, hpenalty, hp.setRewards_eq, hp.setPenalties_eq, hown,
    hp.proposerPart_of_not_credited _ hcredit, inLeak_rewardScale, decide_eq_true hleak]
  simp only [heligible, setReward_of_leaks hleak, hsource, htarget, hhead, if_true,
    baseRewardsPerEpoch]
  lia

/-- Whoever has nothing to do with the epoch has no part in its rewards. -/
theorem delta_of_outside
    (htargets : ∀ a ∈ s.previousEpochAttestations, a.data.target.epoch = ended - 1)
    (heligible : isEligible (ended - 1) v = false) (hcredit : ¬ CreditedProposer c s i) :
    d.reward = 0 ∧ d.penalty = 0 := by
  have hsource : i ∉ sourceVoters c s := fun hi =>
    absurd (isEligible_of_mem htargets hv hi) (by simp [heligible])
  obtain ⟨hreward, hpenalty⟩ := deltaOf_eq hv hd
  rw [hreward, hpenalty, hp.ownPart_of_not_mem _ hsource,
    hp.proposerPart_of_not_credited _ hcredit, heligible]
  exact ⟨rfl, rfl⟩

end

/-! ## Incentives -/

/-- **Attesting never costs, absence never pays.** When a state is paid for the epoch before the one
    that ends, by attestations that all target it: outside a leak no validator in all three sets
    loses, and one that was to attest and did not is fined three units and no more than it has,
    unless it earned something as a proposer. In a leak no validator that was to attest gains, unless
    as a proposer, and one in all three sets that was included at once keeps what it has, as long as
    this and the reward make up a word. All others keep what they have, unless they earn something
    as proposers. -/
theorem attesting_never_costs (hended : 1 ≤ ended)
    (htargets : ∀ a ∈ s.previousEpochAttestations, a.data.target.epoch = ended - 1)
    (hpay : payRewards c (committeesOf c s) ended s = .ok s') (hv : s.validators[i]? = some v)
    (hbalance : s.balances[i]? = some balance) (hword : balance < Word.limit) :
    ∃ balance', s'.balances[i]? = some balance' ∧
      (¬ Leaks s ended → i ∈ sourceVoters c s → i ∈ targetVoters c s (ended - 1) →
        i ∈ headVoters c s → balance ≤ balance') ∧
      (¬ Leaks s ended → isEligible (ended - 1) v = true → i ∉ sourceVoters c s →
        i ∉ targetVoters c s (ended - 1) → i ∉ headVoters c s → ¬ CreditedProposer c s i →
        balance' = balance - 3 * rewardUnit c s ended i) ∧
      (Leaks s ended → isEligible (ended - 1) v = true → ¬ CreditedProposer c s i →
        balance' ≤ balance) ∧
      (Leaks s ended → isEligible (ended - 1) v = true → ¬ CreditedProposer c s i →
        i ∈ sourceVoters c s → i ∈ targetVoters c s (ended - 1) → i ∈ headVoters c s →
        (∃ a, Earliest c s i a ∧ a.inclusionDelay ≤ 1) →
        balance + (4 * rewardUnit c s ended i - proposerReward (rewardUnit c s ended i))
          < Word.limit →
        balance' = balance) ∧
      (isEligible (ended - 1) v = false → ¬ CreditedProposer c s i → balance' = balance) := by
  obtain ⟨p, d, hp, hd, hbalance'⟩ := exists_delta hended hpay hv hbalance
  refine ⟨_, hbalance', ?_, ?_, ?_, ?_, ?_⟩
  · intro hleak hsource htarget hhead
    exact Delta.le_settle (penalty_of_full hp hv hd hleak hsource htarget hhead) hword
  · intro hleak heligible hsource _ _ hcredit
    obtain ⟨hreward, hpenalty⟩ := delta_of_absent hp hv hd hleak heligible hsource hcredit
    rw [Delta.settle_of_lt (by rwa [hreward]), hreward, hpenalty, Nat.add_zero]
  · intro hleak heligible hcredit
    exact Delta.settle_le (reward_le_penalty hp hv hd hleak heligible hcredit)
  · intro hleak heligible hcredit hsource htarget hhead hprompt hfits
    obtain ⟨hreward, hpenalty⟩ :=
      delta_of_prompt hp hv hd hleak heligible hcredit hsource htarget hhead hprompt
    rw [Delta.settle_of_lt (by rwa [hreward]), hpenalty, Nat.add_sub_cancel]
  · intro heligible hcredit
    obtain ⟨hreward, hpenalty⟩ := delta_of_outside hp hv hd htargets heligible hcredit
    rw [Delta.settle_of_lt (by rwa [hreward]), hreward, hpenalty]
    rfl

/-! ## A state that leaks -/

/-- A state after eight epochs without finality: of two validators the first one attested all that
    was right, and the second one is slashed. Nobody in the registry proposed. -/
def ChainState.leaking : ChainState :=
  { ChainState.genesis Constants.minimal 0
      [.genesis (Bytes.zero 48) 32000000000,
        { pubkey := Bytes.fill 48 1, effectiveBalance := 32000000000, slashed := true
          exitEpoch := 2, withdrawableEpoch := 256 }] {} {} with
    slot := 64
    previousEpochAttestations :=
      [{ bits := [true], data := { slot := 55, target := ⟨6, Bytes.zero 32⟩ }
         inclusionDelay := 1, proposerIndex := 2 }] }

namespace ChainState

theorem consistent_minimal : Constants.minimal.Consistent :=
  (Constants.valid_iff _).1 (by decide)

/-- The only active validator is the only member of the last committee of the epoch. -/
theorem exists_committees_leaking :
    ∃ committees, committeesOf Constants.minimal leaking 6 = .ok committees ∧
      committees.committee? 55 0 = some [0] := by
  have hactive : leaking.activeIndices 6 = [0] := by decide
  have hmixes : 0 < leaking.randaoMixes.size := by
    simp [leaking, genesis, Constants.minimal]
  have hwindow : InWindow Constants.minimal leaking 6 := by
    unfold InWindow
    decide
  have hwithin : (committeesOf Constants.minimal leaking 6).Within .none :=
    committeesOf_within consistent_minimal
      (Or.inr ⟨⟨by decide, by decide⟩, committeesFit_of_le (by decide) (by decide) 6⟩)
      (Or.inr ⟨⟨hwindow, hmixes⟩, by rw [hactive]; exact List.cons_ne_nil _ _⟩)
  obtain ⟨committees, hcommittees⟩ := hwithin.exists_ok
  obtain ⟨seed, -, -, -, hcut⟩ := committeesOf_eq_ok.1 hcommittees
  have hshuffle : shuffle #[0] seed = #[0] := rfl
  refine ⟨committees, hcommittees, ?_⟩
  rw [hcut, committeeCount, hactive, hshuffle]
  simp [EpochCommittees.committee?, slices, Constants.committeesPerSlot, Constants.minimal]

theorem attestersOf_leaking {a : PendingAttestation} (ha : a ∈ leaking.previousEpochAttestations) :
    attestersOf (committeesOf Constants.minimal leaking) a = .ok [0] := by
  obtain ⟨committees, hcommittees, hmembers⟩ := exists_committees_leaking
  obtain rfl := List.mem_singleton.1 ha
  rw [attestersOf]
  simp only [hcommittees, Attempt.widen, Attempt.ok_bind, hmembers]
  rfl

/-- Whatever the attestation is asked for, the first validator votes in it. -/
theorem mem_supporters_leaking :
    0 ∈ supporters Constants.minimal leaking
      (leaking.previousEpochAttestations.map PendingAttestation.ballot) := by
  refine mem_supporters.2 ⟨⟨_, rfl, rfl⟩, _, List.mem_map_of_mem (List.mem_singleton_self _), ?_⟩
  rw [attestersOf_eq (attestersOf_leaking (List.mem_singleton_self _))]
  exact List.mem_singleton_self _

/-- Everything that is read is there, and rewards are small, so the epoch is paid for. -/
theorem exists_paid_leaking :
    ∃ s', payRewards Constants.minimal (committeesOf Constants.minimal leaking) 7 leaking
      = .ok s' := by
  have hsettle : Settleable .none Constants.minimal leaking
      (committeesOf Constants.minimal leaking) 7 := by
    refine ⟨fun a ha => absurd ha List.not_mem_nil, fun a ha => ?_, fun a ha => Or.inr ?_,
      fun _ => Or.inr ⟨Bytes.zero 32, rfl⟩, Or.inr ⟨Bytes.zero 32, rfl⟩⟩
    · rw [attestersOf_leaking ha]
      trivial
    · obtain rfl := List.mem_singleton.1 ha
      exact ⟨Bytes.zero 32, rfl⟩
  have haffordable : Constants.minimal.Affordable leaking.validators.size 7 := by
    rw [show leaking.validators.size = 2 from rfl]
    exact ⟨by decide, by decide, by decide +kernel, by decide +kernel, by decide⟩
  have hstakes : StakesFit Constants.minimal leaking := by
    unfold StakesFit
    decide
  exact (payRewards_within hsettle
    (deltasFit_of_affordable consistent_minimal haffordable hstakes le_rfl)).exists_ok

end ChainState

/-- In this state the first validator keeps what it has, and the second one does not gain. -/
theorem attesting_never_costs_leaking :
    Leaks .leaking 7 ∧ ∃ s' balance, payRewards Constants.minimal
        (committeesOf Constants.minimal .leaking) 7 .leaking = .ok s' ∧
      s'.balances[0]? = some 32000000000 ∧ s'.balances[1]? = some balance ∧
      balance ≤ 32000000000 := by
  have hleak : Leaks .leaking 7 := by decide
  obtain ⟨s', hpay⟩ := ChainState.exists_paid_leaking
  have htargets : ∀ a ∈ ChainState.leaking.previousEpochAttestations,
      a.data.target.epoch = 7 - 1 := by decide
  have hcredit {i : ValidatorIndex} (hi : i ≠ 2) :
      ¬ CreditedProposer Constants.minimal .leaking i := by
    rintro ⟨w, -, a, ha, rfl⟩
    exact hi (congrArg PendingAttestation.proposerIndex (List.mem_singleton.1 ha.mem))
  have hin := ChainState.mem_supporters_leaking
  have hvotes := (mem_supporters.1 hin).2
  have hunit : rewardUnit Constants.minimal .leaking 7 0 ≤ 2048000000000 :=
    (Nat.div_le_self ..).trans (Nat.div_le_self ..)
  obtain ⟨balance₀, hbalance₀, -, -, -, hkeeps, -⟩ :=
    attesting_never_costs (by decide) htargets hpay (i := 0) rfl rfl (by decide)
  obtain ⟨balance₁, hbalance₁, -, -, hloses, -⟩ :=
    attesting_never_costs (by decide) htargets hpay (i := 1) rfl rfl (by decide)
  refine ⟨hleak, s', balance₁, hpay, ?_, hbalance₁, ?_⟩
  · rw [hbalance₀, hkeeps hleak (by decide) (hcredit (by decide)) hin hin hin]
    · rfl
    · obtain ⟨b, hb, hvotes⟩ := hvotes
      obtain rfl := List.mem_singleton.1 hb
      exact ⟨_, ⟨[], [], rfl, hvotes, by simp, by simp⟩, le_rfl⟩
    · refine lt_of_le_of_lt (Nat.add_le_add_left (Nat.sub_le ..) _) ?_
      exact lt_of_le_of_lt (Nat.add_le_add_left (Nat.mul_le_mul_left _ hunit) _) (by decide)
  · exact hloses hleak (by decide) (hcredit (by decide))

end Beacon
