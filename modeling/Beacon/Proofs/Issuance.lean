import Mathlib
import Beacon.Proofs.Payouts
import Beacon.Proofs.SoleVoter

set_option autoImplicit false

/-! # How much a boundary issues

For each attester of an epoch a boundary gives out at most four units: one for each set that it is
in, and one for its inclusion, which it shares with the proposer. The part for a set is scaled by
the stake of the set against the whole stake, so it stays below the unit as long as the attesters of
the epoch before are still active in the one that ends (`setReward_le_base`). Along a run they are:
only slashing sets an exit epoch, and the slashed are not counted (`Engine.Reaches.exitEpoch_eq`).
Each inclusion is paid for once, however its attester and its proposer are spread over the registry
(`sum_map_filter_le`). -/

namespace Beacon

variable {c : Constants} {e : Engine} {s s' boundary justified : ChainState} {ended epoch : Epoch}
  {p : Participation} {d : Delta} {i : ValidatorIndex} {v : Validator} {base : Gwei}
  {set : List ValidatorIndex}

/-! ## Sums -/

section

variable {α κ : Type} {xs : List α} {f : α → Nat}

/-- A sum over part of a list as one over the whole list. -/
theorem sum_map_filter (q : α → Bool) (f : α → Nat) (xs : List α) :
    ((xs.filter q).map f).sum = (xs.map fun x => if q x then f x else 0).sum := by
  induction xs with
  | nil => rfl
  | cons x xs ih =>
      rw [List.filter_cons, List.map_cons, List.sum_cons, ← ih]
      split
      · rw [List.map_cons, List.sum_cons]
      · rw [Nat.zero_add]

/-- Sorted by keys, every element is counted at most once. -/
theorem sum_map_filter_le [DecidableEq κ] {keys : List κ} (hkeys : keys.Nodup) (key : α → κ)
    (f : α → Nat) (xs : List α) :
    (keys.map fun k => ((xs.filter (key · = k)).map f).sum).sum ≤ (xs.map f).sum := by
  induction xs with
  | nil => simp
  | cons x xs ih =>
      have hhead (k : κ) : (((x :: xs).filter (key · = k)).map f).sum
          = (if k = key x then f x else 0) + ((xs.filter (key · = k)).map f).sum := by
        rw [List.filter_cons]
        by_cases hk : key x = k
        · simp [hk]
        · simp [hk, Ne.symm hk]
      -- The first element is counted with its own key only.
      have hone : (keys.map fun k => if k = key x then f x else 0).sum ≤ f x := by
        have hcount := List.nodup_iff_count_le_one.1 hkeys (key x)
        rw [List.sum_map_ite, List.sum_map_zero, Nat.add_zero, List.map_const',
          List.sum_replicate, smul_eq_mul]
        rw [List.count_eq_length_filter] at hcount
        exact (Nat.mul_le_mul_right _ hcount).trans_eq (Nat.one_mul _)
      simp only [hhead]
      rw [List.sum_map_add, List.map_cons, List.sum_cons]
      exact Nat.add_le_add hone ih

theorem sum_le_of_mapM {ε β : Type} {q : α → Attempt ε β} {ys : List β} {r : β → Nat}
    (h : xs.mapM q = .ok ys) (hle : ∀ x ∈ xs, ∀ y, q x = .ok y → r y ≤ f x) :
    (ys.map r).sum ≤ (xs.map f).sum := by
  have hall := Attempt.mapM_eq_ok h
  clear h
  induction hall with
  | nil => exact le_rfl
  | cons hhead _ ih =>
      obtain ⟨hx, hxs⟩ := List.forall_mem_cons.1 hle
      exact Nat.add_le_add (hx _ hhead) (ih hxs)

end

/-- Balances grow by no more than the rewards. -/
theorem sum_settle_le (balances : List Gwei) (deltas : List Delta) :
    (balances.zipWith (fun balance d => d.settle balance) deltas).sum
      ≤ balances.sum + (deltas.map Delta.reward).sum := by
  induction balances generalizing deltas with
  | nil => simp
  | cons balance balances ih =>
      cases deltas with
      | nil => simp
      | cons d deltas =>
          have hsettle : d.settle balance ≤ balance + d.reward :=
            (Nat.sub_le ..).trans (min_le_left ..)
          have hrest := ih deltas
          simp only [List.zipWith_cons_cons, List.map_cons, List.sum_cons]
          lia

/-! ## Scaled rewards -/

/-- The stake of the whole active set, place by place. -/
theorem ChainState.activeStake_eq (s : ChainState) (epoch : Epoch) :
    s.activeStake epoch = ((s.activeIndices epoch).map s.effectiveBalance).sum := by
  have hplaces : ((s.validators.toList.zipIdx.filter fun q => q.1.isActiveAt epoch).map
      fun q => s.effectiveBalance q.2)
      = (s.validators.toList.zipIdx.filter fun q => q.1.isActiveAt epoch).map
        fun q => q.1.effectiveBalance := by
    refine List.map_congr_left fun q hq => ?_
    have hv := List.mk_mem_zipIdx_iff_getElem?.1 (List.mem_filter.1 hq).1
    rw [Array.getElem?_toList] at hv
    rw [ChainState.effectiveBalance, hv]
  rw [ChainState.activeIndices, List.map_map]
  refine Eq.trans ?_ (congrArg List.sum hplaces.symm)
  rw [ChainState.activeStake]
  conv_lhs => rw [← List.zipIdx_map_fst 0 s.validators.toList, List.filter_map, List.map_map]
  rfl

/-- A set of active validators has at most the active stake. -/
theorem attestingBalance_le (hset : set.Sublist (List.range s.validators.size))
    (hactive : ∀ w ∈ set, s.isActive ended w = true) :
    attestingBalance c s set ≤ activeBalance c s ended := by
  have hsub : set.Sublist (s.activeIndices ended) := by
    rw [s.activeIndices_eq_filter, ← List.filter_eq_self.2 hactive]
    exact hset.filter _
  have hstake : (set.map s.effectiveBalance).sum ≤ s.activeStake ended := by
    rw [s.activeStake_eq]
    exact (hsub.map _).sum_le_sum fun _ _ => Nat.zero_le _
  rw [attestingBalance, activeBalance_eq, foldl_addSat _ (Nat.zero_le _), Nat.zero_add]
  exact max_le_max (min_le_min hstake le_rfl) le_rfl

/-- No part for such a set is more than the unit. -/
theorem setReward_le_base (hset : set.Sublist (List.range s.validators.size))
    (hactive : ∀ w ∈ set, s.isActive ended w = true) (base : Gwei) :
    setReward c s (rewardScale c s ended) set base ≤ base := by
  unfold setReward
  split
  · exact le_rfl
  · refine (Nat.mod_le ..).trans (Nat.div_le_of_le_mul ?_)
    have hshare : attestingBalance c s set / c.effectiveBalanceIncrement
        ≤ max (activeBalance c s ended / c.effectiveBalanceIncrement) 1 :=
      (Nat.div_le_div_right (attestingBalance_le hset hactive)).trans (le_max_left ..)
    calc base * (attestingBalance c s set / c.effectiveBalanceIncrement)
        ≤ base * max (activeBalance c s ended / c.effectiveBalanceIncrement) 1 :=
          Nat.mul_le_mul_left _ hshare
      _ = max (activeBalance c s ended / c.effectiveBalanceIncrement) 1 * base :=
          Nat.mul_comm ..

/-! ## One boundary -/

/-- The unslashed validators that were active in the epoch before are active in the one that
    ends. -/
def StaysActive (s : ChainState) (ended : Epoch) : Prop :=
  ∀ (i : ValidatorIndex) (v : Validator), s.validators[i]? = some v → v.slashed = false →
    v.isActiveAt (ended - 1) = true → v.isActiveAt ended = true

theorem StaysActive.isActive (h : StaysActive s ended)
    (htargets : ∀ a ∈ s.previousEpochAttestations, a.data.target.epoch = ended - 1)
    (hi : i ∈ sourceVoters c s) : s.isActive ended i = true := by
  obtain ⟨⟨v, hv, hunslashed⟩, b, hb, hvotes⟩ := mem_supporters.1 hi
  obtain ⟨a, ha, rfl⟩ := List.mem_map.1 hb
  have hbefore : v.isActiveAt a.data.target.epoch = true := isActiveAt_of_voter hvotes hv
  rw [htargets a ha] at hbefore
  rw [ChainState.isActive, hv, Option.any_some]
  exact h i v hv hunslashed hbefore

/-- For the sets a validator is given at most three units, and those only if it attested. -/
theorem setRewards_le_units (hp : p.Records c s (ended - 1)) (hstays : StaysActive s ended)
    (htargets : ∀ a ∈ s.previousEpochAttestations, a.data.target.epoch = ended - 1) :
    setRewards c s (rewardScale c s ended) p i base
      ≤ 3 * if i ∈ sourceVoters c s then base else 0 := by
  have hpart (set : List ValidatorIndex) (hrange : set.Sublist (List.range s.validators.size))
      (hsub : set ⊆ sourceVoters c s) :
      (if i ∈ set then setReward c s (rewardScale c s ended) set base else 0)
        ≤ if i ∈ sourceVoters c s then base else 0 := by
    split
    · next hi =>
        rw [if_pos (hsub hi)]
        exact setReward_le_base hrange (fun w hw => hstays.isActive htargets (hsub hw)) base
    · exact Nat.zero_le _
  have hsource := hpart (sourceVoters c s) List.filter_sublist (List.Subset.refl (sourceVoters c s))
  have htarget := hpart (targetVoters c s (ended - 1)) List.filter_sublist
    (targetVoters_subset c s (ended - 1))
  have hhead := hpart (headVoters c s) List.filter_sublist (headVoters_subset c s)
  rw [hp.setRewards_eq]
  lia

/-- An inclusion costs at most the unit of its attester: what the proposer has of it, the attester
    goes without. -/
theorem inclusionReward_add_le (inclusion : Inclusion) (base : Gwei) :
    inclusionReward inclusion base + proposerReward base ≤ base :=
  calc inclusionReward inclusion base + proposerReward base
      ≤ base - proposerReward base + proposerReward base :=
        Nat.add_le_add_right (Nat.div_le_self ..) _
    _ = base := Nat.sub_add_cancel (proposerReward_le base)

/-- All inclusions together cost at most a unit for each attester. -/
theorem sum_inclusions_le (hp : p.Records c s (ended - 1)) (unit : ValidatorIndex → Gwei)
    (validators : Nat) :
    ((List.range validators).map (ownPart p unit)).sum
        + ((List.range validators).map (proposerPart p unit)).sum
      ≤ ((sourceVoters c s).map unit).sum := by
  let earned (inclusion : Inclusion) : Gwei := inclusionReward inclusion (unit inclusion.attester)
  have hown (k : ValidatorIndex) :
      ownPart p unit k = ((p.inclusions.filter (·.attester = k)).map earned).sum := by
    refine congrArg List.sum (List.map_congr_left fun inclusion hinclusion => ?_)
    rw [← of_decide_eq_true (List.mem_filter.1 hinclusion).2]
  have hattesters := sum_map_filter_le (List.nodup_range (n := validators)) Inclusion.attester
    earned p.inclusions
  have hproposers := sum_map_filter_le (List.nodup_range (n := validators))
    Inclusion.proposer (fun inclusion => proposerReward (unit inclusion.attester)) p.inclusions
  calc ((List.range validators).map (ownPart p unit)).sum
        + ((List.range validators).map (proposerPart p unit)).sum
      ≤ (p.inclusions.map earned).sum
        + (p.inclusions.map fun inclusion => proposerReward (unit inclusion.attester)).sum := by
        refine Nat.add_le_add ?_ hproposers
        rwa [funext hown]
    _ = (p.inclusions.map fun inclusion =>
        earned inclusion + proposerReward (unit inclusion.attester)).sum := List.sum_map_add.symm
    _ ≤ (p.inclusions.map fun inclusion => unit inclusion.attester).sum :=
        List.sum_le_sum fun inclusion _ => inclusionReward_add_le inclusion _
    _ = ((sourceVoters c s).map unit).sum := by
        rw [← hp.map_attester, List.map_map]
        rfl

/-- A boundary gives out at most four units for each attester, if the attesters are still active. -/
theorem sum_payRewards_le (hended : 1 ≤ ended) (hstays : StaysActive s ended)
    (htargets : ∀ a ∈ s.previousEpochAttestations, a.data.target.epoch = ended - 1)
    (hpay : payRewards c (committeesOf c s) ended s = .ok s') :
    s'.balances.toList.sum ≤ s.balances.toList.sum
      + 4 * ((sourceVoters c s).map (rewardUnit c s ended)).sum := by
  obtain ⟨p, deltas, hp, hdeltas, hbalances⟩ := exists_deltas hended hpay
  have hsource : ((List.range s.validators.size).map fun i =>
      if i ∈ sourceVoters c s then rewardUnit c s ended i else 0).sum
      = ((sourceVoters c s).map (rewardUnit c s ended)).sum := by
    rw [sourceVoters, supporters, sum_map_filter]
    refine congrArg List.sum (List.map_congr_left fun i hi => ?_)
    simp only [List.mem_filter, hi, true_and]
  have hrewards := sum_le_of_mapM (r := Delta.reward) (f := fun i =>
      (3 * if i ∈ sourceVoters c s then rewardUnit c s ended i else 0)
        + (ownPart p (rewardUnit c s ended) i + proposerPart p (rewardUnit c s ended) i)) hdeltas ?_
  · have hinclusions := sum_inclusions_le hp (rewardUnit c s ended) s.validators.size
    have hsettle := sum_settle_le s.balances.toList deltas
    rw [List.sum_map_add, List.sum_map_add, List.sum_map_mul_left, hsource] at hrewards
    rw [hbalances]
    lia
  · intro i hi d hd
    have hv := Array.getElem?_eq_getElem (List.mem_range.1 hi)
    rw [(deltaOf_eq hv hd).1, Nat.add_assoc]
    refine Nat.add_le_add_right ?_ _
    split
    · exact setRewards_le_units hp hstays htargets
    · exact Nat.zero_le _

/-! ## Along a run -/

/-- Where all first validators never exit, only the slashed ones ever do. -/
theorem Engine.Reaches.exitEpoch_eq {time : Nat} {validators : List Validator}
    {data : ExternalData} {fork : Fork} (hforever : ∀ v ∈ validators, v.exitEpoch = farFuture)
    (hreach : e.Reaches (ChainState.genesis e.constants time validators data fork) s) :
    ∀ v ∈ s.validators, v.slashed = false → v.exitEpoch = farFuture := by
  refine hreach.invariant (P := fun t => ∀ v ∈ t.validators, v.slashed = false →
    v.exitEpoch = farFuture) (fun t t' ht hmove => ?_) fun v hv _ => ?_
  · refine hmove.amended.forall_validators (fun v v' hv hamend hunslashed => ?_)
      (fun d _ => rfl) ht
    cases hamend with
    | slash => cases hunslashed
    | activate => exact hv hunslashed
    | follow => exact hv hunslashed
  · exact hforever v (by simpa [ChainState.genesis] using hv)

theorem staysActive_of_exitEpoch (hcomes : ended < farFuture)
    (h : ∀ v ∈ s.validators, v.slashed = false → v.exitEpoch = farFuture) :
    StaysActive s ended := by
  intro i v hv hunslashed hbefore
  have hexit := h v (Array.mem_of_getElem? hv) hunslashed
  simp only [Validator.isActiveAt, Bool.and_eq_true, decide_eq_true_eq, hexit] at hbefore ⊢
  exact ⟨hbefore.1.trans (Nat.sub_le ..), hcomes⟩

/-! ## The single validator is paid -/

/-- After a block with its vote for the slot before, the single validator is the attester that the
    next boundary pays. -/
theorem IsSole.sourceVoters_afterVote {last : Slot} {b : CandidateBlock}
    (hsole : IsSole c (s.afterVote c b s.soleVote)) (hbrief : c.Brief last) (hslot : s.slot < last)
    (hpos : 0 < s.slot) :
    sourceVoters c ((s.afterVote c b s.soleVote).atNextSlot c) = [0] := by
  have hentry := hsole.atNextSlot
  have hhorizon : s.slot + 1 ≤ horizon := Nat.succ_le_of_lt (hslot.trans_le hbrief.last_le)
  have hwindow : InWindow c ((s.afterVote c b s.soleVote).atNextSlot c) (s.slot - 1) := by
    rw [InWindow, ChainState.currentEpoch, hbrief.epochAt_eq]
    show s.slot + 1 ≤ s.slot - 1 + 2 ∧ s.slot - 1 ≤ s.slot + 1 + 1
    lia
  have hcomes : s.slot - 1 < farFuture :=
    lt_of_le_of_lt ((Nat.sub_le ..).trans (Nat.le_of_succ_le hhorizon)) (by decide)
  have hvoters : s.soleVote.ballot.voters c ((s.afterVote c b s.soleVote).atNextSlot c) = [0] :=
    hentry.voters hbrief (hwindow.checkWindow hhorizon) hcomes rfl rfl rfl rfl
  refine hentry.supporters (b := s.soleVote.ballot) ?_ (hvoters ▸ List.mem_singleton_self 0)
  exact List.mem_map.2 ⟨pendingOf s b.proposerIndex s.soleVote,
    List.mem_append_right _ (List.mem_singleton_self _), rfl⟩

/-! ## The theorem -/

/-- **What a boundary issues is bounded.** At every boundary of a run whose first validators never
    exit, paying for the epoch before the one that ends comes to its end unless a number leaves the
    64-bit range, and raises the sum of all balances by at most four units of reward for each
    unslashed validator that attested the epoch, in a leak or not. -/
theorem issuance_bounded {time : Nat} {validators : List Validator} {data : ExternalData}
    {fork : Fork} {summary : EpochSummary} (hforever : ∀ v ∈ validators, v.exitEpoch = farFuture)
    (hreach : e.Reaches (ChainState.genesis e.constants time validators data fork) s)
    (hnext : nextSlot e.constants s = .ok boundary)
    (hstart : e.constants.isEpochStart boundary.slot = true)
    (hepoch : boundary.currentEpoch e.constants = ended + 1) (hended : 1 ≤ ended)
    (hjustify : justifyAndFinalize e.constants (committeesOf e.constants boundary) ended boundary
      = .ok (summary, justified))
    (hfits : ∀ stop, payRewards e.constants (committeesOf e.constants boundary) ended justified
      ≠ .error (.fault stop)) :
    ∃ paid, payRewards e.constants (committeesOf e.constants boundary) ended justified = .ok paid ∧
      paid.balances.toList.sum ≤ boundary.balances.toList.sum
        + 4 * ((sourceVoters e.constants boundary).map
          (rewardUnit e.constants boundary ended)).sum := by
  have hcoherent := (show e.Reachable s from ⟨time, validators, data, fork, hreach⟩).coherent
  obtain ⟨-, hlimit, rfl⟩ := nextSlot_eq_ok.1 hnext
  -- The epoch that ends is that of the state before, and its last attestations are paid for.
  have hcurrent : s.currentEpoch e.constants = ended :=
    Nat.succ_injective ((Constants.epochAt_succ_of_start hstart).symm.trans hepoch)
  have hsettle := hcoherent.settleable_boundary e.consistent hlimit hstart
  rw [hepoch, Nat.add_sub_cancel] at hsettle
  have hframe := justifyAndFinalize_frame hjustify
  have hlookup : committeesOf e.constants (s.atNextSlot e.constants)
      = committeesOf e.constants justified := by
    rw [hframe]
    rfl
  have hsettle' : Settleable .overflow e.constants justified
      (committeesOf e.constants (s.atNextSlot e.constants)) ended :=
    hsettle.congr (by rw [hframe]) (by rw [hframe]) (by rw [hframe]) (by rw [hframe])
  obtain ⟨paid, hpay⟩ := ((payRewards_within hsettle' (deltasFit_overflow rfl)).ok_or_overflow
    ).resolve_right (hfits _)
  refine ⟨paid, hpay, ?_⟩
  have htargets : ∀ a ∈ justified.previousEpochAttestations, a.data.target.epoch = ended - 1 := by
    intro a ha
    rw [hframe] at ha
    obtain ⟨before, hbefore, hseat⟩ := hcoherent.previous a ha
    rw [hseat.target]
    exact Nat.eq_sub_of_add_eq (hbefore.trans hcurrent)
  have hcomes : ended < farFuture := by
    rw [← hcurrent]
    exact (Constants.epochAt_le s.slot).trans_lt (Nat.lt_sub_of_add_lt hlimit)
  have hexits := hreach.exitEpoch_eq hforever
  have hstays : StaysActive justified ended := by
    refine staysActive_of_exitEpoch hcomes ?_
    rw [hframe]
    exact hexits
  rw [hlookup] at hpay
  have hissued := sum_payRewards_le hended hstays htargets hpay
  rw [hframe] at hissued
  exact hissued

/-- The unit of reward of a single full stake. -/
theorem rewardUnit_solo (hvalidators : s.validators = ChainState.solo.validators) :
    rewardUnit Constants.solo s 1 0 = 2862174 := by
  have hroot : Nat.sqrt 32000000000 = 178885 := by norm_num
  have hbalance : s.effectiveBalance 0 = 32000000000 := by
    rw [ChainState.effectiveBalance, hvalidators]
    rfl
  have hactive : activeBalance Constants.solo s 1 = 32000000000 := by
    rw [activeBalance_eq, ChainState.activeStake, hvalidators]
    decide
  rw [rewardUnit, hbalance, hactive, hroot]
  rfl

/-- The single validator attests the first slot in the block of the next one. At the boundary that
    follows it is the attester, and its unit of reward is not nothing. -/
theorem issuance_bounded_solo :
    ∃ b s boundary summary justified paid, Engine.solo.importBlock .solo b = .ok s ∧
      nextSlot Constants.solo s = .ok boundary ∧ boundary.currentEpoch Constants.solo = 2 ∧
      sourceVoters Constants.solo boundary = [0] ∧
      justifyAndFinalize Constants.solo (committeesOf Constants.solo boundary) 1 boundary
        = .ok (summary, justified) ∧
      payRewards Constants.solo (committeesOf Constants.solo boundary) 1 justified = .ok paid ∧
      boundary.balances.toList.sum = 32000000000 ∧
      paid.balances.toList.sum ≤ 32000000000 + 4 * 2862174 := by
  obtain ⟨t, b, h, s, hadvance, hb, hs, himport, hat, -⟩ :=
    soleAt_solo.exists_importBlock (m := 1) Constants.brief_solo {}
      (by decide) (by decide) rfl
  have hslot : t.slot = 1 := advance_slot hadvance
  -- The first slot leaves the validator with its first stake.
  obtain ⟨hvalidators, hbalances⟩ : s.validators = ChainState.solo.validators ∧
      s.balances = #[32000000000] := by
    have hfirst : (Engine.solo.advance .solo 1).toOption.map (fun s => (s.validators, s.balances))
        = some (ChainState.solo.validators, #[32000000000]) := by decide +kernel
    rw [hadvance] at hfirst
    rw [hs]
    exact Prod.mk.inj (Option.some.inj hfirst)
  have hsource : sourceVoters Constants.solo (s.atNextSlot Constants.solo) = [0] := by
    rw [hs] at hat ⊢
    exact hat.sole.sourceVoters_afterVote Constants.brief_solo (by rw [hslot]; decide)
      (by rw [hslot]; decide)
  have hunit := rewardUnit_solo (s := s.atNextSlot Constants.solo) hvalidators
  -- The boundary after that is settled.
  obtain ⟨hnext, summary, s', hprocess⟩ := hat.exists_boundary Constants.brief_solo (by decide)
  obtain ⟨-, justified, paid, -, hjustify, hpay, -, -⟩ := processEpoch_eq_ok.1 hprocess
  have hstart := Constants.brief_solo.isEpochStart_eq (s.atNextSlot Constants.solo).slot
  have hepoch : (s.atNextSlot Constants.solo).currentEpoch Constants.solo = 1 + 1 := by
    rw [ChainState.currentEpoch, Constants.brief_solo.epochAt_eq, ChainState.atNextSlot_slot,
      hat.slot]
  replace hjustify := hepoch ▸ hjustify
  replace hpay := hepoch ▸ hpay
  obtain ⟨paid', hpay', hbound⟩ := issuance_bounded (e := .solo) (by decide)
    (.of_importBlock himport) hnext hstart hepoch le_rfl hjustify
    (fun stop hfault => by cases hpay.symm.trans hfault)
  obtain rfl := Except.ok.inj (hpay.symm.trans hpay')
  replace hbound : paid.balances.toList.sum ≤ s.balances.toList.sum
    + 4 * ((sourceVoters Constants.solo (s.atNextSlot Constants.solo)).map
      (rewardUnit Constants.solo (s.atNextSlot Constants.solo) 1)).sum := hbound
  rw [hsource, List.map_singleton, hunit, List.sum_singleton, hbalances] at hbound
  refine ⟨b, s, _, summary, justified, paid, himport, hnext, hepoch, hsource, hjustify, hpay, ?_,
    hbound⟩
  rw [ChainState.atNextSlot_balances, hbalances]
  rfl

end Beacon
