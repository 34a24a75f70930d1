import Mathlib
import Beacon.Proofs.Progress
import Beacon.Proofs.SquareRoot
import Beacon.Proofs.Transition.Inclusions
import Beacon.Proofs.Transition.Support

set_option autoImplicit false

/-! # What rewards add up to

The deltas of a boundary are words as long as the constants keep rewards small
(`Constants.Affordable`), whatever else the state holds (`deltasFit_of_affordable`). A unit of
rewards is a stake against the root of the whole stake, and Newton's iteration finds that root
(`integerSqrt_eq_sqrt`), so no unit exceeds a full stake against the root of one increment. A
validator earns a part for each of three sets, a part for its own earliest inclusion, and one for
each inclusion that it proposed, of which there are no more than validators
(`Participation.Sound`). -/

namespace Beacon

variable {c : Constants} {s : ChainState} {lookup : CommitteeLookup} {ended last last' : Epoch}
  {validators validators' : Nat} {p : Participation} {index : ValidatorIndex} {base : Gwei}
  {ℓ : Leeway}

/-! ## Who is paid -/

/-- The three sets are drawn from the registry, and nobody has two earliest inclusions. -/
structure Participation.Sound (validators : Nat) (p : Participation) : Prop where
  source : p.source.Sublist (List.range validators)
  target : p.target.Sublist (List.range validators)
  head : p.head.Sublist (List.range validators)
  inclusions : (p.inclusions.map (·.attester)).Sublist p.source

theorem unslashedAttesters_sublist {as : List PendingAttestation} {attesters : List ValidatorIndex}
    (h : unslashedAttesters s lookup as = .ok attesters) :
    attesters.Sublist (List.range s.validators.size) := by
  simp only [unslashedAttesters, Attempt.bind_eq_ok, Attempt.pure_eq_ok] at h
  obtain ⟨_, -, rfl⟩ := h
  exact List.filter_sublist

theorem map_attester_inclusions (ps : List Attested) (ws : List ValidatorIndex) :
    ((ws.filterMap (earliestInclusion? ps)).map (·.attester)).Sublist ws := by
  induction ws with
  | nil => exact .slnil
  | cons w ws ih =>
      rcases earliestInclusion?_cases ps w with ⟨hnone, -⟩ | ⟨p, -, -, hsome, -⟩
      · rw [List.filterMap_cons_none hnone]
        exact ih.cons w
      · rw [List.filterMap_cons_some hsome]
        exact ih.cons_cons w

theorem participation_sound {previous : Epoch} (h : participation c s lookup previous = .ok p) :
    p.Sound s.validators.size := by
  simp only [participation, Attempt.bind_eq_ok, Attempt.pure_eq_ok] at h
  obtain ⟨_, -, source, hsource, target, htarget, _, -, head, hhead, _, -, rfl⟩ := h
  exact ⟨unslashedAttesters_sublist hsource, unslashedAttesters_sublist htarget,
    unslashedAttesters_sublist hhead, map_attester_inclusions _ source⟩

/-- A validator has at most one inclusion. -/
theorem Participation.Sound.length_own_le (h : p.Sound validators) (index : ValidatorIndex) :
    (p.inclusions.filter (·.attester = index)).length ≤ 1 := by
  have hnodup : (p.inclusions.map (·.attester)).Nodup :=
    (h.inclusions.trans h.source).nodup List.nodup_range
  have hcount := List.nodup_iff_count_le_one.1 hnodup index
  rw [List.count_eq_length_filter, List.filter_map, List.length_map] at hcount
  exact hcount

theorem Participation.Sound.length_inclusions_le (h : p.Sound validators) :
    p.inclusions.length ≤ validators := by
  have hlength := (h.inclusions.trans h.source).length_le
  rwa [List.length_map, List.length_range] at hlength

/-! ## Affordable rewards -/

/-- The largest unit of rewards: a full stake against the root of one increment. -/
def Constants.maxBaseReward (c : Constants) : Gwei :=
  c.maxEffectiveBalance * c.baseRewardFactor / max (integerSqrt c.effectiveBalanceIncrement) 1
    / baseRewardsPerEpoch

/-- Constants that keep rewards small for a number of validators up to the end of an epoch. -/
structure Constants.Affordable (c : Constants) (validators : Nat) (last : Epoch) : Prop where
  few : validators ≤ 2147483648
  /-- The product from which a unit is worked out. -/
  unit : c.maxEffectiveBalance * c.baseRewardFactor < 17592186044416
  /-- A unit for each validator. -/
  units : validators * c.maxBaseReward ≤ 4611686018427387904
  /-- A part for a set: a unit for each increment that the set can have. -/
  part : c.maxBaseReward * (validators * c.maxEffectiveBalance / c.effectiveBalanceIncrement)
    ≤ 2305843009213693952
  /-- What a full stake loses when nothing has ever been finalized. -/
  leak : c.maxEffectiveBalance * last ≤ 9223372036854775808 * c.inactivityPenaltyQuotient

theorem Constants.Affordable.mono (h : c.Affordable validators last)
    (hvalidators : validators' ≤ validators) (hlast : last' ≤ last) :
    c.Affordable validators' last' where
  few := hvalidators.trans h.few
  unit := h.unit
  units := (Nat.mul_le_mul_right _ hvalidators).trans h.units
  part := (Nat.mul_le_mul_left _ (Nat.div_le_div_right (Nat.mul_le_mul_right _ hvalidators))).trans
    h.part
  leak := (Nat.mul_le_mul_left _ hlast).trans h.leak

/-- The public network has room for two to the 31st validators and as many epochs. -/
example : Constants.Affordable {} 2147483648 2147483648 :=
  ⟨by decide, by decide, by decide +kernel, by decide +kernel, by decide⟩

theorem Constants.Affordable.maxBaseReward_lt (h : c.Affordable validators last) :
    c.maxBaseReward < 4398046511104 := by
  refine Nat.div_lt_of_lt_mul ?_
  exact lt_of_le_of_lt (Nat.div_le_self ..) h.unit

/-! ## Parts -/

/-- No effective balance exceeds the maximum. -/
def StakesFit (c : Constants) (s : ChainState) : Prop :=
  ∀ v ∈ s.validators, v.effectiveBalance ≤ c.maxEffectiveBalance

theorem StakesFit.effectiveBalance_le (h : StakesFit c s) (index : ValidatorIndex) :
    s.effectiveBalance index ≤ c.maxEffectiveBalance := by
  rw [ChainState.effectiveBalance]
  split
  · next v hv => exact h v (Array.mem_of_getElem? hv)
  · exact Nat.zero_le _

theorem baseReward_le (hstakes : StakesFit c s)
    (h : baseReward c s (rewardScale c s ended) index = .ok base) : base ≤ c.maxBaseReward := by
  simp only [baseReward, Attempt.bind_eq_ok, Word.mul_eq_ok, Attempt.pure_eq_ok] at h
  obtain ⟨_, ⟨rfl, -⟩, rfl⟩ := h
  -- The whole stake is at least one increment.
  have hroot : max (integerSqrt c.effectiveBalanceIncrement) 1
      ≤ (rewardScale c s ended).sqrtTotal :=
    max_le_max (integerSqrt_mono (le_max_right ..)) le_rfl
  have hscaled := Nat.mul_le_mul_right c.baseRewardFactor (hstakes.effectiveBalance_le index)
  exact Nat.div_le_div_right (Nat.div_le_div hscaled hroot (by lia))

/-- The stake of a set with a member, in increments. -/
theorem attestingBalance_div_le (hc : c.Consistent) (hstakes : StakesFit c s)
    {set : List ValidatorIndex} (hset : set.Sublist (List.range s.validators.size))
    (hmember : index ∈ set) :
    attestingBalance c s set / c.effectiveBalanceIncrement
      ≤ s.validators.size * c.maxEffectiveBalance / c.effectiveBalanceIncrement := by
  have hlength := hset.length_le
  rw [List.length_range] at hlength
  have hpos := (List.length_pos_of_mem hmember).trans_le hlength
  refine Nat.div_le_div_right (max_le ?_ ?_)
  · have hstake : (set.map s.effectiveBalance).sum ≤ set.length * c.maxEffectiveBalance := by
      rw [← List.length_map (f := s.effectiveBalance), ← smul_eq_mul]
      refine List.sum_le_card_nsmul _ _ fun x hx => ?_
      obtain ⟨i, -, rfl⟩ := List.mem_map.1 hx
      exact hstakes.effectiveBalance_le i
    rw [foldl_addSat _ (Nat.zero_le _), Nat.zero_add]
    exact (min_le_left ..).trans (hstake.trans (Nat.mul_le_mul_right _ hlength))
  · exact hc.increment_le.trans (Nat.le_mul_of_pos_left _ hpos)

/-- In a leak a part is a unit, else at most a unit for each increment of the set. -/
theorem setReward_le (hc : c.Consistent) (hstakes : StakesFit c s) {scale : RewardScale}
    {set : List ValidatorIndex} (hset : set.Sublist (List.range s.validators.size))
    (hmember : index ∈ set) (hbase : base ≤ c.maxBaseReward) :
    setReward c s scale set base ≤ c.maxBaseReward
      * (s.validators.size * c.maxEffectiveBalance / c.effectiveBalanceIncrement) := by
  have hstake := attestingBalance_div_le hc hstakes hset hmember
  have hone : 1 ≤ attestingBalance c s set / c.effectiveBalanceIncrement :=
    (Nat.one_le_div_iff hc.effectiveBalanceIncrement_pos).2 (le_max_right ..)
  unfold setReward
  split
  · exact hbase.trans (Nat.le_mul_of_pos_right _ (hone.trans hstake))
  · exact (Nat.mod_le ..).trans ((Nat.div_le_self ..).trans (Nat.mul_le_mul hbase hstake))

theorem setRewards_le (hc : c.Consistent) (hstakes : StakesFit c s) {scale : RewardScale}
    (hp : p.Sound s.validators.size) (hbase : base ≤ c.maxBaseReward) :
    setRewards c s scale p index base ≤ 3 * (c.maxBaseReward
      * (s.validators.size * c.maxEffectiveBalance / c.effectiveBalanceIncrement)) := by
  have hpart {set : List ValidatorIndex} (hset : set.Sublist (List.range s.validators.size)) :
      (if set.contains index = true then setReward c s scale set base else 0) ≤ c.maxBaseReward
        * (s.validators.size * c.maxEffectiveBalance / c.effectiveBalanceIncrement) := by
    split
    · next hmember => exact setReward_le hc hstakes hset (List.contains_iff_mem.1 hmember) hbase
    · exact Nat.zero_le _
  have hsource := hpart hp.source
  have htarget := hpart hp.target
  have hhead := hpart hp.head
  simp only [setRewards]
  lia

/-- What a missed target costs in a leak. -/
theorem leak_le (h : c.Affordable validators last) (hstakes : StakesFit c s)
    (hended : ended ≤ last) (index : ValidatorIndex) :
    Word.wrap (s.effectiveBalance index * (rewardScale c s ended).finalityDelay
      / c.inactivityPenaltyQuotient) ≤ 9223372036854775808 := by
  have hdelay : (rewardScale c s ended).finalityDelay ≤ last :=
    (Nat.sub_le ..).trans ((Nat.sub_le ..).trans hended)
  refine (Nat.mod_le ..).trans (Nat.div_le_of_le_mul ?_)
  calc s.effectiveBalance index * (rewardScale c s ended).finalityDelay
      ≤ c.maxEffectiveBalance * last :=
        Nat.mul_le_mul (hstakes.effectiveBalance_le index) hdelay
    _ ≤ 9223372036854775808 * c.inactivityPenaltyQuotient := h.leak
    _ = c.inactivityPenaltyQuotient * 9223372036854775808 := Nat.mul_comm ..

theorem setPenalties_le (h : c.Affordable validators last) (hstakes : StakesFit c s)
    (hended : ended ≤ last) :
    setPenalties c s (rewardScale c s ended) p index base ≤ 7 * base + 9223372036854775808 := by
  have hmissed (set : List ValidatorIndex) :
      (if set.contains index = true then 0 else base) ≤ base := by
    split
    · exact Nat.zero_le _
    · exact le_rfl
  have hsource := hmissed p.source
  have htarget := hmissed p.target
  have hhead := hmissed p.head
  have hleak := leak_le h hstakes hended index
  simp only [setPenalties, baseRewardsPerEpoch]
  split
  · split <;> lia
  · lia

/-! ## Deltas -/

/-- What a validator earns for its own inclusion is at most a unit. -/
theorem sum_inclusionReward_le (hp : p.Sound validators) :
    ((p.inclusions.filter (·.attester = index)).map (inclusionReward · base)).sum ≤ base := by
  have hone (i : Inclusion) : inclusionReward i base ≤ base :=
    (Nat.div_le_self ..).trans (Nat.sub_le ..)
  have hsum : ((p.inclusions.filter (·.attester = index)).map (inclusionReward · base)).sum
      ≤ (p.inclusions.filter (·.attester = index)).length * base := by
    rw [← List.length_map (f := (inclusionReward · base)), ← smul_eq_mul]
    refine List.sum_le_card_nsmul _ _ fun x hx => ?_
    obtain ⟨i, -, rfl⟩ := List.mem_map.1 hx
    exact hone i
  have hlength := Nat.mul_le_mul_right base (hp.length_own_le index)
  rw [Nat.one_mul] at hlength
  exact hsum.trans hlength

/-- What it earns as a proposer is at most a unit for each validator. -/
theorem sum_shares_le (hstakes : StakesFit c s) (hp : p.Sound validators) {shares : List Gwei}
    (h : (p.inclusions.filter (·.proposer = index)).mapM (fun i => (do
      return proposerReward (← baseReward c s (rewardScale c s ended) i.attester) : Checked Gwei))
        = .ok shares) :
    shares.sum ≤ validators * c.maxBaseReward := by
  have hshare : ∀ x ∈ shares, x ≤ c.maxBaseReward := by
    intro x hx
    obtain ⟨i, -, hi⟩ := Attempt.exists_of_mem_mapM h hx
    simp only [Attempt.bind_eq_ok, Attempt.pure_eq_ok] at hi
    obtain ⟨base, hbase, rfl⟩ := hi
    exact (Nat.div_le_self ..).trans (baseReward_le hstakes hbase)
  have hlength : shares.length ≤ validators := by
    rw [← (Attempt.mapM_eq_ok h).length_eq]
    exact (List.length_filter_le ..).trans hp.length_inclusions_le
  exact (List.sum_le_card_nsmul _ _ hshare).trans (Nat.mul_le_mul_right _ hlength)

/-- **Affordable rewards are words.** Where no stake exceeds the maximum, the deltas of a boundary
    can be worked out, whoever attested and whatever was finalized. -/
theorem deltasFit_of_affordable (hc : c.Consistent)
    (h : c.Affordable s.validators.size last) (hstakes : StakesFit c s) (hended : ended ≤ last) :
    DeltasFit ℓ c s lookup ended := by
  intro p hp
  have hsound := participation_sound hp
  have hunit := h.maxBaseReward_lt
  refine Attempt.Within.mapM fun index _ => deltaOf_within (fun i => Or.inr ?_) (Or.inr ?_)
  · calc s.effectiveBalance i * c.baseRewardFactor
        ≤ c.maxEffectiveBalance * c.baseRewardFactor :=
          Nat.mul_le_mul_right _ (hstakes.effectiveBalance_le i)
      _ < 17592186044416 := h.unit
      _ < Word.limit := by decide
  · intro base shares hbase hshares
    have hle : base ≤ c.maxBaseReward := by
      rcases hbase with rfl | hbase
      · exact Nat.zero_le _
      · exact baseReward_le hstakes hbase
    have hsets : setRewards c s (rewardScale c s ended) p index base ≤ _ :=
      setRewards_le hc hstakes hsound hle
    have hown : ((p.inclusions.filter (·.attester = index)).map (inclusionReward · base)).sum
        ≤ base := sum_inclusionReward_le hsound
    have hproposed := sum_shares_le hstakes hsound hshares
    have hunits := h.units
    have hpenalties : setPenalties c s (rewardScale c s ended) p index base ≤ _ :=
      setPenalties_le h hstakes hended
    have hpart := h.part
    simp only [Word.limit]
    constructor <;> lia

end Beacon
