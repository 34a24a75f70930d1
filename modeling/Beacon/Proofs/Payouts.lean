import Mathlib
import Beacon.Proofs.Rewards

set_option autoImplicit false

/-! # What a boundary pays, and to whom

What `payRewards` gives to a validator depends on three sets of voters, on the inclusions that count
for them, and on units of reward. Here all of these are said of the state alone: `sourceVoters`,
`targetVoters` and `headVoters` by the ballots that the pending attestations of an epoch cast,
`Earliest` by their order and delays, `rewardUnit` by the stakes. `participation_records` and
`deltaOf_eq` say that a boundary works with just these, `exists_delta` that each balance moves by
its own delta, and `isActiveAt_of_voter` that whoever votes for an epoch is active in it. -/

namespace Beacon

variable {c : Constants} {s s' : ChainState} {previous ended epoch : Epoch} {p : Participation}
  {i w : ValidatorIndex} {v : Validator} {base balance : Gwei}

/-! ## Voters -/

/-- The unslashed validators that vote in any pending attestation of the previous epoch. -/
def sourceVoters (c : Constants) (s : ChainState) : List ValidatorIndex :=
  supporters c s (s.previousEpochAttestations.map PendingAttestation.ballot)

/-- Those that vote for the block at the start of the epoch. -/
def targetVoters (c : Constants) (s : ChainState) (previous : Epoch) : List ValidatorIndex :=
  supporters c s ((s.previousEpochAttestations.filter fun a =>
    s.blockRootAt? c (c.epochStart previous) = some a.data.target.root).map
      PendingAttestation.ballot)

/-- Those that vote for the block at the slot of their attestation. -/
def headVoters (c : Constants) (s : ChainState) : List ValidatorIndex :=
  supporters c s ((s.previousEpochAttestations.filter fun a =>
    s.blockRootAt? c a.data.slot = some a.data.beaconBlockRoot).map PendingAttestation.ballot)

theorem supporters_subset {as bs : List Ballot} (h : as ⊆ bs) :
    supporters c s as ⊆ supporters c s bs := by
  intro i hi
  obtain ⟨hunslashed, b, hb, hvotes⟩ := mem_supporters.1 hi
  exact mem_supporters.2 ⟨hunslashed, b, h hb, hvotes⟩

theorem targetVoters_subset (c : Constants) (s : ChainState) (previous : Epoch) :
    targetVoters c s previous ⊆ sourceVoters c s :=
  supporters_subset (List.filter_sublist.map _).subset

theorem headVoters_subset (c : Constants) (s : ChainState) : headVoters c s ⊆ sourceVoters c s :=
  supporters_subset (List.filter_sublist.map _).subset

/-- The members of committees are active in their epoch. -/
theorem mem_activeIndices_of_committee? {committees : EpochCommittees} {slot : Slot}
    {index : CommitteeIndex} {members : List ValidatorIndex}
    (h : committeesOf c s epoch = .ok committees)
    (hmembers : committees.committee? slot index = some members) (hw : w ∈ members) :
    w ∈ s.activeIndices epoch := by
  obtain ⟨seed, -, -, -, rfl⟩ := committeesOf_eq_ok.1 h
  simp only [EpochCommittees.committee?] at hmembers
  split at hmembers
  · obtain ⟨k, rfl⟩ := Array.mem_ofFn.1 (Array.mem_of_getElem? hmembers)
    rw [Array.toList_extract, List.extract_eq_take_drop] at hw
    have hshuffled := List.drop_subset _ _ (List.take_subset _ _ hw)
    exact (shuffle_perm _ seed).mem_iff.1 hshuffled
  · cases hmembers

/-- Who votes for an epoch is active in it. -/
theorem isActiveAt_of_voter {b : Ballot} (hvotes : i ∈ b.voters c s)
    (hv : s.validators[i]? = some v) : v.isActiveAt b.data.target.epoch = true := by
  have hactive : i ∈ s.activeIndices b.data.target.epoch := by
    unfold Ballot.voters at hvotes
    split at hvotes
    · cases hvotes
    · next committees hcommittees =>
        split at hvotes
        · cases hvotes
        · next members hmembers =>
            obtain ⟨⟨w, bit⟩, hpair, rfl⟩ := List.mem_map.1 hvotes
            have hmember := (List.of_mem_zip (List.mem_filter.1 hpair).1).1
            exact mem_activeIndices_of_committee? hcommittees hmembers hmember
  obtain ⟨v', hv', hactive⟩ := ChainState.mem_activeIndices.1 hactive
  obtain rfl := Option.some.inj (hv.symm.trans hv')
  exact hactive

/-! ## Inclusions -/

/-- Of the attestations in which a validator votes, the first one of those with the least delay. -/
def Earliest (c : Constants) (s : ChainState) (w : ValidatorIndex) (a : PendingAttestation) :
    Prop :=
  ∃ before after, s.previousEpochAttestations = before ++ a :: after ∧ w ∈ a.ballot.voters c s ∧
    (∀ b ∈ before, w ∈ b.ballot.voters c s → a.inclusionDelay < b.inclusionDelay) ∧
    ∀ b ∈ after, w ∈ b.ballot.voters c s → a.inclusionDelay ≤ b.inclusionDelay

/-- A validator that proposed the block whose inclusion counts for one of the voters. -/
def CreditedProposer (c : Constants) (s : ChainState) (i : ValidatorIndex) : Prop :=
  ∃ w ∈ sourceVoters c s, ∃ a, Earliest c s w a ∧ a.proposerIndex = i

theorem Earliest.delay_le {a b : PendingAttestation} (h : Earliest c s w a)
    (hb : b ∈ s.previousEpochAttestations) (hvotes : w ∈ b.ballot.voters c s) :
    a.inclusionDelay ≤ b.inclusionDelay := by
  obtain ⟨before, after, hlist, -, hbefore, hafter⟩ := h
  rw [hlist, List.mem_append, List.mem_cons] at hb
  rcases hb with hb | rfl | hb
  · exact (hbefore b hb hvotes).le
  · exact le_rfl
  · exact hafter b hb hvotes

theorem Earliest.mem {a : PendingAttestation} (h : Earliest c s w a) :
    a ∈ s.previousEpochAttestations := by
  obtain ⟨before, after, hlist, -⟩ := h
  rw [hlist]
  exact List.mem_append_right _ (List.mem_cons_self ..)

/-- Both inclusions have the least delay. -/
theorem Earliest.delay_eq {a b : PendingAttestation} (ha : Earliest c s w a)
    (hb : Earliest c s w b) : a.inclusionDelay = b.inclusionDelay := by
  obtain ⟨_, _, -, havotes, -⟩ := id ha
  obtain ⟨_, _, -, hbvotes, -⟩ := id hb
  exact le_antisymm (ha.delay_le hb.mem hbvotes) (hb.delay_le ha.mem havotes)

/-- A validator that votes has an inclusion that counts: the first one of the least delay. -/
theorem earliestInclusion?_first (f : PendingAttestation → List ValidatorIndex)
    (as : List PendingAttestation) (w : ValidatorIndex) :
    (earliestInclusion? (as.map fun a => (a, f a)) w = none ∧ ∀ a ∈ as, w ∉ f a) ∨
      ∃ before a after, as = before ++ a :: after ∧ w ∈ f a ∧
        earliestInclusion? (as.map fun a => (a, f a)) w = some (inclusionOf w a) ∧
        (∀ b ∈ before, w ∈ f b → a.inclusionDelay < b.inclusionDelay) ∧
        ∀ b ∈ after, w ∈ f b → a.inclusionDelay ≤ b.inclusionDelay := by
  induction as using List.reverseRecOn with
  | nil => exact Or.inl ⟨rfl, fun a ha => absurd ha List.not_mem_nil⟩
  | append_singleton as a ih =>
      rw [List.map_append, List.map_singleton, earliestInclusion?_concat]
      by_cases hw : w ∈ f a
      · right
        rw [if_pos hw]
        rcases ih with ⟨hnone, hout⟩ | ⟨before, b, after, rfl, hb, hsome, hbefore, hafter⟩
        · -- The first attestation in which it votes.
          rw [hnone]
          exact ⟨as, a, [], rfl, hw, rfl, fun b hb hvotes => absurd hvotes (hout b hb),
            fun b hb => absurd hb List.not_mem_nil⟩
        · rw [hsome]
          by_cases hlt : a.inclusionDelay < b.inclusionDelay
          · -- It was included earlier than all before it.
            refine ⟨before ++ b :: after, a, [], rfl, hw, if_pos hlt, fun q hq hvotes => ?_,
              fun b hb => absurd hb List.not_mem_nil⟩
            rcases List.mem_append.1 hq with hq | hq
            · exact hlt.trans (hbefore q hq hvotes)
            · rcases List.mem_cons.1 hq with rfl | hq
              · exact hlt
              · exact hlt.trans_le (hafter q hq hvotes)
          · refine ⟨before, b, after ++ [a], by simp, hb, if_neg hlt, hbefore,
              fun q hq hvotes => ?_⟩
            rcases List.mem_append.1 hq with hq | hq
            · exact hafter q hq hvotes
            · obtain rfl := List.mem_singleton.1 hq
              exact Nat.not_lt.1 hlt
      · rw [if_neg hw]
        rcases ih with ⟨hnone, hout⟩ | ⟨before, b, after, rfl, hb, hsome, hbefore, hafter⟩
        · refine Or.inl ⟨hnone, fun b hb => ?_⟩
          rcases List.mem_append.1 hb with hb | hb
          · exact hout b hb
          · obtain rfl := List.mem_singleton.1 hb
            exact hw
        · refine Or.inr ⟨before, b, after ++ [a], by simp, hb, hsome, hbefore,
            fun q hq hvotes => ?_⟩
          rcases List.mem_append.1 hq with hq | hq
          · exact hafter q hq hvotes
          · obtain rfl := List.mem_singleton.1 hq
            exact absurd hvotes hw

/-- A voter has such an inclusion. -/
theorem exists_earliest (hw : w ∈ sourceVoters c s) :
    ∃ a, Earliest c s w a ∧ earliestInclusion? (s.previousEpochAttestations.map fun a =>
      (a, a.ballot.voters c s)) w = some (inclusionOf w a) := by
  obtain ⟨-, b, hb, hvotes⟩ := mem_supporters.1 hw
  obtain ⟨a, ha, rfl⟩ := List.mem_map.1 hb
  rcases earliestInclusion?_first (fun a => a.ballot.voters c s) s.previousEpochAttestations w with
    ⟨-, hout⟩ | ⟨before, b, after, hlist, hvotes', hsome, hbefore, hafter⟩
  · exact absurd hvotes (hout a ha)
  · exact ⟨b, ⟨before, after, hlist, hvotes', hbefore, hafter⟩, hsome⟩

/-! ## What a boundary works with -/

/-- A participation holds the three sets of voters, and the inclusions that count for them. -/
structure Participation.Records (c : Constants) (s : ChainState) (previous : Epoch)
    (p : Participation) : Prop where
  source : p.source = sourceVoters c s
  target : p.target = targetVoters c s previous
  head : p.head = headVoters c s
  inclusions : p.inclusions = (sourceVoters c s).filterMap
    (earliestInclusion? (s.previousEpochAttestations.map fun a => (a, a.ballot.voters c s)))

/-- Where every answer is that of `q`, a filter that succeeds is the filter by `q`. -/
theorem filterAttempt_eq_filter {ε α : Type} {q : α → Attempt ε Bool} {r : α → Bool}
    {xs xs' : List α} (hanswer : ∀ x keep, q x = .ok keep → keep = r x)
    (h : filterAttempt q xs = .ok xs') : xs' = xs.filter r := by
  induction xs generalizing xs' with
  | nil =>
      obtain rfl : [] = xs' := by simpa [filterAttempt] using h
      rfl
  | cons x xs ih =>
      simp only [filterAttempt, Attempt.bind_eq_ok, Attempt.pure_eq_ok] at h
      obtain ⟨keep, hkeep, rest, hrest, rfl⟩ := h
      rw [List.filter_cons, ← hanswer x keep hkeep, ih hrest]

theorem namesHead_eq {a : PendingAttestation} {keep : Bool} (h : namesHead c s a = .ok keep) :
    keep = decide (s.blockRootAt? c a.data.slot = some a.data.beaconBlockRoot) := by
  unfold namesHead at h
  split at h
  · next root hroot =>
      obtain rfl := Except.ok.inj h
      rw [hroot, Bool.eq_iff_iff, beq_iff_eq, decide_eq_true_iff, Option.some_inj, eq_comm]
  · cases h

theorem participation_records (h : participation c s (committeesOf c s) previous = .ok p) :
    p.Records c s previous := by
  simp only [participation, Attempt.bind_eq_ok, Attempt.pure_eq_ok] at h
  obtain ⟨root, hroot, source, hsource, target, htarget, matching, hmatching, head, hhead,
    attesting, hattesting, rfl⟩ := h
  have hboundary : s.blockRootAt? c (c.epochStart previous) = some root := by
    unfold boundaryRoot at hroot
    split at hroot
    · next root' hroot' => exact hroot'.trans (congrArg some (Except.ok.inj hroot))
    · cases hroot
  have hvoters : attesting = s.previousEpochAttestations.map fun a => a.ballot.voters c s := by
    rw [← Attempt.map_of_mapM (g := id) (fun a xs ha => (attestersOf_eq ha).symm) hattesting,
      List.map_id]
  refine ⟨unslashedAttesters_eq hsource, ?_, ?_, ?_⟩
  · simp only [unslashedAttesters_eq htarget, targetVoters, hboundary, Option.some_inj, eq_comm]
  · rw [unslashedAttesters_eq hhead,
      filterAttempt_eq_filter (fun a keep ha => namesHead_eq ha) hmatching]
    rfl
  · simp only [unslashedAttesters_eq hsource, hvoters, ← List.map_prod_left_eq_zip]
    rfl

namespace Participation.Records

theorem of_mem_inclusions {inclusion : Inclusion} (h : p.Records c s previous)
    (hmem : inclusion ∈ p.inclusions) :
    inclusion.attester ∈ sourceVoters c s ∧
      ∃ a, Earliest c s inclusion.attester a ∧ inclusion = inclusionOf inclusion.attester a := by
  rw [h.inclusions, List.mem_filterMap] at hmem
  obtain ⟨w, hw, hinclusion⟩ := hmem
  obtain ⟨a, ha, hsome⟩ := exists_earliest hw
  obtain rfl := Option.some.inj (hsome.symm.trans hinclusion)
  exact ⟨hw, a, ha, rfl⟩

theorem map_attester (h : p.Records c s previous) :
    p.inclusions.map (·.attester) = sourceVoters c s := by
  have hall (ws : List ValidatorIndex) (hws : ws ⊆ sourceVoters c s) :
      (ws.filterMap (earliestInclusion? (s.previousEpochAttestations.map fun a =>
        (a, a.ballot.voters c s)))).map (·.attester) = ws := by
    induction ws with
    | nil => rfl
    | cons w ws ih =>
        obtain ⟨a, -, hsome⟩ := exists_earliest (hws (List.mem_cons_self ..))
        rw [List.filterMap_cons_some hsome, List.map_cons,
          ih fun x hx => hws (List.mem_cons_of_mem _ hx)]
        rfl
  rw [h.inclusions]
  exact hall _ (List.Subset.refl _)

/-- Nobody else has an inclusion of its own. -/
theorem own_of_not_mem (h : p.Records c s previous) (hi : i ∉ sourceVoters c s) :
    p.inclusions.filter (·.attester = i) = [] := by
  rw [List.filter_eq_nil_iff]
  intro inclusion hmem hattester
  obtain rfl := of_decide_eq_true hattester
  exact hi (h.of_mem_inclusions hmem).1

/-- A voter has one inclusion of its own. -/
theorem own_of_mem (h : p.Records c s previous) (hi : i ∈ sourceVoters c s) :
    ∃ a, Earliest c s i a ∧ p.inclusions.filter (·.attester = i) = [inclusionOf i a] := by
  -- Among the attesters of the inclusions the validator stands once.
  have hcount : (p.inclusions.filter (·.attester = i)).length = 1 := by
    have hone := List.count_eq_one_of_mem (nodup_supporters c s _) hi
    rw [← sourceVoters, ← h.map_attester, List.count_eq_length_filter, List.filter_map,
      List.length_map] at hone
    exact hone
  obtain ⟨inclusion, hinclusion⟩ := List.length_eq_one_iff.1 hcount
  have hmem : inclusion ∈ p.inclusions.filter (·.attester = i) := by
    rw [hinclusion]
    exact List.mem_singleton_self _
  obtain ⟨hlisted, hattester⟩ := List.mem_filter.1 hmem
  obtain rfl : inclusion.attester = i := of_decide_eq_true hattester
  obtain ⟨-, a, ha, heq⟩ := h.of_mem_inclusions hlisted
  exact ⟨a, ha, hinclusion.trans (congrArg (fun x => [x]) heq)⟩

theorem proposed_of_not_credited (h : p.Records c s previous) (hi : ¬ CreditedProposer c s i) :
    p.inclusions.filter (·.proposer = i) = [] := by
  rw [List.filter_eq_nil_iff]
  intro inclusion hmem hproposer
  obtain ⟨hw, a, ha, heq⟩ := h.of_mem_inclusions hmem
  refine hi ⟨_, hw, a, ha, ?_⟩
  rw [← of_decide_eq_true hproposer, heq]
  rfl

end Participation.Records

/-! ## Deltas -/

/-- The unit of a validator's rewards at the boundary after `ended`. -/
def rewardUnit (c : Constants) (s : ChainState) (ended : Epoch) (i : ValidatorIndex) : Gwei :=
  s.effectiveBalance i * c.baseRewardFactor / max (Nat.sqrt (activeBalance c s ended)) 1
    / baseRewardsPerEpoch

theorem baseReward_eq (h : baseReward c s (rewardScale c s ended) i = .ok base) :
    base = rewardUnit c s ended i := by
  simp only [baseReward, rewardScale, integerSqrt_eq_sqrt, Attempt.bind_eq_ok, Word.mul_eq_ok,
    Attempt.pure_eq_ok] at h
  obtain ⟨_, ⟨rfl, -⟩, rfl⟩ := h
  rfl

/-- What a validator earns for its own inclusion. -/
def ownPart (p : Participation) (unit : ValidatorIndex → Gwei) (i : ValidatorIndex) : Gwei :=
  ((p.inclusions.filter (·.attester = i)).map (inclusionReward · (unit i))).sum

/-- What it earns for the inclusions of others. -/
def proposerPart (p : Participation) (unit : ValidatorIndex → Gwei) (i : ValidatorIndex) : Gwei :=
  ((p.inclusions.filter (·.proposer = i)).map fun inclusion =>
    proposerReward (unit inclusion.attester)).sum

theorem proposerReward_le (base : Gwei) : proposerReward base ≤ base := Nat.div_le_self ..

namespace Participation.Records

variable (hp : p.Records c s previous) (unit : ValidatorIndex → Gwei)
include hp

theorem ownPart_of_not_mem (hi : i ∉ sourceVoters c s) : ownPart p unit i = 0 := by
  rw [ownPart, hp.own_of_not_mem hi]
  rfl

/-- The own inclusion earns a unit less the part of its proposer, shared out over its delay. -/
theorem exists_ownPart (hi : i ∈ sourceVoters c s) :
    ∃ a, Earliest c s i a ∧
      ownPart p unit i = (unit i - proposerReward (unit i)) / max a.inclusionDelay 1 := by
  obtain ⟨a, ha, hown⟩ := hp.own_of_mem hi
  refine ⟨a, ha, ?_⟩
  rw [ownPart, hown]
  exact Nat.add_zero _

theorem ownPart_le (i : ValidatorIndex) :
    ownPart p unit i ≤ if i ∈ sourceVoters c s then unit i - proposerReward (unit i) else 0 := by
  split
  · next hi =>
      obtain ⟨a, -, hown⟩ := hp.exists_ownPart unit hi
      exact hown ▸ Nat.div_le_self ..
  · next hi => exact (hp.ownPart_of_not_mem unit hi).le

theorem proposerPart_of_not_credited (hi : ¬ CreditedProposer c s i) :
    proposerPart p unit i = 0 := by
  rw [proposerPart, hp.proposed_of_not_credited hi]
  rfl

omit unit in
/-- Each set that a validator is in pays a part. -/
theorem setRewards_eq {scale : RewardScale} (base : Gwei) :
    setRewards c s scale p i base
      = (if i ∈ sourceVoters c s then setReward c s scale (sourceVoters c s) base else 0)
        + (if i ∈ targetVoters c s previous
          then setReward c s scale (targetVoters c s previous) base else 0)
        + (if i ∈ headVoters c s then setReward c s scale (headVoters c s) base else 0) := by
  simp only [setRewards, hp.source, hp.target, hp.head, List.contains_iff_mem]

omit unit in
/-- Each set that it misses costs a unit, and in a leak it pays the rest of four units as well. -/
theorem setPenalties_eq {scale : RewardScale} (base : Gwei) :
    setPenalties c s scale p i base
      = (if i ∈ sourceVoters c s then 0 else base)
        + (if i ∈ targetVoters c s previous then 0 else base)
        + (if i ∈ headVoters c s then 0 else base)
        + if scale.inLeak then (baseRewardsPerEpoch * base - proposerReward base)
          + (if i ∈ targetVoters c s previous then 0 else
            Word.wrap (s.effectiveBalance i * scale.finalityDelay / c.inactivityPenaltyQuotient))
        else 0 := by
  simp only [setPenalties, hp.source, hp.target, hp.head, List.contains_iff_mem]
  split <;> lia

end Participation.Records

theorem deltaOf_eq {d : Delta} (hv : s.validators[i]? = some v)
    (h : deltaOf c s (rewardScale c s ended) p previous i = .ok d) :
    d.reward = (if isEligible previous v then
        setRewards c s (rewardScale c s ended) p i (rewardUnit c s ended i) else 0)
      + ownPart p (rewardUnit c s ended) i + proposerPart p (rewardUnit c s ended) i ∧
    d.penalty = if isEligible previous v then
        setPenalties c s (rewardScale c s ended) p i (rewardUnit c s ended i) else 0 := by
  have hproposer {shares : List Gwei}
      (hshares : (p.inclusions.filter (·.proposer = i)).mapM (fun inclusion => (do
        return proposerReward (← baseReward c s (rewardScale c s ended) inclusion.attester) :
          Checked Gwei)) = .ok shares) :
      shares.sum = proposerPart p (rewardUnit c s ended) i := by
    rw [proposerPart, ← Attempt.map_of_mapM (g := id) (k := fun inclusion =>
      proposerReward (rewardUnit c s ended inclusion.attester)) ?_ hshares, List.map_id]
    intro inclusion share hshare
    simp only [Attempt.bind_eq_ok, Attempt.pure_eq_ok] at hshare
    obtain ⟨unit, hunit, rfl⟩ := hshare
    rw [baseReward_eq hunit]
    rfl
  simp only [deltaOf, hv] at h
  split at h
  · simp only [Attempt.bind_eq_ok, Attempt.pure_eq_ok] at h
    obtain ⟨base, hbase, shares, hshares, _, -, _, -, rfl⟩ := h
    rw [baseReward_eq hbase, ← hproposer hshares]
    exact ⟨rfl, rfl⟩
  · next hnone =>
      simp only [Attempt.ok_bind, Attempt.bind_eq_ok, Attempt.pure_eq_ok] at h
      obtain ⟨shares, hshares, _, -, _, -, rfl⟩ := h
      -- Without a part of its own the unit does not matter.
      simp only [Bool.or_eq_true, Bool.not_eq_true', List.isEmpty_eq_false_iff, not_or, not_not,
        Bool.not_eq_true] at hnone
      obtain ⟨heligible, hown⟩ := hnone
      simp only [heligible, hown, ownPart, ← hproposer hshares, List.sum_eq_foldr, List.map_nil,
        Bool.false_eq_true, if_false, and_self]

/-- Where a list has an element, its values have the value of this element. -/
theorem Attempt.exists_getElem?_of_mapM {ε α β : Type} {f : α → Attempt ε β} {xs : List α}
    {ys : List β} {x : α} {k : Nat} (h : xs.mapM f = .ok ys) (hx : xs[k]? = some x) :
    ∃ y, ys[k]? = some y ∧ f x = .ok y := by
  have hall := Attempt.mapM_eq_ok h
  clear h
  induction hall generalizing k with
  | nil => cases hx
  | cons hhead _ ih =>
      cases k with
      | zero =>
          obtain rfl := Option.some.inj hx
          exact ⟨_, rfl, hhead⟩
      | succ k => exact ih hx

/-- A balance after its delta. -/
def Delta.settle (d : Delta) (balance : Gwei) : Gwei := Word.addSat balance d.reward - d.penalty

/-- The balances move by the deltas of their validators. -/
theorem exists_deltas (hended : 1 ≤ ended)
    (h : payRewards c (committeesOf c s) ended s = .ok s') :
    ∃ p deltas, p.Records c s (ended - 1) ∧
      deltasOf c s (rewardScale c s ended) p (ended - 1) = .ok deltas ∧
      s'.balances.toList
        = s.balances.toList.zipWith (fun balance d => d.settle balance) deltas := by
  rw [payRewards, if_neg (Nat.one_le_iff_ne_zero.1 hended)] at h
  simp only [Attempt.bind_eq_ok, Attempt.liftM_eq_ok, Attempt.pure_eq_ok] at h
  obtain ⟨p, hp, deltas, hdeltas, rfl⟩ := h
  refine ⟨p, deltas, participation_records hp, hdeltas, ?_⟩
  rw [Array.toList_zipWith]
  rfl

/-- The balance of a validator moves by its delta. -/
theorem exists_delta (hended : 1 ≤ ended)
    (h : payRewards c (committeesOf c s) ended s = .ok s') (hv : s.validators[i]? = some v)
    (hbalance : s.balances[i]? = some balance) :
    ∃ p d, p.Records c s (ended - 1) ∧
      deltaOf c s (rewardScale c s ended) p (ended - 1) i = .ok d ∧
      s'.balances[i]? = some (d.settle balance) := by
  obtain ⟨p, deltas, hp, hdeltas, hbalances⟩ := exists_deltas hended h
  have hi : i < s.validators.size := (Array.getElem?_eq_some_iff.1 hv).1
  obtain ⟨d, hd, hdelta⟩ := Attempt.exists_getElem?_of_mapM hdeltas (List.getElem?_range hi)
  refine ⟨p, d, hp, hdelta, ?_⟩
  rw [← Array.getElem?_toList, hbalances, List.getElem?_zipWith, Array.getElem?_toList, hbalance,
    hd]

end Beacon
