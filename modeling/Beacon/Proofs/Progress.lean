import Mathlib
import Beacon.Proofs.Transition.Attestations

set_option autoImplicit false

/-! # A chain can always go on

Settling an epoch reads committees, target roots and head roots of the two epochs before. On a
coherent state all of them are there: the pending attestations are seated in those epochs, and both
rings reach that far back. So a boundary gives a state, or a sum leaves the 64-bit range
(`processEpoch_within`); a slot does as well, and so do all slots up to a later one
(`Engine.Reachable.advance_within`). -/

namespace Beacon

variable {c : Constants} {e : Engine} {s s' : ChainState} {lookup : CommitteeLookup}
  {ended epoch : Epoch} {ℓ : Leeway}

/-! ## Who attested -/

/-- The epochs and sizes that committees are worked out from stay words. -/
def SizesFit (c : Constants) (s : ChainState) (epoch : Epoch) : Prop :=
  (epoch + 2 < Word.limit ∧ s.currentEpoch c + 1 < Word.limit) ∧ CommitteesFit c s epoch

/-- The members of the committee that a seated attestation names can be worked out while its epoch
    is in the window. -/
theorem attestersOf_within (hc : c.Consistent) (hrings : RingsFit c s) {a : PendingAttestation}
    (hseat : Seated c s epoch a.data) (hwindow : InWindow c s epoch)
    (hfits : ℓ.faults .overflow ∨ SizesFit c s epoch) :
    (attestersOf (committeesOf c s) a).Within ℓ := by
  have hmixes := hrings.randaoMixes_pos hc
  rw [attestersOf, hseat.target]
  refine ((committeesOf_within hc hfits (Or.inr ⟨⟨hwindow, hmixes⟩, hseat.active⟩)).widen _).bind
    fun committees hcommittees => ?_
  obtain ⟨members, hmembers⟩ :=
    committee?_isSome hc (Attempt.widen_eq_ok.1 hcommittees) hseat.slot hseat.index
  rw [hmembers]
  trivial

theorem unslashedAttesters_within {as : List PendingAttestation}
    (h : ∀ a ∈ as, (attestersOf lookup a).Within ℓ) :
    (unslashedAttesters s lookup as).Within ℓ :=
  (Attempt.Within.mapM h).bind fun _ _ => trivial

theorem targetSupport_within {as : List PendingAttestation} {root : Root}
    (h : ∀ a ∈ as, (attestersOf lookup a).Within ℓ) :
    (targetSupport c s lookup as root).Within ℓ :=
  (unslashedAttesters_within fun a ha => h a (List.mem_filter.1 ha).1).bind fun _ _ => trivial

/-! ## What settling an epoch reads -/

/-- Everything that settling an epoch reads is there, as far as the leeway asks for it. -/
structure Settleable (ℓ : Leeway) (c : Constants) (s : ChainState) (lookup : CommitteeLookup)
    (ended : Epoch) : Prop where
  current : ∀ a ∈ s.currentEpochAttestations, (attestersOf lookup a).Within ℓ
  previous : ∀ a ∈ s.previousEpochAttestations, (attestersOf lookup a).Within ℓ
  heads : ∀ a ∈ s.previousEpochAttestations,
    ℓ.rejections ∨ ∃ root, s.blockRootAt? c a.data.slot = some root
  before : 1 ≤ ended →
    ℓ.rejections ∨ ∃ root, s.blockRootAt? c (c.epochStart (ended - 1)) = some root
  last : ℓ.rejections ∨ ∃ root, s.blockRootAt? c (c.epochStart ended) = some root

/-- Checkpoints and balances do not matter. -/
theorem Settleable.congr (h : Settleable ℓ c s lookup ended) (hslot : s'.slot = s.slot)
    (hroots : s'.blockRoots = s.blockRoots)
    (hcurrent : s'.currentEpochAttestations = s.currentEpochAttestations)
    (hprevious : s'.previousEpochAttestations = s.previousEpochAttestations) :
    Settleable ℓ c s' lookup ended := by
  have hroot (u : Slot) : s'.blockRootAt? c u = s.blockRootAt? c u := by
    rw [ChainState.blockRootAt?, hslot, hroots, ChainState.blockRootAt?]
  refine ⟨hcurrent ▸ h.current, hprevious ▸ h.previous, ?_, ?_, ?_⟩
  · rw [hprevious]
    simpa only [hroot] using h.heads
  · simpa only [hroot] using h.before
  · simpa only [hroot] using h.last

/-- The ring holds the roots of the slots of one round. -/
theorem ChainState.blockRootAt?_isSome (hc : c.Consistent) (hrings : RingsFit c s)
    (hlimit : s.slot < Word.limit) {u : Nat} (hlt : u < s.slot)
    (hround : s.slot ≤ u + c.slotsPerHistoricalRoot) :
    ∃ root, s.blockRootAt? c u = some root := by
  rw [ChainState.blockRootAt?_eq hlimit, if_pos ⟨hlt, hround⟩]
  refine ⟨_, Array.getElem?_eq_getElem ?_⟩
  rw [hrings.blockRoots]
  exact Nat.mod_lt _ hc.slotsPerHistoricalRoot_pos

/-- A coherent state that enters the slot of a boundary finds all it needs to settle the epoch. -/
theorem Coherent.settleable (h : Coherent c s) (hc : c.Consistent)
    (hlimit : s.slot + 1 < Word.limit) (hstart : c.isEpochStart (s.slot + 1) = true)
    (hfits : ∀ epoch ≤ s.currentEpoch c, ℓ.faults .overflow ∨ SizesFit c (s.atNextSlot c) epoch) :
    Settleable ℓ c (s.atNextSlot c) (committeesOf c (s.atNextSlot c)) (s.currentEpoch c) := by
  have hrings := h.rings.atNextSlot
  have hnext : (s.currentEpoch c + 1) * c.slotsPerEpoch = s.slot + 1 := by
    rw [ChainState.currentEpoch, ← Constants.epochAt_succ_of_start hstart]
    exact Constants.epochAt_mul_of_start hstart
  have hepoch : (s.atNextSlot c).currentEpoch c = s.currentEpoch c + 1 :=
    Constants.epochAt_succ_of_start hstart
  have hpos := hc.slotsPerEpoch_pos
  have htwo := hc.twoEpochs_le
  have hlast := Nat.succ_mul (s.currentEpoch c) c.slotsPerEpoch
  -- The slots of the last two epochs lie within one round of the ring.
  have hheld (u : Nat) (hlt : u < s.slot + 1)
      (hround : s.slot + 1 ≤ u + 2 * c.slotsPerEpoch) :
      ∃ root, (s.atNextSlot c).blockRootAt? c u = some root :=
    ChainState.blockRootAt?_isSome hc hrings hlimit hlt (by rw [ChainState.atNextSlot_slot]; lia)
  refine ⟨?_, ?_, ?_, ?_, ?_⟩
  · -- Attestations of the epoch that ends are seated one epoch back.
    intro a ha
    have hseat : Seated c (s.atNextSlot c) (s.currentEpoch c) a.data := (h.current a ha).congr rfl
    exact attestersOf_within hc hrings hseat (by rw [InWindow, hepoch]; lia) (hfits _ le_rfl)
  · -- Those of the epoch before are seated two epochs back.
    intro a ha
    obtain ⟨epoch, hbefore, hseat⟩ := h.previous a ha
    exact attestersOf_within hc hrings (hseat.congr rfl) (by rw [InWindow, hepoch]; lia)
      (hfits _ (by lia))
  · -- The block that headed the chain at the slot of such an attestation.
    intro a ha
    obtain ⟨epoch, hbefore, hseat⟩ := h.previous a ha
    have hslot := Constants.epochAt_mul_le (c := c) a.data.slot
    have hslot' := hc.lt_epochAt_succ_mul a.data.slot
    have hprevious := Nat.succ_mul epoch c.slotsPerEpoch
    rw [hseat.slot] at hslot hslot'
    rw [← hbefore] at hlast hnext
    exact Or.inr (hheld _ (by lia) (by lia))
  · intro hone
    obtain ⟨epoch, hbefore⟩ := Nat.exists_eq_add_of_le' hone
    have hprevious := Nat.succ_mul epoch c.slotsPerEpoch
    rw [hbefore] at hlast hnext ⊢
    rw [Nat.add_sub_cancel, Constants.epochStart_of_lt (by lia)]
    exact Or.inr (hheld _ (by lia) (by lia))
  · rw [Constants.epochStart_of_lt (by lia)]
    exact Or.inr (hheld _ (by lia) (by lia))

/-! ## Justification and finalization -/

theorem boundaryRoot_within
    (h : ℓ.rejections ∨ ∃ root, s.blockRootAt? c (c.epochStart epoch) = some root) :
    (boundaryRoot c s epoch).Within ℓ := by
  unfold boundaryRoot
  split
  · trivial
  · next hnone => exact h.resolve_right (by simp [hnone])

theorem liesBefore_within {cp : Checkpoint} {distance : Nat}
    (h : ℓ.faults .overflow ∨ cp.epoch + distance < Word.limit) :
    (liesBefore cp distance ended).Within ℓ :=
  (Word.add_within h).bind fun _ _ => trivial

/-- The epochs of the justified checkpoints are far from the largest word. -/
def CheckpointsFit (s : ChainState) : Prop :=
  s.previousJustified.epoch + 3 < Word.limit ∧ s.currentJustified.epoch + 3 < Word.limit

theorem finalizedBy_within (h : ℓ.faults .overflow ∨ CheckpointsFit s) {bits : Vector Bool 4} :
    (finalizedBy bits s.previousJustified s.currentJustified ended).Within ℓ := by
  -- Each of the four rules asks one question and hands over to the next rule.
  have hrule (p : Bool) (cp : Checkpoint) (distance : Nat) {rest : Checked (Option Checkpoint)}
      (hcp : ℓ.faults .overflow ∨ cp.epoch + distance < Word.limit) (hrest : rest.Within ℓ) :
      (if p = true then do
        if ← liesBefore cp distance ended then return some cp else rest
       else rest).Within ℓ :=
    .ite ((liesBefore_within hcp).bind fun _ _ => .ite trivial hrest) hrest
  refine hrule _ _ _ (h.imp_right And.left) (hrule _ _ _ (h.imp_right fun h => ?_)
    (hrule _ _ _ (h.imp_right fun h => ?_) (hrule _ _ _ (h.imp_right fun h => ?_) trivial)))
  · exact Nat.lt_of_succ_lt h.1
  · exact Nat.lt_of_succ_lt h.2
  · exact Nat.lt_of_succ_lt (Nat.lt_of_succ_lt h.2)

theorem justifyAndFinalize_within (h : Settleable ℓ c s lookup ended)
    (hfits : ℓ.faults .overflow ∨ CheckpointsFit s) :
    (justifyAndFinalize c lookup ended s).Within ℓ := by
  unfold justifyAndFinalize
  split
  · trivial
  · next hearly =>
      refine (boundaryRoot_within (h.before (by lia))).bind fun before _ => ?_
      refine (targetSupport_within h.previous).bind fun supportBefore _ => ?_
      refine (boundaryRoot_within h.last).bind fun last _ => ?_
      refine (targetSupport_within h.current).bind fun supportLast _ => ?_
      exact (finalizedBy_within hfits).lift.bind fun _ _ => trivial

/-! ## Rewards -/

theorem namesHead_within {a : PendingAttestation}
    (h : ℓ.rejections ∨ ∃ root, s.blockRootAt? c a.data.slot = some root) :
    (namesHead c s a).Within ℓ := by
  unfold namesHead
  split
  · trivial
  · next hnone => exact h.resolve_right (by simp [hnone])

theorem mem_of_filterAttempt {α ε : Type} {p : α → Attempt ε Bool} {xs ys : List α}
    (h : filterAttempt p xs = .ok ys) : ∀ y ∈ ys, y ∈ xs := by
  induction xs generalizing ys with
  | nil =>
      obtain rfl : [] = ys := by simpa [filterAttempt] using h
      simp
  | cons x xs ih =>
      simp only [filterAttempt, Attempt.bind_eq_ok, Attempt.pure_eq_ok] at h
      obtain ⟨keep, -, rest, hrest, rfl⟩ := h
      intro y hy
      cases keep with
      | false => exact List.mem_cons_of_mem _ (ih hrest y hy)
      | true => exact List.mem_cons.2 ((List.mem_cons.1 hy).imp id (ih hrest y))

theorem participation_within (h : Settleable ℓ c s lookup ended) (hone : 1 ≤ ended) :
    (participation c s lookup (ended - 1)).Within ℓ := by
  refine (boundaryRoot_within (h.before hone)).bind fun target _ => ?_
  refine (unslashedAttesters_within h.previous).bind fun source _ => ?_
  refine (unslashedAttesters_within fun a ha => h.previous a (List.mem_filter.1 ha).1).bind
    fun _ _ => ?_
  refine (Attempt.Within.filterAttempt fun a ha => namesHead_within (h.heads a ha)).bind
    fun matching hmatching => ?_
  refine (unslashedAttesters_within fun a ha =>
    h.previous a (mem_of_filterAttempt hmatching a ha)).bind fun _ _ => ?_
  exact (Attempt.Within.mapM h.previous).bind fun _ _ => trivial

theorem baseReward_within {scale : RewardScale} {index : ValidatorIndex}
    (h : ℓ.faults .overflow ∨ s.effectiveBalance index * c.baseRewardFactor < Word.limit) :
    (baseReward c s scale index).Within ℓ :=
  (Word.mul_within h).bind fun _ _ => trivial

/-- A delta can be worked out where no unit of rewards leaves the range, and neither does what is
    added up for the validator. -/
theorem deltaOf_within {scale : RewardScale} {p : Participation} {previous : Epoch}
    {index : ValidatorIndex}
    (hunits : ∀ i, ℓ.faults .overflow ∨ s.effectiveBalance i * c.baseRewardFactor < Word.limit)
    (hsums : ℓ.faults .overflow ∨ ∀ base shares,
      (base = 0 ∨ baseReward c s scale index = .ok base) →
      (p.inclusions.filter (·.proposer = index)).mapM
        (fun i => do return proposerReward (← baseReward c s scale i.attester)) = .ok shares →
      setRewards c s scale p index base
        + ((p.inclusions.filter (·.attester = index)).map (inclusionReward · base)).sum
        + shares.sum < Word.limit ∧ setPenalties c s scale p index base < Word.limit) :
    (deltaOf c s scale p previous index).Within ℓ := by
  have hbase {eligible : Prop} [Decidable eligible] {rest : Gwei → Checked Delta}
      (hrest : ∀ base, base = 0 ∨ baseReward c s scale index = .ok base → (rest base).Within ℓ) :
      (if eligible then do rest (← baseReward c s scale index)
       else do rest (← .ok 0)).Within ℓ :=
    .ite ((baseReward_within (hunits index)).bind fun base h => hrest base (Or.inr h))
      (hrest 0 (Or.inl rfl))
  refine hbase fun base hbase => ?_
  have hshare (i : Inclusion) :
      (do return proposerReward (← baseReward c s scale i.attester) : Checked Gwei).Within ℓ :=
    (baseReward_within (hunits i.attester)).bind fun _ _ => trivial
  refine (Attempt.Within.mapM fun i _ => hshare i).bind fun shares hshares => ?_
  -- Who is not eligible has no part in the rewards and penalties of the sets.
  have hpart (p : Bool) (x : Nat) : (if p = true then x else 0) ≤ x := by
    split
    · exact le_rfl
    · exact Nat.zero_le _
  refine (Word.require_within (hsums.imp_right fun h => ?_)).bind fun _ _ => ?_
  · exact lt_of_le_of_lt (Nat.add_le_add_right (Nat.add_le_add_right (hpart _ _) _) _)
      (h base shares hbase hshares).1
  · exact (Word.require_within (hsums.imp_right fun h => lt_of_le_of_lt (hpart _ _)
      (h base shares hbase hshares).2)).bind fun _ _ => trivial

/-- The deltas of the boundary after `ended` can be worked out. -/
def DeltasFit (ℓ : Leeway) (c : Constants) (s : ChainState) (lookup : CommitteeLookup)
    (ended : Epoch) : Prop :=
  ∀ p, participation c s lookup (ended - 1) = .ok p →
    (deltasOf c s (rewardScale c s ended) p (ended - 1)).Within ℓ

theorem deltasFit_overflow (h : ℓ.faults .overflow) : DeltasFit ℓ c s lookup ended :=
  fun _ _ => Attempt.Within.mapM fun _ _ => deltaOf_within (fun _ => Or.inl h) (Or.inl h)

theorem payRewards_within (h : Settleable ℓ c s lookup ended)
    (hdeltas : DeltasFit ℓ c s lookup ended) : (payRewards c lookup ended s).Within ℓ := by
  unfold payRewards
  split
  · trivial
  · next hended =>
      refine (participation_within h (Nat.one_le_iff_ne_zero.2 hended)).bind fun p hp => ?_
      exact (hdeltas p hp).lift.bind fun _ _ => trivial

/-! ## Boundaries, slots and runs -/

theorem updateEffectiveBalances_within
    (h : ℓ.faults .overflow ∨ c.effectiveBalanceIncrement / 4 * 5 < Word.limit) :
    (updateEffectiveBalances c s).Within ℓ :=
  (Word.mul_within h).bind fun _ _ => trivial

theorem processEpoch_within (hsizes : ℓ.rejections ∨ s.validators.size = s.balances.size)
    (h : Settleable ℓ c s (committeesOf c s) (s.currentEpoch c - 1))
    (hfits : ℓ.faults .overflow ∨
      CheckpointsFit s ∧ c.effectiveBalanceIncrement / 4 * 5 < Word.limit)
    (hdeltas : ∀ summary s', justifyAndFinalize c (committeesOf c s) (s.currentEpoch c - 1) s
      = .ok (summary, s') → DeltasFit ℓ c s' (committeesOf c s) (s.currentEpoch c - 1)) :
    (processEpoch c s).Within ℓ := by
  have hlookup : committeeLookup c s (s.currentEpoch c - 1) = committeesOf c s :=
    funext (committeeLookup_eq c s _)
  simp only [processEpoch, hlookup]
  refine (Attempt.within_require hsizes).bind fun _ _ => ?_
  refine (justifyAndFinalize_within h (hfits.imp_right And.left)).bind fun justified hjustify => ?_
  obtain ⟨summary, s₁⟩ := justified
  have hframe := justifyAndFinalize_frame hjustify
  have h₁ : Settleable ℓ c s₁ (committeesOf c s) (s.currentEpoch c - 1) :=
    h.congr (by rw [hframe]) (by rw [hframe]) (by rw [hframe]) (by rw [hframe])
  refine (payRewards_within h₁ (hdeltas summary s₁ hjustify)).bind fun s₂ _ => ?_
  exact (updateEffectiveBalances_within (hfits.imp_right And.right)).lift.bind fun _ _ => trivial

theorem nextSlot_within (h : ℓ.rejections ∨ RingsFit c s ∧ s.slot + 1 < Word.limit) :
    (nextSlot c s).Within ℓ := by
  have hrings : (checkRings c s).Within ℓ :=
    (Attempt.within_require (h.imp_right fun h => h.1.blockRoots)).bind fun _ _ =>
      Attempt.within_require (h.imp_right fun h => h.1.randaoMixes)
  exact hrings.bind fun _ _ => (Attempt.within_require (h.imp_right And.right)).bind
    fun _ _ => trivial

/-- What a boundary reads is there, if no number leaves the 64-bit range. -/
theorem Coherent.settleable_boundary (h : Coherent c s) (hc : c.Consistent)
    (hlimit : s.slot + 1 < Word.limit) (hstart : c.isEpochStart (s.slot + 1) = true) :
    Settleable .overflow c (s.atNextSlot c) (committeesOf c (s.atNextSlot c))
      ((s.atNextSlot c).currentEpoch c - 1) := by
  have hended : (s.atNextSlot c).currentEpoch c - 1 = s.currentEpoch c :=
    Nat.sub_eq_of_eq_add (Constants.epochAt_succ_of_start hstart)
  rw [hended]
  exact h.settleable hc hlimit hstart fun _ _ => Or.inl rfl

/-- A coherent state can enter the next slot, with the boundary that it may bring. -/
theorem Coherent.step_within (h : Coherent c s) (hc : c.Consistent)
    (hlimit : s.slot + 1 < Word.limit) : (Engine.step c s).Within .overflow := by
  refine ((nextSlot_within (Or.inr ⟨h.rings, hlimit⟩)).widen _).bind fun t ht => ?_
  obtain ⟨-, -, rfl⟩ := nextSlot_eq_ok.1 (Attempt.widen_eq_ok.1 ht)
  split
  · next hstart =>
      have hsizes : (s.atNextSlot c).validators.size = (s.atNextSlot c).balances.size := h.sizes
      exact ((processEpoch_within (Or.inr hsizes) (h.settleable_boundary hc hlimit hstart)
        (Or.inl rfl) fun _ _ _ => deltasFit_overflow rfl).widen _).bind fun _ _ => trivial
  · trivial

theorem Coherent.stepBy_within (hc : c.Consistent) (n : Nat) (h : Coherent c s)
    (hlimit : s.slot + n < Word.limit) : (Engine.stepBy c n s).Within .overflow := by
  induction n generalizing s with
  | zero => trivial
  | succ n ih =>
      refine (h.step_within hc (by lia)).bind fun t ht => ?_
      refine ih (h.step ht) ?_
      rw [(step_frame ht).slot]
      lia

/-- A reachable state can be advanced to any later slot, if no number leaves the 64-bit range. -/
theorem Engine.Reachable.advance_within {target : Slot} (h : e.Reachable s)
    (hle : s.slot ≤ target) (hlimit : target < Word.limit) :
    (e.advance s target).Within .overflow := by
  have hsteps : (Engine.stepBy e.constants (target - s.slot) s).Within .overflow :=
    h.coherent.stepBy_within e.consistent _ (by lia)
  exact (Attempt.within_require (Or.inr hle)).bind fun _ _ => hsteps

end Beacon
