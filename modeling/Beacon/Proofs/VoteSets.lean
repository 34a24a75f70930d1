import Mathlib
import Beacon.Proofs.LoneVoter
import Beacon.Proofs.Transition.Inclusions

set_option autoImplicit false

/-! # A boundary reads its votes as a set

Settling an epoch unites the attesters of all pending attestations, and pays each of them for the
earliest of its inclusions. Neither depends on the order in which the attestations are remembered,
nor on how often: a union does not, and between inclusions after the same delay there is nothing to
choose, since they are credited to one proposer (`Credited.proposer_eq`). So two states that
remember the same attestations come out of a boundary alike (`boundary_reads_votes_as_sets`). -/

namespace Beacon

variable {c : Constants} {e : Engine} {s t : ChainState} {epoch ended previous : Epoch}
  {lookup : CommitteeLookup} {as bs : List PendingAttestation}

/-! ## Attempts over lists with the same elements -/

section

variable {ε α β : Type} {f : α → Attempt ε β} {p : α → Attempt ε Bool} {xs xs' : List α}
  {ys : List β}

/-- The lists have the same elements, in whatever order and however often. -/
def SameElements (xs xs' : List α) : Prop := ∀ x, x ∈ xs ↔ x ∈ xs'

theorem SameElements.symm (h : SameElements xs xs') : SameElements xs' xs := fun x => (h x).symm

theorem SameElements.filter (h : SameElements xs xs') (q : α → Bool) :
    SameElements (xs.filter q) (xs'.filter q) := by
  intro x
  rw [List.mem_filter, List.mem_filter, h x]

/-- A `mapM` succeeds on both lists or on neither. -/
theorem SameElements.exists_mapM (h : SameElements xs xs') (hys : xs'.mapM f = .ok ys) :
    ∃ zs, xs.mapM f = .ok zs := by
  refine Attempt.exists_mapM fun x hx => ?_
  obtain ⟨y, -, hy⟩ := Attempt.exists_mem_of_mapM hys ((h x).1 hx)
  exact ⟨y, hy⟩

/-- The pairs of an element and its value. -/
theorem mem_zip_of_mapM (hys : xs.mapM f = .ok ys) {x : α} {y : β} :
    (x, y) ∈ xs.zip ys ↔ x ∈ xs ∧ f x = .ok y := by
  have hall := Attempt.mapM_eq_ok hys
  clear hys
  induction hall with
  | nil => simp
  | cons hhead _ ih =>
      simp only [List.zip_cons_cons, List.mem_cons, Prod.mk.injEq, ih]
      constructor
      · rintro (⟨rfl, rfl⟩ | ⟨hx, hy⟩)
        · exact ⟨Or.inl rfl, hhead⟩
        · exact ⟨Or.inr hx, hy⟩
      · rintro ⟨rfl | hx, hy⟩
        · exact Or.inl ⟨rfl, Except.ok.inj (hy.symm.trans hhead)⟩
        · exact Or.inr ⟨hx, hy⟩

/-- A filter that succeeds keeps the elements on which the question was answered with yes, and the
    question was answered for all of them. -/
theorem mem_filterAttempt (hkept : filterAttempt p xs = .ok xs') :
    (∀ x ∈ xs, ∃ keep, p x = .ok keep) ∧ ∀ x, x ∈ xs' ↔ x ∈ xs ∧ p x = .ok true := by
  induction xs generalizing xs' with
  | nil =>
      obtain rfl : [] = xs' := by simpa [filterAttempt] using hkept
      simp
  | cons x xs ih =>
      simp only [filterAttempt, Attempt.bind_eq_ok, Attempt.pure_eq_ok] at hkept
      obtain ⟨keep, hkeep, rest, hrest, rfl⟩ := hkept
      obtain ⟨hanswered, hmem⟩ := ih hrest
      refine ⟨List.forall_mem_cons.2 ⟨⟨keep, hkeep⟩, hanswered⟩, fun y => ?_⟩
      cases keep with
      | false =>
          simp only [Bool.false_eq_true, if_false, List.mem_cons, hmem]
          constructor
          · rintro ⟨hy, hyes⟩
            exact ⟨Or.inr hy, hyes⟩
          · rintro ⟨rfl | hy, hyes⟩
            · rw [hkeep] at hyes
              cases hyes
            · exact ⟨hy, hyes⟩
      | true =>
          simp only [if_true, List.mem_cons, hmem]
          constructor
          · rintro (rfl | ⟨hy, hyes⟩)
            · exact ⟨Or.inl rfl, hkeep⟩
            · exact ⟨Or.inr hy, hyes⟩
          · rintro ⟨rfl | hy, hyes⟩
            · exact Or.inl rfl
            · exact Or.inr ⟨hy, hyes⟩

/-- Where every question is answered, the filter succeeds. -/
theorem exists_filterAttempt (h : ∀ x ∈ xs, ∃ keep, p x = .ok keep) :
    ∃ kept, filterAttempt p xs = .ok kept := by
  induction xs with
  | nil => exact ⟨[], rfl⟩
  | cons x xs ih =>
      obtain ⟨⟨keep, hkeep⟩, hxs⟩ := List.forall_mem_cons.1 h
      obtain ⟨kept, hkept⟩ := ih hxs
      exact ⟨_, by rw [filterAttempt, hkeep, Attempt.ok_bind, hkept]; rfl⟩

/-- A filter keeps the same elements of both lists. -/
theorem SameElements.exists_filterAttempt (h : SameElements xs xs') {kept : List α}
    (hkept : filterAttempt p xs' = .ok kept) :
    ∃ kept', filterAttempt p xs = .ok kept' ∧ SameElements kept' kept := by
  obtain ⟨hanswered, hmem⟩ := mem_filterAttempt hkept
  obtain ⟨kept', hkept'⟩ := Beacon.exists_filterAttempt fun x hx => hanswered x ((h x).1 hx)
  refine ⟨kept', hkept', fun x => ?_⟩
  rw [(mem_filterAttempt hkept').2 x, hmem x, h x]

end

/-! ## The earliest inclusion -/

section

variable {ps qs : List Attested} {w : ValidatorIndex}

/-- Attestations of a validator that were included after the same delay name the same proposer. -/
def Agree (w : ValidatorIndex) (ps : List Attested) : Prop :=
  ∀ p ∈ ps, ∀ q ∈ ps, w ∈ p.2 → w ∈ q.2 → p.1.inclusionDelay = q.1.inclusionDelay →
    p.1.proposerIndex = q.1.proposerIndex

/-- Where inclusions after the same delay agree, the earliest one depends on which attestations
    there are, not on their order. -/
theorem earliestInclusion?_congr (hsame : SameElements ps qs) (hagree : Agree w qs) :
    earliestInclusion? ps w = earliestInclusion? qs w := by
  rcases earliestInclusion?_cases ps w with ⟨hnone, hout⟩ | ⟨p, hp, hpw, hsome, hle⟩ <;>
    rcases earliestInclusion?_cases qs w with ⟨hnone', hout'⟩ | ⟨q, hq, hqw, hsome', hle'⟩
  · rw [hnone, hnone']
  · exact absurd hqw (hout q ((hsame q).2 hq))
  · exact absurd hpw (hout' p ((hsame p).1 hp))
  · have hdelay : p.1.inclusionDelay = q.1.inclusionDelay :=
      le_antisymm (hle q ((hsame q).2 hq) hqw) (hle' p ((hsame p).1 hp) hpw)
    rw [hsome, hsome', inclusionOf, inclusionOf, hdelay,
      hagree p ((hsame p).1 hp) q hq hpw hqw hdelay]

end

/-! ## Unions of attesters -/

/-- The unslashed attesters are a union. -/
theorem unslashedAttesters_congr (hsame : SameElements as bs) {attesters : List ValidatorIndex}
    (h : unslashedAttesters s lookup bs = .ok attesters) :
    unslashedAttesters s lookup as = .ok attesters := by
  simp only [unslashedAttesters, Attempt.bind_eq_ok, Attempt.pure_eq_ok] at h ⊢
  obtain ⟨attesting, hattesting, rfl⟩ := h
  obtain ⟨attesting', hattesting'⟩ := hsame.exists_mapM hattesting
  refine ⟨attesting', hattesting', ?_⟩
  have hunion (w : ValidatorIndex) :
      attesting'.flatten.contains w = attesting.flatten.contains w := by
    rw [Bool.eq_iff_iff, List.contains_iff_mem, List.contains_iff_mem, List.mem_flatten,
      List.mem_flatten]
    constructor
    · rintro ⟨xs, hxs, hw⟩
      obtain ⟨a, ha, hxs⟩ := Attempt.exists_of_mem_mapM hattesting' hxs
      obtain ⟨ys, hys, hya⟩ := Attempt.exists_mem_of_mapM hattesting ((hsame a).1 ha)
      rw [hxs] at hya
      exact ⟨ys, hys, Except.ok.inj hya ▸ hw⟩
    · rintro ⟨xs, hxs, hw⟩
      obtain ⟨a, ha, hxs⟩ := Attempt.exists_of_mem_mapM hattesting hxs
      obtain ⟨ys, hys, hya⟩ := Attempt.exists_mem_of_mapM hattesting' ((hsame a).2 ha)
      rw [hxs] at hya
      exact ⟨ys, hys, Except.ok.inj hya ▸ hw⟩
  simp only [hunion]

theorem targetSupport_congr (hsame : SameElements as bs) {root : Root} {balance : Gwei}
    (h : targetSupport c s lookup bs root = .ok balance) :
    targetSupport c s lookup as root = .ok balance := by
  simp only [targetSupport, Attempt.bind_eq_ok] at h ⊢
  obtain ⟨attesters, hattesters, h⟩ := h
  exact ⟨attesters, unslashedAttesters_congr (hsame.filter _) hattesters, h⟩

/-! ## States that remember the same votes -/

/-- A state with other pending attestations. -/
@[simps] def ChainState.withVotes (s : ChainState) (as bs : List PendingAttestation) : ChainState :=
  { s with previousEpochAttestations := as, currentEpochAttestations := bs }

theorem justifyAndFinalize_withVotes (hprevious : SameElements as s.previousEpochAttestations)
    (hcurrent : SameElements bs s.currentEpochAttestations) {summary : EpochSummary}
    (h : justifyAndFinalize c lookup ended s = .ok (summary, t)) :
    justifyAndFinalize c lookup ended (s.withVotes as bs) = .ok (summary, t.withVotes as bs) := by
  unfold justifyAndFinalize at h ⊢
  split at h
  · next hearly =>
      rw [if_pos hearly]
      simp only [Attempt.pure_eq_ok, Prod.mk.injEq] at h ⊢
      obtain ⟨rfl, rfl⟩ := h
      exact ⟨rfl, rfl⟩
  · next hearly =>
      rw [if_neg hearly]
      simp only [Attempt.bind_eq_ok, Attempt.pure_eq_ok, Prod.mk.injEq] at h ⊢
      obtain ⟨before, hbefore, supportBefore, hsupportBefore, last, hlast, supportLast,
        hsupportLast, finalized, hfinalized, rfl, rfl⟩ := h
      exact ⟨before, hbefore, supportBefore, targetSupport_congr hprevious hsupportBefore, last,
        hlast, supportLast, targetSupport_congr hcurrent hsupportLast, finalized, hfinalized, rfl,
        rfl⟩

/-- All attestations of the epoch that is paid for agree on who included them. -/
structure Payable (c : Constants) (lookup : CommitteeLookup) (s : ChainState) : Prop where
  agree : ∀ w, ∀ a ∈ s.previousEpochAttestations, ∀ b ∈ s.previousEpochAttestations,
    ∀ xs ys, attestersOf lookup a = .ok xs → attestersOf lookup b = .ok ys → w ∈ xs → w ∈ ys →
      a.inclusionDelay = b.inclusionDelay → a.proposerIndex = b.proposerIndex

theorem participation_withVotes (hpay : Payable c lookup s)
    (hprevious : SameElements as s.previousEpochAttestations) {p : Participation}
    (h : participation c s lookup previous = .ok p) :
    participation c (s.withVotes as bs) lookup previous = .ok p := by
  simp only [participation, Attempt.bind_eq_ok, Attempt.pure_eq_ok] at h ⊢
  obtain ⟨root, hroot, source, hsource, target, htarget, matching, hmatching, head, hhead,
    attesting, hattesting, rfl⟩ := h
  obtain ⟨matching', hmatching', hsame⟩ := hprevious.exists_filterAttempt hmatching
  obtain ⟨attesting', hattesting'⟩ := hprevious.exists_mapM hattesting
  refine ⟨root, hroot, source, unslashedAttesters_congr hprevious hsource, target,
    unslashedAttesters_congr (hprevious.filter _) htarget, matching', hmatching', head,
    unslashedAttesters_congr hsame hhead, attesting', hattesting', ?_⟩
  have hearliest (w : ValidatorIndex) : earliestInclusion? (as.zip attesting') w
      = earliestInclusion? (s.previousEpochAttestations.zip attesting) w := by
    refine earliestInclusion?_congr ?_ ?_
    · rintro ⟨a, xs⟩
      rw [mem_zip_of_mapM hattesting', mem_zip_of_mapM hattesting, hprevious a]
    · rintro ⟨a, xs⟩ ha ⟨b, ys⟩ hb hw hw' hdelay
      obtain ⟨ha, hxs⟩ := (mem_zip_of_mapM hattesting).1 ha
      obtain ⟨hb, hys⟩ := (mem_zip_of_mapM hattesting).1 hb
      exact hpay.agree w a ha b hb xs ys hxs hys hw hw' hdelay
  simp only [ChainState.withVotes_previousEpochAttestations, hearliest]

theorem payRewards_withVotes (hpay : Payable c lookup s)
    (hprevious : SameElements as s.previousEpochAttestations)
    (h : payRewards c lookup ended s = .ok t) :
    payRewards c lookup ended (s.withVotes as bs) = .ok (t.withVotes as bs) := by
  unfold payRewards at h ⊢
  split at h
  · next hzero =>
      rw [if_pos hzero]
      rw [Attempt.pure_eq_ok] at h ⊢
      rw [h]
  · next hzero =>
      rw [if_neg hzero]
      simp only [Attempt.bind_eq_ok, Attempt.liftM_eq_ok, Attempt.pure_eq_ok] at h ⊢
      obtain ⟨p, hp, deltas, hdeltas, rfl⟩ := h
      exact ⟨p, participation_withVotes hpay hprevious hp, deltas, hdeltas, rfl⟩

theorem updateEffectiveBalances_withVotes (h : updateEffectiveBalances c s = .ok t) :
    updateEffectiveBalances c (s.withVotes as bs) = .ok (t.withVotes as bs) := by
  obtain ⟨hfits, rfl⟩ := updateEffectiveBalances_eq_ok.1 h
  exact updateEffectiveBalances_eq_ok.2 ⟨hfits, rfl⟩

/-- A boundary treats a state that remembers the same votes alike. -/
theorem processEpoch_withVotes (hpay : Payable c (committeesOf c s) s)
    (hprevious : SameElements as s.previousEpochAttestations)
    (hcurrent : SameElements bs s.currentEpochAttestations) {summary : EpochSummary}
    (h : processEpoch c s = .ok (summary, t)) :
    processEpoch c (s.withVotes as bs)
      = .ok (summary, { t with previousEpochAttestations := bs }) := by
  obtain ⟨hsizes, s₁, s₂, s₃, hjustify, hrewards, hupdate, rfl⟩ := processEpoch_eq_ok.1 h
  have h₁ := justifyAndFinalize_frame hjustify
  have hsame : s₁.previousEpochAttestations = s.previousEpochAttestations := by rw [h₁]
  have hpay₁ : Payable c (committeesOf c s) s₁ := ⟨by rw [hsame]; exact hpay.agree⟩
  refine processEpoch_eq_ok.2 ⟨hsizes, s₁.withVotes as bs, s₂.withVotes as bs, s₃.withVotes as bs,
    justifyAndFinalize_withVotes hprevious hcurrent hjustify, ?_, ?_, rfl⟩
  · exact payRewards_withVotes hpay₁ (by rw [hsame]; exact hprevious) hrewards
  · exact updateEffectiveBalances_withVotes hupdate

/-! ## Boundaries of a run -/

/-- Entering a slot credits nobody else. -/
theorem Credited.atNextSlot {proposers : Slot → ValidatorIndex} (h : Credited proposers s) :
    Credited proposers (s.atNextSlot c) :=
  h.congr s.filledHeader_slot s.filledHeader_proposerIndex (List.Subset.refl _)

/-- At a boundary of a run all attestations that are paid for are of one epoch, so the inclusions of
    a validator agree. -/
theorem Engine.Reachable.payable (h : e.Reachable s) :
    Payable e.constants (committeesOf e.constants (s.atNextSlot e.constants))
      (s.atNextSlot e.constants) := by
  obtain ⟨proposers, hcredited⟩ := h.credited
  refine ⟨fun w a ha b hb xs ys hxs hys hw hw' hdelay => ?_⟩
  obtain ⟨epoch, hepoch, hseat⟩ := h.coherent.previous a ha
  obtain ⟨epoch', hepoch', hseat'⟩ := h.coherent.previous b hb
  have htarget : b.data.target.epoch = a.data.target.epoch := by
    rw [hseat.target, hseat'.target]
    exact Nat.succ_injective (hepoch'.trans hepoch.symm)
  exact hcredited.atNextSlot.proposer_eq e.consistent (List.mem_append_left _ ha)
    (List.mem_append_left _ hb) hxs hys htarget hw hw' hdelay

theorem Payable.withVotes (h : Payable c lookup s)
    (hprevious : SameElements as s.previousEpochAttestations) :
    Payable c lookup (s.withVotes as bs) :=
  ⟨fun w a ha b hb => h.agree w a ((hprevious a).1 ha) b ((hprevious b).1 hb)⟩

theorem Settleable.withVotes {ℓ : Leeway} (h : Settleable ℓ c s lookup ended)
    (hprevious : SameElements as s.previousEpochAttestations)
    (hcurrent : SameElements bs s.currentEpochAttestations) :
    Settleable ℓ c (s.withVotes as bs) lookup ended :=
  ⟨fun a ha => h.current a ((hcurrent a).1 ha), fun a ha => h.previous a ((hprevious a).1 ha),
    fun a ha => h.heads a ((hprevious a).1 ha), h.before, h.last⟩

/-- **Only the set of recorded votes matters.** At every boundary of a run, the state with its
    pending attestations in any other order, and repeated at will within their lists, is settled
    with the same summary and to the same state, up to the list that becomes that of the previous
    epoch. Where a number leaves the 64-bit range, it does so for both. -/
theorem boundary_reads_votes_as_sets {boundary : ChainState} (h : e.Reachable s)
    (hnext : nextSlot e.constants s = .ok boundary)
    (hstart : e.constants.isEpochStart boundary.slot = true)
    (hprevious : SameElements as boundary.previousEpochAttestations)
    (hcurrent : SameElements bs boundary.currentEpochAttestations) :
    (∃ summary after, processEpoch e.constants boundary = .ok (summary, after) ∧
      processEpoch e.constants (boundary.withVotes as bs)
        = .ok (summary, { after with previousEpochAttestations := bs })) ∨
    (processEpoch e.constants boundary = .error (.fault .overflow) ∧
      processEpoch e.constants (boundary.withVotes as bs) = .error (.fault .overflow)) := by
  obtain ⟨-, hlimit, rfl⟩ := nextSlot_eq_ok.1 hnext
  have hpay := h.payable
  have hsettle := h.coherent.settleable_boundary e.consistent hlimit hstart
  have hsizes := h.coherent.sizes
  have hends := processEpoch_within (s := s.atNextSlot e.constants) (Or.inr hsizes) hsettle
    (Or.inl rfl) fun _ _ _ => deltasFit_overflow rfl
  have hends' := processEpoch_within (s := (s.atNextSlot e.constants).withVotes as bs)
    (Or.inr hsizes) (hsettle.withVotes hprevious hcurrent) (Or.inl rfl)
    fun _ _ _ => deltasFit_overflow rfl
  rcases hends.ok_or_overflow with ⟨⟨summary, after⟩, hok⟩ | hfault
  · exact Or.inl ⟨summary, after, hok, processEpoch_withVotes hpay hprevious hcurrent hok⟩
  · rcases hends'.ok_or_overflow with ⟨⟨summary, after⟩, hok⟩ | hfault'
    · -- The state itself has the votes of the other one, so it would be settled as well.
      have hpay' : Payable e.constants _ ((s.atNextSlot e.constants).withVotes as bs) :=
        hpay.withVotes hprevious
      have hback := processEpoch_withVotes hpay' hprevious.symm hcurrent.symm hok
      exact absurd (hback.symm.trans hfault) (by simp)
    · exact Or.inr ⟨hfault, hfault'⟩

/-- The boundary into slot three of the lone validator's chain, with its vote there once and
    twice. -/
theorem boundary_reads_votes_as_sets_lone :
    ∃ s boundary, Engine.lone.Reachable s ∧ nextSlot Constants.lone s = .ok boundary ∧
      Constants.lone.isEpochStart boundary.slot = true ∧
      boundary.previousEpochAttestations ≠ [] ∧
      ∃ summary after, processEpoch Constants.lone boundary = .ok (summary, after) ∧
        processEpoch Constants.lone (boundary.withVotes
            (boundary.previousEpochAttestations ++ boundary.previousEpochAttestations) [])
          = .ok (summary, { after with previousEpochAttestations := [] }) := by
  obtain ⟨h, s, hat⟩ := exists_loneAt (n := 2) (by decide) (by decide)
  have hslot := hat.slot
  obtain ⟨b, s₁, hblock, hvote, hlone₁, hslot₁, hidle₁⟩ := hat.lone.exists_block
    (by rw [hslot]; decide) (by rw [hslot]; exact hat.newer) hat.votes hat.idle
  have hrun₁ := hat.run.block hblock
  obtain ⟨s₂, hstep, -, -⟩ := hlone₁.exists_step hrun₁ (by rw [hslot₁, hslot]; decide)
  obtain ⟨hrings, hlimit, -⟩ := step_eq_ok.1 hstep
  have hnext : nextSlot Engine.lone.constants s₁ = .ok (s₁.atNextSlot Engine.lone.constants) :=
    nextSlot_eq_ok.2 ⟨hrings, hlimit, rfl⟩
  have hstart := Constants.isEpochStart_lone (s₁.atNextSlot Constants.lone).slot
  have hprevious : SameElements (s₁.previousEpochAttestations ++ s₁.previousEpochAttestations)
      (s₁.atNextSlot Engine.lone.constants).previousEpochAttestations := fun a => by simp
  have hcurrent : SameElements [] (s₁.atNextSlot Engine.lone.constants).currentEpochAttestations :=
    fun a => by simp [hidle₁]
  have hsettled := (boundary_reads_votes_as_sets hrun₁.reachable hnext hstart hprevious
    hcurrent).resolve_right ?_
  · refine ⟨s₁, _, hrun₁.reachable, hnext, hstart, ?_, hsettled⟩
    -- The vote of the block is one for the epoch before.
    intro hnone
    have hremembered := hrun₁.remembers.previous
    have hvoted : s.soleVote.ballot ∈ ballotsOf (h.blocks ++ [b]) := by
      rw [ballotsOf_concat, hvote]
      exact List.mem_append_right _ (List.mem_singleton_self _)
    have htarget : s.soleVote.ballot.data.target.epoch + 1 = s₁.currentEpoch Constants.lone := by
      rw [ChainState.currentEpoch, Constants.epochAt_lone, hslot₁, hslot]
      show s.slot - 1 + 1 = 2
      rw [hslot]
    rw [Chronicle.afterBlock_blocks, show s₁.previousEpochAttestations = [] from hnone,
      List.map_nil, eq_comm, List.filter_eq_nil_iff] at hremembered
    exact hremembered _ hvoted (decide_eq_true htarget)
  · rintro ⟨hfault, -⟩
    rcases step_cases hstep with ⟨-, summary, hprocess⟩ | ⟨hnot, -⟩
    · exact absurd (hprocess.symm.trans hfault) (by simp)
    · exact hnot hstart

end Beacon
