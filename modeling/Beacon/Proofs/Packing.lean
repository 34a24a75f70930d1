import Mathlib
import Beacon.Proofs.Transition.Judgements
import Beacon.Proofs.Transition.Runs

set_option autoImplicit false

/-! # Packing blocks

`createBlock` judges the offered operations on its state and packs what holds, then processes the
packed block to fill in its state root. On states of moderate size no judgement faults, so the block
is explicit (`packed`); what was judged well applies, so that packing can only fail by the header,
the reveal, or deposits that are not the next ones (`createBlock_spec`). -/

namespace Beacon

variable {c : Constants} {e : Engine} {s : ChainState}

/-! ## States of moderate size -/

/-- Constants and a state for which no judgement leaves the 64-bit range. -/
structure Moderate (c : Constants) (s : ChainState) : Prop where
  slotsPerEpoch_le : c.slotsPerEpoch ≤ 2147483648
  epochsPerVotingPeriod_le : c.epochsPerVotingPeriod ≤ 2147483648
  minAttestationInclusionDelay_le : c.minAttestationInclusionDelay ≤ 2147483648
  minValidatorWithdrawabilityDelay_le : c.minValidatorWithdrawabilityDelay ≤ 2147483648
  slot_le : s.slot ≤ horizon
  validators_le : s.validators.size ≤ 2147483648

/-- What the votes of a state and one more vote owe to the machine: there is room for the votes, and
    counts are words. -/
structure VotesStored (s : ChainState) (vote : ExternalData) : Prop where
  room : s.externalDataVotes.length < Constants.ringLimit
  inForce : s.externalData.depositCount < Word.limit
  vote : vote.depositCount < Word.limit

namespace Moderate

theorem currentEpoch_le (h : Moderate c s) : s.currentEpoch c ≤ horizon :=
  (Constants.epochAt_le s.slot).trans h.slot_le

theorem voteFits (h : Moderate c s) {vote : ExternalData} (hstored : VotesStored s vote) :
    VoteFits c s vote := by
  have hcount : s.externalDataVotes.count vote ≤ s.externalDataVotes.length := List.count_le_length
  have hroom := hstored.room
  refine ⟨?_, ?_⟩
  · simp only [Constants.ringLimit, Word.limit] at *
    lia
  · calc c.epochsPerVotingPeriod * c.slotsPerEpoch ≤ 2147483648 * 2147483648 :=
          Nat.mul_le_mul h.epochsPerVotingPeriod_le h.slotsPerEpoch_le
      _ < Word.limit := by decide

end Moderate

/-- An epoch has no more committees than slots or active validators. -/
theorem committeeCount_le (c : Constants) (s : ChainState) (epoch : Epoch) :
    committeeCount c s epoch ≤ max c.slotsPerEpoch (s.activeIndices epoch).length := by
  have hslots : (s.activeIndices epoch).length / c.slotsPerEpoch / c.targetCommitteeSize
      ≤ (s.activeIndices epoch).length / c.slotsPerEpoch := Nat.div_le_self ..
  have hactive : (s.activeIndices epoch).length / c.slotsPerEpoch * c.slotsPerEpoch
      ≤ (s.activeIndices epoch).length := Nat.div_mul_le_self ..
  calc committeeCount c s epoch
      ≤ max 1 ((s.activeIndices epoch).length / c.slotsPerEpoch) * c.slotsPerEpoch := by
        refine Nat.mul_le_mul_right _ ?_
        simp only [Constants.committeesPerSlot]
        omega
    _ ≤ max c.slotsPerEpoch (s.activeIndices epoch).length := by
        rw [← Nat.mul_max_mul_right, Nat.one_mul]
        omega

/-- The sizes of committees are words where slots and validators are few. -/
theorem committeesFit_of_le (hslots : c.slotsPerEpoch ≤ 2147483648)
    (hvalidators : s.validators.size ≤ 2147483648) (epoch : Epoch) : CommitteesFit c s epoch := by
  have hactive := (s.length_activeIndices_le epoch).trans hvalidators
  have hcount : committeeCount c s epoch ≤ 2147483648 :=
    (committeeCount_le c s epoch).trans (Nat.max_le.2 ⟨hslots, hactive⟩)
  refine ⟨lt_of_le_of_lt hcount (by decide), ?_⟩
  calc (s.activeIndices epoch).length * committeeCount c s epoch
      ≤ 2147483648 * 2147483648 := Nat.mul_le_mul hactive hcount
    _ < Word.limit := by decide

theorem Moderate.committeesFit (h : Moderate c s) (epoch : Epoch) : CommitteesFit c s epoch :=
  committeesFit_of_le h.slotsPerEpoch_le h.validators_le epoch

/-! ## Judgements never fault -/

/-- An attestation is judged without a fault where no number leaves the range. -/
theorem checkAttestation_within {ℓ : Leeway} (hc : c.Consistent) (hrefusal : ℓ.rejections)
    (hfits : ℓ.faults .overflow ∨ Moderate c s) (a : Attestation) :
    (checkAttestation c s a).Within ℓ := by
  refine (Attempt.within_require (Or.inl hrefusal)).bind fun _ htarget => ?_
  refine (Attempt.within_require (Or.inl hrefusal)).bind fun _ hslot => ?_
  rw [Attempt.require_eq_ok] at htarget hslot
  -- The slot lies in the present epoch or before, so a delay added to it is still a word.
  have hle : c.epochAt a.data.slot ≤ c.epochAt s.slot := by
    simp only [ChainState.currentEpoch] at htarget
    lia
  have hlt := hc.lt_add_of_epochAt_le hle
  refine (Word.add_within (hfits.imp_right fun h => ?_)).lift.bind fun _ _ => ?_
  · have hslotLe := h.slot_le
    have hperEpoch := h.slotsPerEpoch_le
    have hdelay := h.minAttestationInclusionDelay_le
    simp only [horizon, Word.limit] at *
    lia
  refine (Attempt.within_require (Or.inl hrefusal)).bind fun _ _ => ?_
  refine (Word.add_within (hfits.imp_right fun h => ?_)).lift.bind fun _ _ => ?_
  · have hslotLe := h.slot_le
    have hperEpoch := h.slotsPerEpoch_le
    simp only [horizon, Word.limit] at *
    lia
  refine (Attempt.within_require (Or.inl hrefusal)).bind fun _ _ => ?_
  -- The committees may be refused, but their sizes are words.
  refine ((committeesOf_within hc (hfits.imp_right fun h => ⟨⟨?_, ?_⟩, h.committeesFit _⟩)
    (Or.inl hrefusal)).widen _).bind fun _ _ => ?_
  · have hepochLe := h.currentEpoch_le
    simp only [horizon, Word.limit] at *
    lia
  · have hepochLe := h.currentEpoch_le
    simp only [horizon, Word.limit] at *
    lia
  refine (Attempt.within_require (Or.inl hrefusal)).bind fun _ _ => ?_
  refine (Attempt.within_require (Or.inl hrefusal)).bind fun _ _ => ?_
  refine (Attempt.within_require (Or.inl hrefusal)).bind fun _ _ => ?_
  exact Attempt.within_require (Or.inl hrefusal)

theorem checkSlashing_within (c : Constants) (s : ChainState) (x : ProposerSlashing) :
    (checkSlashing c s x).Within .refusal := by
  refine Attempt.refusal_require.bind fun _ _ => ?_
  refine Attempt.refusal_require.bind fun _ _ => ?_
  refine Attempt.refusal_require.bind fun _ _ => ?_
  split
  · trivial
  · exact Attempt.refusal_require.bind fun _ _ => trivial

/-- Without faults the judgement is whether there is a value. -/
theorem Attempt.Within.accepted {ε ε' α : Type} {x : Attempt ε α} (h : x.Within .refusal) :
    (accepted x : Attempt ε' Bool) = .ok x.isOk := by
  rcases x with (_ | _) | _
  · rfl
  · exact h.elim
  · rfl

/-! ## What is selected -/

/-- The first piece of evidence against each proposer. -/
def firstAgainstEach : List ProposerSlashing → List ProposerSlashing
  | [] => []
  | x :: xs => x :: (firstAgainstEach xs).filter fun y => decide (y.accused ≠ x.accused)

theorem firstAgainstEach_sublist (xs : List ProposerSlashing) :
    (firstAgainstEach xs).Sublist xs := by
  induction xs with
  | nil => exact .slnil
  | cons x xs ih => exact (List.filter_sublist.trans ih).cons_cons x

theorem pairwise_firstAgainstEach (xs : List ProposerSlashing) :
    (firstAgainstEach xs).Pairwise fun x y => x.accused ≠ y.accused := by
  induction xs with
  | nil => exact .nil
  | cons x xs ih =>
      refine List.pairwise_cons.2 ⟨fun y hy => ?_, ih.filter _⟩
      have hne := (List.mem_filter.1 hy).2
      exact fun heq => of_decide_eq_true hne heq.symm

/-- Evidence that holds on a state. -/
def holdsOn (c : Constants) (s : ChainState) (x : ProposerSlashing) : Bool :=
  (checkSlashing c s x).isOk

/-- Passing over the accused of `x` and those in `seen` is passing over both at once. -/
theorem filter_accused_cons (seen : List ValidatorIndex) (x : ProposerSlashing)
    (xs : List ProposerSlashing) :
    (xs.filter fun y => decide (y.accused ∉ x.accused :: seen))
      = (xs.filter fun y => decide (y.accused ≠ x.accused)).filter
          fun y => decide (y.accused ∉ seen) := by
  rw [List.filter_filter]
  refine List.filter_congr fun y _ => ?_
  simp [Bool.and_comm]

/-- Evidence against proposers in `seen` is passed over, of the rest the first that holds against
    each is taken. -/
theorem selectSlashings_eq (seen : List ValidatorIndex) (xs : List ProposerSlashing) :
    Engine.selectSlashings c s seen xs = .ok ((firstAgainstEach (xs.filter (holdsOn c s))).filter
      fun x => decide (x.accused ∉ seen)) := by
  induction xs generalizing seen with
  | nil => rfl
  | cons x xs ih =>
      have hwithin := checkSlashing_within c s x
      unfold Engine.selectSlashings
      split
      · next index hcheck =>
          obtain rfl := checkSlashing_accused hcheck
          have hholds : holdsOn c s x = true := by
            rw [holdsOn, hcheck]
            rfl
          rw [List.filter_cons_of_pos hholds, firstAgainstEach, List.contains_eq_mem]
          by_cases hseen : x.accused ∈ seen
          · -- Who has been seen is among those passed over anyway.
            have hpassed := filter_accused_cons seen x (firstAgainstEach (xs.filter (holdsOn c s)))
            rw [if_pos (decide_eq_true hseen), ih, List.filter_cons_of_neg (by simpa using hseen),
              ← hpassed]
            congr 1
            refine List.filter_congr fun y _ => ?_
            by_cases hy : y.accused = x.accused <;> simp [hy, hseen]
          · rw [if_neg (by simpa using hseen), ih, filter_accused_cons, Attempt.ok_bind,
              List.filter_cons_of_pos (by simpa using hseen)]
            rfl
      · next cause hcheck =>
          have hfails : ¬ holdsOn c s x = true := by
            simp [holdsOn, hcheck, Except.isOk, Except.toBool]
          rw [List.filter_cons_of_neg hfails, ih]
      · next f hcheck =>
          rw [hcheck] at hwithin
          exact hwithin.elim

theorem selectSlashings_nil (xs : List ProposerSlashing) :
    Engine.selectSlashings c s [] xs = .ok (firstAgainstEach (xs.filter (holdsOn c s))) := by
  rw [selectSlashings_eq]
  simp

theorem firstAccepted_eq {α : Type} {p : α → Attempt TransitionError Bool} {q : α → Bool}
    {xs : List α} (h : ∀ x ∈ xs, p x = .ok (q x)) (limit : Nat) :
    Engine.firstAccepted p limit xs = .ok ((xs.filter q).take limit) := by
  induction xs generalizing limit with
  | nil => cases limit <;> rfl
  | cons x xs ih =>
      cases limit with
      | zero => rfl
      | succ limit =>
          have hrest := ih fun y hy => h y (List.mem_cons_of_mem _ hy)
          rw [Engine.firstAccepted, h x (List.mem_cons_self ..)]
          cases hx : q x with
          | true =>
              rw [Attempt.ok_bind, if_pos rfl, hrest limit, List.filter_cons_of_pos hx]
              rfl
          | false =>
              rw [Attempt.ok_bind, if_neg Bool.false_ne_true, hrest (limit + 1),
                List.filter_cons_of_neg (by simp [hx])]

theorem selectDeposits_eq_ok {contents : BlockContents} {deposits : List Deposit} :
    Engine.selectDeposits c s contents = .ok deposits ↔
      VoteFits c s contents.externalData ∧
        deposits = (contents.deposits.dropWhile (·.index < s.depositIndex)).take
          (depositsDue c s (recordAfterVote c s contents.externalData)) := by
  simp only [Engine.selectDeposits, Attempt.bind_eq_ok, externalDataAfterVote_eq_ok,
    Attempt.pure_eq_ok]
  constructor
  · rintro ⟨_, ⟨hfits, rfl⟩, rfl⟩
    exact ⟨hfits, rfl⟩
  · rintro ⟨hfits, rfl⟩
    exact ⟨_, ⟨hfits, rfl⟩, rfl⟩

/-! ## The packed block -/

/-- An attestation that may be included in a block on a state. -/
def includableOn (c : Constants) (s : ChainState) (a : Attestation) : Bool :=
  (checkAttestation c s a).isOk

/-- The offered deposits that a state has not processed, from the first of them on. -/
def unprocessed (s : ChainState) (deposits : List Deposit) : List Deposit :=
  deposits.dropWhile (·.index < s.depositIndex)

/-- How many deposits a block with this vote has to carry. -/
def dueAfterVote (c : Constants) (s : ChainState) (vote : ExternalData) : Nat :=
  depositsDue c s (recordAfterVote c s vote)

/-- The block that is packed, before its state root is filled in. -/
def packed (c : Constants) (s : ChainState) (proposer : ValidatorIndex) (parent : Root)
    (contents : BlockContents) : CandidateBlock where
  slot := s.slot
  proposerIndex := proposer
  parentRoot := parent
  body :=
    { randaoReveal := contents.randaoReveal
      externalData := contents.externalData
      graffiti := contents.graffiti
      proposerSlashings := (firstAgainstEach (contents.proposerSlashings.filter (holdsOn c s))).take
        c.maxProposerSlashings
      attestations := (contents.attestations.filter (includableOn c s)).take c.maxAttestations
      deposits := (unprocessed s contents.deposits).take (dueAfterVote c s contents.externalData) }

variable {proposer : ValidatorIndex} {parent : Root} {contents : BlockContents}

theorem createBlock_eq_ok (hmoderate : Moderate e.constants s)
    (hfits : VoteFits e.constants s contents.externalData) {b : CandidateBlock} :
    e.createBlock s proposer parent contents = .ok b ↔
      ∃ post,
        processBlock e.constants s (packed e.constants s proposer parent contents) = .ok post ∧
        b = { packed e.constants s proposer parent contents with stateRoot := hashRoot post } := by
  have hincludable : ∀ a ∈ contents.attestations,
      e.isIncludable s a = .ok (includableOn e.constants s a) :=
    fun a _ => (checkAttestation_within e.consistent trivial (Or.inr hmoderate) a).accepted
  simp only [Engine.createBlock, selectSlashings_nil, firstAccepted_eq hincludable,
    Attempt.ok_bind, Attempt.bind_eq_ok, Attempt.liftM_eq_ok, selectDeposits_eq_ok,
    Attempt.widen_eq_ok, Attempt.pure_eq_ok]
  constructor
  · rintro ⟨_, ⟨-, rfl⟩, post, hpost, rfl⟩
    exact ⟨post, hpost, rfl⟩
  · rintro ⟨post, hpost, rfl⟩
    exact ⟨_, ⟨hfits, rfl⟩, post, hpost, rfl⟩

/-! ## The packed operations apply -/

/-- The offered deposits that are not processed begin with the ones that are due. -/
def DepositsFollow (c : Constants) (s : ChainState) (contents : BlockContents) : Prop :=
  List.range' s.depositIndex (dueAfterVote c s contents.externalData)
    <+: (unprocessed s contents.deposits).map (·.index)

instance : Decidable (DepositsFollow c s contents) :=
  inferInstanceAs (Decidable (List.range' s.depositIndex (dueAfterVote c s contents.externalData)
    <+: (unprocessed s contents.deposits).map (·.index)))

/-- As many deposits as are due are packed, with the next indices, exactly when those follow. -/
theorem depositsFollow_iff (proposer : ValidatorIndex) (parent : Root) {deposits : List Deposit}
    (h : (packed c s proposer parent contents).body.deposits = deposits) :
    DepositsFollow c s contents ↔
      deposits.length = dueAfterVote c s contents.externalData ∧
        deposits.map (·.index) = List.range' s.depositIndex deposits.length := by
  subst h
  simp only [DepositsFollow, packed, List.prefix_iff_eq_take, List.length_range', ← List.map_take]
  constructor
  · intro h
    have hlength := congrArg List.length h
    rw [List.length_range', List.length_map] at hlength
    exact ⟨hlength.symm, by rw [← hlength, ← h]⟩
  · rintro ⟨hlength, h⟩
    rw [h, hlength]

/-- No list of operations exceeds its maximum. -/
structure WithinMaxima (c : Constants) (body : BlockBody) : Prop where
  proposerSlashings : body.proposerSlashings.length ≤ c.maxProposerSlashings
  attestations : body.attestations.length ≤ c.maxAttestations
  deposits : body.deposits.length ≤ c.maxDeposits

theorem packed_withinMaxima (c : Constants) (s : ChainState) (proposer : ValidatorIndex)
    (parent : Root) (contents : BlockContents) :
    WithinMaxima c (packed c s proposer parent contents).body :=
  ⟨List.length_take_le .., List.length_take_le ..,
    (List.length_take_le ..).trans (Nat.min_le_right ..)⟩

theorem holdsOn_of_mem_packed {x : ProposerSlashing}
    (h : x ∈ (packed c s proposer parent contents).body.proposerSlashings) :
    ∃ index, checkSlashing c s x = .ok index := by
  have hmem := (firstAgainstEach_sublist _).subset (List.mem_of_mem_take h)
  exact Attempt.exists_ok_of_isOk (List.mem_filter.1 hmem).2

theorem includableOn_of_mem_packed {a : Attestation}
    (h : a ∈ (packed c s proposer parent contents).body.attestations) :
    checkAttestation c s a = .ok () := by
  obtain ⟨u, hu⟩ := Attempt.exists_ok_of_isOk (List.mem_filter.1 (List.mem_of_mem_take h)).2
  exact hu

/-- The packed deposits are counted by a word. -/
theorem depositIndex_add_packed_lt (hstored : VotesStored s contents.externalData)
    (hne : (packed c s proposer parent contents).body.deposits ≠ []) :
    s.depositIndex + (packed c s proposer parent contents).body.deposits.length < Word.limit := by
  have hpos := List.length_pos_iff.2 hne
  have hle : (packed c s proposer parent contents).body.deposits.length
      ≤ (recordAfterVote c s contents.externalData).depositCount - s.depositIndex :=
    (List.length_take_le ..).trans (Nat.min_le_left ..)
  have hcount : (recordAfterVote c s contents.externalData).depositCount < Word.limit := by
    unfold recordAfterVote
    split
    · exact hstored.vote
    · exact hstored.inForce
  lia

/-- Operations that have been judged well on the state that their block is for. -/
structure OperationsHold (c : Constants) (s : ChainState) (body : BlockBody) : Prop where
  maxima : WithinMaxima c body
  slashings : ∀ x ∈ body.proposerSlashings, ∃ index, checkSlashing c s x = .ok index
  distinct : body.proposerSlashings.Pairwise fun x y => x.accused ≠ y.accused
  attestations : ∀ a ∈ body.attestations, checkAttestation c s a = .ok ()
  due : body.deposits.length = dueAfterVote c s body.externalData
  indices : body.deposits.map (·.index) = List.range' s.depositIndex body.deposits.length

theorem packed_operationsHold (proposer : ValidatorIndex) (parent : Root)
    (hfollow : DepositsFollow c s contents) :
    OperationsHold c s (packed c s proposer parent contents).body := by
  obtain ⟨hdue, hindices⟩ := (depositsFollow_iff proposer parent rfl).1 hfollow
  exact ⟨packed_withinMaxima .., fun _ => holdsOn_of_mem_packed,
    (pairwise_firstAgainstEach _).sublist (List.take_sublist ..),
    fun _ => includableOn_of_mem_packed, hdue, hindices⟩

/-- Operations that hold on the state of a block apply to the state that the block has opened. -/
theorem applyOperations_within {ℓ : Leeway} {b : CandidateBlock} (hc : c.Consistent)
    (hmay : MayPropose c s b.proposerIndex b.parentRoot) (hlimit : s.slot < Word.limit)
    (hhold : OperationsHold c s b.body)
    (hdelay : ℓ.faults .overflow ∨ s.currentEpoch c + c.minValidatorWithdrawabilityDelay < Word.limit)
    (hcount : ℓ.faults .overflow ∨
      (b.body.deposits ≠ [] → s.depositIndex + b.body.deposits.length < Word.limit)) :
    (applyOperations c (s.opened c b) b).Within ℓ := by
  have hpos : 0 < s.slot := Nat.zero_lt_of_lt hmay.newer
  refine (Attempt.within_require (Or.inr hhold.maxima.proposerSlashings)).bind fun _ _ => ?_
  refine (Attempt.within_require (Or.inr hhold.maxima.attestations)).bind fun _ _ => ?_
  refine (Attempt.within_require (Or.inr hhold.maxima.deposits)).bind fun _ _ => ?_
  refine (Attempt.within_require (Or.inr hhold.due)).bind fun _ _ => ?_
  -- The slashings hold on the opened state as they did before.
  have hslashings : ∀ x ∈ b.body.proposerSlashings,
      ∃ index, checkSlashing c (s.opened c b) x = .ok index := by
    intro x hx
    rw [checkSlashing_congr (s := s) (t := s.opened c b) rfl rfl]
    exact hhold.slashings x hx
  refine (foldlM_applySlashing_within (s := s.opened c b) hmay.sizes hdelay hslashings
    hhold.distinct).bind fun s₁ hs₁ => ?_
  obtain ⟨hframe₁, hindex₁⟩ := foldlM_applySlashing_frame hs₁
  -- Neither the reveal nor the slashings change the committees that attestations name.
  have hattestations : ∀ a ∈ b.body.attestations, checkAttestation c s₁ a = .ok () := by
    intro a ha
    have hcheck := hhold.attestations a ha
    rw [← checkAttestation_opened hc hmay.rings hpos hlimit b] at hcheck
    rw [hframe₁.checkAttestation hc (checkAttestation_comes hc hcheck)]
    exact hcheck
  refine (foldlM_applyAttestation_within hc hattestations).bind fun s₂ hs₂ => ?_
  obtain ⟨hframe₂, hindex₂⟩ := foldlM_applyAttestation_frame hs₂
  -- So the deposits are processed from the same index on.
  have hindex : s₂.depositIndex = s.depositIndex := hindex₂.trans hindex₁
  refine foldlM_applyDeposit_within (hframe₂.sizes (hframe₁.sizes hmay.sizes)) ?_ ?_
  · rw [hindex]
    exact hcount
  · rw [hindex]
    exact hhold.indices

/-- Only deposits stand between the opened state and the result. -/
theorem exists_applyOperations (hc : c.Consistent) (hmoderate : Moderate c s)
    (hstored : VotesStored s contents.externalData) (hmay : MayPropose c s proposer parent) :
    (∃ post, applyOperations c (s.opened c (packed c s proposer parent contents))
        (packed c s proposer parent contents) = .ok post) ↔ DepositsFollow c s contents := by
  constructor
  · rintro ⟨post, hpost⟩
    obtain ⟨⟨-, -, -, hdue⟩, s₁, s₂, hs₁, hs₂, hs₃⟩ := applyOperations_eq_ok.1 hpost
    have hindices := index_of_foldlM_applyDeposit hs₃
    rw [(foldlM_applyAttestation_frame hs₂).2, (foldlM_applySlashing_frame hs₁).2] at hindices
    exact (depositsFollow_iff proposer parent rfl).2 ⟨hdue, hindices⟩
  · intro hfollow
    have hepoch := hmoderate.currentEpoch_le
    have hdelay := hmoderate.minValidatorWithdrawabilityDelay_le
    have hslot := hmoderate.slot_le
    have hwithin : (applyOperations c (s.opened c (packed c s proposer parent contents))
        (packed c s proposer parent contents)).Within .none := by
      refine applyOperations_within hc hmay ?_ (packed_operationsHold proposer parent hfollow)
        (Or.inr ?_) (Or.inr (depositIndex_add_packed_lt hstored))
      · simp only [horizon, Word.limit] at *
        lia
      · simp only [horizon, Word.limit] at *
        lia
    exact hwithin.exists_ok

/-! ## Packing succeeds exactly when the header allows it -/

/-- The state root that a block claims does not matter to its processing. -/
theorem processBlock_stateRoot (b : CandidateBlock) (root : Root) :
    processBlock c s { b with stateRoot := root } = processBlock c s b := rfl

/-- What a packed block holds: it applies, its lists stay within their maxima, its attestations are
    the first that may be included, its slashings the first that hold against each proposer, and
    its deposits the ones that are due. -/
structure Packs (e : Engine) (s : ChainState) (contents : BlockContents) (b : CandidateBlock) :
    Prop where
  applies : ∃ post, e.applyBlock s b = .ok post
  maxima : WithinMaxima e.constants b.body
  attestations : b.body.attestations
    = (contents.attestations.filter (includableOn e.constants s)).take e.constants.maxAttestations
  proposerSlashings : b.body.proposerSlashings
    = (firstAgainstEach (contents.proposerSlashings.filter (holdsOn e.constants s))).take
        e.constants.maxProposerSlashings
  deposits : b.body.deposits
    = (unprocessed s contents.deposits).take (dueAfterVote e.constants s contents.externalData)
  indices : b.body.deposits.map (·.index)
    = List.range' s.depositIndex (dueAfterVote e.constants s contents.externalData)

theorem exists_createBlock (hmoderate : Moderate e.constants s)
    (hstored : VotesStored s contents.externalData) :
    (∃ b, e.createBlock s proposer parent contents = .ok b) ↔
      MayPropose e.constants s proposer parent ∧ contents.randaoReveal ≠ Bytes.zero 96 ∧
        DepositsFollow e.constants s contents := by
  have hfits := hmoderate.voteFits hstored
  constructor
  · rintro ⟨b, hb⟩
    obtain ⟨post, hpost, -⟩ := (createBlock_eq_ok hmoderate hfits).1 hb
    obtain ⟨-, hmay, hreveal, -, hops⟩ := (processBlock_eq_ok e.consistent).1 hpost
    exact ⟨hmay, hreveal,
      (exists_applyOperations e.consistent hmoderate hstored hmay).1 ⟨post, hops⟩⟩
  · rintro ⟨hmay, hreveal, hfollow⟩
    obtain ⟨post, hops⟩ :=
      (exists_applyOperations e.consistent hmoderate hstored hmay).2 hfollow
    have hpost := (processBlock_eq_ok e.consistent).2 ⟨rfl, hmay, hreveal, hfits, hops⟩
    exact ⟨_, (createBlock_eq_ok hmoderate hfits).2 ⟨post, hpost, rfl⟩⟩

theorem packs_of_createBlock (hmoderate : Moderate e.constants s)
    (hstored : VotesStored s contents.externalData) {b : CandidateBlock}
    (hb : e.createBlock s proposer parent contents = .ok b) : Packs e s contents b := by
  obtain ⟨-, -, hfollow⟩ := (exists_createBlock hmoderate hstored).1 ⟨b, hb⟩
  obtain ⟨hlength, hindices⟩ := (depositsFollow_iff proposer parent rfl).1 hfollow
  obtain ⟨post, hpost, rfl⟩ := (createBlock_eq_ok hmoderate (hmoderate.voteFits hstored)).1 hb
  have hmaxima := packed_withinMaxima e.constants s proposer parent contents
  rw [hlength] at hindices
  refine ⟨⟨post, ?_⟩, hmaxima, rfl, rfl, rfl, hindices⟩
  exact applyBlock_eq_ok.2 ⟨(processBlock_stateRoot _ _).trans hpost, rfl⟩

/-- **Packing never stumbles over operations.** A block can be packed exactly when the proposer may
    propose on the state, the reveal is not empty and the offered deposits begin with the ones that
    are due, whatever else is offered; and a block that is packed applies and holds what it
    should. -/
theorem createBlock_spec (e : Engine) (s : ChainState) (proposer : ValidatorIndex) (parent : Root)
    (contents : BlockContents) (hmoderate : Moderate e.constants s)
    (hstored : VotesStored s contents.externalData) :
    ((∃ b, e.createBlock s proposer parent contents = .ok b) ↔
      MayPropose e.constants s proposer parent ∧ contents.randaoReveal ≠ Bytes.zero 96 ∧
        DepositsFollow e.constants s contents) ∧
    ∀ b, e.createBlock s proposer parent contents = .ok b → Packs e s contents b :=
  ⟨exists_createBlock hmoderate hstored, fun _ hb => packs_of_createBlock hmoderate hstored hb⟩

/-- The single validator at slot one, with one deposit due. -/
def readySolo : ChainState :=
  { ChainState.solo with slot := 1, externalData := { depositCount := 1 } }

/-- Contents with evidence and an attestation that do not hold, and the deposit. -/
def offered : BlockContents where
  randaoReveal := Bytes.fill 96 1
  proposerSlashings := [{}]
  attestations := [{}]
  deposits := [{}]

theorem mayPropose_readySolo :
    MayPropose Constants.tightest readySolo 0 (hashRoot readySolo.latestBlockHeader) := by
  refine ⟨⟨rfl, rfl⟩, rfl, by decide, ?_, rfl, ⟨_, rfl, rfl⟩⟩
  exact proposerOf_single Engine.tightest.consistent ⟨rfl, rfl⟩ (by decide) (by decide +kernel)

theorem createBlock_spec_solo :
    ∃ b, Engine.tightest.createBlock readySolo 0 (hashRoot readySolo.latestBlockHeader) offered
        = .ok b ∧ Packs .tightest readySolo offered b := by
  have hspec := createBlock_spec .tightest readySolo 0 (hashRoot readySolo.latestBlockHeader)
    offered ⟨by decide, by decide, by decide, by decide, by decide, by decide⟩
    ⟨by decide, by decide, by decide⟩
  obtain ⟨b, hb⟩ := hspec.1.2 ⟨mayPropose_readySolo, by decide, by decide⟩
  exact ⟨b, hb, hspec.2 b hb⟩

end Beacon
