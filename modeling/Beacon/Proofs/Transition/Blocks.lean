import Mathlib
import Beacon.Proofs.Transition.Slots

set_option autoImplicit false

/-! # What a block does

`processBlock_eq_ok` takes an applied block apart: the proposer may propose on the state
(`MayPropose`), the reveal is not empty, the vote can be counted, and the operations apply to the
state that header, randomness and vote have opened (`ChainState.opened`). Each kind of operation has
an equation for its success, and `OperationFrame` collects what no operation changes; `BlockFrame`
is the same for a whole block. -/

namespace Beacon

variable {c : Constants} {s s' : ChainState}

/-! ## Votes -/

/-- The record in force once `vote` is counted. -/
def recordAfterVote (c : Constants) (s : ChainState) (vote : ExternalData) : ExternalData :=
  if c.epochsPerVotingPeriod * c.slotsPerEpoch < (s.externalDataVotes.count vote + 1) * 2 then vote
  else s.externalData

/-- The numbers of a count of votes stay words. -/
def VoteFits (c : Constants) (s : ChainState) (vote : ExternalData) : Prop :=
  (s.externalDataVotes.count vote + 1) * 2 < Word.limit ∧
    c.epochsPerVotingPeriod * c.slotsPerEpoch < Word.limit

theorem externalDataAfterVote_eq_ok {vote record : ExternalData} :
    externalDataAfterVote c s vote = .ok record ↔
      VoteFits c s vote ∧ record = recordAfterVote c s vote := by
  simp only [externalDataAfterVote, Constants.slotsPerVotingPeriod, Attempt.bind_eq_ok,
    Word.add_eq_ok, Word.mul_eq_ok, Attempt.pure_eq_ok, VoteFits, recordAfterVote]
  constructor
  · rintro ⟨_, ⟨rfl, _⟩, _, ⟨rfl, htwice⟩, _, ⟨rfl, hperiod⟩, rfl⟩
    exact ⟨⟨htwice, hperiod⟩, rfl⟩
  · rintro ⟨⟨htwice, hperiod⟩, rfl⟩
    exact ⟨_, ⟨rfl, by omega⟩, _, ⟨rfl, htwice⟩, _, ⟨rfl, hperiod⟩, rfl⟩

/-! ## The header -/

/-- A validator may propose a child of `parent` on a state: the state is well formed and newer than
    its latest header, which is the parent; the validator is the proposer of the slot, and it is
    not slashed. -/
structure MayPropose (c : Constants) (s : ChainState) (proposer : ValidatorIndex) (parent : Root) :
    Prop where
  rings : RingsFit c s
  sizes : s.validators.size = s.balances.size
  newer : s.latestBlockHeader.slot < s.slot
  selected : proposerOf c s s.slot = .ok proposer
  parent_eq : parent = hashRoot s.latestBlockHeader
  unslashed : ∃ v, s.validators[proposer]? = some v ∧ v.slashed = false

/-- The state once header, randomness and vote of a block are in it. -/
@[simps] def ChainState.opened (c : Constants) (s : ChainState) (b : CandidateBlock) : ChainState :=
  { s with
    latestBlockHeader := { b.header with stateRoot := Root.none }
    randaoMixes := s.randaoMixes.setIfInBounds (s.slot % c.randaoMixesLength)
      ((s.randaoMixes.getD (s.slot % c.randaoMixesLength) Root.none).xor
        (keccak256 b.body.randaoReveal.toByteArray))
    externalData := recordAfterVote c s b.body.externalData
    externalDataVotes := s.externalDataVotes ++ [b.body.externalData] }

theorem checkHeader_eq_ok {b : CandidateBlock} {header : BlockHeader} (hrings : RingsFit c s)
    (hsizes : s.validators.size = s.balances.size) :
    checkHeader c s b = .ok header ↔
      (b.slot = s.slot ∧ MayPropose c s b.proposerIndex b.parentRoot) ∧
        header = { b.header with stateRoot := Root.none } := by
  simp only [checkHeader, Attempt.bind_eq_ok, Attempt.require_eq_ok, Attempt.widen_eq_ok]
  constructor
  · rintro ⟨_, hslot, _, hnewer, expected, hexpected, _, rfl, _, hparent, h⟩
    cases hv : s.validators[b.proposerIndex]? with
    | none => simp [hv] at h
    | some v =>
        simp only [hv, Attempt.bind_eq_ok, Attempt.require_eq_ok, Attempt.pure_eq_ok] at h
        obtain ⟨_, hslashed, rfl⟩ := h
        exact ⟨⟨hslot, hrings, hsizes, hslot ▸ hnewer, hslot ▸ hexpected, hparent, v, hv, hslashed⟩,
          rfl⟩
  · rintro ⟨⟨hslot, h⟩, rfl⟩
    obtain ⟨v, hv, hslashed⟩ := h.unslashed
    refine ⟨(), hslot, (), hslot ▸ h.newer, _, hslot ▸ h.selected, (), rfl, (), h.parent_eq, ?_⟩
    simp [hv, hslashed]

theorem mixReveal_eq_ok {reveal : Signature} (hplace : s.slot % c.randaoMixesLength
      < s.randaoMixes.size) :
    mixReveal c s reveal = .ok s' ↔
      reveal ≠ Bytes.zero 96 ∧
        s' = { s with
          randaoMixes := s.randaoMixes.setIfInBounds (s.slot % c.randaoMixesLength)
            ((s.randaoMixes.getD (s.slot % c.randaoMixesLength) Root.none).xor
              (keccak256 reveal.toByteArray)) } := by
  simp only [mixReveal, Attempt.bind_eq_ok, Attempt.require_eq_ok,
    Array.getElem?_eq_getElem hplace, Attempt.pure_eq_ok, Array.getD_eq_getD_getElem?,
    Option.getD_some]
  constructor
  · rintro ⟨_, hne, rfl⟩
    exact ⟨hne, rfl⟩
  · rintro ⟨hne, rfl⟩
    exact ⟨(), hne, rfl⟩

theorem processBlock_eq_ok (hc : c.Consistent) {b : CandidateBlock} :
    processBlock c s b = .ok s' ↔
      b.slot = s.slot ∧ MayPropose c s b.proposerIndex b.parentRoot ∧
        b.body.randaoReveal ≠ Bytes.zero 96 ∧ VoteFits c s b.body.externalData ∧
        applyOperations c (s.opened c b) b = .ok s' := by
  have hplace (hrings : RingsFit c s) (header : BlockHeader) :
      ({ s with latestBlockHeader := header } : ChainState).slot % c.randaoMixesLength
        < ({ s with latestBlockHeader := header } : ChainState).randaoMixes.size := by
    show s.slot % c.randaoMixesLength < s.randaoMixes.size
    rw [hrings.randaoMixes]
    exact Nat.mod_lt _ hc.randaoMixesLength_pos
  simp only [processBlock, countVote, Attempt.bind_eq_ok, Attempt.widen_eq_ok,
    Attempt.require_eq_ok, Attempt.liftM_eq_ok, Attempt.pure_eq_ok, checkRings_eq_ok,
    externalDataAfterVote_eq_ok]
  constructor
  · rintro ⟨_, hrings, _, hsizes, header, hheader, s₁, hmix, s₂, ⟨record, ⟨hvote, rfl⟩, rfl⟩, hops⟩
    obtain ⟨⟨hslot, hmay⟩, rfl⟩ := (checkHeader_eq_ok hrings hsizes).1 hheader
    obtain ⟨hreveal, rfl⟩ := (mixReveal_eq_ok (hplace hrings _)).1 hmix
    exact ⟨hslot, hmay, hreveal, hvote, hops⟩
  · rintro ⟨hslot, hmay, hreveal, hvote, hops⟩
    exact ⟨(), hmay.rings, (), hmay.sizes, _,
      (checkHeader_eq_ok hmay.rings hmay.sizes).2 ⟨⟨hslot, hmay⟩, rfl⟩, _,
      (mixReveal_eq_ok (hplace hmay.rings _)).2 ⟨hreveal, rfl⟩, _, ⟨_, ⟨hvote, rfl⟩, rfl⟩, hops⟩

/-- Where header, reveal and vote pass, a block comes down to its operations. -/
theorem processBlock_eq (hc : c.Consistent) {b : CandidateBlock} (hslot : b.slot = s.slot)
    (hmay : MayPropose c s b.proposerIndex b.parentRoot)
    (hreveal : b.body.randaoReveal ≠ Bytes.zero 96) (hvote : VoteFits c s b.body.externalData) :
    processBlock c s b = applyOperations c (s.opened c b) b := by
  have hrings : checkRings c s = .ok () := checkRings_eq_ok.2 hmay.rings
  have hheader := (checkHeader_eq_ok hmay.rings hmay.sizes).2 ⟨⟨hslot, hmay⟩, rfl⟩
  have hplace : s.slot % c.randaoMixesLength < s.randaoMixes.size := by
    rw [hmay.rings.randaoMixes]
    exact Nat.mod_lt _ hc.randaoMixesLength_pos
  have hmix := (mixReveal_eq_ok (c := c)
    (s := { s with latestBlockHeader := { b.header with stateRoot := Root.none } }) hplace).2
    ⟨hreveal, rfl⟩
  have hcount : countVote c { s with
      latestBlockHeader := { b.header with stateRoot := Root.none }
      randaoMixes := (s.opened c b).randaoMixes } b.body.externalData = .ok (s.opened c b) := by
    rw [countVote, Attempt.bind_eq_ok]
    exact ⟨_, externalDataAfterVote_eq_ok.2 ⟨hvote, rfl⟩, rfl⟩
  simp only [processBlock, hrings, hheader, Attempt.widen, Attempt.ok_bind,
    Attempt.require_of_pos _ hmay.sizes, hmix]
  exact congrArg (fun x : Checked ChainState => liftM x >>= fun t => applyOperations c t b) hcount

/-! ## Operations -/

theorem checkSlashing_eq_ok {evidence : ProposerSlashing} {index : ValidatorIndex} :
    checkSlashing c s evidence = .ok index ↔
      evidence.header1.message.slot = evidence.header2.message.slot ∧
        evidence.header1.message.proposerIndex = evidence.header2.message.proposerIndex ∧
        evidence.header1.message ≠ evidence.header2.message ∧
        index = evidence.header1.message.proposerIndex ∧
        ∃ v, s.validators[index]? = some v ∧ v.isSlashableAt (s.currentEpoch c) = true := by
  simp only [checkSlashing, Attempt.bind_eq_ok, Attempt.require_eq_ok]
  constructor
  · rintro ⟨_, hslots, _, hproposers, _, hdiffer, h⟩
    cases hv : s.validators[evidence.header1.message.proposerIndex]? with
    | none => simp [hv] at h
    | some v =>
        simp only [hv, Attempt.bind_eq_ok, Attempt.require_eq_ok, Attempt.pure_eq_ok] at h
        obtain ⟨_, hslashable, rfl⟩ := h
        exact ⟨hslots, hproposers, hdiffer, rfl, v, hv, hslashable⟩
  · rintro ⟨hslots, hproposers, hdiffer, rfl, v, hv, hslashable⟩
    exact ⟨(), hslots, (), hproposers, (), hdiffer, by simp [hv, hslashable]⟩

/-- The state in which a validator has been slashed. -/
@[simps] def ChainState.withSlashed (c : Constants) (s : ChainState)
    (whistleblower index : ValidatorIndex) (v : Validator) (balance : Gwei) : ChainState :=
  { s with
    validators := s.validators.setIfInBounds index
      (v.slash (s.currentEpoch c) (s.currentEpoch c + c.minValidatorWithdrawabilityDelay))
    balances := (s.balances.setIfInBounds index
      (balance - v.effectiveBalance / c.minSlashingPenaltyQuotient)).modify whistleblower
        (Word.addSat · (v.effectiveBalance / whistleblowerRewardQuotient)) }

/-- To replace what stands at a place is to change the elements of that place. -/
theorem getElem?_setIfInBounds_of_some {α : Type} {xs : Array α} {i : Nat} {a : α} (f : α → α)
    (ha : xs[i]? = some a) (j : Nat) :
    (xs.setIfInBounds i (f a))[j]? = xs[j]?.map fun y => if i = j then f y else y := by
  rw [Array.getElem?_setIfInBounds]
  split
  · next hj =>
      subst hj
      rw [if_pos (Array.getElem?_eq_some_iff.1 ha).1, ha]
      rfl
  · exact Option.map_id'.symm

/-- The record of whoever is slashed changes, and no other one. -/
theorem ChainState.getElem?_withSlashed {whistleblower index : ValidatorIndex} {v : Validator}
    {balance : Gwei} (hv : s.validators[index]? = some v) (i : ValidatorIndex) :
    (s.withSlashed c whistleblower index v balance).validators[i]? =
      s.validators[i]?.map fun w => if index = i then
        w.slash (s.currentEpoch c) (s.currentEpoch c + c.minValidatorWithdrawabilityDelay)
      else w :=
  getElem?_setIfInBounds_of_some (Validator.slash · _ _) hv i

theorem applySlashing_eq_ok {whistleblower : ValidatorIndex} {evidence : ProposerSlashing} :
    applySlashing c whistleblower s evidence = .ok s' ↔
      ∃ index v balance, checkSlashing c s evidence = .ok index ∧ s.validators[index]? = some v ∧
        s.balances[index]? = some balance ∧
        s.currentEpoch c + c.minValidatorWithdrawabilityDelay < Word.limit ∧
        s' = s.withSlashed c whistleblower index v balance := by
  simp only [applySlashing, Attempt.bind_eq_ok]
  constructor
  · rintro ⟨index, hcheck, h⟩
    cases hv : s.validators[index]? with
    | none => simp [hv] at h
    | some v =>
        simp only [hv, Attempt.bind_eq_ok, Attempt.liftM_eq_ok, Word.add_eq_ok] at h
        obtain ⟨_, ⟨rfl, hlt⟩, h⟩ := h
        cases hb : s.balances[index]? with
        | none => simp [hb] at h
        | some balance =>
            simp only [hb, Attempt.pure_eq_ok] at h
            exact ⟨index, v, balance, hcheck, hv, hb, hlt, h.symm⟩
  · rintro ⟨index, v, balance, hcheck, hv, hb, hlt, rfl⟩
    refine ⟨index, hcheck, ?_⟩
    simp only [hv, hb, Attempt.bind_eq_ok, Attempt.liftM_eq_ok, Word.add_eq_ok]
    exact ⟨_, ⟨rfl, hlt⟩, rfl⟩

/-- An attestation may be included on a state: its target is the running epoch or the one before and
    holds its slot, it is old enough and not too old, it names one of the committees and has a bit
    for each member, some of them set, and it starts from the justified checkpoint. -/
structure MayInclude (c : Constants) (s : ChainState) (a : Attestation)
    (committees : EpochCommittees) : Prop where
  epoch : a.data.target.epoch = s.currentEpoch c ∨ a.data.target.epoch = s.currentEpoch c - 1
  slot : a.data.target.epoch = c.epochAt a.data.slot
  early_lt : a.data.slot + c.minAttestationInclusionDelay < Word.limit
  early : a.data.slot + c.minAttestationInclusionDelay ≤ s.slot
  late_lt : a.data.slot + c.slotsPerEpoch < Word.limit
  late : s.slot ≤ a.data.slot + c.slotsPerEpoch
  committees_eq : committeesOf c s a.data.target.epoch = .ok committees
  index : a.data.index < committees.committeesPerSlot
  bits : a.bits.length = ((committees.committee? a.data.slot a.data.index).getD []).length
  participants : a.participants ≠ 0
  source : a.data.source
    = if a.data.target.epoch = s.currentEpoch c then s.currentJustified else s.previousJustified

theorem checkAttestation_eq_ok {a : Attestation} :
    checkAttestation c s a = .ok () ↔ ∃ committees, MayInclude c s a committees := by
  simp only [checkAttestation, Attempt.bind_eq_ok, Attempt.require_eq_ok, Attempt.liftM_eq_ok,
    Attempt.widen_eq_ok, Word.add_eq_ok]
  constructor
  · rintro ⟨_, hepoch, _, hslot, _, ⟨rfl, hearly⟩, _, hold, _, ⟨rfl, hlate⟩, _, hyoung, committees,
      hcommittees, _, hindex, _, hbits, _, hparticipants, hsource⟩
    exact ⟨committees, hepoch, hslot, hearly, hold, hlate, hyoung, hcommittees, hindex, hbits,
      hparticipants, hsource⟩
  · rintro ⟨committees, hepoch, hslot, hearly, hold, hlate, hyoung, hcommittees, hindex, hbits,
      hparticipants, hsource⟩
    exact ⟨(), hepoch, (), hslot, _, ⟨rfl, hearly⟩, (), hold, _, ⟨rfl, hlate⟩, (), hyoung,
      committees, hcommittees, (), hindex, (), hbits, (), hparticipants, hsource⟩

/-- An attestation as the state remembers it. -/
def pendingOf (s : ChainState) (proposer : ValidatorIndex) (a : Attestation) : PendingAttestation :=
  { bits := a.bits
    data := a.data
    inclusionDelay := s.slot - a.data.slot
    proposerIndex := proposer }

/-- The state that remembers one more attestation. -/
def ChainState.recording (c : Constants) (s : ChainState) (proposer : ValidatorIndex)
    (a : Attestation) : ChainState :=
  if a.data.target.epoch = s.currentEpoch c then
    { s with currentEpochAttestations := s.currentEpochAttestations ++ [pendingOf s proposer a] }
  else
    { s with previousEpochAttestations := s.previousEpochAttestations ++ [pendingOf s proposer a] }

theorem applyAttestation_eq_ok {proposer : ValidatorIndex} {a : Attestation} :
    applyAttestation c proposer s a = .ok s' ↔
      checkAttestation c s a = .ok () ∧ a.data.slot ≤ s.slot ∧
        s' = s.recording c proposer a := by
  simp only [applyAttestation, Attempt.bind_eq_ok, Attempt.widen_eq_ok, Attempt.liftM_eq_ok,
    Word.sub_eq_ok, Attempt.pure_eq_ok]
  constructor
  · rintro ⟨_, hcheck, _, ⟨rfl, hle⟩, rfl⟩
    exact ⟨hcheck, hle, rfl⟩
  · rintro ⟨hcheck, hle, rfl⟩
    exact ⟨(), hcheck, _, ⟨rfl, hle⟩, rfl⟩

/-- The state in which a known key has been topped up. -/
@[simps] def ChainState.toppedUp (s : ChainState) (index : ValidatorIndex) (balance : Gwei)
    (d : Deposit) : ChainState :=
  { s with
    depositIndex := s.depositIndex + 1
    balances := s.balances.setIfInBounds index (Word.addSat balance d.data.amount) }

/-- The state with one more validator. -/
@[simps] def ChainState.joinedBy (c : Constants) (s : ChainState) (d : Deposit) : ChainState :=
  { s with
    depositIndex := s.depositIndex + 1
    validators := s.validators.push (Validator.ofDeposit c (s.currentEpoch c) d.data)
    balances := s.balances.push d.data.amount }

theorem applyDeposit_eq_ok {d : Deposit} :
    applyDeposit c s d = .ok s' ↔
      d.index = s.depositIndex ∧ s.depositIndex + 1 < Word.limit ∧
        ((∃ index balance, s.validatorIndex? d.data.pubkey = some index ∧
            s.balances[index]? = some balance ∧ s' = s.toppedUp index balance d) ∨
          s.validatorIndex? d.data.pubkey = none ∧ s' = s.joinedBy c d) := by
  simp only [applyDeposit, Attempt.bind_eq_ok, Attempt.require_eq_ok, Attempt.liftM_eq_ok,
    Word.add_eq_ok]
  constructor
  · rintro ⟨_, hindex, _, ⟨rfl, hlt⟩, h⟩
    refine ⟨hindex, hlt, ?_⟩
    cases hkey : s.validatorIndex? d.data.pubkey with
    | none =>
        simp only [hkey, Attempt.pure_eq_ok] at h
        exact Or.inr ⟨rfl, h.symm⟩
    | some index =>
        cases hb : s.balances[index]? with
        | none => simp [hkey, hb] at h
        | some balance =>
            simp only [hkey, hb, Attempt.pure_eq_ok] at h
            exact Or.inl ⟨index, balance, rfl, hb, h.symm⟩
  · rintro ⟨hindex, hlt, h⟩
    refine ⟨(), hindex, _, ⟨rfl, hlt⟩, ?_⟩
    rcases h with ⟨index, balance, hkey, hb, rfl⟩ | ⟨hkey, rfl⟩
    · simp only [hkey, hb]
      rfl
    · simp only [hkey]
      rfl

theorem checkMaximum_eq_ok {kind : OperationKind} {count maximum : Nat} {u : Unit} :
    checkMaximum kind count maximum = .ok u ↔ count ≤ maximum := by
  rw [checkMaximum, Attempt.require_eq_ok]

theorem applyOperations_eq_ok {b : CandidateBlock} :
    applyOperations c s b = .ok s' ↔
      (b.body.proposerSlashings.length ≤ c.maxProposerSlashings ∧
        b.body.attestations.length ≤ c.maxAttestations ∧ b.body.deposits.length ≤ c.maxDeposits ∧
        b.body.deposits.length = depositsDue c s s.externalData) ∧
      ∃ s₁ s₂, b.body.proposerSlashings.foldlM (applySlashing c b.proposerIndex) s = .ok s₁ ∧
        b.body.attestations.foldlM (applyAttestation c b.proposerIndex) s₁ = .ok s₂ ∧
        b.body.deposits.foldlM (applyDeposit c) s₂ = .ok s' := by
  simp only [applyOperations, Attempt.bind_eq_ok, Attempt.require_eq_ok, checkMaximum_eq_ok]
  constructor
  · rintro ⟨_, h₁, _, h₂, _, h₃, _, h₄, s₁, hs₁, s₂, hs₂, hs'⟩
    exact ⟨⟨h₁, h₂, h₃, h₄⟩, s₁, s₂, hs₁, hs₂, hs'⟩
  · rintro ⟨⟨h₁, h₂, h₃, h₄⟩, s₁, s₂, hs₁, hs₂, hs'⟩
    exact ⟨(), h₁, (), h₂, (), h₃, (), h₄, s₁, hs₁, s₂, hs₂, hs'⟩

/-- What every operation of a block keeps, every block keeps from the opened state on. -/
theorem applyOperations_invariant {P : ChainState → Prop} {b : CandidateBlock}
    (slashing : ∀ x s s', P s → applySlashing c b.proposerIndex s x = .ok s' → P s')
    (attestation : ∀ x s s', P s → applyAttestation c b.proposerIndex s x = .ok s' → P s')
    (deposit : ∀ x s s', P s → applyDeposit c s x = .ok s' → P s')
    (hs : P s) (h : applyOperations c s b = .ok s') : P s' := by
  obtain ⟨-, s₁, s₂, h₁, h₂, h₃⟩ := applyOperations_eq_ok.1 h
  have hs₁ := Attempt.foldlM_invariant slashing hs h₁
  have hs₂ := Attempt.foldlM_invariant attestation hs₁ h₂
  exact Attempt.foldlM_invariant deposit hs₂ h₃

/-! ## What no operation changes -/

/-- What no operation of a block changes. -/
structure OperationFrame (c : Constants) (s s' : ChainState) : Prop where
  slot : s'.slot = s.slot
  latestBlockHeader : s'.latestBlockHeader = s.latestBlockHeader
  blockRoots : s'.blockRoots = s.blockRoots
  randaoMixes : s'.randaoMixes = s.randaoMixes
  previousJustified : s'.previousJustified = s.previousJustified
  currentJustified : s'.currentJustified = s.currentJustified
  justificationBits : s'.justificationBits = s.justificationBits
  finalized : s'.finalized = s.finalized
  externalData : s'.externalData = s.externalData
  externalDataVotes : s'.externalDataVotes = s.externalDataVotes
  sizes : s.validators.size = s.balances.size → s'.validators.size = s'.balances.size
  active : SameActive (s.currentEpoch c + 1) s s'

namespace OperationFrame

variable {s'' : ChainState}

theorem refl (c : Constants) (s : ChainState) : OperationFrame c s s :=
  ⟨rfl, rfl, rfl, rfl, rfl, rfl, rfl, rfl, rfl, rfl, id, SameActive.refl _ _⟩

theorem currentEpoch (h : OperationFrame c s s') : s'.currentEpoch c = s.currentEpoch c := by
  rw [ChainState.currentEpoch, h.slot, ChainState.currentEpoch]

theorem trans (h : OperationFrame c s s') (h' : OperationFrame c s' s'') :
    OperationFrame c s s'' :=
  ⟨h'.slot.trans h.slot, h'.latestBlockHeader.trans h.latestBlockHeader,
    h'.blockRoots.trans h.blockRoots, h'.randaoMixes.trans h.randaoMixes,
    h'.previousJustified.trans h.previousJustified, h'.currentJustified.trans h.currentJustified,
    h'.justificationBits.trans h.justificationBits, h'.finalized.trans h.finalized,
    h'.externalData.trans h.externalData, h'.externalDataVotes.trans h.externalDataVotes,
    fun hsizes => h'.sizes (h.sizes hsizes), h.active.trans (h.currentEpoch ▸ h'.active)⟩

end OperationFrame

theorem applySlashing_frame {whistleblower : ValidatorIndex} {evidence : ProposerSlashing}
    (h : applySlashing c whistleblower s evidence = .ok s') : OperationFrame c s s' := by
  obtain ⟨index, v, balance, -, hv, -, -, rfl⟩ := applySlashing_eq_ok.1 h
  refine ⟨rfl, rfl, rfl, rfl, rfl, rfl, rfl, rfl, rfl, rfl, fun hsizes => by simpa using hsizes, ?_⟩
  refine SameActive.of_isActive fun epoch hle hlt i => ?_
  rw [ChainState.isActive, ChainState.getElem?_withSlashed hv, ChainState.isActive]
  cases s.validators[i]? with
  | none => rfl
  | some w =>
      rw [Option.map_some]
      split
      · exact w.isActiveAt_slash hle hlt
      · rfl

theorem applyAttestation_frame {proposer : ValidatorIndex} {a : Attestation}
    (h : applyAttestation c proposer s a = .ok s') : OperationFrame c s s' := by
  obtain ⟨-, -, rfl⟩ := applyAttestation_eq_ok.1 h
  unfold ChainState.recording
  split <;> exact ⟨rfl, rfl, rfl, rfl, rfl, rfl, rfl, rfl, rfl, rfl, id,
    SameActive.of_validators_eq rfl⟩

theorem applyDeposit_frame {d : Deposit} (h : applyDeposit c s d = .ok s') :
    OperationFrame c s s' := by
  obtain ⟨-, -, ⟨index, balance, -, -, rfl⟩ | ⟨-, rfl⟩⟩ := applyDeposit_eq_ok.1 h
  · exact ⟨rfl, rfl, rfl, rfl, rfl, rfl, rfl, rfl, rfl, rfl, fun hsizes => by simpa using hsizes,
      SameActive.of_validators_eq rfl⟩
  · refine ⟨rfl, rfl, rfl, rfl, rfl, rfl, rfl, rfl, rfl, rfl, fun hsizes => by simpa using hsizes,
      ?_⟩
    refine SameActive.of_isActive fun epoch hle hlt i => ?_
    simp only [ChainState.isActive, ChainState.joinedBy_validators, Array.getElem?_push]
    by_cases hi : i = s.validators.size
    · simp [hi, Validator.isActiveAt_ofDeposit c d.data hle hlt]
    · simp [hi]

/-- What a block does to the fields that only its header and its randomness touch. -/
structure BlockFrame (c : Constants) (s s' : ChainState) (b : CandidateBlock) : Prop where
  blockSlot : b.slot = s.slot
  may : MayPropose c s b.proposerIndex b.parentRoot
  frame : OperationFrame c (s.opened c b) s'

theorem processBlock_frame (hc : c.Consistent) {b : CandidateBlock}
    (h : processBlock c s b = .ok s') : BlockFrame c s s' b := by
  obtain ⟨hslot, hmay, -, -, hops⟩ := (processBlock_eq_ok hc).1 h
  refine ⟨hslot, hmay, ?_⟩
  refine applyOperations_invariant (P := OperationFrame c (s.opened c b)) ?_ ?_ ?_
    (OperationFrame.refl _ _) hops
  · exact fun _ _ _ ht hop => ht.trans (applySlashing_frame hop)
  · exact fun _ _ _ ht hop => ht.trans (applyAttestation_frame hop)
  · exact fun _ _ _ ht hop => ht.trans (applyDeposit_frame hop)

namespace BlockFrame

variable {b : CandidateBlock}

theorem slot (h : BlockFrame c s s' b) : s'.slot = s.slot := h.frame.slot

theorem active (h : BlockFrame c s s' b) : SameActive (s.currentEpoch c + 1) s s' :=
  (SameActive.of_validators_eq rfl).trans h.frame.active

theorem ringsFit (h : BlockFrame c s s' b) : RingsFit c s' := by
  refine ⟨?_, ?_⟩
  · rw [h.frame.blockRoots]
    exact h.may.rings.blockRoots
  · rw [h.frame.randaoMixes]
    simpa using h.may.rings.randaoMixes

end BlockFrame

theorem applyBlock_eq_ok {e : Engine} {b : CandidateBlock} :
    e.applyBlock s b = .ok s' ↔
      processBlock e.constants s b = .ok s' ∧ b.stateRoot = hashRoot s' := by
  simp only [Engine.applyBlock, Attempt.bind_eq_ok, Attempt.widen_eq_ok, Attempt.require_eq_ok,
    Attempt.pure_eq_ok]
  constructor
  · rintro ⟨t, ht, _, hroot, rfl⟩
    exact ⟨ht, hroot⟩
  · rintro ⟨ht, hroot⟩
    exact ⟨s', ht, (), hroot, rfl⟩

theorem applyBlock_frame {e : Engine} {b : CandidateBlock} (h : e.applyBlock s b = .ok s') :
    BlockFrame e.constants s s' b :=
  processBlock_frame e.consistent (applyBlock_eq_ok.1 h).1

end Beacon
