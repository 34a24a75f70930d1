import Mathlib
import Beacon.Proofs.Lifecycle

set_option autoImplicit false

/-! # What a block changes

A block changes what its header, its vote and its operations are there to change, and nothing else
(`BlockEffect`). Each kind of operation is followed through the whole list of the body. A validator
is slashed at most once and its stake stays, so that the amounts of all slashings are settled by the
state before the block (`AfterSlashings`). Attestations only append to the two pending lists
(`ChainState.recorded`). A deposit belongs to the first record with its key; records that join
during a block stand behind all others, so that deposits reach the validators before them as if
nobody had joined (`AfterDeposits`). -/

namespace Beacon

variable {c : Constants} {e : Engine} {s s' t t' : ChainState} {b : CandidateBlock}
  {proposer i : ValidatorIndex} {x : ProposerSlashing} {d : Deposit}

/-! ## Slashings -/

namespace ChainState

/-- The effective balance of a validator on a state. -/
def stakeOf (s : ChainState) (i : ValidatorIndex) : Gwei :=
  s.validators[i]?.elim 0 Validator.effectiveBalance

/-- What a slashing makes of a balance: the accused pays its penalty, then the proposer earns its
    share. -/
def afterSlashing (s : ChainState) (c : Constants) (proposer i : ValidatorIndex) (balance : Gwei)
    (x : ProposerSlashing) : Gwei :=
  let stake := s.stakeOf x.accused
  let left := if x.accused = i then balance - stake / c.minSlashingPenaltyQuotient else balance
  if proposer = i then Word.addSat left (stake / whistleblowerRewardQuotient) else left

/-- A record of a state that is slashed during its epoch. -/
def slashRecord (s : ChainState) (c : Constants) (v : Validator) : Validator :=
  v.slash (s.currentEpoch c) (s.currentEpoch c + c.minValidatorWithdrawabilityDelay)

end ChainState

/-- A slashing replaces the record of the accused and nothing but balances besides. -/
theorem applySlashing_effect (happly : applySlashing c proposer s x = .ok s') :
    s' = { s with validators := s'.validators, balances := s'.balances } ∧
      s.isSlashed x.accused = false ∧
      (∀ i : ValidatorIndex, s'.validators[i]? = s.validators[i]?.map fun v =>
        if x.accused = i then s.slashRecord c v else v) ∧
      ∀ i : ValidatorIndex, s'.balances[i]? = s.balances[i]?.map fun balance =>
        s.afterSlashing c proposer i balance x := by
  obtain ⟨v, balance, hv, hslashable, hbalance, rfl⟩ := applySlashing_accused happly
  refine ⟨rfl, ?_, ChainState.getElem?_withSlashed hv, fun i => ?_⟩
  · rw [ChainState.isSlashed, hv]
    exact (Validator.active_of_isSlashableAt hslashable).1
  · have hstake : s.stakeOf x.accused = v.effectiveBalance := by
      rw [ChainState.stakeOf, hv]
      rfl
    rw [ChainState.withSlashed_balances, Array.getElem?_modify, getElem?_setIfInBounds_of_some
      (· - v.effectiveBalance / c.minSlashingPenaltyQuotient) hbalance]
    simp only [ChainState.afterSlashing, hstake]
    split
    · exact Option.map_map ..
    · rfl

/-- What some slashings, one after the other, have made of a state. -/
structure AfterSlashings (c : Constants) (proposer : ValidatorIndex) (s : ChainState)
    (done : List ProposerSlashing) (t : ChainState) : Prop where
  others : t = { s with validators := t.validators, balances := t.balances }
  validators : ∀ i : ValidatorIndex, t.validators[i]? = s.validators[i]?.map fun v =>
    if i ∈ done.map ProposerSlashing.accused then s.slashRecord c v else v
  balances : ∀ i : ValidatorIndex, t.balances[i]? = s.balances[i]?.map fun balance =>
    done.foldl (s.afterSlashing c proposer i) balance

namespace AfterSlashings

variable {done : List ProposerSlashing}

theorem nil (c : Constants) (proposer : ValidatorIndex) (s : ChainState) :
    AfterSlashings c proposer s [] s where
  others := rfl
  validators i := by simp
  balances i := Option.map_id'.symm

theorem currentEpoch (h : AfterSlashings c proposer s done t) :
    t.currentEpoch c = s.currentEpoch c := by
  rw [h.others]
  rfl

/-- No slashing changes a stake. -/
theorem stakeOf (h : AfterSlashings c proposer s done t) (i : ValidatorIndex) :
    t.stakeOf i = s.stakeOf i := by
  rw [ChainState.stakeOf, h.validators, ChainState.stakeOf]
  cases s.validators[i]? with
  | none => rfl
  | some v =>
      rw [Option.map_some]
      split <;> rfl

/-- Nobody is accused twice, as who has been slashed cannot be slashed again. -/
theorem fresh (h : AfterSlashings c proposer s done t) (hin : (s.validators[x.accused]?).isSome)
    (hunslashed : t.isSlashed x.accused = false) :
    x.accused ∉ done.map ProposerSlashing.accused := by
  intro hmem
  obtain ⟨v, hv⟩ := Option.isSome_iff_exists.1 hin
  rw [ChainState.isSlashed, h.validators, hv, Option.map_some, if_pos hmem] at hunslashed
  cases hunslashed

theorem snoc (h : AfterSlashings c proposer s done t)
    (happly : applySlashing c proposer t x = .ok t') :
    AfterSlashings c proposer s (done ++ [x]) t' := by
  obtain ⟨hothers, hunslashed, hvalidators, hbalances⟩ := applySlashing_effect happly
  have hrecord : t.slashRecord c = s.slashRecord c := by
    funext v
    rw [ChainState.slashRecord, h.currentEpoch, ChainState.slashRecord]
  refine ⟨?_, fun i => ?_, fun i => ?_⟩
  · rw [hothers, h.others]
  · rw [hvalidators, h.validators, Option.map_map, hrecord, List.map_append, List.map_singleton]
    cases hv : s.validators[i]? with
    | none => rfl
    | some v =>
        by_cases hi : x.accused = i
        · subst hi
          have hfresh := h.fresh (by rw [hv]; rfl) hunslashed
          simp [hfresh]
        · simp [hi, Ne.symm hi]
  · have hstep (balance : Gwei) : t.afterSlashing c proposer i balance x
        = s.afterSlashing c proposer i balance x := by
      rw [ChainState.afterSlashing, h.stakeOf, ChainState.afterSlashing]
    rw [hbalances, h.balances, Option.map_map]
    simp only [List.foldl_append, List.foldl_cons, List.foldl_nil, Function.comp_def, hstep]

/-- No slashing changes a key. -/
theorem pubkeys (h : AfterSlashings c proposer s done t) : t.pubkeys = s.pubkeys := by
  refine ChainState.pubkeys_congr fun i => ?_
  rw [h.validators]
  cases s.validators[i]? with
  | none => rfl
  | some v =>
      simp only [Option.map_some]
      split <;> rfl

theorem size (h : AfterSlashings c proposer s done t) : t.validators.size = s.validators.size := by
  simpa [ChainState.pubkeys] using congrArg List.length h.pubkeys

end AfterSlashings

theorem afterSlashings {xs : List ProposerSlashing}
    (hfold : xs.foldlM (applySlashing c proposer) s = .ok t) : AfterSlashings c proposer s xs t :=
  Attempt.foldlM_done (P := AfterSlashings c proposer s)
    (fun _ _ _ _ _ _ h happly => h.snoc happly) (.nil c proposer s) hfold

/-! ## Attestations -/

/-- The state that remembers some attestations, each among those of the epoch of its target. -/
def ChainState.recorded (c : Constants) (s : ChainState) (proposer : ValidatorIndex)
    (as : List Attestation) : ChainState :=
  { s with
    previousEpochAttestations := s.previousEpochAttestations ++
      (as.filter fun a => a.data.target.epoch ≠ s.currentEpoch c).map (pendingOf s proposer)
    currentEpochAttestations := s.currentEpochAttestations ++
      (as.filter fun a => a.data.target.epoch = s.currentEpoch c).map (pendingOf s proposer) }

theorem ChainState.recording_recorded (c : Constants) (s : ChainState) (proposer : ValidatorIndex)
    (as : List Attestation) (a : Attestation) :
    (s.recorded c proposer as).recording c proposer a = s.recorded c proposer (as ++ [a]) := by
  have hepoch : (s.recorded c proposer as).currentEpoch c = s.currentEpoch c := rfl
  unfold ChainState.recording
  rw [hepoch]
  split
  · next hcurrent => simp [ChainState.recorded, hcurrent, pendingOf]
  · next hprevious => simp [ChainState.recorded, hprevious, pendingOf]

theorem recorded_of_foldlM {as : List Attestation}
    (hfold : as.foldlM (applyAttestation c proposer) s = .ok t) : t = s.recorded c proposer as := by
  refine Attempt.foldlM_done (P := fun done t => t = s.recorded c proposer done) ?_ ?_ hfold
  · rintro done a - _ t' - rfl happly
    obtain ⟨-, -, rfl⟩ := applyAttestation_eq_ok.1 happly
    exact s.recording_recorded c proposer done a
  · simp [ChainState.recorded]

/-! ## Deposits -/

/-- What a deposit makes of a balance: it counts for the first record with its key. -/
def ChainState.afterDeposit (s : ChainState) (i : ValidatorIndex) (balance : Gwei) (d : Deposit) :
    Gwei :=
  if s.validatorIndex? d.data.pubkey = some i then Word.addSat balance d.data.amount else balance

theorem ChainState.afterDeposit_congr (h : t.pubkeys = s.pubkeys) (i : ValidatorIndex) :
    t.afterDeposit i = s.afterDeposit i := by
  funext balance d
  rw [afterDeposit, validatorIndex?_eq_findIdx?, h, ← validatorIndex?_eq_findIdx?, afterDeposit]

/-- The records that deposits add behind those with known keys: one for each new key, made by the
    first deposit with that key. -/
def joiners (c : Constants) (epoch : Epoch) (known : List PublicKey) : List Deposit → List Validator
  | [] => []
  | d :: rest =>
    if known.contains d.data.pubkey then joiners c epoch known rest
    else .ofDeposit c epoch d.data :: joiners c epoch (known ++ [d.data.pubkey]) rest

/-- Who joins stands behind all others, and takes no deposit from them. -/
theorem afterDeposit_joinedBy (hi : i < s.validators.size) :
    (s.joinedBy c d).afterDeposit i = s.afterDeposit i := by
  have hfirst (key : PublicKey) :
      (s.joinedBy c d).validatorIndex? key = some i ↔ s.validatorIndex? key = some i := by
    simp only [ChainState.validatorIndex?, ChainState.joinedBy_validators, Array.toList_push,
      List.findIdx?_append]
    cases s.validators.toList.findIdx? (·.pubkey = key) with
    | some j => rfl
    | none => simpa using fun _ => hi.ne'
  funext balance d'
  simp only [ChainState.afterDeposit, hfirst]

/-- What some deposits, one after the other, have made of a state. -/
structure AfterDeposits (c : Constants) (s : ChainState) (deposits : List Deposit)
    (t : ChainState) : Prop where
  others : t = { s with
    depositIndex := s.depositIndex + deposits.length
    validators := s.validators ++ (joiners c (s.currentEpoch c) s.pubkeys deposits).toArray
    balances := t.balances }
  balances : ∀ i < s.validators.size, t.balances[i]? = s.balances[i]?.map fun balance =>
    deposits.foldl (s.afterDeposit i) balance

theorem AfterDeposits.getElem?_validators {deposits : List Deposit}
    (h : AfterDeposits c s deposits t) (hi : i < s.validators.size) :
    t.validators[i]? = s.validators[i]? := by
  rw [h.others]
  exact Array.getElem?_append_left hi

theorem AfterDeposits.drop_validators {deposits : List Deposit} (h : AfterDeposits c s deposits t) :
    t.validators.toList.drop s.validators.size
      = joiners c (s.currentEpoch c) s.pubkeys deposits := by
  rw [h.others, Array.toList_append, ← Array.length_toList, List.drop_left]

theorem afterDeposits {deposits : List Deposit} (hsizes : s.validators.size = s.balances.size)
    (hfold : deposits.foldlM (applyDeposit c) s = .ok t) : AfterDeposits c s deposits t := by
  induction deposits generalizing s with
  | nil =>
      rw [List.foldlM_nil, Attempt.pure_eq_ok] at hfold
      subst hfold
      exact ⟨by simp [joiners], fun i _ => Option.map_id'.symm⟩
  | cons d rest ih =>
      rw [List.foldlM_cons, Attempt.bind_eq_ok] at hfold
      obtain ⟨u, happly, hrest⟩ := hfold
      have h := ih ((applyDeposit_frame happly).sizes hsizes) hrest
      have hindex : s.depositIndex + (d :: rest).length = s.depositIndex + 1 + rest.length := by
        rw [List.length_cons, Nat.add_assoc, Nat.add_comm 1]
      obtain ⟨-, -, ⟨index, balance, hkey, hbalance, rfl⟩ | ⟨hkey, rfl⟩⟩ :=
        applyDeposit_eq_ok.1 happly
      · have hmem := ChainState.mem_pubkeys_of_validatorIndex? hkey
        refine ⟨?_, fun i hi => ?_⟩
        · rw [joiners, if_pos (List.contains_iff_mem.2 hmem), hindex]
          exact h.others
        · rw [h.balances i hi, ChainState.toppedUp_balances, getElem?_setIfInBounds_of_some
            (Word.addSat · d.data.amount) hbalance, Option.map_map]
          refine congrArg (Option.map · s.balances[i]?) (funext fun y => ?_)
          simp only [Function.comp_apply, List.foldl_cons, ChainState.afterDeposit, hkey,
            Option.some.injEq]
          rfl
      · have hmem := ChainState.validatorIndex?_eq_none_iff.1 hkey
        refine ⟨?_, fun i hi => ?_⟩
        · have hpush (v : Validator) (vs : List Validator) :
              s.validators ++ (v :: vs).toArray = s.validators.push v ++ vs.toArray := by simp
          rw [joiners, if_neg (mt List.contains_iff_mem.1 hmem), hindex, hpush,
            ← pubkeys_joinedBy (c := c)]
          exact h.others
        · have hbefore : i < (s.joinedBy c d).validators.size := by
            rw [ChainState.joinedBy_validators, Array.size_push]
            exact hi.trans (Nat.lt_succ_self _)
          have hkept (balance : Gwei) : s.afterDeposit i balance d = balance := by
            rw [ChainState.afterDeposit, hkey, if_neg (by simp)]
          rw [h.balances i hbefore, afterDeposit_joinedBy hi, ChainState.joinedBy_balances,
            Array.getElem?_push, if_neg (hsizes ▸ hi.ne)]
          simp only [List.foldl_cons, hkept]

/-! ## Whole blocks -/

/-- What an applied block does to a state. -/
structure BlockEffect (c : Constants) (s : ChainState) (b : CandidateBlock) (s' : ChainState) :
    Prop where
  /-- Every field that is not named here stays as it is. -/
  others : s' = { s with
    latestBlockHeader := { b.header with stateRoot := Root.none }
    randaoMixes := s'.randaoMixes
    externalData := recordAfterVote c s b.body.externalData
    externalDataVotes := s.externalDataVotes ++ [b.body.externalData]
    depositIndex := s.depositIndex + b.body.deposits.length
    validators := s'.validators
    balances := s'.balances
    previousEpochAttestations := s.previousEpochAttestations ++
      (b.body.attestations.filter fun a => a.data.target.epoch ≠ s.currentEpoch c).map
        (pendingOf s b.proposerIndex)
    currentEpochAttestations := s.currentEpochAttestations ++
      (b.body.attestations.filter fun a => a.data.target.epoch = s.currentEpoch c).map
        (pendingOf s b.proposerIndex) }
  /-- The reveal goes into the mix of the slot. -/
  randaoMixes : s.randaoMixes.size = c.randaoMixesLength ∧
    ∃ mix, s.randaoMixes[s.slot % c.randaoMixesLength]? = some mix ∧
      s'.randaoMixes = s.randaoMixes.setIfInBounds (s.slot % c.randaoMixesLength)
        (mix.xor (keccak256 b.body.randaoReveal.toByteArray))
  /-- Who is not accused keeps the record. -/
  unnamed : ∀ (i : ValidatorIndex) (v : Validator), s.validators[i]? = some v → i ∉ b.accused →
    s'.validators[i]? = some v
  /-- Who is accused is slashed, and may exit and withdraw accordingly. -/
  named : ∀ (i : ValidatorIndex) (v : Validator), s.validators[i]? = some v → i ∈ b.accused →
    s'.validators[i]? = some { v with
      slashed := true
      exitEpoch := (s.slashRecord c v).exitEpoch
      withdrawableEpoch := (s.slashRecord c v).withdrawableEpoch }
  joined : s'.validators.toList.drop s.validators.size
    = joiners c (s.currentEpoch c) s.pubkeys b.body.deposits
  /-- Slashings come before deposits. -/
  balances : ∀ i < s.validators.size, ∃ balance, s.balances[i]? = some balance ∧
    s'.balances[i]? = some (b.body.deposits.foldl (s.afterDeposit i)
      (b.body.proposerSlashings.foldl (s.afterSlashing c b.proposerIndex i) balance))
  sizes : s'.validators.size = s'.balances.size

/-! ## The theorem -/

/-- **Applying a block changes nothing else.** Only the fields that are named change, and these as
    follows. The mix of the slot takes the reveal in; the votes gain the one of the block at their
    end, and the pending attestations those of the block, each with those of its target epoch. A
    validator keeps its record unless it is accused, which is slashed then; new ones come behind all
    others. The balance of a validator that was there before changes by its penalty and, if it
    proposes, by its share of each slashing, one slashing after the other, and then by the deposits
    for the first record with their key, all of it from zero to the largest word. -/
theorem applied_block_effect (happly : e.applyBlock s b = .ok s') :
    BlockEffect e.constants s b s' := by
  have hframe := applyBlock_frame happly
  obtain ⟨-, hmay, -, -, hops⟩ :=
    (processBlock_eq_ok e.consistent).1 (applyBlock_eq_ok.1 happly).1
  obtain ⟨-, s₁, s₂, hslashings, hattestations, hdeposits⟩ := applyOperations_eq_ok.1 hops
  have h₁ := afterSlashings hslashings
  have h₂ := recorded_of_foldlM hattestations
  -- Until the deposits come, the registry has its length and its keys.
  have hsizes : s₂.validators.size = s₂.balances.size := by
    rw [h₂]
    exact Attempt.foldlM_invariant (P := fun t => t.validators.size = t.balances.size)
      (fun _ _ _ ht happly => (applySlashing_frame happly).sizes ht) hmay.sizes hslashings
  have hsize : s₂.validators.size = s.validators.size := by
    rw [h₂]
    exact h₁.size
  have hkeys : s₂.pubkeys = s.pubkeys := by
    rw [h₂]
    exact h₁.pubkeys
  have hepoch : s₂.currentEpoch e.constants = s.currentEpoch e.constants := by
    rw [h₂]
    exact h₁.currentEpoch
  have h₃ := afterDeposits hsizes hdeposits
  have hrecord {i : ValidatorIndex} {v : Validator} (hv : s.validators[i]? = some v) :
      s'.validators[i]? = some (if i ∈ b.accused then s.slashRecord e.constants v else v) := by
    have hi : i < s₂.validators.size := hsize.symm ▸ (Array.getElem?_eq_some_iff.1 hv).1
    rw [h₃.getElem?_validators hi, h₂]
    exact (h₁.validators i).trans (congrArg (Option.map _) hv)
  refine ⟨?_, ?_, fun i v hv hnot => ?_, fun i v hv hmem => ?_, ?_, fun i hi => ?_,
    hframe.frame.sizes hmay.sizes⟩
  · rw [h₃.others, h₂, h₁.others]
    rfl
  · have hplace : s.slot % e.constants.randaoMixesLength < s.randaoMixes.size := by
      rw [hmay.rings.randaoMixes]
      exact Nat.mod_lt _ e.consistent.randaoMixesLength_pos
    refine ⟨hmay.rings.randaoMixes, _, Array.getElem?_eq_getElem hplace, ?_⟩
    rw [hframe.frame.randaoMixes]
    simp [hplace]
  · rw [hrecord hv, if_neg hnot]
  · rw [hrecord hv, if_pos hmem]
    rfl
  · rw [← hsize, ← hkeys, ← hepoch]
    exact h₃.drop_validators
  · obtain ⟨balance, hbalance⟩ : ∃ balance, s.balances[i]? = some balance :=
      ⟨_, Array.getElem?_eq_getElem (hmay.sizes ▸ hi)⟩
    have hslashed : s₂.balances[i]? = some (b.body.proposerSlashings.foldl
        (s.afterSlashing e.constants b.proposerIndex i) balance) := by
      rw [h₂]
      exact (h₁.balances i).trans (congrArg (Option.map _) hbalance)
    refine ⟨balance, hbalance, ?_⟩
    rw [h₃.balances i (hsize.symm ▸ hi), ChainState.afterDeposit_congr hkeys, hslashed,
      Option.map_some]

/-- Contents that accuse the lone validator, top it up, and bring another one. -/
def selfService : BlockContents where
  randaoReveal := Bytes.fill 96 1
  externalData := { depositCount := 2 }
  proposerSlashings := [selfEvidence]
  deposits :=
    [{ index := 0, data := { pubkey := Bytes.zero 48, amount := 1 } },
      { index := 1, data := { pubkey := Bytes.fill 48 7, amount := 2 } }]

/-- The lone validator can propose a block with these contents. It is slashed and has one more Gwei
    then, as its stake is too small for a penalty or a share; and the other one stands behind it. -/
theorem applied_block_effect_lone :
    ∃ t b s, Engine.lone.applyBlock t b = .ok s ∧ t.balances[0]? = some 2 ∧
      s.balances[0]? = some 3 ∧ s.isSlashed 0 = true ∧
      (s.validators.toList.drop 1).map Validator.pubkey = [Bytes.fill 48 7] := by
  obtain ⟨t, b, s, -, hlone, hslot, hblock, hpacks, -, -, hdeposits⟩ :=
    exists_lone_deposits selfService (by decide) rfl rfl
  have hslashings : b.body.proposerSlashings = [selfEvidence] := by
    rw [hpacks.proposerSlashings]
    show (firstAgainstEach ([selfEvidence].filter (holdsOn Constants.lone t))).take 16 = _
    rw [List.filter_singleton, hlone.holdsOn_selfEvidence hslot]
    rfl
  have haccused : b.accused = [0] := by
    rw [CandidateBlock.accused, hslashings]
    rfl
  have hindex (key : PublicKey) :
      t.validatorIndex? key = [loneVoter].findIdx? (·.pubkey = key) := by
    rw [ChainState.validatorIndex?, hlone.validators]
  have hslashed :
      t.afterSlashing Engine.lone.constants b.proposerIndex 0 2 selfEvidence = 2 := by
    have hstake : t.stakeOf selfEvidence.accused = 2 := by
      rw [ChainState.stakeOf, hlone.validators]
      rfl
    simp only [ChainState.afterSlashing, hstake]
    split <;> rfl
  have heffect := applied_block_effect hblock
  refine ⟨t, b, s, hblock, ?_, ?_, ?_, ?_⟩
  · rw [hlone.balances]
    rfl
  · obtain ⟨balance, hbalance, hafter⟩ := heffect.balances 0 (by rw [hlone.validators]; decide)
    obtain rfl : balance = 2 := by
      rw [hlone.balances] at hbalance
      exact (Option.some.inj hbalance).symm
    rw [hafter, hdeposits, hslashings, List.foldl_cons, List.foldl_nil, hslashed]
    simp only [selfService, List.foldl_cons, List.foldl_nil, ChainState.afterDeposit, hindex]
    decide
  · have hrecord := heffect.named 0 loneVoter hlone.getElem?_validators (by rw [haccused]; decide)
    rw [ChainState.isSlashed, hrecord]
    rfl
  · have hjoined := heffect.joined
    rw [hdeposits, ChainState.pubkeys, hlone.validators] at hjoined
    exact (congrArg (List.map Validator.pubkey) hjoined).trans rfl

end Beacon