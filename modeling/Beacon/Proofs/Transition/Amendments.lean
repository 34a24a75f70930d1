import Mathlib
import Beacon.Proofs.Transition.Judgements
import Beacon.Proofs.Transition.Runs

set_option autoImplicit false

/-! # What becomes of the registry

Whatever a slot or a block does to the registry comes down to three amendments of single records and
to records that deposits add at its end: a proposer is slashed, a validator without an activation
epoch is given one, an effective balance follows a real one (`Validator.Amend`). All of them happen
in the epoch of the state that the move leads to (`Move.amended`). Who is slashed is told apart from
the rest: exactly the proposers that the evidence in a block accuses, each of them once
(`Sentenced`). -/

namespace Beacon

variable {c : Constants} {e : Engine} {s s' s'' : ChainState} {b : CandidateBlock} {epoch : Epoch}
  {v v' : Validator}

/-! ## Amendments -/

/-- What is done to a record during an epoch. -/
inductive Validator.Amend (c : Constants) (epoch : Epoch) : Validator → Validator → Prop where
  | slash (v : Validator) (h : v.isSlashableAt epoch = true) :
      Amend c epoch v (v.slash epoch (epoch + c.minValidatorWithdrawabilityDelay))
  | activate (v : Validator) (h : v.activationEpoch = farFuture) :
      Amend c epoch v { v with activationEpoch := activationExitEpoch epoch }
  | follow (v : Validator) (balance : Gwei) :
      Amend c epoch v { v with effectiveBalance := c.effective balance }

theorem Constants.effective_le (c : Constants) (balance : Gwei) :
    c.effective balance ≤ c.maxEffectiveBalance :=
  min_le_right ..

theorem Validator.Amend.effectiveBalance_le (hamend : v.Amend c epoch v')
    (hv : v.effectiveBalance ≤ c.maxEffectiveBalance) :
    v'.effectiveBalance ≤ c.maxEffectiveBalance := by
  cases hamend with
  | slash => exact hv
  | activate => exact hv
  | follow => exact c.effective_le _

/-- Only a validator that has been activated and is not slashed can be slashed. -/
theorem Validator.active_of_isSlashableAt (h : v.isSlashableAt epoch = true) :
    v.slashed = false ∧ v.activationEpoch ≤ epoch := by
  simp only [isSlashableAt, Bool.and_eq_true, Bool.not_eq_true', decide_eq_true_eq] at h
  exact h.1

/-- One after the other, any number of them. -/
def Validator.Amends (c : Constants) (epoch : Epoch) : Validator → Validator → Prop :=
  Relation.ReflTransGen (Validator.Amend c epoch)

/-- Every record has been amended in its place, and those that have joined were made by deposits. -/
structure Amended (c : Constants) (epoch : Epoch) (s s' : ChainState) : Prop where
  records : ∀ (i : ValidatorIndex) (v : Validator), s.validators[i]? = some v →
    ∃ v', s'.validators[i]? = some v' ∧ v.Amends c epoch v'
  joined : ∀ (i : ValidatorIndex) (v' : Validator), s.validators[i]? = none →
    s'.validators[i]? = some v' →
    ∃ d, (Validator.ofDeposit c epoch d).Amends c epoch v'

namespace Amended

theorem of_validators_eq (h : s'.validators = s.validators) : Amended c epoch s s' where
  records i v hv := ⟨v, h ▸ hv, .refl⟩
  joined i v' hnone hv' := by
    rw [h, hnone] at hv'
    cases hv'

theorem trans (h : Amended c epoch s s') (h' : Amended c epoch s' s'') :
    Amended c epoch s s'' where
  records i v hv := by
    obtain ⟨v', hv', hamends⟩ := h.records i v hv
    obtain ⟨v'', hv'', hamends'⟩ := h'.records i v' hv'
    exact ⟨v'', hv'', hamends.trans hamends'⟩
  joined i v'' hnone hv'' := by
    cases hmiddle : s'.validators[i]? with
    | none => exact h'.joined i v'' hmiddle hv''
    | some v' =>
        obtain ⟨d, hamends⟩ := h.joined i v' hnone hmiddle
        obtain ⟨w, hw, hamends'⟩ := h'.records i v' hmiddle
        obtain rfl := Option.some.inj (hw.symm.trans hv'')
        exact ⟨d, hamends.trans hamends'⟩

/-- A registry whose records are replaced in their places. -/
theorem of_map {f : ValidatorIndex → Validator → Validator}
    (hmap : ∀ i : ValidatorIndex, s'.validators[i]? = s.validators[i]?.map (f i))
    (hamends : ∀ (i : ValidatorIndex) (v : Validator), s.validators[i]? = some v →
      v.Amends c epoch (f i v)) :
    Amended c epoch s s' where
  records i v hv := ⟨f i v, by rw [hmap, hv]; rfl, hamends i v hv⟩
  joined i v' hnone hv' := by
    rw [hmap, hnone] at hv'
    cases hv'

/-- What amendments keep and new records have, the whole registry keeps. -/
theorem forall_validators {P : Validator → Prop} (h : Amended c epoch s s')
    (amend : ∀ v v', P v → v.Amend c epoch v' → P v')
    (join : ∀ d, P (Validator.ofDeposit c epoch d)) (hs : ∀ v ∈ s.validators, P v) :
    ∀ v ∈ s'.validators, P v := by
  have hamends {v v' : Validator} (hv : P v) (hamends : v.Amends c epoch v') : P v' := by
    induction hamends with
    | refl => exact hv
    | tail _ hamend ih => exact amend _ _ ih hamend
  intro v' hv'
  obtain ⟨i, hi⟩ := Array.mem_iff_getElem?.1 hv'
  cases hv : s.validators[i]? with
  | none =>
      obtain ⟨d, hd⟩ := h.joined i v' hv hi
      exact hamends (join d) hd
  | some v =>
      obtain ⟨w, hw, hvw⟩ := h.records i v hv
      obtain rfl := Option.some.inj (hw.symm.trans hi)
      exact hamends (hs v (Array.mem_iff_getElem?.2 ⟨i, hv⟩)) hvw

end Amended

/-! ## Sentences -/

/-- Whether the validator at a place of the registry is slashed. -/
def ChainState.isSlashed (s : ChainState) (i : ValidatorIndex) : Bool :=
  s.validators[i]?.any (·.slashed)

/-- Besides those that were slashed before, exactly the accused are slashed, each of them once. -/
structure Sentenced (accused : List ValidatorIndex) (s s' : ChainState) : Prop where
  innocent : ∀ i ∈ accused, s.isSlashed i = false
  once : accused.Nodup
  slashed : ∀ i, s'.isSlashed i = true ↔ s.isSlashed i = true ∨ i ∈ accused

namespace Sentenced

variable {xs ys : List ValidatorIndex}

theorem nil (h : ∀ i, s'.isSlashed i = s.isSlashed i) : Sentenced [] s s' where
  innocent i hi := absurd hi List.not_mem_nil
  once := .nil
  slashed i := by simp [h i]

theorem refl (s : ChainState) : Sentenced [] s s := nil fun _ => rfl

theorem trans (h : Sentenced xs s s') (h' : Sentenced ys s' s'') : Sentenced (xs ++ ys) s s'' where
  innocent i hi := by
    rcases List.mem_append.1 hi with hi | hi
    · exact h.innocent i hi
    · by_contra hslashed
      have hbefore := (h.slashed i).2 (.inl (Bool.eq_true_of_not_eq_false hslashed))
      rw [h'.innocent i hi] at hbefore
      cases hbefore
  once := by
    refine List.nodup_append'.2 ⟨h.once, h'.once, fun i hx hy => ?_⟩
    have hslashed := (h.slashed i).2 (.inr hx)
    rw [h'.innocent i hy] at hslashed
    cases hslashed
  slashed i := by rw [h'.slashed, h.slashed, List.mem_append, or_assoc]

theorem trans_nil (h : Sentenced xs s s') (h' : Sentenced [] s' s'') : Sentenced xs s s'' :=
  List.append_nil xs ▸ h.trans h'

end Sentenced

/-! ## Slots -/

/-- A record after the activations of an epoch. -/
def Validator.activated (c : Constants) (epoch : Epoch) (v : Validator) : Validator :=
  if v.activationEpoch = farFuture ∧ v.slashed = false ∧
      c.maxEffectiveBalance ≤ v.effectiveBalance then
    { v with activationEpoch := activationExitEpoch epoch }
  else v

theorem Validator.amends_activated (v : Validator) : v.Amends c epoch (v.activated c epoch) := by
  unfold activated
  split
  · next h => exact .single (.activate v h.1)
  · exact .refl

theorem Validator.amends_followBalance (downward upward balance : Gwei) (v : Validator) :
    v.Amends c epoch (v.followBalance c downward upward balance) := by
  unfold followBalance
  split
  · exact .single (.follow v balance)
  · exact .refl

theorem getElem?_activateValidators (c : Constants) (epoch : Epoch) (s : ChainState)
    (i : ValidatorIndex) :
    (activateValidators c epoch s).validators[i]?
      = s.validators[i]?.map (Validator.activated c epoch) :=
  Array.getElem?_map

@[simp] theorem Validator.slashed_activated (c : Constants) (epoch : Epoch) (v : Validator) :
    (v.activated c epoch).slashed = v.slashed := by
  unfold activated
  split <;> rfl

@[simp] theorem Validator.slashed_followBalance (c : Constants) (downward upward : Gwei)
    (v : Validator) (balance : Gwei) :
    (v.followBalance c downward upward balance).slashed = v.slashed := by
  unfold followBalance
  split <;> rfl

/-- A boundary replaces every record by an amended one, and slashes nobody. -/
theorem processEpoch_records {summary : EpochSummary}
    (hprocess : processEpoch c s = .ok (summary, s')) :
    ∃ f : ValidatorIndex → Validator → Validator,
      (∀ i : ValidatorIndex, s'.validators[i]? = s.validators[i]?.map (f i)) ∧
      ∀ i v, v.Amends c (s.currentEpoch c) (f i v) ∧ (f i v).slashed = v.slashed := by
  obtain ⟨-, s₁, s₂, s₃, hjustify, hpay, heffective, rfl⟩ := processEpoch_eq_ok.1 hprocess
  have hvalidators : s₂.validators = s.validators := by
    rw [(payRewards_frame hpay).1, justifyAndFinalize_frame hjustify]
  obtain ⟨-, rfl⟩ := updateEffectiveBalances_eq_ok.1 heffective
  let balances := (activateValidators c (s.currentEpoch c) s₂).balances
  refine ⟨fun i v => balances[i]?.elim (v.activated c (s.currentEpoch c))
    ((v.activated c (s.currentEpoch c)).followBalance c (c.effectiveBalanceIncrement / 4)
      (c.effectiveBalanceIncrement / 4 * 5)), fun i => ?_, fun i v => ?_⟩
  · rw [ChainState.settled_validators, ChainState.getElem?_withFollowed,
      getElem?_activateValidators, Option.map_map, hvalidators]
    rfl
  · dsimp only
    cases balances[i]? with
    | none => exact ⟨v.amends_activated, v.slashed_activated ..⟩
    | some balance =>
        exact ⟨v.amends_activated.trans (Validator.amends_followBalance ..), by simp⟩

theorem step_records (hstep : Engine.step c s = .ok s') :
    ∃ f : ValidatorIndex → Validator → Validator,
      (∀ i : ValidatorIndex, s'.validators[i]? = s.validators[i]?.map (f i)) ∧
      ∀ i v, v.Amends c (s'.currentEpoch c) (f i v) ∧ (f i v).slashed = v.slashed := by
  rcases step_cases hstep with ⟨-, summary, hprocess⟩ | ⟨-, rfl⟩
  · have hepoch : s'.currentEpoch c = (s.atNextSlot c).currentEpoch c := by
      rw [ChainState.currentEpoch, (processEpoch_frame hprocess).slot, ChainState.currentEpoch]
    rw [hepoch]
    exact processEpoch_records hprocess
  · exact ⟨fun _ => id, fun i => (Option.map_id' ..).symm, fun i v => ⟨.refl, rfl⟩⟩

theorem step_validators_size (hstep : Engine.step c s = .ok s') :
    s'.validators.size = s.validators.size := by
  obtain ⟨f, hmap, -⟩ := step_records hstep
  have hnone (i : ValidatorIndex) : s'.validators.size ≤ i ↔ s.validators.size ≤ i := by
    rw [← Array.getElem?_eq_none_iff, hmap, Option.map_eq_none_iff, Array.getElem?_eq_none_iff]
  exact le_antisymm ((hnone _).2 le_rfl) ((hnone _).1 le_rfl)

theorem step_amended (hstep : Engine.step c s = .ok s') :
    Amended c (s'.currentEpoch c) s s' := by
  obtain ⟨f, hmap, hf⟩ := step_records hstep
  exact .of_map hmap fun i v _ => (hf i v).1

theorem step_sentenced (hstep : Engine.step c s = .ok s') : Sentenced [] s s' := by
  obtain ⟨f, hmap, hf⟩ := step_records hstep
  refine .nil fun i => ?_
  rw [ChainState.isSlashed, hmap, ChainState.isSlashed]
  cases s.validators[i]? with
  | none => rfl
  | some v => exact (hf i v).2

/-! ## Blocks -/

/-- Whoever is slashed is the accused, who could be slashed. -/
theorem applySlashing_accused {whistleblower : ValidatorIndex} {x : ProposerSlashing}
    (happly : applySlashing c whistleblower s x = .ok s') :
    ∃ v balance, s.validators[x.accused]? = some v ∧ v.isSlashableAt (s.currentEpoch c) = true ∧
      s.balances[x.accused]? = some balance ∧
      s' = s.withSlashed c whistleblower x.accused v balance := by
  obtain ⟨index, v, balance, hcheck, hv, hbalance, -, rfl⟩ := applySlashing_eq_ok.1 happly
  obtain rfl := checkSlashing_accused hcheck
  obtain ⟨-, -, -, -, w, hw, hslashable⟩ := checkSlashing_eq_ok.1 hcheck
  obtain rfl : v = w := Option.some.inj (hv.symm.trans hw)
  exact ⟨v, balance, hv, hslashable, hbalance, rfl⟩

/-- A slashing amends the record of the accused, who has not been slashed before. -/
theorem applySlashing_amended {whistleblower : ValidatorIndex} {x : ProposerSlashing}
    (happly : applySlashing c whistleblower s x = .ok s') :
    Amended c (s.currentEpoch c) s s' ∧ Sentenced [x.accused] s s' := by
  obtain ⟨v, balance, hv, hslashable, -, rfl⟩ := applySlashing_accused happly
  refine ⟨.of_map (ChainState.getElem?_withSlashed hv) fun i u hu => ?_,
    ⟨fun i hi => ?_, List.nodup_singleton _, fun i => ?_⟩⟩
  · split
    · next hi =>
        subst hi
        obtain rfl : v = u := Option.some.inj (hv.symm.trans hu)
        exact .single (.slash v hslashable)
    · exact .refl
  · rw [List.mem_singleton.1 hi, ChainState.isSlashed, hv]
    exact (Validator.active_of_isSlashableAt hslashable).1
  · rw [ChainState.isSlashed, ChainState.getElem?_withSlashed hv, List.mem_singleton,
      ChainState.isSlashed]
    by_cases hi : x.accused = i
    · subst hi
      rw [hv, Option.map_some, if_pos rfl]
      exact iff_of_true rfl (.inr rfl)
    · simp only [if_neg hi, Option.map_id']
      exact (or_iff_left (Ne.symm hi)).symm

/-- A deposit amends nothing, and may add one record that is not slashed. -/
theorem applyDeposit_amended {d : Deposit} (happly : applyDeposit c s d = .ok s') :
    Amended c (s.currentEpoch c) s s' ∧ Sentenced [] s s' := by
  obtain ⟨-, -, ⟨index, balance, -, -, rfl⟩ | ⟨-, rfl⟩⟩ := applyDeposit_eq_ok.1 happly
  · exact ⟨.of_validators_eq rfl, .nil fun _ => rfl⟩
  have hpush (i : ValidatorIndex) : (s.joinedBy c d).validators[i]?
      = if i = s.validators.size then some (Validator.ofDeposit c (s.currentEpoch c) d.data)
        else s.validators[i]? := Array.getElem?_push
  refine ⟨⟨fun i v hv => ?_, fun i v hnone hv => ?_⟩, .nil fun i => ?_⟩
  · have hlt := (Array.getElem?_eq_some_iff.1 hv).1
    exact ⟨v, by rw [hpush, if_neg hlt.ne, hv], .refl⟩
  · rw [hpush, hnone] at hv
    split at hv
    · obtain rfl := Option.some.inj hv
      exact ⟨d.data, .refl⟩
    · cases hv
  · rw [ChainState.isSlashed, hpush, ChainState.isSlashed]
    split
    · next hi =>
        rw [hi, Array.getElem?_eq_none le_rfl]
        rfl
    · rfl

/-- The proposers whom the evidence in a block accuses. -/
def CandidateBlock.accused (b : CandidateBlock) : List ValidatorIndex :=
  b.body.proposerSlashings.map ProposerSlashing.accused

theorem applyBlock_amended (hblock : e.applyBlock s b = .ok s') :
    Amended e.constants (s'.currentEpoch e.constants) s s' := by
  have hprocess := (applyBlock_eq_ok.1 hblock).1
  obtain ⟨-, -, -, -, hops⟩ := (processBlock_eq_ok e.consistent).1 hprocess
  have hepoch : s'.currentEpoch e.constants = s.currentEpoch e.constants := by
    rw [ChainState.currentEpoch, (applyBlock_frame hblock).slot, ChainState.currentEpoch]
  rw [hepoch]
  -- All operations run in the epoch of the state that the block opens.
  have hopened : (s.opened e.constants b).currentEpoch e.constants = s.currentEpoch e.constants ∧
      Amended e.constants (s.currentEpoch e.constants) s (s.opened e.constants b) :=
    ⟨rfl, .of_validators_eq rfl⟩
  refine (applyOperations_invariant (P := fun t => t.currentEpoch e.constants = s.currentEpoch
    e.constants ∧ Amended e.constants (s.currentEpoch e.constants) s t) ?_ ?_ ?_ hopened hops).2
  · rintro x t t' ⟨ht, hamended⟩ happly
    exact ⟨(applySlashing_frame happly).currentEpoch.trans ht,
      hamended.trans (ht ▸ (applySlashing_amended happly).1)⟩
  · rintro a t t' ⟨ht, hamended⟩ happly
    exact ⟨(applyAttestation_frame happly).currentEpoch.trans ht,
      hamended.trans (.of_validators_eq (applyAttestation_validators happly))⟩
  · rintro d t t' ⟨ht, hamended⟩ happly
    exact ⟨(applyDeposit_frame happly).currentEpoch.trans ht,
      hamended.trans (ht ▸ (applyDeposit_amended happly).1)⟩

/-- A block slashes exactly those whom it accuses. -/
theorem applyBlock_sentenced (hblock : e.applyBlock s b = .ok s') : Sentenced b.accused s s' := by
  have hprocess := (applyBlock_eq_ok.1 hblock).1
  obtain ⟨-, -, -, -, hops⟩ := (processBlock_eq_ok e.consistent).1 hprocess
  obtain ⟨-, s₁, s₂, hslashings, hattestations, hdeposits⟩ := applyOperations_eq_ok.1 hops
  have hopened : Sentenced [] s (s.opened e.constants b) := .nil fun _ => rfl
  have h₁ : Sentenced b.accused s s₁ := by
    refine Attempt.foldlM_done (P := fun done t => Sentenced (done.map ProposerSlashing.accused) s t)
      ?_ hopened hslashings
    intro done x rest t t' _ ht happly
    rw [List.map_append, List.map_singleton]
    exact ht.trans (applySlashing_amended happly).2
  have h₂ : Sentenced b.accused s s₂ := by
    refine Attempt.foldlM_invariant (P := Sentenced b.accused s) ?_ h₁ hattestations
    intro a t t' ht happly
    have hsame : Sentenced [] t t' := .nil fun i => by
      rw [ChainState.isSlashed, applyAttestation_validators happly, ChainState.isSlashed]
    exact ht.trans_nil hsame
  refine Attempt.foldlM_invariant (P := Sentenced b.accused s) ?_ h₂ hdeposits
  intro d t t' ht happly
  exact ht.trans_nil (applyDeposit_amended happly).2

/-! ## Moves -/

theorem Engine.Move.amended (hmove : e.Move s s') :
    Amended e.constants (s'.currentEpoch e.constants) s s' := by
  cases hmove with
  | step hstep => exact step_amended hstep
  | block b hblock => exact applyBlock_amended hblock

end Beacon
