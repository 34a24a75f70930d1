import Mathlib
import Beacon.Proofs.Deposits
import Beacon.Proofs.Transition.Amendments

set_option autoImplicit false

/-! # The lifecycle of a validator only moves forward

No amendment of a record takes anything back: the key and the credentials stay, a slashed validator
stays slashed, and an epoch is only set where the record had the epoch that never comes
(`Amend.onward`). Since what is set comes two epochs later, it is never that epoch again, so that
each epoch of a record is set at most once along a run (`SetBetween.settled`). The order of the
epochs (`Validator.InOrder`) holds of the records that deposits make and is kept by all amendments,
however early a validator may withdraw. -/

namespace Beacon

variable {c : Constants} {e : Engine} {h : Chronicle} {s s' s'' : ChainState} {b : CandidateBlock}
  {v v' v'' : Validator} {epoch first first' last last' before middle after : Epoch}

/-! ## The order of the epochs -/

/-- A validator is activated before it exits, and exits before it may withdraw. -/
structure Validator.InOrder (v : Validator) : Prop where
  activation_le : v.activationEpoch ≤ v.exitEpoch
  exit_le : v.exitEpoch ≤ v.withdrawableEpoch

theorem activationExitEpoch_le (epoch : Epoch) : activationExitEpoch epoch ≤ farFuture :=
  min_le_right ..

/-- What is decided during an epoch that the chain comes to takes effect two epochs later. -/
theorem activationExitEpoch_eq (hcomes : epoch + 2 < farFuture) :
    activationExitEpoch epoch = epoch + 2 :=
  min_eq_left hcomes.le

theorem Validator.InOrder.amend (hv : v.InOrder) (hamend : v.Amend c epoch v') : v'.InOrder := by
  cases hamend with
  | slash hslashable =>
      refine ⟨?_, le_max_right ..⟩
      have hactive := (active_of_isSlashableAt hslashable).2
      show v.activationEpoch
        ≤ if v.exitEpoch = farFuture then activationExitEpoch epoch else v.exitEpoch
      split
      · next hfar =>
          have hle : v.activationEpoch ≤ farFuture := hfar ▸ hv.activation_le
          exact le_min (hactive.trans (Nat.le_add_right ..)) hle
      · exact hv.activation_le
  | activate hfar =>
      exact ⟨(activationExitEpoch_le _).trans (hfar ▸ hv.activation_le), hv.exit_le⟩
  | follow => exact ⟨hv.activation_le, hv.exit_le⟩

theorem Validator.inOrder_ofDeposit (c : Constants) (epoch : Epoch) (d : DepositData) :
    (Validator.ofDeposit c epoch d).InOrder := by
  refine ⟨?_, le_rfl⟩
  simp only [Validator.ofDeposit]
  split
  · exact activationExitEpoch_le _
  · exact le_rfl

/-! ## Epochs that are set once -/

/-- An epoch of a record is what it was before, or it has been set since: during one of the epochs
    from `first` to `last`, from the one that never comes to the second one after that. -/
def SetBetween (first last before after : Epoch) : Prop :=
  after = before ∨ before = farFuture ∧ ∃ epoch, first ≤ epoch ∧ epoch ≤ last ∧ after = epoch + 2

namespace SetBetween

/-- Once it has been set, it stays. -/
theorem settled (h : SetBetween first last before middle)
    (h' : SetBetween first' last' middle after) (hcomes : last + 2 < farFuture)
    (hset : middle ≠ before) : after = middle := by
  rcases h with rfl | ⟨-, epoch, -, hle, rfl⟩
  · exact absurd rfl hset
  · rcases h' with hstays | ⟨hfar, -⟩
    · exact hstays
    · lia

theorem trans (h : SetBetween first last before middle)
    (h' : SetBetween first' last' middle after) (hfirst : first ≤ first') (hlast : last ≤ last')
    (hcomes : last + 2 < farFuture) : SetBetween first last' before after := by
  by_cases hset : middle = before
  · subst hset
    rcases h' with hstays | ⟨hfar, epoch, hge, hle, heq⟩
    · exact .inl hstays
    · exact .inr ⟨hfar, epoch, hfirst.trans hge, hle, heq⟩
  · rw [h.settled h' hcomes hset]
    rcases h with rfl | ⟨hfar, epoch, hge, hle, heq⟩
    · exact absurd rfl hset
    · exact .inr ⟨hfar, epoch, hge, hle.trans hlast, heq⟩

end SetBetween

/-! ## Records that move on -/

/-- What may have become of a record between two epochs. -/
structure Validator.Onward (first last : Epoch) (v v' : Validator) : Prop where
  pubkey : v'.pubkey = v.pubkey
  withdrawalCredentials : v'.withdrawalCredentials = v.withdrawalCredentials
  slashed : v.slashed = true → v'.slashed = true
  activation : SetBetween first last v.activationEpoch v'.activationEpoch
  exit : SetBetween first last v.exitEpoch v'.exitEpoch
  /-- The validator exits only by being slashed. -/
  exit_slashed : v'.exitEpoch ≠ v.exitEpoch → v.slashed = false ∧ v'.slashed = true

namespace Validator

theorem Onward.refl (first last : Epoch) (v : Validator) : v.Onward first last v :=
  ⟨rfl, rfl, id, .inl rfl, .inl rfl, fun hne => absurd rfl hne⟩

theorem Onward.trans (h : v.Onward first last v') (h' : v'.Onward first' last' v'')
    (hfirst : first ≤ first') (hlast : last ≤ last') (hcomes : last + 2 < farFuture) :
    v.Onward first last' v'' where
  pubkey := h'.pubkey.trans h.pubkey
  withdrawalCredentials := h'.withdrawalCredentials.trans h.withdrawalCredentials
  slashed := h'.slashed ∘ h.slashed
  activation := h.activation.trans h'.activation hfirst hlast hcomes
  exit := h.exit.trans h'.exit hfirst hlast hcomes
  exit_slashed hne := by
    by_cases hkept : v'.exitEpoch = v.exitEpoch
    · obtain ⟨hbefore, hslashed⟩ := h'.exit_slashed (hkept ▸ hne)
      refine ⟨Bool.eq_false_of_not_eq_true fun hv => ?_, hslashed⟩
      rw [h.slashed hv] at hbefore
      cases hbefore
    · obtain ⟨hbefore, hslashed⟩ := h.exit_slashed hkept
      exact ⟨hbefore, h'.slashed hslashed⟩

theorem Amend.onward (hamend : v.Amend c epoch v') (hcomes : epoch + 2 < farFuture) :
    v.Onward epoch epoch v' := by
  have hset : SetBetween epoch epoch farFuture (activationExitEpoch epoch) :=
    .inr ⟨rfl, epoch, le_rfl, le_rfl, activationExitEpoch_eq hcomes⟩
  cases hamend with
  | slash hslashable =>
      have hinnocent := (active_of_isSlashableAt hslashable).1
      refine ⟨rfl, rfl, fun _ => rfl, .inl rfl, ?_, fun _ => ⟨hinnocent, rfl⟩⟩
      show SetBetween epoch epoch v.exitEpoch
        (if v.exitEpoch = farFuture then activationExitEpoch epoch else v.exitEpoch)
      split
      · next hfar => exact hfar ▸ hset
      · exact .inl rfl
  | activate hfar =>
      exact ⟨rfl, rfl, id, hfar ▸ hset, .inl rfl, fun hne => absurd rfl hne⟩
  | follow => exact ⟨rfl, rfl, id, .inl rfl, .inl rfl, fun hne => absurd rfl hne⟩

theorem Amends.onward (hamends : v.Amends c epoch v') (hcomes : epoch + 2 < farFuture) :
    v.Onward epoch epoch v' := by
  induction hamends with
  | refl => exact .refl ..
  | tail _ hamend ih => exact ih.trans (hamend.onward hcomes) le_rfl le_rfl hcomes

end Validator

/-! ## Moves and runs -/

/-- Every slot up to the horizon lies in an epoch that is followed by two others. -/
theorem Constants.epochAt_comes {slot : Slot} (hle : slot ≤ horizon) :
    c.epochAt slot + 2 < farFuture := by
  have hepoch := (Constants.epochAt_le (c := c) slot).trans hle
  calc c.epochAt slot + 2 ≤ horizon + 2 := Nat.add_le_add_right hepoch 2
    _ < farFuture := by decide

namespace Engine

theorem Move.onward (hmove : e.Move s s') (hle : s'.slot ≤ horizon) {i : ValidatorIndex}
    (hv : s.validators[i]? = some v) :
    ∃ v', s'.validators[i]? = some v' ∧
      v.Onward (s'.currentEpoch e.constants) (s'.currentEpoch e.constants) v' := by
  obtain ⟨v', hv', hamends⟩ := hmove.amended.records i v hv
  exact ⟨v', hv', hamends.onward (Constants.epochAt_comes hle)⟩

/-- A validator whose exit is set in a move is accused by the block that is applied. -/
theorem Move.accused_of_exit (hmove : e.Move s s') (hle : s'.slot ≤ horizon) {i : ValidatorIndex}
    (hv : s.validators[i]? = some v) (hv' : s'.validators[i]? = some v')
    (hexit : v'.exitEpoch ≠ v.exitEpoch) :
    ∃ b : CandidateBlock, e.applyBlock s b = .ok s' ∧ i ∈ b.accused := by
  obtain ⟨w, hw, honward⟩ := hmove.onward hle hv
  obtain rfl := Option.some.inj (hw.symm.trans hv')
  obtain ⟨hbefore, hafter⟩ := honward.exit_slashed hexit
  have hunslashed : s.isSlashed i = false := by
    rw [ChainState.isSlashed, hv]
    exact hbefore
  have hslashed : s'.isSlashed i = true := by
    rw [ChainState.isSlashed, hv']
    exact hafter
  cases hmove with
  | step hstep =>
      have h := ((step_sentenced hstep).slashed i).1 hslashed
      simp [hunslashed] at h
  | block b hblock =>
      have h := ((applyBlock_sentenced hblock).slashed i).1 hslashed
      exact ⟨b, hblock, h.resolve_left (by simp [hunslashed])⟩

/-- Along a run every record moves on in its place. -/
theorem Reaches.onward (hreach : e.Reaches s s') (hle : s'.slot ≤ horizon) {i : ValidatorIndex}
    (hv : s.validators[i]? = some v) :
    ∃ v', s'.validators[i]? = some v' ∧
      v.Onward (s.currentEpoch e.constants) (s'.currentEpoch e.constants) v' := by
  refine (hreach.invariant (P := fun t => s.slot ≤ t.slot ∧ (t.slot ≤ horizon →
    ∃ v', t.validators[i]? = some v' ∧
      v.Onward (s.currentEpoch e.constants) (t.currentEpoch e.constants) v')) ?_
    ⟨le_rfl, fun _ => ⟨v, hv, .refl ..⟩⟩).2 hle
  rintro t t' ⟨hslot, ht⟩ hmove
  have hslot' := hmove.slot_le
  refine ⟨hslot.trans hslot', fun hle' => ?_⟩
  obtain ⟨w, hw, hvw⟩ := ht (hslot'.trans hle')
  obtain ⟨w', hw', hww'⟩ := hmove.onward hle' hw
  refine ⟨w', hw', hvw.trans hww' (Constants.epochAt_mono (hslot.trans hslot'))
    (Constants.epochAt_mono hslot') (Constants.epochAt_comes (hslot'.trans hle'))⟩

/-- What records have from the first and no amendment takes from them, they have all along. -/
theorem Run.forall_validators {P : Validator → Prop} (hrun : e.Run h s)
    (amend : ∀ epoch v v', P v → v.Amend e.constants epoch v' → P v')
    (join : ∀ epoch d, P (Validator.ofDeposit e.constants epoch d))
    (hfirst : ∀ v ∈ h.first.validators, P v) : ∀ v ∈ s.validators, P v := by
  induction hrun with
  | genesis => exact hfirst
  | slot _ hstep ih =>
      exact (step_amended hstep).forall_validators (amend _) (join _) (ih hfirst)
  | block _ hblock ih =>
      exact (applyBlock_amended hblock).forall_validators (amend _) (join _) (ih hfirst)

end Engine

/-- The proposers whom the evidence in some blocks accuses, one after the other. -/
def accusedIn (blocks : List CandidateBlock) : List ValidatorIndex :=
  blocks.flatMap CandidateBlock.accused

/-- A run slashes exactly those whom its blocks accuse. -/
theorem Engine.Run.sentenced (hrun : e.Run h s) : Sentenced (accusedIn h.blocks) h.first s := by
  induction hrun with
  | genesis => exact .refl _
  | slot _ hstep ih => exact ih.trans_nil (step_sentenced hstep)
  | @block h s s' b _ hblock ih =>
      rw [Chronicle.afterBlock_blocks, accusedIn, List.flatMap_append, List.flatMap_singleton]
      exact ih.trans (applyBlock_sentenced hblock)

/-! ## The lone validator accuses itself -/

/-- Two headers of the lone validator for the first slot of all. -/
def selfEvidence : ProposerSlashing where
  header2 := { message := { bodyRoot := Bytes.fill 32 1 } }

/-- The evidence holds against the lone validator, which is active and not slashed. -/
theorem IsLone.holdsOn_selfEvidence (hlone : IsLone s) (hslot : s.slot = 1) :
    holdsOn Constants.lone s selfEvidence = true := by
  have hcheck : checkSlashing Constants.lone s selfEvidence = .ok 0 := by
    refine checkSlashing_eq_ok.2 ⟨rfl, rfl, by decide, rfl, loneVoter,
      hlone.getElem?_validators, ?_⟩
    rw [ChainState.currentEpoch, hslot]
    decide
  rw [holdsOn, hcheck]
  rfl

/-- In the first slot the lone validator can propose a block with this evidence. -/
theorem exists_lone_selfEvidence :
    ∃ t b s, Engine.step Constants.lone ChainState.lone = .ok t ∧
      Engine.lone.applyBlock t b = .ok s ∧ b.accused = [0] ∧ t.validators = #[loneVoter] := by
  obtain ⟨t, hstep, hlone, hslot, hnewer, hvotes⟩ := exists_lone_firstSlot
  let contents : BlockContents :=
    { randaoReveal := Bytes.fill 96 1, proposerSlashings := [selfEvidence] }
  obtain ⟨b, hpacks, -⟩ := hlone.isSole.exists_packed (e := Engine.lone)
    Constants.brief_lone (hslot.trans_le (by decide)) (hslot.symm ▸ hnewer) contents
    (hlone.votesStored hvotes _ (by decide)) (by decide) (hlone.isSole.depositsFollow rfl)
  obtain ⟨s, hblock⟩ := hpacks.applies
  refine ⟨t, b, s, hstep, hblock, ?_, hlone.validators⟩
  rw [CandidateBlock.accused, hpacks.proposerSlashings]
  show ((firstAgainstEach ([selfEvidence].filter (holdsOn Constants.lone t))).take 16).map _ = [0]
  rw [List.filter_singleton, hlone.holdsOn_selfEvidence hslot]
  rfl

/-! ## The theorem -/

/-- **The lifecycle of a validator only moves forward.** Take a run whose first validators have
    their epochs in order. Then those of all its states have; and effective balances stay within the
    maximum, if they did at first. The run has slashed exactly those whom its blocks accuse, each by
    one piece of evidence and none who was slashed before. No record ever moves, and what becomes of
    it is no step back: in a single slot or block its epochs are set, if at all, to the second one
    after that of the move, the exit only by a slashing in the block; and in a longer run an epoch
    that has been set once is never set again. -/
theorem lifecycle_only_forward (hrun : e.Run h s) (hfirst : ∀ v ∈ h.first.validators, v.InOrder) :
    (∀ v ∈ s.validators, v.InOrder) ∧
    ((∀ v ∈ h.first.validators, v.effectiveBalance ≤ e.constants.maxEffectiveBalance) →
      ∀ v ∈ s.validators, v.effectiveBalance ≤ e.constants.maxEffectiveBalance) ∧
    Sentenced (accusedIn h.blocks) h.first s ∧
    (∀ s', e.Move s s' → s'.slot ≤ horizon → ∀ (i : ValidatorIndex) (v : Validator),
      s.validators[i]? = some v → ∃ v', s'.validators[i]? = some v' ∧
        v.Onward (s'.currentEpoch e.constants) (s'.currentEpoch e.constants) v' ∧
        (v'.exitEpoch ≠ v.exitEpoch →
          ∃ b : CandidateBlock, e.applyBlock s b = .ok s' ∧ i ∈ b.accused)) ∧
    ∀ s' s'', e.Reaches s s' → e.Reaches s' s'' → s''.slot ≤ horizon →
      ∀ (i : ValidatorIndex) (v : Validator), s.validators[i]? = some v →
        ∃ v' v'', s'.validators[i]? = some v' ∧ s''.validators[i]? = some v'' ∧
          v.Onward (s.currentEpoch e.constants) (s'.currentEpoch e.constants) v' ∧
          v'.Onward (s'.currentEpoch e.constants) (s''.currentEpoch e.constants) v'' ∧
          (v'.activationEpoch ≠ v.activationEpoch → v''.activationEpoch = v'.activationEpoch) ∧
          (v'.exitEpoch ≠ v.exitEpoch → v''.exitEpoch = v'.exitEpoch) := by
  refine ⟨?_, fun hbalances => ?_, hrun.sentenced, ?_, ?_⟩
  · exact hrun.forall_validators (fun _ _ _ hv hamend => hv.amend hamend)
      (Validator.inOrder_ofDeposit e.constants) hfirst
  · exact hrun.forall_validators (P := (·.effectiveBalance ≤ e.constants.maxEffectiveBalance))
      (fun _ _ _ hv hamend => hamend.effectiveBalance_le hv)
      (fun _ _ => e.constants.effective_le _) hbalances
  · intro s' hmove hle i v hv
    obtain ⟨v', hv', honward⟩ := hmove.onward hle hv
    exact ⟨v', hv', honward, hmove.accused_of_exit hle hv hv'⟩
  · intro s' s'' hreach hreach' hle i v hv
    have hle' := hreach'.slot_le.trans hle
    obtain ⟨v', hv', honward⟩ := hreach.onward hle' hv
    obtain ⟨v'', hv'', honward'⟩ := hreach'.onward hle hv'
    have hcomes := Constants.epochAt_comes (c := e.constants) hle'
    exact ⟨v', v'', hv', hv'', honward, honward',
      honward.activation.settled honward'.activation hcomes,
      honward.exit.settled honward'.exit hcomes⟩

/-- The lone validator starts in order and is slashed by its own block, in which its record moves on
    in its place; afterwards it is still in order. -/
theorem lifecycle_only_forward_lone :
    ∃ t b s, Engine.step Constants.lone ChainState.lone = .ok t ∧
      Engine.lone.applyBlock t b = .ok s ∧ loneVoter.InOrder ∧
      (∀ v ∈ s.validators, v.InOrder) ∧ Sentenced [0] ChainState.lone s ∧
      ∃ v', s.validators[0]? = some v' ∧ loneVoter.Onward 1 1 v' ∧ v'.slashed = true := by
  obtain ⟨t, b, s, hstep, hblock, haccused, hvalidators⟩ := exists_lone_selfEvidence
  have hinOrder : loneVoter.InOrder := ⟨by decide, by decide⟩
  have hfirst : ∀ v ∈ ChainState.lone.validators, v.InOrder := by
    intro v hv
    obtain rfl : v = loneVoter := by simpa [isLone_genesis.validators] using hv
    exact hinOrder
  have hrun : Engine.lone.Run { first := ChainState.lone } ChainState.lone := .genesis ..
  have hrun_t := hrun.slot hstep
  have hslot : s.slot = 1 := (applyBlock_frame hblock).slot.trans (step_frame hstep).slot
  have hepoch : s.currentEpoch Constants.lone = 1 := by
    rw [ChainState.currentEpoch, Constants.epochAt_lone, hslot]
  obtain ⟨hs, -, hsentenced, -⟩ := lifecycle_only_forward (hrun_t.block hblock) hfirst
  obtain ⟨-, -, -, hmove, -⟩ := lifecycle_only_forward hrun_t hfirst
  obtain ⟨v', hv', honward, -⟩ := hmove s (.block b hblock) (hslot.trans_le (by decide)) 0 loneVoter
    (by rw [hvalidators]; rfl)
  have hdone : Sentenced [0] ChainState.lone s := by
    rw [← haccused]
    exact List.append_nil b.accused ▸ hsentenced
  refine ⟨t, b, s, hstep, hblock, hinOrder, hs, hdone, v', hv', ?_, ?_⟩
  · exact hepoch ▸ honward
  · have hslashed := (hdone.slashed 0).2 (.inr (List.mem_singleton_self 0))
    rwa [ChainState.isSlashed, hv'] at hslashed

end Beacon
