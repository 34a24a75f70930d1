import Mathlib
import Beacon.Production.Assembly
import Beacon.Proofs.Packing
import Beacon.Proofs.Progress
import Beacon.Proofs.Transition.Support
import Beacon.Proofs.Transition.Tracking

set_option autoImplicit false

/-! # Assembling gives a block or overflows

On states of any size a judgement may leave the 64-bit range. Apart from that, packing fails by the
header, the reveal or the deposits only (`createBlock_within`). So on a reachable state whose latest
block is the parent, a proposer whose sources offer the deposits that are due assembles a block
(`assembleBlock_within`), and what is assembled can be imported (`importBlock_of_assembleBlock`). -/

namespace Beacon

variable {c : Constants} {e : Engine} {s t : ChainState} {ℓ : Leeway}

/-! ## Selecting -/

/-- A judgement that rejects has answered, so only its overflows are left. -/
theorem Attempt.Within.accepted_overflow {ε ε' α : Type} {x : Attempt ε α}
    (h : x.Within .refusalOrOverflow) : (Attempt.accepted x : Attempt ε' Bool).Within .overflow := by
  rcases x with (_ | _) | _
  · trivial
  · exact h
  · trivial

theorem Attempt.accepted_eq_true {ε ε' α : Type} {x : Attempt ε α} :
    (accepted x : Attempt ε' Bool) = .ok true ↔ ∃ a, x = .ok a := by
  rcases x with (_ | _) | _ <;> simp [accepted]

theorem firstAccepted_within {α : Type} {p : α → Attempt TransitionError Bool} {xs : List α}
    (h : ∀ x ∈ xs, (p x).Within ℓ) (limit : Nat) : (Engine.firstAccepted p limit xs).Within ℓ := by
  induction xs generalizing limit with
  | nil => cases limit <;> trivial
  | cons x xs ih =>
      cases limit with
      | zero => trivial
      | succ limit =>
          have hrest := ih fun y hy => h y (List.mem_cons_of_mem _ hy)
          rw [Engine.firstAccepted]
          refine (h x (List.mem_cons_self ..)).bind fun accepted _ => ?_
          exact .ite ((hrest limit).bind fun _ _ => trivial) (hrest (limit + 1))

/-- No more are taken than allowed, and each of them was accepted. -/
theorem firstAccepted_eq_ok {α : Type} {p : α → Attempt TransitionError Bool} {xs ys : List α}
    {limit : Nat} (h : Engine.firstAccepted p limit xs = .ok ys) :
    ys.length ≤ limit ∧ ∀ y ∈ ys, p y = .ok true := by
  induction xs generalizing limit ys with
  | nil =>
      have hnil : ys = [] := by cases limit <;> exact (Except.ok.inj h).symm
      subst hnil
      exact ⟨Nat.zero_le _, fun y hy => absurd hy List.not_mem_nil⟩
  | cons x xs ih =>
      cases limit with
      | zero =>
          obtain rfl := Except.ok.inj h
          exact ⟨le_rfl, fun y hy => absurd hy List.not_mem_nil⟩
      | succ limit =>
          rw [Engine.firstAccepted, Attempt.bind_eq_ok] at h
          obtain ⟨accepted, hx, h⟩ := h
          cases accepted with
          | true =>
              rw [if_pos rfl, Attempt.bind_eq_ok] at h
              obtain ⟨rest, hrest, h⟩ := h
              rw [Attempt.pure_eq_ok] at h
              subst h
              obtain ⟨hlength, hall⟩ := ih hrest
              exact ⟨Nat.succ_le_succ hlength, List.forall_mem_cons.2 ⟨hx, hall⟩⟩
          | false =>
              rw [if_neg Bool.false_ne_true] at h
              exact ih h

theorem selectDeposits_within (contents : BlockContents) :
    (Engine.selectDeposits c s contents).Within .overflow := by
  refine Attempt.Within.bind ?_ fun _ _ => trivial
  refine (Word.add_within (Or.inl rfl)).bind fun _ _ => ?_
  refine (Word.mul_within (Or.inl rfl)).bind fun _ _ => ?_
  exact (Word.mul_within (Or.inl rfl)).bind fun _ _ => trivial

/-! ## Packing -/

variable {proposer : ValidatorIndex} {parent : Root} {contents : BlockContents}

/-- Where the proposer may propose and the due deposits are offered, nothing but an overflow stands
    in the way of a block. -/
theorem createBlock_within (hlimit : s.slot < Word.limit)
    (hmay : MayPropose e.constants s proposer parent)
    (hreveal : contents.randaoReveal ≠ Bytes.zero 96)
    (hfollow : DepositsFollow e.constants s contents) :
    (e.createBlock s proposer parent contents).Within .overflow := by
  have hjudged : ∀ a ∈ contents.attestations, (e.isIncludable s a).Within .overflow :=
    fun a _ => (checkAttestation_within e.consistent trivial (Or.inl rfl) a).accepted_overflow
  rw [Engine.createBlock, selectSlashings_nil, Attempt.ok_bind]
  refine (firstAccepted_within hjudged _).bind fun attestations hattestations => ?_
  refine (selectDeposits_within contents).lift.bind fun deposits hdeposits => ?_
  obtain ⟨hlength, hall⟩ := firstAccepted_eq_ok hattestations
  obtain ⟨hvote, rfl⟩ := selectDeposits_eq_ok.1 (Attempt.liftM_eq_ok.1 hdeposits)
  refine Attempt.Within.bind (.widen _ ?_) fun _ _ => trivial
  rw [processBlock_eq e.consistent rfl hmay hreveal hvote]
  -- All that has been selected holds; the deposits are those of the packed block.
  have hpacked := packed_operationsHold proposer parent hfollow
  refine applyOperations_within e.consistent hmay hlimit
    ⟨⟨hpacked.maxima.proposerSlashings, hlength, hpacked.maxima.deposits⟩, hpacked.slashings,
      hpacked.distinct, fun a ha => ?_, hpacked.due, hpacked.indices⟩ (Or.inl rfl) (Or.inl rfl)
  obtain ⟨_, hcheck⟩ := Attempt.accepted_eq_true.1 (hall a ha)
  exact hcheck

/-- A packed block carries the vote that was offered, and applies. -/
theorem applyBlock_of_createBlock {b : CandidateBlock}
    (h : e.createBlock s proposer parent contents = .ok b) :
    b.slot = s.slot ∧ b.body.externalData = contents.externalData ∧
      ∃ post, e.applyBlock s b = .ok post := by
  simp only [Engine.createBlock, Attempt.bind_eq_ok, Attempt.widen_eq_ok, Attempt.pure_eq_ok] at h
  obtain ⟨_, -, _, -, _, -, post, hpost, rfl⟩ := h
  exact ⟨rfl, rfl, post, applyBlock_eq_ok.2 ⟨(processBlock_stateRoot _ _).trans hpost, rfl⟩⟩

/-! ## Assembling -/

variable {p : ProductionConfig} {sources : BlockSources} {block : CandidateBlock} {slot : Slot}
  {reveal : Signature}

/-- What a slot has to bring for a block: active validators, and a proposer that is not slashed. -/
structure ProposerReady (e : Engine) (s : ChainState) (slot : Slot) : Prop where
  active : s.activeIndices (e.constants.epochAt slot) ≠ []
  unslashed : ∀ proposer, e.proposer s slot = .ok proposer → s.isUnslashed proposer = true

/-- The only active validator is the proposer; it is ready unless it is slashed. -/
theorem proposerReady_of_single (hrings : RingsFit e.constants s) (hslot : s.slot = slot)
    (hhorizon : slot ≤ horizon) (hactive : s.activeIndices (e.constants.epochAt slot) = [proposer])
    (hunslashed : s.isUnslashed proposer = true) :
    e.proposer s slot = .ok proposer ∧ ProposerReady e s slot := by
  subst hslot
  have hproposer : e.proposer s s.slot = .ok proposer :=
    Attempt.widen_eq_ok.2 (proposerOf_single e.consistent hrings hhorizon hactive)
  refine ⟨hproposer, ?_, fun other hother => ?_⟩
  · rw [hactive]
    exact List.cons_ne_nil _ _
  · obtain rfl : proposer = other := Except.ok.inj (hproposer.symm.trans hother)
    exact hunslashed

/-- The sources offer the deposits that are due once their own vote is counted. -/
def BlockSources.Suffice (sources : BlockSources) (c : Constants) (s : ChainState) : Prop :=
  DepositsFollow c s { externalData := sources.vote s, deposits := sources.deposits s }

/-- The proposer of a later slot may propose a child of the latest block. -/
theorem mayPropose_of_advance (hreach : e.Reachable s) (hheaded : HeadedBy s block)
    (hroot : s.slot + 1 < slot → block.stateRoot ≠ Root.none) (hlt : s.slot < slot)
    (ht : e.advance s slot = .ok t) (hready : ProposerReady e t slot)
    (hproposer : e.proposer t slot = .ok proposer) :
    MayPropose e.constants t proposer block.root := by
  have hcoherent := (hreach.reaches (.of_advance ht)).coherent
  have hheader := hheaded.latest_of_advance hlt hroot ht
  have hslot : t.slot = slot := advance_slot ht
  refine ⟨hcoherent.rings, hcoherent.sizes, ?_, ?_, ?_, ?_⟩
  · rw [hheader, hslot]
    exact hheaded.slot_le.trans_lt hlt
  · rw [hslot]
    exact Attempt.widen_eq_ok.1 hproposer
  · rw [hheader]
    rfl
  · exact ChainState.isUnslashed_iff.1 (hready.unslashed proposer hproposer)

/-- On top of its latest block a reachable state has a block for any later slot, unless a number
    overflows. -/
theorem assembleBlock_within (hreach : e.Reachable s) (hheaded : HeadedBy s block)
    (hroot : s.slot + 1 < slot → block.stateRoot ≠ Root.none) (hlt : s.slot < slot)
    (hlimit : slot < Word.limit) (hreveal : reveal ≠ Bytes.zero 96)
    (hready : ∀ t, e.advance s slot = .ok t → ProposerReady e t slot)
    (hsuffice : ∀ t, e.advance s slot = .ok t → sources.Suffice e.constants t) :
    (assembleBlock e p sources s block slot reveal).Within .overflow := by
  refine (hreach.advance_within hlt.le hlimit).bind fun t ht => ?_
  have hslot : t.slot = slot := advance_slot ht
  have hmixes := (hreach.reaches (.of_advance ht)).coherent.rings.randaoMixes_pos e.consistent
  have hwindow : InWindow e.constants t (e.constants.epochAt slot) := hslot ▸ inWindow_slot ..
  refine ((proposerOf_within e.consistent (Or.inl rfl)
    (Or.inr ⟨⟨hwindow, hmixes⟩, (hready t ht).active⟩)).widen _).bind fun proposer hproposer => ?_
  exact createBlock_within (by lia)
    (mayPropose_of_advance hreach hheaded hroot hlt ht (hready t ht) hproposer) hreveal
    (hsuffice t ht)

/-- Where numbers are moderate, nothing overflows either. -/
theorem exists_assembleBlock (ht : e.advance s slot = .ok t)
    (hproposer : e.proposer t slot = .ok proposer)
    (hmay : MayPropose e.constants t proposer block.root) (hmoderate : Moderate e.constants t)
    (hstored : VotesStored t (sources.vote t)) (hreveal : reveal ≠ Bytes.zero 96)
    (hsuffice : sources.Suffice e.constants t) :
    ∃ b, assembleBlock e p sources s block slot reveal = .ok b := by
  simp only [assembleBlock, ht, hproposer, Attempt.ok_bind]
  exact (exists_createBlock hmoderate hstored).2 ⟨hmay, hreveal, hsuffice⟩

/-- What is assembled carries the vote of its sources, and can be imported. -/
theorem importBlock_of_assembleBlock {b : CandidateBlock}
    (h : assembleBlock e p sources s block slot reveal = .ok b) :
    (∃ t, e.advance s slot = .ok t ∧ b.body.externalData = sources.vote t) ∧
      ∃ post, e.importBlock s b = .ok post := by
  simp only [assembleBlock, Attempt.bind_eq_ok] at h
  obtain ⟨t, ht, proposer, -, hb⟩ := h
  obtain ⟨hslot, hvote, post, hpost⟩ := applyBlock_of_createBlock hb
  have hadvance : e.advance s b.slot = .ok t := by
    rw [hslot, advance_slot ht]
    exact ht
  exact ⟨⟨t, ht, hvote⟩, post, importBlock_eq_ok.2 ⟨t, hadvance, hpost⟩⟩

end Beacon
