import Mathlib
import Beacon.Node.BeaconNode
import Beacon.Proofs.Advancing

set_option autoImplicit false

/-! # The heads of a node and the chains that go on from them

A node answers for a slot with the state of its head, advanced to the slot if this lies ahead. Its
head is the first block or a block on top of an earlier head (`ChainHead.Reachable`); only a block
that is published changes it (`BeaconNode.answer_reachable`). `h.LeadsTo e slot s` says that the
chain may become `s` once the head has answered for a slot: blocks may follow, but none for a slot up
to that one. A head at a later slot sees to this itself, so that in both cases the state that has
answered is followed by later blocks only (`LeadsTo.exists_answer`). -/

namespace Beacon

variable {e : Engine} {h h' : ChainHead} {slot : Slot} {s s' t : ChainState} {b : CandidateBlock}

/-! ## Heads -/

/-- A head that a node can have: the first block, or a block on top of such a head. -/
inductive ChainHead.Reachable (e : Engine) : ChainHead → Prop where
  | genesis {first : ChainState} (time : Nat) (validators : List Validator) (data : ExternalData)
      (fork : Fork) (hfirst : first = ChainState.genesis e.constants time validators data fork) :
      Reachable e ⟨first, .genesis (hashRoot first)⟩
  | extend {h h' : ChainHead} (b : CandidateBlock) (hreach : Reachable e h)
      (hextend : h.extend e b = .ok h') : Reachable e h'

theorem ChainHead.extend_eq_ok :
    h.extend e b = .ok h' ↔ e.importBlock h.state b = .ok h'.state ∧ h'.block = b := by
  simp only [ChainHead.extend, Attempt.bind_eq_ok, Attempt.widen_eq_ok, Attempt.pure_eq_ok]
  constructor
  · rintro ⟨s, himport, rfl⟩
    exact ⟨himport, rfl⟩
  · rintro ⟨himport, rfl⟩
    exact ⟨h'.state, himport, rfl⟩

/-- The state of a head is a reachable one, at the slot of its latest header. -/
theorem ChainHead.Reachable.state (hreach : h.Reachable e) :
    e.Reachable h.state ∧ h.state.latestBlockHeader.slot = h.state.slot := by
  induction hreach with
  | genesis time validators data fork hfirst =>
      subst hfirst
      exact ⟨⟨time, validators, data, fork, .refl _⟩, rfl⟩
  | extend b _ hextend ih =>
      obtain ⟨himport, -⟩ := ChainHead.extend_eq_ok.1 hextend
      refine ⟨ih.1.reaches (.of_importBlock himport), ?_⟩
      obtain ⟨t, -, hblock⟩ := importBlock_eq_ok.1 himport
      have hframe := applyBlock_frame hblock
      rw [hframe.frame.latestBlockHeader, hframe.slot]
      exact hframe.blockSlot

/-- A node is created with the head of its genesis. -/
theorem BeaconNode.create_reachable {config : NodeConfig} {g : Genesis} {chain : DevDepositChain}
    {time count requests : Nat} {log : DepositLog} {n : BeaconNode}
    (hbuild : Genesis.build e.constants time count log = .ok g)
    (hcreate : BeaconNode.create config e g chain requests = .ok n) : n.head.Reachable n.engine := by
  simp only [BeaconNode.create, Attempt.bind_eq_ok, Attempt.pure_eq_ok] at hcreate
  obtain ⟨_, -, rfl⟩ := hcreate
  simp only [Genesis.build, Attempt.bind_eq_ok, Attempt.pure_eq_ok] at hbuild
  obtain ⟨-, -, -, -, -, -, rfl⟩ := hbuild
  exact .genesis time _ _ _ rfl

/-- No call takes the head of a node anywhere else. -/
theorem BeaconNode.answer_reachable {n : BeaconNode} (hreach : n.head.Reachable n.engine)
    (call : ApiCall) : (n.answer call).2.head.Reachable (n.answer call).2.engine := by
  cases call with
  | publishBlock b =>
      simp only [BeaconNode.answer]
      split
      · next n' hpublish =>
          simp only [BeaconNode.publishBlock, Attempt.bind_eq_ok, Attempt.pure_eq_ok] at hpublish
          obtain ⟨-, -, head, hextend, rfl⟩ := hpublish
          exact hreach.extend b.message hextend
      · exact hreach
  | _ => exact hreach

/-! ## Calls with later blocks only -/

/-- A call that moves a chain, with a block for a later slot than the given one if with any. -/
inductive Engine.LaterCall (e : Engine) (slot : Slot) (s s' : ChainState) : Prop where
  | advance (target : Slot) (h : e.advance s target = .ok s')
  | importBlock (b : CandidateBlock) (hlater : slot < b.slot) (h : e.importBlock s b = .ok s')

/-- Some sequence of successful calls leads from `s` to `s'`, with blocks for later slots only. -/
def Engine.ReachesAfter (e : Engine) (slot : Slot) (s s' : ChainState) : Prop :=
  Relation.ReflTransGen (e.LaterCall slot) s s'

namespace Engine.ReachesAfter

theorem reaches (hreach : e.ReachesAfter slot s s') : e.Reaches s s' := by
  refine Relation.ReflTransGen.mono (fun t t' hcall => ?_) s s' hreach
  cases hcall with
  | advance target hadvance => exact .advance target hadvance
  | importBlock b _ himport => exact .importBlock b himport

/-- What every slot keeps, and every block that is applied after the given slot, all these calls
    keep. -/
theorem invariant {P : ChainState → Prop} (hreach : e.ReachesAfter slot s s')
    (step : ∀ s s', P s → Engine.step e.constants s = .ok s' → P s')
    (block : ∀ s s' b, P s → slot < s.slot → e.applyBlock s b = .ok s' → P s') (hs : P s) :
    P s' := by
  induction hreach with
  | refl => exact hs
  | tail _ hcall ih =>
      cases hcall with
      | advance target hadvance => exact stepBy_invariant step ih (advance_eq_ok.1 hadvance).2
      | importBlock b hlater himport =>
          obtain ⟨t, hadvance, hblock⟩ := importBlock_eq_ok.1 himport
          refine block t _ b (stepBy_invariant step ih (advance_eq_ok.1 hadvance).2) ?_ hblock
          rw [advance_slot hadvance]
          exact hlater

end Engine.ReachesAfter

/-- Once a slot is over or has its block, only blocks for later slots can follow. -/
theorem Engine.Reaches.after (hreach : e.Reaches s s')
    (hover : slot < s.slot ∨ slot ≤ s.latestBlockHeader.slot) : e.ReachesAfter slot s s' := by
  suffices hall : (slot < s'.slot ∨ slot ≤ s'.latestBlockHeader.slot) ∧ e.ReachesAfter slot s s'
    from hall.2
  induction hreach with
  | refl => exact ⟨hover, .refl⟩
  | @tail s₁ s₂ _ hcall ih =>
      obtain ⟨hover, hafter⟩ := ih
      cases hcall with
      | advance target hadvance =>
          refine ⟨?_, hafter.tail (.advance target hadvance)⟩
          rw [advance_latestBlockHeader_slot hadvance]
          exact hover.imp_left fun hlt => hlt.trans_le (Engine.Reaches.of_advance hadvance).slot_le
      | importBlock b himport =>
          obtain ⟨t, hadvance, hblock⟩ := importBlock_eq_ok.1 himport
          have hframe := applyBlock_frame hblock
          -- The block is for the slot that has been advanced to, and newer than the header.
          have hslot : s₁.slot ≤ t.slot := (Engine.Reaches.of_advance hadvance).slot_le
          have hnewer : s₁.latestBlockHeader.slot < t.slot :=
            advance_latestBlockHeader_slot hadvance ▸ hframe.may.newer
          have hlater : slot < t.slot := by lia
          exact ⟨Or.inl (hframe.slot ▸ hlater),
            hafter.tail (.importBlock b (hframe.blockSlot ▸ hlater) himport)⟩

/-! ## After the head has answered for a slot -/

theorem ChainHead.stateAt_eq_ok :
    h.stateAt e slot = .ok t ↔
      slot ≤ h.state.slot ∧ h.state = t ∨
        h.state.slot < slot ∧ e.advance h.state slot = .ok t := by
  unfold ChainHead.stateAt
  split
  · next hle => simp [hle]
  · next hlt => simp [hlt, Nat.lt_of_not_le hlt]

/-- The state that answers for a slot is a reachable one, and not before the slot. -/
theorem ChainHead.Reachable.stateAt (hreach : h.Reachable e) (hstate : h.stateAt e slot = .ok t) :
    e.Reachable t ∧ slot ≤ t.slot := by
  obtain ⟨hreachable, -⟩ := hreach.state
  rcases ChainHead.stateAt_eq_ok.1 hstate with ⟨hle, rfl⟩ | ⟨-, hadvance⟩
  · exact ⟨hreachable, hle⟩
  · exact ⟨hreachable.reaches (.of_advance hadvance), (advance_slot hadvance).ge⟩

/-- A head that answers for a slot answers for every earlier one. -/
theorem ChainHead.exists_stateAt {earlier : Slot} (hle : earlier ≤ slot)
    (ht : h.stateAt e slot = .ok t) : ∃ s, h.stateAt e earlier = .ok s := by
  by_cases hbehind : earlier ≤ h.state.slot
  · exact ⟨h.state, ChainHead.stateAt_eq_ok.2 (Or.inl ⟨hbehind, rfl⟩)⟩
  · have hahead := Nat.lt_of_not_le hbehind
    obtain ⟨hlate, -⟩ | ⟨-, hadvance⟩ := ChainHead.stateAt_eq_ok.1 ht
    · exact absurd (hle.trans hlate) hbehind
    · rw [advance_eq_bind hahead.le hle, Attempt.bind_eq_ok] at hadvance
      obtain ⟨s, hs, -⟩ := hadvance
      exact ⟨s, ChainHead.stateAt_eq_ok.2 (Or.inr ⟨hahead, hs⟩)⟩

/-- A head answers for a later slot with a later state of the same chain. -/
theorem ChainHead.stateAt_reaches {earlier : Slot} (hle : earlier ≤ slot)
    (hs : h.stateAt e earlier = .ok s) (ht : h.stateAt e slot = .ok t) : e.Reaches s t := by
  rcases ChainHead.stateAt_eq_ok.1 hs with ⟨-, rfl⟩ | ⟨hahead, hadvance⟩
  · rcases ChainHead.stateAt_eq_ok.1 ht with ⟨-, rfl⟩ | ⟨-, hadvance'⟩
    · exact .refl _
    · exact .of_advance hadvance'
  · rcases ChainHead.stateAt_eq_ok.1 ht with ⟨hbehind, -⟩ | ⟨-, hadvance'⟩
    · exact absurd (hahead.trans_le (hle.trans hbehind)) (Nat.lt_irrefl _)
    · exact .of_advance ((advance_of_advance hle hadvance).trans hadvance')

/-- Once the head has answered for a slot, the chain may become `s`: from the head advanced to the
    slot if it lies ahead, with blocks for later slots only, and from the head itself otherwise. -/
inductive ChainHead.LeadsTo (h : ChainHead) (e : Engine) (slot : Slot) (s : ChainState) : Prop where
  | ahead {t : ChainState} (hlt : h.state.slot < slot) (hadvance : e.advance h.state slot = .ok t)
      (hreach : e.ReachesAfter slot t s)
  | behind (hle : slot ≤ h.state.slot) (hreach : e.Reaches h.state s)

/-- In both cases later blocks follow on the state that has answered. -/
theorem ChainHead.LeadsTo.exists_answer (hleads : h.LeadsTo e slot s) (hreach : h.Reachable e) :
    ∃ t, h.stateAt e slot = .ok t ∧ e.ReachesAfter slot t s := by
  cases hleads with
  | ahead hlt hadvance hafter =>
      exact ⟨_, ChainHead.stateAt_eq_ok.2 (Or.inr ⟨hlt, hadvance⟩), hafter⟩
  | behind hle hrun =>
      refine ⟨h.state, ChainHead.stateAt_eq_ok.2 (Or.inl ⟨hle, rfl⟩), hrun.after (Or.inr ?_)⟩
      exact hle.trans hreach.state.2.ge

/-- From a later slot on every block is a later one, so that the chain may go on in any way. -/
theorem ChainHead.LeadsTo.extend (hleads : h.LeadsTo e slot s) (hlater : slot < s.slot)
    (hrun : e.Reaches s s') : h.LeadsTo e slot s' := by
  cases hleads with
  | ahead hlt hadvance hafter =>
      exact .ahead hlt hadvance (hafter.trans (hrun.after (Or.inl hlater)))
  | behind hle hbefore => exact .behind hle (hbefore.trans hrun)

end Beacon
