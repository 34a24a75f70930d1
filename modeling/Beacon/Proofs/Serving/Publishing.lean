import Mathlib
import Beacon.Proofs.History
import Beacon.Proofs.Production.Counts
import Beacon.Proofs.Serving.Heads
import Beacon.Proofs.Transition.Ordering

set_option autoImplicit false

/-! # Publishing and the head

The head of a node is the latest block of its state, at the slot of the state (`ChainHead.Fits`):
assembling advances this state, importing advances it once more, and both come to the same parent.
Of all calls only a block that is published and accepted takes over as head (`publishBlock_eq_ok`,
`answer_of_ne`), and it follows the old one (`ChainHead.Fits.follows`). `Announces` reads off what
the bus gets from the heads that a node takes over; finalization only moves forward on a chain, so
each announced checkpoint is of a later epoch than those before (`Announces.increasing`). -/

namespace Beacon

variable {e : Engine} {h h' : ChainHead} {b : CandidateBlock}

/-! ## Heads -/

namespace ChainHead

/-- The block of a head is the latest one of its state, which is at the slot of the block. -/
structure Fits (h : ChainHead) : Prop where
  headed : HeadedBy h.state h.block
  slot_eq : h.state.slot = h.block.slot

/-- What a child of a head names as its parent is the block of the head. -/
theorem Fits.blockRootAt? (hfits : h.Fits) (e : Engine) :
    e.blockRootAt? h.state h.block.slot = some h.block.root := by
  rw [Engine.blockRootAt?, if_pos hfits.slot_eq.symm, hfits.headed.filled]
  rfl

theorem fits_of_extend (hextend : h.extend e b = .ok h') : h'.Fits := by
  obtain ⟨himport, rfl⟩ := extend_eq_ok.1 hextend
  obtain ⟨t, -, hblock⟩ := importBlock_eq_ok.1 himport
  have hframe := applyBlock_frame hblock
  exact ⟨.of_applyBlock hblock, hframe.slot.trans hframe.blockSlot.symm⟩

theorem Reachable.fits (hreach : h.Reachable e) : h.Fits := by
  cases hreach with
  | genesis time validators data fork hfirst =>
      subst hfirst
      exact ⟨headedBy_genesis .., rfl⟩
  | extend b _ hextend => exact fits_of_extend hextend

/-- An accepted block is a later child of the block of the head. -/
theorem Fits.follows (hfits : h.Fits) (hroot : h.block.stateRoot ≠ Root.none)
    (hextend : h.extend e b = .ok h') : Follows h.block b := by
  obtain ⟨himport, -⟩ := extend_eq_ok.1 hextend
  obtain ⟨t, hadvance, hblock⟩ := importBlock_eq_ok.1 himport
  have hframe := applyBlock_frame hblock
  have hslot : t.slot = b.slot := advance_slot hadvance
  have hlater : h.block.slot < b.slot := by
    have hnewer := hframe.may.newer
    rwa [advance_latestBlockHeader_slot hadvance, hfits.headed.latest_slot, hslot] at hnewer
  refine ⟨hlater, ?_⟩
  rw [hframe.may.parent_eq,
    hfits.headed.latest_of_advance (hfits.slot_eq ▸ hlater) (fun _ => hroot) hadvance]
  rfl

/-- A chain never takes back what it has finalized. -/
theorem Reachable.finalized_le (hreach : h.Reachable e) (hextend : h.extend e b = .ok h') :
    h.state.finalized.epoch ≤ h'.state.finalized.epoch := by
  obtain ⟨himport, -⟩ := extend_eq_ok.1 hextend
  have hrun : e.Reaches h.state h'.state := .of_importBlock himport
  exact (hreach.state.1.ordered.reaches hrun).2.finalized

end ChainHead

/-! ## Single calls -/

namespace BeaconNode

variable {n n' : BeaconNode} {call : ApiCall} {signed : SignedBlock}

/-- A block that is published has to be signed and to extend the head, which it then takes over. -/
theorem publishBlock_eq_ok :
    n.publishBlock signed = .ok n' ↔
      signed.signature ≠ Bytes.zero 96 ∧
        ∃ head, n.head.extend n.engine signed.message = .ok head ∧ n.adopt head = n' := by
  simp only [publishBlock, Attempt.bind_eq_ok, Attempt.require_eq_ok, Attempt.pure_eq_ok,
    exists_const]

/-- A call is refused as a whole. -/
theorem answer_of_error {f : Failure ApiError} (h : (n.answer call).1 = .error f) :
    (n.answer call).2 = n := by
  cases call with
  | publishBlock signed =>
      simp only [answer] at h ⊢
      split at h
      · cases h
      · rfl
  | _ => first | rfl | cases h

/-- Only a block that is published can change the head or the bus. -/
theorem answer_of_ne (hcall : ∀ signed, call ≠ .publishBlock signed) :
    (n.answer call).2.head = n.head ∧ (n.answer call).2.bus = n.bus := by
  cases call with
  | publishBlock signed => exact absurd rfl (hcall signed)
  | _ => exact ⟨rfl, rfl⟩

theorem answer_publishBlock_eq_ok :
    (n.answer (.publishBlock signed)).1 = .ok () ↔ ∃ n', n.publishBlock signed = .ok n' := by
  simp only [answer]
  split
  · next hpublish => simp [hpublish]
  · next hpublish => simp [hpublish]

@[simp] theorem answer_engine (n : BeaconNode) (call : ApiCall) :
    (n.answer call).2.engine = n.engine := by
  cases call with
  | publishBlock signed =>
      simp only [answer]
      split
      · next hpublish =>
          obtain ⟨-, head, -, rfl⟩ := publishBlock_eq_ok.1 hpublish
          rfl
      · rfl
  | _ => rfl

/-- The head that a call brings, if any. -/
def brings (n : BeaconNode) : ApiCall → List ChainHead
  | .publishBlock signed =>
    match n.publishBlock signed with
    | .ok n' => [n'.head]
    | .error _ => []
  | _ => []

/-- A call brings no head and leaves head and bus as they were, or it brings one on top of the
    present one, which is adopted. -/
theorem brings_cases (n : BeaconNode) (call : ApiCall) :
    (n.brings call = [] ∧ (n.answer call).2.head = n.head ∧ (n.answer call).2.bus = n.bus) ∨
    ∃ b head, n.head.extend n.engine b = .ok head ∧ n.brings call = [head] ∧
      (n.answer call).2 = n.adopt head := by
  cases call with
  | publishBlock signed =>
      cases hpublish : n.publishBlock signed with
      | ok n' =>
          obtain ⟨-, head, hextend, rfl⟩ := publishBlock_eq_ok.1 hpublish
          refine Or.inr ⟨signed.message, head, hextend, ?_, ?_⟩
          · rw [brings, hpublish]
            rfl
          · rw [answer, hpublish]
      | error f =>
          refine Or.inl ⟨?_, ?_, ?_⟩
          · rw [brings, hpublish]
          · rw [answer, hpublish]
          · rw [answer, hpublish]
  | _ => exact Or.inl ⟨rfl, rfl, rfl⟩

/-! ## Sequences of calls -/

/-- The node after some calls, the first one first. -/
def after (n : BeaconNode) (calls : List ApiCall) : BeaconNode :=
  calls.foldl (fun n call => (n.answer call).2) n

/-- The heads that some calls bring, the first one first. -/
def accepted (n : BeaconNode) : List ApiCall → List ChainHead
  | [] => []
  | call :: calls => n.brings call ++ (n.answer call).2.accepted calls

theorem after_cons (n : BeaconNode) (call : ApiCall) (calls : List ApiCall) :
    n.after (call :: calls) = (n.answer call).2.after calls := rfl

theorem after_append (n : BeaconNode) (calls later : List ApiCall) :
    n.after (calls ++ later) = (n.after calls).after later :=
  List.foldl_append

@[simp] theorem after_engine (n : BeaconNode) (calls : List ApiCall) :
    (n.after calls).engine = n.engine := by
  induction calls generalizing n with
  | nil => rfl
  | cons call calls ih => rw [after_cons, ih, answer_engine]

theorem after_reachable (hreach : n.head.Reachable n.engine) (calls : List ApiCall) :
    (n.after calls).head.Reachable (n.after calls).engine := by
  induction calls generalizing n with
  | nil => exact hreach
  | cons call calls ih => exact ih (answer_reachable hreach call)

/-- Until a call brings another head the node keeps the one it has. -/
theorem after_head {calls : List ApiCall} (hnone : n.accepted calls = []) :
    (n.after calls).head = n.head := by
  induction calls generalizing n with
  | nil => rfl
  | cons call calls ih =>
      obtain ⟨hcall, hcalls⟩ := List.append_eq_nil_iff.1 hnone
      rcases n.brings_cases call with ⟨-, hhead, -⟩ | ⟨b, head, -, hbrings, -⟩
      · rw [after_cons, ih hcalls, hhead]
      · rw [hbrings] at hcall
        exact absurd hcall (List.cons_ne_nil _ _)

/-- The heads of a node extend one another, so that finalization moves forward with them. -/
theorem isChain_accepted (hreach : n.head.Reachable n.engine) (calls : List ApiCall) :
    (n.head :: n.accepted calls).IsChain
      fun h h' => h.state.finalized.epoch ≤ h'.state.finalized.epoch := by
  induction calls generalizing n with
  | nil => exact .singleton _
  | cons call calls ih =>
      have hrest := ih (answer_reachable hreach call)
      rw [accepted]
      rcases n.brings_cases call with ⟨hnone, hhead, -⟩ | ⟨b, head, hextend, hbrings, hadopt⟩
      · rw [hnone, List.nil_append, ← hhead]
        exact hrest
      · rw [hbrings, List.singleton_append]
        refine List.isChain_cons_cons.2 ⟨hreach.finalized_le hextend, ?_⟩
        rw [hadopt] at hrest ⊢
        exact hrest

end BeaconNode

/-! ## Announcements -/

/-- The epoch that an event announces as finalized. -/
def ChainEvent.finalizedEpoch? : ChainEvent → Option Epoch
  | .checkpointFinalized checkpoint => some checkpoint.epoch
  | _ => none

/-- What is announced for heads that follow `h`: each of their blocks, and right after it the
    finalized checkpoint, if it is of a later epoch than that of the head before. -/
inductive Announces : ChainHead → List ChainHead → List ChainEvent → Prop where
  | none (h : ChainHead) : Announces h [] []
  | kept {h h' : ChainHead} {heads : List ChainHead} {events : List ChainEvent}
      (hkept : h'.state.finalized.epoch ≤ h.state.finalized.epoch)
      (hrest : Announces h' heads events) :
      Announces h (h' :: heads)
        (.blockImported h'.block.slot h'.block.root h'.block.proposerIndex :: events)
  | raised {h h' : ChainHead} {heads : List ChainHead} {events : List ChainEvent}
      (hraised : h.state.finalized.epoch < h'.state.finalized.epoch)
      (hrest : Announces h' heads events) :
      Announces h (h' :: heads)
        (.blockImported h'.block.slot h'.block.root h'.block.proposerIndex ::
          .checkpointFinalized h'.state.finalized :: events)

theorem Announces.news {heads : List ChainHead} {events : List ChainEvent}
    (hrest : Announces h' heads events) : Announces h (h' :: heads) (h.news h' ++ events) := by
  rw [ChainHead.news]
  split
  · next hraised => exact .raised hraised hrest
  · next hkept => exact .kept (Nat.le_of_not_lt hkept) hrest

/-- Where finalization does not move back, each announced checkpoint is of a later epoch than those
    before it. -/
theorem Announces.increasing {heads : List ChainHead} {events : List ChainEvent}
    (h : Announces h' heads events)
    (hmono : (h' :: heads).IsChain fun h h' => h.state.finalized.epoch ≤ h'.state.finalized.epoch) :
    (h'.state.finalized.epoch :: events.filterMap ChainEvent.finalizedEpoch?).Pairwise (· < ·) := by
  induction h with
  | none h => simp
  | kept hkept _ ih =>
      obtain ⟨hle, hmono⟩ := List.isChain_cons_cons.1 hmono
      rw [le_antisymm hle hkept]
      exact ih hmono
  | raised hraised _ ih =>
      have hrest := ih (List.isChain_cons_cons.1 hmono).2
      exact List.pairwise_cons_cons_iff_of_trans.2 ⟨hraised, hrest⟩

namespace BeaconNode

variable {n : BeaconNode}

/-- The bus gets what there is to announce for the heads that calls bring. -/
theorem exists_announced (n : BeaconNode) (calls : List ApiCall) :
    ∃ events, Announces n.head (n.accepted calls) events ∧
      (n.after calls).bus = events.foldl EventBus.publish n.bus := by
  induction calls generalizing n with
  | nil => exact ⟨[], .none _, rfl⟩
  | cons call calls ih =>
      obtain ⟨events, hannounces, hbus⟩ := ih (n.answer call).2
      rw [after_cons, accepted]
      rcases n.brings_cases call with ⟨hnone, hhead, hsame⟩ | ⟨b, head, -, hbrings, hadopt⟩
      · rw [hhead] at hannounces
        rw [hsame] at hbus
        exact ⟨events, by rwa [hnone], hbus⟩
      · rw [hadopt] at hannounces hbus ⊢
        refine ⟨n.head.news head ++ events, ?_, ?_⟩
        · rw [hbrings]
          exact hannounces.news
        · rw [List.foldl_append, hbus]
          rfl

/-! ## The head stays consistent -/

theorem createBlock_eq_ok {n : BeaconNode} {slot : Slot} {reveal : Signature} {b : CandidateBlock} :
    n.createBlock slot reveal = .ok b ↔ n.head.block.slot < slot ∧
      assembleBlock n.engine n.production n.sources n.head.state n.head.block slot reveal
        = .ok b := by
  simp only [createBlock, Attempt.bind_eq_ok, Attempt.require_eq_ok, Attempt.widen_eq_ok,
    exists_const]

/-- A block that the node has assembled is accepted once it is signed, as long as the head is the
    one that it was assembled on. -/
theorem exists_publishBlock {n n' : BeaconNode} {slot : Slot} {reveal signature : Signature}
    {b : CandidateBlock} (hb : n.createBlock slot reveal = .ok b) (hengine : n'.engine = n.engine)
    (hhead : n'.head = n.head) (hsigned : signature ≠ Bytes.zero 96) :
    ∃ n'', n'.publishBlock ⟨b, signature⟩ = .ok n'' := by
  obtain ⟨-, post, hpost⟩ := importBlock_of_assembleBlock (createBlock_eq_ok.1 hb).2
  have hextend : n'.head.extend n'.engine b = .ok ⟨post, b⟩ := by
    rw [hhead, hengine]
    exact ChainHead.extend_eq_ok.2 ⟨hpost, rfl⟩
  exact ⟨_, publishBlock_eq_ok.2 ⟨hsigned, _, hextend, rfl⟩⟩

/-- **The head of a node is always consistent.** Whatever is asked of a node from its first head on,
    the state of the head is at the slot of the head's block and answers for this slot with the root
    of the block. A call that is refused changes nothing, only a published block changes the head,
    and if it does it is a later child of the old head. What the node packs it accepts once it is
    signed, unless it has taken another head by then. The bus gets each block that becomes the head,
    followed by the finalized checkpoint if the block has raised it, in strictly increasing epochs. -/
theorem head_consistent {n : BeaconNode} {first : ChainState} (time : Nat)
    (validators : List Validator) (data : ExternalData) (fork : Fork)
    (hfirst : first = ChainState.genesis n.engine.constants time validators data fork)
    (hhead : n.head = ⟨first, .genesis (hashRoot first)⟩) (calls : List ApiCall)
    (hroots : ∀ done call rest, calls = done ++ call :: rest →
      (n.after done).head.block.stateRoot ≠ Root.none) :
    (∀ done rest, calls = done ++ rest →
      let h := (n.after done).head
      h.state.slot = h.block.slot ∧
        n.engine.blockRootAt? h.state h.block.slot = some h.block.root) ∧
    (∀ done call rest, calls = done ++ call :: rest →
      let old := n.after done
      let new := (old.answer call).2
      ((∃ f, (old.answer call).1 = .error f) → new = old) ∧
      ((∀ signed, call ≠ .publishBlock signed) → new.head = old.head) ∧
      ∀ signed, call = .publishBlock signed → (old.answer (.publishBlock signed)).1 = .ok () →
        new.head.block = signed.message ∧ Follows old.head.block new.head.block) ∧
    (∀ done slot reveal b between signature rest,
      calls = done ++ .createBlock slot reveal :: (between ++ .publishBlock ⟨b, signature⟩ :: rest) →
      ((n.after done).answer (.createBlock slot reveal)).1 = .ok b →
      (n.after (done ++ [.createBlock slot reveal])).accepted between = [] →
      signature ≠ Bytes.zero 96 →
      ((n.after (done ++ .createBlock slot reveal :: between)).answer
        (.publishBlock ⟨b, signature⟩)).1 = .ok ()) ∧
    ∃ events, Announces n.head (n.accepted calls) events ∧
      (n.after calls).bus = events.foldl EventBus.publish n.bus ∧
      (events.filterMap ChainEvent.finalizedEpoch?).Pairwise (· < ·) := by
  have hreach : n.head.Reachable n.engine := hhead ▸ .genesis time validators data fork hfirst
  refine ⟨fun done rest _ => ?_, fun done call rest hcalls => ⟨?_, ?_, ?_⟩, ?_, ?_⟩
  · have hfits := (after_reachable hreach done).fits
    exact ⟨hfits.slot_eq, hfits.blockRootAt? n.engine⟩
  · rintro ⟨f, hf⟩
    exact answer_of_error hf
  · exact fun hne => (answer_of_ne hne).1
  · rintro signed rfl haccepted
    obtain ⟨n', hpublish⟩ := answer_publishBlock_eq_ok.1 haccepted
    obtain ⟨-, head, hextend, rfl⟩ := publishBlock_eq_ok.1 hpublish
    have hnew : ((n.after done).answer (.publishBlock signed)).2 = (n.after done).adopt head := by
      rw [answer, hpublish]
    have hblock : head.block = signed.message := (ChainHead.extend_eq_ok.1 hextend).2
    rw [hnew]
    refine ⟨hblock, ?_⟩
    have hfollows := (after_reachable hreach done).fits.follows (hroots done _ rest hcalls) hextend
    exact hblock ▸ hfollows
  · intro done slot reveal b between signature rest _ hcreate hnone hsigned
    rw [answer_publishBlock_eq_ok]
    refine exists_publishBlock (n := n.after done) hcreate (by simp) ?_ hsigned
    rw [List.append_cons, after_append, after_head hnone, after_append]
    rfl
  · obtain ⟨events, hannounces, hbus⟩ := n.exists_announced calls
    have hincreasing := hannounces.increasing (isChain_accepted hreach calls)
    exact ⟨events, hannounces, hbus, (List.pairwise_cons.1 hincreasing).2⟩

/-- A node of one validator. -/
def solo : BeaconNode where
  engine := .tightest
  production := {}
  head := ⟨.solo, .genesis (hashRoot ChainState.solo)⟩
  attestations := .empty Constants.tightest
  subnets := .create 64
  bus := { capacity := 1, subscribers := 1 }
  log := {}
  chain := .create (Bytes.zero 20) {} 0 12
  tracker := { config := {} }
  gate := .create gateName 1

/-- Its only validator proposes the block of the first slot. -/
theorem exists_createBlock_solo : ∃ b, solo.createBlock 1 (Bytes.fill 96 1) = .ok b := by
  have hadvanced : (Engine.tightest.advance .solo 1).toOption.map
      (fun t => (t.activeIndices 1, t.isUnslashed 0, t.validators.size, t.externalDataVotes,
        t.externalData)) = some ([0], true, 1, [], {}) := by
    decide +kernel
  obtain ⟨t, ht, hfacts⟩ := Attempt.exists_ok_of_toOption hadvanced
  simp only [Prod.mk.injEq] at hfacts
  obtain ⟨hactive, hunslashed, hvalidators, hvotes, hdata⟩ := hfacts
  have hnow : t.slot = 1 := advance_slot ht
  have hreach : Engine.tightest.Reachable t := reachable_solo.reaches (.of_advance ht)
  obtain ⟨hselected, hready⟩ : Engine.tightest.proposer t 1 = .ok 0 ∧
      ProposerReady Engine.tightest t 1 :=
    proposerReady_of_single hreach.coherent.rings hnow (by decide) hactive hunslashed
  have hmoderate : Moderate Constants.tightest t := by
    refine ⟨by decide, by decide, by decide, by decide, ?_, ?_⟩
    · rw [hnow]
      decide
    · rw [hvalidators]
      decide
  have hvote : solo.sources.vote t = {} := by
    rw [← hdata]
    simp [sources, DepositTracker.voteFor, solo, hvotes, DepositTracker.mostVoted]
  have hstored : VotesStored t (solo.sources.vote t) := by
    refine ⟨?_, ?_, ?_⟩
    · rw [hvotes]
      decide
    · rw [hdata]
      decide
    · rw [hvote]
      decide
  have hsuffice : solo.sources.Suffice Constants.tightest t := by
    refine DepositLog.depositsFollow (l := {}) rfl (recordAfterVote_le ?_ ?_)
    · rw [hdata]
      exact le_rfl
    · rw [hvote]
      exact le_rfl
  have hheaded : HeadedBy ChainState.solo (.genesis (hashRoot ChainState.solo)) := headedBy_genesis ..
  have hmay := mayPropose_of_advance reachable_solo hheaded
    (fun hlater => absurd hlater (by decide)) (by decide) ht hready hselected
  exact (exists_assembleBlock ht hselected hmay hmoderate hstored (by decide) hsuffice).imp
    fun b hb => createBlock_eq_ok.2 ⟨by decide, hb⟩

/-- The node packs a block for the first slot, takes it over once it is signed, and announces it. -/
theorem head_consistent_solo : ∃ b,
    let create : ApiCall := .createBlock 1 (Bytes.fill 96 1)
    let publish : ApiCall := .publishBlock ⟨b, Bytes.fill 96 2⟩
    (solo.answer create).1 = .ok b ∧
    ((solo.after [create]).answer publish).1 = .ok () ∧
    (solo.after [create, publish]).head.block = b ∧
    Follows solo.head.block b ∧
    (solo.after [create, publish]).head.state.slot = b.slot ∧
    ∃ events, Announces solo.head (solo.accepted [create, publish]) events ∧
      (solo.after [create, publish]).bus = events.foldl EventBus.publish solo.bus := by
  obtain ⟨b, hb⟩ := exists_createBlock_solo
  refine ⟨b, ?_⟩
  intro create publish
  have hroots : ∀ done call rest, [create, publish] = done ++ call :: rest →
      (solo.after done).head.block.stateRoot ≠ Root.none := by
    intro done call rest hcalls
    -- Before each of the two calls the head is the first one.
    have hhead : (solo.after done).head = solo.head := by
      rcases done with _ | ⟨c, _ | ⟨c', done⟩⟩
      · rfl
      · obtain ⟨rfl, -⟩ := List.cons.inj hcalls
        rfl
      · simp at hcalls
    rw [hhead]
    exact hashRoot_solo_ne
  obtain ⟨hfits, hcalls, hpacked, events, hannounces, hbus, -⟩ :=
    head_consistent (n := solo) 0 [Validator.genesis (Bytes.zero 48) 32000000000] {} {} rfl rfl
      [create, publish] hroots
  have haccepted : ((solo.after [create]).answer publish).1 = .ok () :=
    hpacked [] 1 (Bytes.fill 96 1) b [] (Bytes.fill 96 2) [] rfl hb rfl (by decide)
  obtain ⟨hblock, hfollows⟩ := (hcalls [create] publish [] rfl).2.2 _ rfl haccepted
  have hhead : (solo.after [create, publish]).head.block = b := hblock
  have hslot := (hfits [create, publish] [] rfl).1
  refine ⟨hb, haccepted, hhead, ?_, ?_, events, hannounces, hbus⟩
  · rw [hblock] at hfollows
    exact hfollows
  · rw [hhead] at hslot
    exact hslot

end BeaconNode

end Beacon
