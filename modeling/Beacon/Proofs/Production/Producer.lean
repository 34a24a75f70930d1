import Mathlib
import Beacon.Node.BeaconNode
import Beacon.Proofs.Production.Counts

set_option autoImplicit false

/-! # Block production never stalls

A node takes part in a chain from genesis on: deposits are logged, blocks of the deposit chain are
mined and followed, the deposit chain goes offline and comes back, anyone pools attestations and
evidence, and blocks are assembled and imported, in any order (`NodeEvent`). What every event keeps
(`Producer.Sound`) has two parts: the head is a reachable state with the block that heads it, and no
count of deposits runs ahead of the log, wherever it is kept. From there a block can be assembled
for any later slot (`production_never_stalls`). -/

namespace Beacon

/-! ## Events -/

/-- Assemble a block on top of the head, from what the node has. -/
def BeaconNode.assemble (n : BeaconNode) (slot : Slot) (reveal : Signature) :
    Attempt TransitionError CandidateBlock :=
  assembleBlock n.engine n.production n.sources n.head.state n.head.block slot reveal

/-- A node with the blocks that have been assembled on it. -/
structure Producer where
  node : BeaconNode
  assembled : List CandidateBlock := []

/-- What can happen to a node. -/
inductive NodeEvent where
  | deposit (d : DepositData)
  /-- The deposit chain mines a block. -/
  | mine
  /-- The deposit chain goes offline, or comes back. -/
  | setOffline (offline : Bool)
  /-- The node asks the deposit chain for what it misses. -/
  | sync
  | attestation (a : Attestation)
  | slashing (x : ProposerSlashing)
  /-- A slot begins, and stale operations leave the pools. -/
  | slot (slot : Slot)
  | assemble (slot : Slot) (reveal : Signature)
  /-- The node imports one of the assembled blocks. -/
  | adopt (index : Nat)

namespace Producer

/-- Go on with another node if there is one. -/
def attempt {ε : Type} (p : Producer) (next : Attempt ε BeaconNode) : Producer :=
  match next with
  | .ok n => { p with node := n }
  | .error _ => p

/-- What an event leaves behind; one that fails changes nothing. -/
def after (p : Producer) : NodeEvent → Producer
  | .deposit d => { p with node := p.node.recordDeposit d }
  | .mine => p.attempt p.node.mine
  | .setOffline offline => { p with node := p.node.setOffline offline }
  | .sync => p.attempt do
      let (_, n) ← p.node.sync
      return n
  | .attestation a => { p with node := p.node.addAttestation a }
  | .slashing x => { p with node := p.node.addSlashing x }
  | .slot slot => { p with node := p.node.expire slot }
  | .assemble slot reveal =>
    match p.node.assemble slot reveal with
    | .ok b => { p with assembled := p.assembled ++ [b] }
    | .error _ => p
  | .adopt index =>
    match p.assembled[index]? with
    | some b => p.attempt do
        let head ← p.node.head.extend p.node.engine b
        return p.node.adopt head
    | none => p

/-- A producer starts at genesis. Further deposits may be logged before the node is created, and its
    deposit chain is created over the log as it was at some time before. -/
inductive Starts (e : Engine) : Producer → Prop where
  | genesis {time count : Nat} {log early : DepositLog} {g : Genesis} {later : List DepositData}
      {config : NodeConfig} {contract : Address} {timestamp seconds requests : Nat} {n : BeaconNode}
      (build : Genesis.build e.constants time count log = .ok g)
      (hearly : early.size ≤ (later.foldl DepositLog.record g.log).size)
      (create : BeaconNode.create config e { g with log := later.foldl DepositLog.record g.log }
        (.create contract early timestamp seconds) requests = .ok n) :
      Starts e { node := n }

end Producer

variable {e : Engine} {n n' : BeaconNode} {p : Producer} {slot : Slot} {reveal : Signature}

/-! ## Genesis -/

/-- The record of the first state counts the whole log. -/
theorem Genesis.build_eq_ok {c : Constants} {time count : Nat} {log : DepositLog} {g : Genesis}
    (h : Genesis.build c time count log = .ok g) :
    ∃ validators record, g.state = ChainState.genesis c time validators record {} ∧
      g.block = .genesis (hashRoot g.state) ∧ record.depositCount = g.log.size := by
  simp only [Genesis.build, Attempt.bind_eq_ok, Attempt.pure_eq_ok] at h
  obtain ⟨-, -, -, -, -, -, rfl⟩ := h
  exact ⟨_, _, rfl, rfl, rfl⟩

theorem DepositLog.size_foldl_record (l : DepositLog) (ds : List DepositData) :
    (ds.foldl DepositLog.record l).size = l.size + ds.length := by
  induction ds generalizing l with
  | nil => rfl
  | cons d ds ih =>
      rw [List.foldl_cons, ih, size_record, List.length_cons]
      omega

/-! ## What every event keeps -/

/-- The head of a node is a reachable state with its block, and no count runs ahead of the log. -/
structure BeaconNode.Sound (n : BeaconNode) : Prop where
  reachable : n.engine.Reachable n.head.state
  headed : HeadedBy n.head.state n.head.block
  slot : n.head.block.slot = n.head.state.slot
  chain : n.chain.CountsUpTo n.log.size
  tracker : n.tracker.CountsUpTo n.log.size
  state : n.head.state.CountsUpTo n.log.size

namespace BeaconNode.Sound

theorem recordDeposit (h : n.Sound) (d : DepositData) : (n.recordDeposit d).Sound := by
  have hle : n.log.size ≤ (n.recordDeposit d).log.size := by
    rw [BeaconNode.recordDeposit, DepositLog.size_record]
    exact Nat.le_succ _
  exact ⟨h.reachable, h.headed, h.slot, h.chain.mono hle, h.tracker.mono hle, h.state.mono hle⟩

theorem mine (h : n.Sound) (hmine : n.mine = .ok n') : n'.Sound ∧ n'.log = n.log := by
  simp only [BeaconNode.mine, Attempt.bind_eq_ok, Attempt.pure_eq_ok] at hmine
  obtain ⟨chain, hchain, rfl⟩ := hmine
  exact ⟨⟨h.reachable, h.headed, h.slot, h.chain.mine le_rfl hchain, h.tracker, h.state⟩, rfl⟩

theorem sync {count : Nat} (h : n.Sound) (hsync : n.sync = .ok (count, n')) :
    n'.Sound ∧ n'.log = n.log := by
  simp only [BeaconNode.sync, Attempt.bind_eq_ok, Attempt.pure_eq_ok, Prod.mk.injEq] at hsync
  obtain ⟨⟨_, tracker, gate⟩, htracker, rfl, rfl⟩ := hsync
  exact ⟨⟨h.reachable, h.headed, h.slot, h.chain, h.tracker.sync h.chain htracker, h.state⟩, rfl⟩

/-- A block whose vote stays within the log can be adopted. -/
theorem adopt {b : CandidateBlock} {head : ChainHead} (h : n.Sound)
    (hvote : b.body.externalData.depositCount ≤ n.log.size)
    (hextend : n.head.extend n.engine b = .ok head) : (n.adopt head).Sound := by
  simp only [ChainHead.extend, Attempt.bind_eq_ok, Attempt.widen_eq_ok, Attempt.pure_eq_ok]
    at hextend
  obtain ⟨s, himport, rfl⟩ := hextend
  obtain ⟨t, hadvance, hblock⟩ := importBlock_eq_ok.1 himport
  have hframe := applyBlock_frame hblock
  exact ⟨h.reachable.reaches (.of_importBlock himport), .of_applyBlock hblock,
    hframe.blockSlot.trans hframe.slot.symm, h.chain, h.tracker, h.state.importBlock hvote himport⟩

/-- The sources of a node offer what a block on top of its head has to carry. -/
theorem suffice (h : n.Sound) {t : ChainState} (ht : n.engine.advance n.head.state slot = .ok t) :
    n.sources.Suffice n.engine.constants t := by
  have hcounts := h.state.advance ht
  refine DepositLog.depositsFollow (l := n.log) rfl ?_
  exact recordAfterVote_le hcounts.record (DepositTracker.voteFor_le h.tracker hcounts)

/-- What is assembled on a node votes for no more deposits than the log has. -/
theorem vote_le {b : CandidateBlock} (h : n.Sound) (hb : n.assemble slot reveal = .ok b) :
    b.body.externalData.depositCount ≤ n.log.size := by
  obtain ⟨⟨t, ht, hvote⟩, -⟩ := importBlock_of_assembleBlock hb
  rw [hvote]
  exact DepositTracker.voteFor_le h.tracker (h.state.advance ht)

/-- For a later slot a node assembles a block that its head can be extended by. -/
theorem assemble (h : n.Sound)
    (hroot : n.head.block.slot + 1 < slot → n.head.block.stateRoot ≠ Root.none)
    (hlt : n.head.block.slot < slot) (hlimit : slot < Word.limit) (hreveal : reveal ≠ Bytes.zero 96)
    (hready : ∀ t, n.engine.advance n.head.state slot = .ok t → ProposerReady n.engine t slot) :
    (∃ b s, n.assemble slot reveal = .ok b ∧ n.engine.importBlock n.head.state b = .ok s) ∨
      n.assemble slot reveal = .error (.fault .overflow) := by
  have hwithin : (n.assemble slot reveal).Within .overflow :=
    assembleBlock_within h.reachable h.headed (h.slot ▸ hroot) (h.slot ▸ hlt) hlimit hreveal hready
      fun _ ht => h.suffice ht
  refine hwithin.ok_or_overflow.imp_left ?_
  rintro ⟨b, hb⟩
  obtain ⟨-, s, hs⟩ := importBlock_of_assembleBlock hb
  exact ⟨b, s, hb, hs⟩

end BeaconNode.Sound

/-- The node is sound, and so are the votes of what has been assembled. -/
structure Producer.Sound (p : Producer) : Prop where
  node : p.node.Sound
  assembled : ∀ b ∈ p.assembled, b.body.externalData.depositCount ≤ p.node.log.size

namespace Producer

/-- Genesis counts the log up to there, and nothing has been assembled. -/
theorem Starts.sound (h : Starts e p) : p.Sound := by
  obtain ⟨build, hearly, create⟩ := h
  next time count log early g later config contract timestamp seconds requests n =>
    obtain ⟨validators, record, hstate, hblock, hcount⟩ := Genesis.build_eq_ok build
    simp only [BeaconNode.create, Attempt.bind_eq_ok, Attempt.pure_eq_ok] at create
    obtain ⟨_, -, rfl⟩ := create
    have hle : g.log.size ≤ (later.foldl DepositLog.record g.log).size := by
      rw [DepositLog.size_foldl_record]
      exact Nat.le_add_right ..
    refine ⟨⟨?_, ?_, ?_, ?_, ?_, ?_⟩, fun b hb => absurd hb List.not_mem_nil⟩
    · show e.Reachable g.state
      rw [hstate]
      exact ⟨time, validators, record, {}, .refl _⟩
    · show HeadedBy g.state g.block
      rw [hblock, hstate]
      exact headedBy_genesis ..
    · show g.block.slot = g.state.slot
      rw [hblock, hstate]
      rfl
    · have hchain := DevDepositChain.countsUpTo_create contract early timestamp seconds
      exact hchain.mono hearly
    · exact fun b hb => absurd hb List.not_mem_nil
    · show g.state.CountsUpTo _
      rw [hstate]
      refine ⟨?_, fun vote hvote => absurd hvote List.not_mem_nil⟩
      exact hcount.le.trans hle

theorem Sound.withNode (h : p.Sound) (hn : n.Sound) (hle : p.node.log.size ≤ n.log.size) :
    Sound { p with node := n } :=
  ⟨hn, fun b hb => (h.assembled b hb).trans hle⟩

theorem Sound.attempt {ε : Type} {next : Attempt ε BeaconNode} (h : p.Sound)
    (hnext : ∀ n, next = .ok n → n.Sound ∧ n.log = p.node.log) : (p.attempt next).Sound := by
  unfold Producer.attempt
  split
  · next n =>
      obtain ⟨hsound, hlog⟩ := hnext n rfl
      exact h.withNode hsound (by rw [hlog])
  · exact h

/-- Every event keeps a producer sound. -/
theorem Sound.after (h : p.Sound) (event : NodeEvent) : (p.after event).Sound := by
  cases event with
  | deposit d =>
      refine h.withNode (h.node.recordDeposit d) ?_
      rw [BeaconNode.recordDeposit, DepositLog.size_record]
      exact Nat.le_succ _
  | mine => exact h.attempt fun _ hmine => h.node.mine hmine
  | sync =>
      refine h.attempt fun n hsync => ?_
      simp only [Attempt.bind_eq_ok, Attempt.pure_eq_ok] at hsync
      obtain ⟨⟨_, _⟩, hsync, rfl⟩ := hsync
      exact h.node.sync hsync
  | setOffline offline => exact h.withNode { h.node with } le_rfl
  | attestation a => exact h.withNode { h.node with } le_rfl
  | slashing x => exact h.withNode { h.node with } le_rfl
  | slot slot => exact h.withNode { h.node with } le_rfl
  | assemble slot reveal =>
      simp only [Producer.after]
      split
      · next b hb =>
          refine ⟨h.node, fun x hx => ?_⟩
          rcases List.mem_append.1 hx with hx | hx
          · exact h.assembled x hx
          · rw [List.mem_singleton.1 hx]
            exact h.node.vote_le hb
      · exact h
  | adopt index =>
      simp only [Producer.after]
      split
      · next b hb =>
          refine h.attempt fun n hn => ?_
          simp only [Attempt.bind_eq_ok, Attempt.pure_eq_ok] at hn
          obtain ⟨head, hextend, rfl⟩ := hn
          exact ⟨h.node.adopt (h.assembled b (List.mem_of_getElem? hb)) hextend, rfl⟩
      · exact h

theorem Sound.run (h : p.Sound) (events : List NodeEvent) :
    (events.foldl Producer.after p).Sound := by
  induction events generalizing p with
  | nil => exact h
  | cons event events ih => exact ih (h.after event)

end Producer

/-- **Block production never stalls.** Whatever has happened to a node since genesis, it assembles a
    block for any slot after its head, as long as the reveal is not empty, some validator is active
    and the selected proposer is not slashed; and the head can be extended by that block. The only
    other way it may end is a number that leaves the 64-bit range. Across empty slots the state root
    of the head must not be the zero root, which a header takes for one that is to be filled in. -/
theorem production_never_stalls {first : Producer} (hstart : Producer.Starts e first)
    (events : List NodeEvent) (hrun : p = events.foldl Producer.after first)
    (hroot : p.node.head.block.slot + 1 < slot → p.node.head.block.stateRoot ≠ Root.none)
    (hlt : p.node.head.block.slot < slot) (hlimit : slot < Word.limit)
    (hreveal : reveal ≠ Bytes.zero 96)
    (hready : ∀ t, p.node.engine.advance p.node.head.state slot = .ok t →
      ProposerReady p.node.engine t slot) :
    (∃ b s, p.node.assemble slot reveal = .ok b ∧
      p.node.engine.importBlock p.node.head.state b = .ok s) ∨
    p.node.assemble slot reveal = .error (.fault .overflow) := by
  subst hrun
  exact (hstart.sound.run events).node.assemble hroot hlt hlimit hreveal hready

/-- A deposit, blocks of the deposit chain, an outage, and operations that do not hold. -/
def troubles : List NodeEvent :=
  [.deposit {}, .mine, .setOffline true, .sync, .attestation {}, .slashing {}, .slot 1]

/-- Through these a single validator stays at genesis, and is the proposer of the first slot. -/
theorem exists_troubled : ∃ first p : Producer, Producer.Starts .tightest first ∧
    p = troubles.foldl Producer.after first ∧ p.node.engine = .tightest ∧
    p.node.head.block.slot = 0 ∧ p.node.log.size = 2 ∧
    (Engine.tightest.advance p.node.head.state 1).toOption.map
      (fun t => (t.activeIndices 1, t.isUnslashed 0, t.validators.size, t.externalDataVotes))
        = some ([0], true, 1, []) := by
  refine ⟨_, _, @Producer.Starts.genesis _ 0 1 {} {} _ [] {} (Bytes.zero 20) 0 14 1 _ rfl
    (Nat.zero_le _) rfl, rfl, rfl, rfl, rfl, ?_⟩
  decide +kernel

theorem production_never_stalls_solo : ∃ first p : Producer, Producer.Starts .tightest first ∧
    p = troubles.foldl Producer.after first ∧
    ∃ b s, p.node.assemble 1 (Bytes.fill 96 1) = .ok b ∧
      p.node.engine.importBlock p.node.head.state b = .ok s := by
  obtain ⟨first, p, hstart, hrun, hengine, hslot, hsize, hadvanced⟩ := exists_troubled
  refine ⟨first, p, hstart, hrun, ?_⟩
  have hsound : p.node.Sound := by
    rw [hrun]
    exact (hstart.sound.run troubles).node
  have hempty : p.node.head.state.slot = 0 := hsound.slot.symm.trans hslot
  rw [← hengine] at hadvanced
  obtain ⟨t, ht, hfacts⟩ := Attempt.exists_ok_of_toOption hadvanced
  simp only [Prod.mk.injEq] at hfacts
  obtain ⟨hactive, hunslashed, hvalidators, hvotes⟩ := hfacts
  have hnow : t.slot = 1 := advance_slot ht
  obtain ⟨hselected, hready⟩ : p.node.engine.proposer t 1 = .ok 0 ∧
      ProposerReady p.node.engine t 1 :=
    proposerReady_of_single (hsound.reachable.reaches (.of_advance ht)).coherent.rings hnow
      (by decide) (by rw [hengine]; exact hactive) hunslashed
  have hreveal : Bytes.fill 96 1 ≠ Bytes.zero 96 := by decide
  -- No number of this state is large, so it is a block and not an overflow.
  have hmoderate : Moderate p.node.engine.constants t := by
    rw [hengine]
    refine ⟨by decide, by decide, by decide, by decide, ?_, ?_⟩
    · rw [hnow]
      decide
    · rw [hvalidators]
      decide
  have hstored : VotesStored t (p.node.sources.vote t) := by
    have hcounts := hsound.state.advance ht
    have hvote := DepositTracker.voteFor_le hsound.tracker hcounts
    have hlog : p.node.log.size < Word.limit := by
      rw [hsize]
      decide
    exact ⟨by rw [hvotes]; decide, hcounts.record.trans_lt hlog, hvote.trans_lt hlog⟩
  have hmay := mayPropose_of_advance hsound.reachable hsound.headed
    (fun hlater => absurd hlater (by rw [hempty]; decide)) (by rw [hempty]; decide) ht hready
    hselected
  obtain ⟨b, hb⟩ := exists_assembleBlock ht hselected hmay hmoderate hstored hreveal
    (hsound.suffice ht)
  refine (production_never_stalls hstart troubles hrun ?_ ?_ (by decide) hreveal
    ?_).resolve_right ?_
  · exact fun hlater => absurd hlater (by rw [hslot]; decide)
  · rw [hslot]
    exact Nat.zero_lt_one
  · intro t' ht'
    obtain rfl : t = t' := Except.ok.inj (ht.symm.trans ht')
    exact hready
  · rw [BeaconNode.assemble, hb]
    exact fun hfault => nomatch hfault

end Beacon
