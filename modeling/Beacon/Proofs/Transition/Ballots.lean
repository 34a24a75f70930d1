import Mathlib
import Beacon.Proofs.Transition.Chronicles
import Beacon.Proofs.Transition.Support
import Beacon.Proofs.Transition.Verdicts

set_option autoImplicit false

/-! # Ballots that a run has included

A state keeps attestations in two lists until their epoch is settled. Along every run these lists are
exactly the ballots of all included attestations with a target in the running epoch and in the one
before it, in the order of their inclusion, and their sources are the two justified checkpoints
(`Remembers`, `Run.remembers`). So what a boundary counts is the support that all ballots included so
far give to its two targets (`Crosses.tally`). -/

namespace Beacon

variable {c : Constants} {e : Engine} {h : Chronicle} {s s' : ChainState} {x : Boundary}
  {ballots : List Ballot} {t : Tally}

/-- The ballots in some blocks, in the order of their inclusion. -/
def ballotsOf (blocks : List CandidateBlock) : List Ballot :=
  blocks.flatMap fun b => b.body.attestations.map Attestation.ballot

theorem ballotsOf_concat (blocks : List CandidateBlock) (b : CandidateBlock) :
    ballotsOf (blocks ++ [b]) = ballotsOf blocks ++ b.body.attestations.map Attestation.ballot := by
  simp [ballotsOf]

/-! ## What a state remembers of the ballots -/

/-- The pending attestations are the ballots of the two running epochs, and these start from the
    justified checkpoints. -/
structure Remembers (c : Constants) (ballots : List Ballot) (s : ChainState) : Prop where
  current : s.currentEpochAttestations.map PendingAttestation.ballot
    = ballots.filter fun b => b.data.target.epoch = s.currentEpoch c
  previous : s.previousEpochAttestations.map PendingAttestation.ballot
    = ballots.filter fun b => b.data.target.epoch + 1 = s.currentEpoch c
  come : ∀ b ∈ ballots, b.data.target.epoch ≤ s.currentEpoch c
  currentSource : ∀ b ∈ ballots, b.data.target.epoch = s.currentEpoch c →
    b.data.source = s.currentJustified
  previousSource : ∀ b ∈ ballots, b.data.target.epoch + 1 = s.currentEpoch c →
    b.data.source = s.previousJustified
  /-- No boundary up to here has moved the justified checkpoints. -/
  early : s.currentEpoch c ≤ 2 → s.previousJustified = s.currentJustified

theorem remembers_genesis (c : Constants) (time : Nat) (validators : List Validator)
    (data : ExternalData) (fork : Fork) :
    Remembers c [] (ChainState.genesis c time validators data fork) := by
  refine ⟨rfl, rfl, ?_, ?_, ?_, fun _ => rfl⟩ <;> simp

/-- A state with the same pending attestations and checkpoints in the same epoch. -/
theorem Remembers.congr (hrem : Remembers c ballots s)
    (hepoch : s'.currentEpoch c = s.currentEpoch c)
    (hcurrent : s'.currentEpochAttestations = s.currentEpochAttestations)
    (hprevious : s'.previousEpochAttestations = s.previousEpochAttestations)
    (hcurrentJustified : s'.currentJustified = s.currentJustified)
    (hpreviousJustified : s'.previousJustified = s.previousJustified) :
    Remembers c ballots s' := by
  refine ⟨?_, ?_, ?_, ?_, ?_, ?_⟩
  · rw [hcurrent, hepoch]
    exact hrem.current
  · rw [hprevious, hepoch]
    exact hrem.previous
  · rw [hepoch]
    exact hrem.come
  · rw [hepoch, hcurrentJustified]
    exact hrem.currentSource
  · rw [hepoch, hpreviousJustified]
    exact hrem.previousSource
  · rw [hepoch, hcurrentJustified, hpreviousJustified]
    exact hrem.early

/-! ## Slots -/

/-- A boundary makes the justified checkpoint the previous one. The first ones leave both as they
    are, which does the same as long as the two are equal. -/
theorem checkpoints_of_boundary {summary : EpochSummary}
    (hearly : s.currentEpoch c ≤ 2 → s.previousJustified = s.currentJustified)
    (hstart : c.isEpochStart (s.slot + 1) = true)
    (hprocess : processEpoch c (s.atNextSlot c) = .ok (summary, s')) :
    s'.previousJustified = s.currentJustified ∧
      (s'.currentEpoch c ≤ 2 → s'.previousJustified = s'.currentJustified) := by
  have hepoch : s'.currentEpoch c = s.currentEpoch c + 1 := by
    rw [ChainState.currentEpoch, (processEpoch_frame hprocess).slot]
    exact Constants.epochAt_succ_of_start hstart
  have hended : (s.atNextSlot c).currentEpoch c - 1 = s.currentEpoch c :=
    Nat.sub_eq_of_eq_add (Constants.epochAt_succ_of_start hstart)
  rcases processEpoch_verdict hprocess with ⟨hfirst, -, hsame⟩ | ⟨hlate, t, -, hverdict⟩
  · rw [hended] at hfirst
    have hequal := hearly (by lia)
    have hprevious : s'.previousJustified = s.previousJustified := hsame.previousJustified
    have hcurrent : s'.currentJustified = s.currentJustified := hsame.currentJustified
    exact ⟨hprevious.trans hequal, fun _ => by rw [hprevious, hcurrent, hequal]⟩
  · rw [hended] at hlate
    exact ⟨hverdict.previousJustified, fun hsoon => absurd hsoon (by lia)⟩

/-- A boundary makes the running epoch the previous one, and moves the checkpoint that its ballots
    start from along with it. -/
theorem Remembers.boundary (hrem : Remembers c ballots s) (hentry : s'.slot = s.slot + 1)
    (hstart : c.isEpochStart (s.slot + 1) = true) {summary : EpochSummary}
    (hprocess : processEpoch c (s.atNextSlot c) = .ok (summary, s')) :
    Remembers c ballots s' := by
  have hframe := processEpoch_frame hprocess
  have hepoch : s'.currentEpoch c = s.currentEpoch c + 1 := by
    rw [ChainState.currentEpoch, hentry]
    exact Constants.epochAt_succ_of_start hstart
  -- The checkpoint that the ballots of the epoch that ends start from is now the previous one.
  have hmoved := checkpoints_of_boundary hrem.early hstart hprocess
  refine ⟨?_, ?_, ?_, ?_, ?_, hmoved.2⟩
  · -- No ballot has a target in the epoch that begins.
    rw [hframe.current, List.map_nil, eq_comm, List.filter_eq_nil_iff]
    intro b hb
    have := hrem.come b hb
    simp only [decide_eq_true_eq, hepoch]
    lia
  · rw [hframe.previous, ChainState.atNextSlot_currentEpochAttestations, hrem.current]
    refine List.filter_congr fun b _ => ?_
    simp only [hepoch, Nat.succ_inj]
  · intro b hb
    have := hrem.come b hb
    lia
  · intro b hb htarget
    have := hrem.come b hb
    lia
  · intro b hb htarget
    rw [hmoved.1]
    exact hrem.currentSource b hb (by lia)

theorem Remembers.step (hrem : Remembers c ballots s) (hstep : Engine.step c s = .ok s') :
    Remembers c ballots s' := by
  have hslot := (step_frame hstep).slot
  rcases step_cases hstep with ⟨hstart, summary, hprocess⟩ | ⟨hstart, rfl⟩
  · exact hrem.boundary hslot hstart hprocess
  · exact hrem.congr (Constants.epochAt_succ_of_not_start hstart) rfl rfl rfl rfl

/-! ## Blocks -/

/-- A recorded attestation adds its ballot to the list of its epoch. -/
theorem ballots_recording (s : ChainState) (proposer : ValidatorIndex) {a : Attestation}
    (hepoch : a.data.target.epoch = s.currentEpoch c ∨ a.data.target.epoch + 1 = s.currentEpoch c) :
    (s.recording c proposer a).currentEpochAttestations.map PendingAttestation.ballot
        = s.currentEpochAttestations.map PendingAttestation.ballot
          ++ [a.ballot].filter (fun b => b.data.target.epoch = s.currentEpoch c) ∧
      (s.recording c proposer a).previousEpochAttestations.map PendingAttestation.ballot
        = s.previousEpochAttestations.map PendingAttestation.ballot
          ++ [a.ballot].filter fun b => b.data.target.epoch + 1 = s.currentEpoch c := by
  by_cases htarget : a.data.target.epoch = s.currentEpoch c
  · simp [ChainState.recording, Attestation.ballot, PendingAttestation.ballot, pendingOf, htarget]
  · have hprevious := hepoch.resolve_left htarget
    simp [ChainState.recording, Attestation.ballot, PendingAttestation.ballot, pendingOf, htarget,
      hprevious]

/-- The ballot of an included attestation is remembered with the others. -/
theorem Remembers.applyAttestation (hrem : Remembers c ballots s) {proposer : ValidatorIndex}
    {a : Attestation} (happly : applyAttestation c proposer s a = .ok s') :
    Remembers c (ballots ++ [a.ballot]) s' := by
  have hframe := applyAttestation_frame happly
  obtain ⟨hcheck, -, rfl⟩ := applyAttestation_eq_ok.1 happly
  obtain ⟨committees, hmay⟩ := checkAttestation_eq_ok.1 hcheck
  have hepoch := (checkAttestation_seated hcheck).2
  have hcurrentJustified := hframe.currentJustified
  have hpreviousJustified := hframe.previousJustified
  have hlists := ballots_recording s proposer hepoch
  rw [hrem.current, hrem.previous, ← List.filter_append, ← List.filter_append] at hlists
  rw [← hframe.currentEpoch] at hlists
  refine ⟨hlists.1, hlists.2, ?_, ?_, ?_, ?_⟩
  · intro b hb
    rw [hframe.currentEpoch]
    rcases List.mem_append.1 hb with hold | hnew
    · exact hrem.come b hold
    · obtain rfl := List.mem_singleton.1 hnew
      show a.data.target.epoch ≤ s.currentEpoch c
      lia
  · intro b hb htarget
    rw [hframe.currentEpoch] at htarget
    rw [hcurrentJustified]
    rcases List.mem_append.1 hb with hold | hnew
    · exact hrem.currentSource b hold htarget
    · obtain rfl := List.mem_singleton.1 hnew
      exact hmay.source.trans (if_pos htarget)
  · intro b hb htarget
    rw [hframe.currentEpoch] at htarget
    rw [hpreviousJustified]
    rcases List.mem_append.1 hb with hold | hnew
    · exact hrem.previousSource b hold htarget
    · obtain rfl := List.mem_singleton.1 hnew
      have hne : a.data.target.epoch ≠ s.currentEpoch c := by
        have htarget' : a.data.target.epoch + 1 = s.currentEpoch c := htarget
        lia
      exact hmay.source.trans (if_neg hne)
  · rw [hframe.currentEpoch, hcurrentJustified, hpreviousJustified]
    exact hrem.early

theorem Remembers.operation (hrem : Remembers c ballots s) (hframe : OperationFrame c s s')
    (hcurrent : s'.currentEpochAttestations = s.currentEpochAttestations)
    (hprevious : s'.previousEpochAttestations = s.previousEpochAttestations) :
    Remembers c ballots s' :=
  hrem.congr hframe.currentEpoch hcurrent hprevious hframe.currentJustified
    hframe.previousJustified

/-- A block adds its ballots. -/
theorem Remembers.processBlock (hrem : Remembers c ballots s) (hc : c.Consistent)
    {b : CandidateBlock} (hblock : processBlock c s b = .ok s') :
    Remembers c (ballots ++ b.body.attestations.map Attestation.ballot) s' := by
  obtain ⟨-, -, -, -, hops⟩ := (processBlock_eq_ok hc).1 hblock
  obtain ⟨-, s₁, s₂, hslashings, hattestations, hdeposits⟩ := applyOperations_eq_ok.1 hops
  have hopened : Remembers c ballots (s.opened c b) := hrem.congr rfl rfl rfl rfl rfl
  have h₁ : Remembers c ballots s₁ := by
    refine Attempt.foldlM_invariant (P := Remembers c ballots) ?_ hopened hslashings
    intro evidence t t' ht happly
    have hframe := applySlashing_frame happly
    obtain ⟨index, v, balance, -, -, -, -, rfl⟩ := applySlashing_eq_ok.1 happly
    exact ht.operation hframe rfl rfl
  -- One attestation after the other, each with its ballot.
  have h₂ : Remembers c (ballots ++ b.body.attestations.map Attestation.ballot) s₂ := by
    refine Attempt.foldlM_done
      (P := fun done t => Remembers c (ballots ++ done.map Attestation.ballot) t) ?_ ?_ hattestations
    · intro done a rest t t' _ ht happly
      rw [List.map_append, ← List.append_assoc]
      exact ht.applyAttestation happly
    · rw [List.map_nil, List.append_nil]
      exact h₁
  refine Attempt.foldlM_invariant
    (P := Remembers c (ballots ++ b.body.attestations.map Attestation.ballot)) ?_ h₂ hdeposits
  intro d t t' ht happly
  have hframe := applyDeposit_frame happly
  obtain ⟨-, -, ⟨index, balance, -, -, rfl⟩ | ⟨-, rfl⟩⟩ := applyDeposit_eq_ok.1 happly
  · exact ht.operation hframe rfl rfl
  · exact ht.operation hframe rfl rfl

/-! ## Runs -/

/-- **Nothing included is forgotten before it is settled.** -/
theorem Engine.Run.remembers (hrun : e.Run h s) :
    Remembers e.constants (ballotsOf h.blocks) s := by
  induction hrun with
  | genesis => exact remembers_genesis ..
  | slot _ hstep ih => exact ih.step hstep
  | block _ hblock ih =>
      rw [Chronicle.afterBlock_blocks, ballotsOf_concat]
      exact ih.processBlock e.consistent (applyBlock_eq_ok.1 hblock).1

/-! ## What a boundary counts -/

/-- The ballots that a boundary knows for a target. -/
def Boundary.ballotsFor (x : Boundary) (target : Checkpoint) : List Ballot :=
  (ballotsOf x.blocks).filter fun b => b.data.target = target

/-- The stake behind a target at a boundary. -/
def Boundary.supportFor (c : Constants) (x : Boundary) (target : Checkpoint) : Gwei :=
  support c x.entry (x.ballotsFor target)

/-- The stake that was active in the epoch that a boundary closes. -/
def Boundary.stake (c : Constants) (x : Boundary) : Gwei := x.entry.activeStake (x.ended c)

/-- The pending ballots of one epoch for a root are all the ballots for that target. -/
theorem ballots_for_root {as : List PendingAttestation} {target : Checkpoint}
    (has : as.map PendingAttestation.ballot
      = (ballotsOf x.blocks).filter fun b => b.data.target.epoch = target.epoch) :
    (as.filter fun a => a.data.target.root = target.root).map PendingAttestation.ballot
      = x.ballotsFor target := by
  have hroots : (as.filter fun a => a.data.target.root = target.root).map PendingAttestation.ballot
      = (as.map PendingAttestation.ballot).filter fun b => b.data.target.root = target.root := by
    rw [List.filter_map]
    rfl
  rw [hroots, has, List.filter_filter, Boundary.ballotsFor]
  refine List.filter_congr fun b _ => ?_
  rw [← Bool.decide_and, decide_eq_decide]
  cases target with
  | mk epoch root =>
      cases b.data.target with
      | mk epoch' root' => rw [Checkpoint.mk.injEq, and_comm]

/-- The root that a boundary looks up for an epoch is the one that was written for its start. -/
theorem Engine.Crosses.headOf? (hcross : e.Crosses h s x) {epoch : Epoch} {root : Root}
    (hle : epoch ≤ x.ended e.constants) (hclose : x.ended e.constants ≤ epoch + 1)
    (hroot : boundaryRoot e.constants x.entry epoch = .ok root) :
    (h.afterSlot e.constants s x.exit).headOf? e.constants epoch = some root := by
  have hframe := step_frame hcross.step
  have hlimit := hframe.slot_lt
  have hslot : x.entry.slot = s.slot + 1 := by
    rw [hcross.entry]
    rfl
  rw [hframe.slot] at hlimit
  have hnext : (s.currentEpoch e.constants + 1) * e.constants.slotsPerEpoch = s.slot + 1 := by
    rw [ChainState.currentEpoch, ← Constants.epochAt_succ_of_start hcross.start]
    exact Constants.epochAt_mul_of_start hcross.start
  rw [hcross.ended] at hle hclose
  -- The start of the epoch lies in the past, but no more than two epochs.
  have hpos := e.consistent.slotsPerEpoch_pos
  have hpast : epoch * e.constants.slotsPerEpoch < s.slot + 1 := by
    rw [← hnext]
    exact Nat.mul_lt_mul_of_pos_right (by lia) hpos
  have hround : s.slot + 1
      ≤ epoch * e.constants.slotsPerEpoch + e.constants.slotsPerHistoricalRoot := by
    calc s.slot + 1 = (s.currentEpoch e.constants + 1) * e.constants.slotsPerEpoch := hnext.symm
      _ ≤ (epoch + 2) * e.constants.slotsPerEpoch := Nat.mul_le_mul_right _ (by lia)
      _ = epoch * e.constants.slotsPerEpoch + 2 * e.constants.slotsPerEpoch := Nat.add_mul ..
      _ ≤ epoch * e.constants.slotsPerEpoch + e.constants.slotsPerHistoricalRoot :=
          Nat.add_le_add_left e.consistent.twoEpochs_le _
  have hlookup : x.entry.blockRootAt? e.constants (epoch * e.constants.slotsPerEpoch)
      = some root := by
    rw [boundaryRoot, Constants.epochStart_of_lt (hpast.trans hlimit)] at hroot
    split at hroot
    · next hsome => rw [hsome, Except.ok.inj hroot]
    · cases hroot
  rw [ChainState.blockRootAt?_eq (by rw [hslot]; exact hlimit), hslot, if_pos ⟨hpast, hround⟩]
    at hlookup
  -- The ring is the same before and after the epoch is settled.
  have hrun' := hcross.run.slot hcross.step
  have hwritten := hrun'.blockRoots (u := epoch * e.constants.slotsPerEpoch)
    (by rw [hframe.slot]; exact hpast) (by rw [hframe.slot]; exact hround)
  rw [hframe.blockRoots, ← hcross.entry, hlookup] at hwritten
  exact hwritten.symm

/-- What is known of the count of a boundary: the targets are the roots that headed the chain when
    their epochs started, and the balances are those behind them. -/
structure Boundary.Tallies (c : Constants) (h : Chronicle) (x : Boundary) (t : Tally) : Prop where
  last : h.headOf? c (x.ended c) = some t.last
  before : h.headOf? c (x.ended c - 1) = some t.before
  supportLast : t.supportLast
    = max (min (x.supportFor c ⟨x.ended c, t.last⟩) Word.max) c.effectiveBalanceIncrement
  supportBefore : t.supportBefore
    = max (min (x.supportFor c ⟨x.ended c - 1, t.before⟩) Word.max) c.effectiveBalanceIncrement

theorem Engine.Crosses.tally (hcross : e.Crosses h s x) (hpos : 0 < x.ended e.constants)
    (hcounts : t.Counts e.constants x.entry (committeesOf e.constants x.entry)
      (x.ended e.constants)) :
    x.Tallies e.constants (h.afterSlot e.constants s x.exit) t := by
  have hrem := hcross.run.remembers
  rw [← hcross.blocks] at hrem
  have hended := hcross.ended
  refine ⟨hcross.headOf? le_rfl (Nat.le_succ _) hcounts.last,
    hcross.headOf? (Nat.sub_le ..) (by lia) hcounts.before, ?_, ?_⟩
  · rw [targetSupport_eq hcounts.supportLast, Boundary.supportFor]
    congr 3
    refine @ballots_for_root x _ ⟨x.ended e.constants, t.last⟩ ?_
    rw [hcross.entry, hended]
    exact hrem.current
  · rw [targetSupport_eq hcounts.supportBefore, Boundary.supportFor]
    congr 3
    refine @ballots_for_root x _ ⟨x.ended e.constants - 1, t.before⟩ ?_
    rw [hcross.entry, ChainState.atNextSlot_previousEpochAttestations, hrem.previous]
    refine List.filter_congr fun b _ => decide_eq_decide.2 ?_
    show b.data.target.epoch + 1 = _ ↔ b.data.target.epoch = x.ended e.constants - 1
    lia

/-! ## What a boundary decides -/

/-- The verdict of a boundary, with the count it rests on. -/
theorem Engine.Crosses.verdict (hcross : e.Crosses h s x) :
    ∃ summary, processEpoch e.constants x.entry = .ok (summary, x.exit) ∧
      ((x.ended e.constants ≤ 1 ∧ summary = {} ∧ SameCheckpoints x.entry x.exit) ∨
        (1 < x.ended e.constants ∧ ∃ t : Tally,
          t.Counts e.constants x.entry (committeesOf e.constants x.entry) (x.ended e.constants) ∧
          Verdict x.entry x.exit (activeBalance e.constants x.entry (x.ended e.constants))
            (x.ended e.constants) t summary)) := by
  obtain ⟨summary, hprocess⟩ := hcross.settled
  exact ⟨summary, hprocess, processEpoch_verdict hprocess⟩

/-! ## Passing the count -/

theorem Boundary.Tallies.passesLast_iff (htallies : x.Tallies c h t) (hc : c.Consistent)
    (hfits : StakeFits c x.entry (x.ended c)) :
    t.passesLast (activeBalance c x.entry (x.ended c)) = true ↔
      2 * x.stake c ≤ 3 * x.supportFor c ⟨x.ended c, t.last⟩ := by
  rw [Tally.passesLast, decide_eq_true_iff, htallies.supportLast]
  exact twoThirds_iff hc hfits

theorem Boundary.Tallies.passesBefore_iff (htallies : x.Tallies c h t) (hc : c.Consistent)
    (hfits : StakeFits c x.entry (x.ended c)) :
    t.passesBefore (activeBalance c x.entry (x.ended c)) = true ↔
      2 * x.stake c ≤ 3 * x.supportFor c ⟨x.ended c - 1, t.before⟩ := by
  rw [Tally.passesBefore, decide_eq_true_iff, htallies.supportBefore]
  exact twoThirds_iff hc hfits

/-- The later boundaries of a run do not change what has been counted. -/
theorem Boundary.Tallies.extend {h' : Chronicle} (htallies : x.Tallies c h t)
    (hext : h.Extends h') : x.Tallies c h' t :=
  ⟨hext.headOf? htallies.last, hext.headOf? htallies.before, htallies.supportLast,
    htallies.supportBefore⟩

end Beacon
