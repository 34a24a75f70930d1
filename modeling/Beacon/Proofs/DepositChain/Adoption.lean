import Mathlib
import Beacon.Proofs.Production.Counts
import Beacon.Proofs.Deposits
import Beacon.Proofs.VotingPeriods

set_option autoImplicit false

/-! # The adopted count never falls

A proposer that asks its cache of followed blocks votes for a record with at least as many deposits
as the one in force (`DepositTracker.le_voteFor`). A record is only ever adopted by a block that
votes for it, and then the floor of this vote is the record that it replaces: older votes for it do
not count against another floor. So the count in force only rises (`Raised.importBlock`), and as a
block takes in no more deposits than the record after its vote counts, the number of deposits taken
in stays within that count (`ChainState.InCount.importBlock`). -/

namespace Beacon

variable {c : Constants} {e : Engine} {s s' s'' ready : ChainState} {b : CandidateBlock}

/-! ## Chains whose proposers ask their caches -/

/-- A call that moves a chain and succeeds. If it brings a block, the block votes for what some
    cache of followed blocks answers on the state that the block is applied to. -/
inductive Engine.FollowingCall (e : Engine) (s s' : ChainState) : Prop where
  | advance (target : Slot) (h : e.advance s target = .ok s')
  | importBlock (b : CandidateBlock) (cache : DepositTracker) (ready : ChainState)
      (hready : e.advance s b.slot = .ok ready)
      (hvote : b.body.externalData = cache.voteFor ready) (h : e.importBlock s b = .ok s')

/-- Some sequence of such calls leads from `s` to `s'`; every block may have a cache of its own. -/
def Engine.Follows (e : Engine) (s s' : ChainState) : Prop :=
  Relation.ReflTransGen e.FollowingCall s s'

/-! ## Votes over the floor -/

/-- No answer of a cache counts fewer deposits than the record in force. -/
theorem DepositTracker.le_voteFor (cache : DepositTracker) (s : ChainState) :
    s.externalData.depositCount ≤ (cache.voteFor s).depositCount := by
  unfold voteFor
  split
  · next r hr =>
      have hforward := (List.mem_filter.1 (mem_of_mostVoted hr)).2
      rw [Bool.and_eq_true] at hforward
      exact of_decide_eq_true hforward.1
  · cases hnewest : (cache.blocks.reverse.map (·.record)).find? (isForward s) with
    | none => exact le_rfl
    | some r =>
        have hforward := List.find?_some hnewest
        exact of_decide_eq_true hforward

/-- The record in force after a vote over the floor is over the floor. -/
theorem le_recordAfterVote {vote : ExternalData}
    (hvote : s.externalData.depositCount ≤ vote.depositCount) :
    s.externalData.depositCount ≤ (recordAfterVote c s vote).depositCount := by
  unfold recordAfterVote
  split
  · exact hvote
  · exact le_rfl

/-! ## What a call keeps -/

/-- The deposits that have been taken in are among those that the record in force counts. -/
def ChainState.InCount (s : ChainState) : Prop := s.depositIndex ≤ s.externalData.depositCount

/-- As many deposits are counted and taken in as before, or more. -/
structure Raised (s s' : ChainState) : Prop where
  depositCount : s.externalData.depositCount ≤ s'.externalData.depositCount
  depositIndex : s.depositIndex ≤ s'.depositIndex

theorem Raised.refl (s : ChainState) : Raised s s := ⟨le_rfl, le_rfl⟩

theorem Raised.trans (h : Raised s s') (h' : Raised s' s'') : Raised s s'' :=
  ⟨h.depositCount.trans h'.depositCount, h.depositIndex.trans h'.depositIndex⟩

/-- Empty slots change neither number. -/
theorem Raised.advance {target : Slot} (hadvance : e.advance s target = .ok s') : Raised s s' :=
  ⟨(congrArg ExternalData.depositCount (advance_externalData hadvance)).ge,
    (advance_sameIntake hadvance).depositIndex.ge⟩

theorem ChainState.InCount.advance {target : Slot} (hs : s.InCount)
    (hadvance : e.advance s target = .ok s') : s'.InCount := by
  rw [InCount, (advance_sameIntake hadvance).depositIndex, advance_externalData hadvance]
  exact hs

/-- A block raises the index by its deposits. -/
theorem depositIndex_of_importBlock (himport : e.importBlock s b = .ok s') :
    s'.depositIndex = s.depositIndex + b.body.deposits.length := by
  have hblocks : [b].foldlM e.importBlock s = .ok s' := by
    rw [List.foldlM_cons, himport]
    rfl
  rw [(registered_of_importBlocks hblocks).depositIndex, depositsOf, List.flatMap_singleton]

/-- A block that votes over the floor raises the count or keeps it. -/
theorem Raised.importBlock (hready : e.advance s b.slot = .ok ready)
    (hvote : ready.externalData.depositCount ≤ b.body.externalData.depositCount)
    (himport : e.importBlock s b = .ok s') : Raised s s' := by
  obtain ⟨ready', hready', hblock⟩ := importBlock_eq_ok.1 himport
  obtain rfl : ready = ready' := Except.ok.inj (hready.symm.trans hready')
  refine ⟨?_, (Nat.le_add_right ..).trans_eq (depositIndex_of_importBlock himport).symm⟩
  rw [(applyBlock_frame hblock).externalData, ← advance_externalData hready]
  exact le_recordAfterVote hvote

/-- The deposits of a block are taken from those that the record after its vote still has. -/
theorem ChainState.InCount.importBlock (hs : s.InCount) (hraised : Raised s s')
    (himport : e.importBlock s b = .ok s') : s'.InCount := by
  have hle : s.depositIndex ≤ s'.externalData.depositCount := hs.trans hraised.depositCount
  calc s'.depositIndex
      = s.depositIndex + b.body.deposits.length := depositIndex_of_importBlock himport
    _ ≤ s.depositIndex + (s'.externalData.depositCount - s.depositIndex) := by
        rw [length_deposits_of_importBlock himport]
        exact Nat.add_le_add_left (min_le_right ..) _
    _ = s'.externalData.depositCount := Nat.add_sub_cancel' hle

namespace Engine

theorem FollowingCall.raised (hcall : e.FollowingCall s s') : Raised s s' := by
  cases hcall with
  | advance target h => exact .advance h
  | importBlock b cache ready hready hvote h =>
      exact .importBlock hready (hvote ▸ cache.le_voteFor ready) h

theorem FollowingCall.inCount (hcall : e.FollowingCall s s') (hs : s.InCount) : s'.InCount := by
  have hraised := hcall.raised
  cases hcall with
  | advance target h => exact hs.advance h
  | importBlock b cache ready hready hvote h => exact hs.importBlock hraised h

theorem Follows.raised (hrun : e.Follows s s') : Raised s s' := by
  induction hrun with
  | refl => exact .refl s
  | tail _ hcall ih => exact ih.trans hcall.raised

theorem Follows.inCount (hrun : e.Follows s s') (hs : s.InCount) : s'.InCount := by
  induction hrun with
  | refl => exact hs
  | tail _ hcall ih => exact hcall.inCount ih

end Engine

/-! ## The theorem -/

/-- **The adopted deposit count never falls**, if every block votes for what some cache answers on
    the state that the block is applied to. In every state that such a chain comes to, no more
    deposits have been taken in than its record counts; and from there on neither number ever falls. -/
theorem adopted_count_never_falls (time : Nat) (validators : List Validator) (data : ExternalData)
    (fork : Fork)
    (hs : e.Follows (ChainState.genesis e.constants time validators data fork) s)
    (hs' : e.Follows s s') :
    s.depositIndex ≤ s.externalData.depositCount ∧
      s.externalData.depositCount ≤ s'.externalData.depositCount ∧
      s.depositIndex ≤ s'.depositIndex := by
  have hgenesis : (ChainState.genesis e.constants time validators data fork).InCount := le_rfl
  have hraised := hs'.raised
  exact ⟨hs.inCount hgenesis, hraised.depositCount, hraised.depositIndex⟩

/-- A cache that follows one block has the lone validator vote for its two deposits, which are counted
    and taken in at once, and counted ever after. -/
theorem adopted_count_never_falls_lone :
    ∃ (cache : DepositTracker) (b : CandidateBlock) (ready s : ChainState),
      Engine.lone.advance ChainState.lone b.slot = .ok ready ∧
      b.body.externalData = cache.voteFor ready ∧
      Engine.lone.importBlock ChainState.lone b = .ok s ∧ s.depositIndex = 2 ∧
      s.depositIndex ≤ s.externalData.depositCount ∧
      ∀ s', Engine.lone.Follows s s' →
        s.externalData.depositCount ≤ s'.externalData.depositCount := by
  obtain ⟨b, s, himport, hvote, hdeposits⟩ := exists_lone_twoDeposits
  obtain ⟨ready, hready, -⟩ := importBlock_eq_ok.1 himport
  let cache : DepositTracker := { config := {}, blocks := [{ record := { depositCount := 2 } }] }
  -- Up to the first block there are no votes, so the cache answers with its newest record.
  have hvotes : ready.externalDataVotes = [] :=
    stepBy_invariant (P := fun t => t.externalDataVotes = [])
      (fun _ _ ht hstep => List.subset_nil.1 (ht ▸ (step_frame hstep).externalDataVotes)) rfl
      (advance_eq_ok.1 hready).2
  have hfloor : DepositTracker.isForward ready = DepositTracker.isForward ChainState.lone := by
    funext r
    rw [DepositTracker.isForward, DepositTracker.isForward, advance_externalData hready]
  have hcache : b.body.externalData = cache.voteFor ready := by
    rw [hvote, DepositTracker.voteFor, hvotes, hfloor]
    rfl
  have hrun : Engine.lone.Follows ChainState.lone s :=
    .single (.importBlock b cache ready hready hcache himport)
  have hindex : s.depositIndex = 2 := by
    rw [depositIndex_of_importBlock himport, hdeposits]
    rfl
  refine ⟨cache, b, ready, s, hready, hcache, himport, hindex, ?_, fun s' hs' => ?_⟩
  · exact (adopted_count_never_falls 0 [loneVoter] {} {} hrun (.refl (a := s))).1
  · exact (adopted_count_never_falls 0 [loneVoter] {} {} hrun hs').2.1

end Beacon
