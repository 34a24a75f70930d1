import Mathlib
import Beacon.Proofs.Transition.Attestations
import Beacon.Proofs.Transition.Partition

set_option autoImplicit false

/-! # Who included an attestation

A pending attestation was included by the block of one slot, and remembers that block's proposer.
A chain has at most one block in each slot, so the slot settles the proposer: `Credited` is the
invariant, kept by every move (`Reachable.credited`). A validator has one place among the committees
of an epoch, so all its attestations of the epoch are of one slot (`slot_eq_of_attesters`), and
those that were included after the same delay were included by the same proposer (`proposer_eq`).
Of all inclusions of a validator the earliest one counts (`earliestInclusion?_cases`). -/

namespace Beacon

variable {c : Constants} {e : Engine} {s s' : ChainState} {epoch : Epoch}
  {proposers : Slot → ValidatorIndex}

/-! ## One block in each slot -/

/-- The slot of the block that included a pending attestation. -/
def PendingAttestation.includedAt (a : PendingAttestation) : Slot := a.data.slot + a.inclusionDelay

/-- All pending attestations of a state. -/
def ChainState.pending (s : ChainState) : List PendingAttestation :=
  s.previousEpochAttestations ++ s.currentEpochAttestations

/-- The pending attestations of a state were included up to its latest block, each one by the
    proposer of its slot. -/
structure Credited (proposers : Slot → ValidatorIndex) (s : ChainState) : Prop where
  latest : proposers s.latestBlockHeader.slot = s.latestBlockHeader.proposerIndex
  included : ∀ a ∈ s.pending, a.includedAt ≤ s.latestBlockHeader.slot
  proposer : ∀ a ∈ s.pending, a.proposerIndex = proposers a.includedAt

theorem credited_genesis (c : Constants) (time : Nat) (validators : List Validator)
    (data : ExternalData) (fork : Fork) :
    Credited (fun _ => 0) (ChainState.genesis c time validators data fork) := by
  refine ⟨rfl, ?_, ?_⟩ <;> simp [ChainState.pending, ChainState.genesis]

/-- A state with a header of the same slot and proposer, and no new pending attestations. -/
theorem Credited.congr (h : Credited proposers s)
    (hslot : s'.latestBlockHeader.slot = s.latestBlockHeader.slot)
    (hproposer : s'.latestBlockHeader.proposerIndex = s.latestBlockHeader.proposerIndex)
    (hpending : s'.pending ⊆ s.pending) : Credited proposers s' := by
  refine ⟨?_, ?_, ?_⟩
  · rw [hslot, hproposer]
    exact h.latest
  · intro a ha
    rw [hslot]
    exact h.included a (hpending ha)
  · intro a ha
    exact h.proposer a (hpending ha)

theorem ChainState.filledHeader_proposerIndex (s : ChainState) :
    s.filledHeader.proposerIndex = s.latestBlockHeader.proposerIndex := by
  unfold ChainState.filledHeader
  split <;> rfl

/-- A slot forgets attestations and includes none. -/
theorem pending_subset_of_step (hstep : Engine.step c s = .ok s') : s'.pending ⊆ s.pending := by
  rcases step_cases hstep with ⟨-, summary, hprocess⟩ | ⟨-, rfl⟩
  · have hframe := processEpoch_frame hprocess
    rw [ChainState.pending, hframe.previous, hframe.current, List.append_nil]
    exact List.subset_append_right _ _
  · exact List.Subset.refl _

theorem Credited.step (h : Credited proposers s) (hstep : Engine.step c s = .ok s') :
    Credited proposers s' := by
  have hheader := (step_frame hstep).latestBlockHeader
  refine h.congr ?_ ?_ (pending_subset_of_step hstep)
  · rw [hheader, ChainState.filledHeader_slot]
  · rw [hheader, ChainState.filledHeader_proposerIndex]

/-- A block is newer than all that are known, so its proposer can be written beside theirs. -/
theorem Credited.opened (h : Credited proposers s) {b : CandidateBlock}
    (hnewer : s.latestBlockHeader.slot < b.slot) :
    Credited (Function.update proposers b.slot b.proposerIndex) (s.opened c b) := by
  refine ⟨Function.update_self .., ?_, ?_⟩
  · intro a ha
    exact (h.included a ha).trans hnewer.le
  · intro a ha
    have hlt : a.includedAt < b.slot := lt_of_le_of_lt (h.included a ha) hnewer
    rw [Function.update_of_ne hlt.ne]
    exact h.proposer a ha

/-- The attestation that a block records was included in its slot, by its proposer. -/
theorem Credited.applyAttestation {proposer : ValidatorIndex} {a : Attestation}
    (h : Credited proposers s) (hslot : s.latestBlockHeader.slot = s.slot)
    (hproposer : s.latestBlockHeader.proposerIndex = proposer)
    (happly : applyAttestation c proposer s a = .ok s') : Credited proposers s' := by
  obtain ⟨-, hle, rfl⟩ := applyAttestation_eq_ok.1 happly
  have hnow : (pendingOf s proposer a).includedAt = s.slot := Nat.add_sub_of_le hle
  have hrecorded : ∀ p ∈ (s.recording c proposer a).pending,
      p ∈ s.pending ∨ p = pendingOf s proposer a := by
    intro p hp
    unfold ChainState.recording at hp
    split at hp <;> simp only [ChainState.pending, List.mem_append, List.mem_singleton] at hp ⊢ <;>
      tauto
  have hheader : (s.recording c proposer a).latestBlockHeader = s.latestBlockHeader := by
    unfold ChainState.recording
    split <;> rfl
  refine ⟨by rw [hheader]; exact h.latest, ?_, ?_⟩
  · intro p hp
    rw [hheader]
    rcases hrecorded p hp with hold | rfl
    · exact h.included p hold
    · rw [hnow, hslot]
  · intro p hp
    rcases hrecorded p hp with hold | rfl
    · exact h.proposer p hold
    · rw [hnow, ← hslot, h.latest]
      exact hproposer.symm

/-- In the middle of a block its header is the latest one. -/
structure CreditedIn (proposers : Slot → ValidatorIndex) (b : CandidateBlock) (s : ChainState) :
    Prop where
  credited : Credited proposers s
  slot : s.latestBlockHeader.slot = s.slot
  proposer : s.latestBlockHeader.proposerIndex = b.proposerIndex

/-- No operation touches the header. -/
theorem CreditedIn.operation {b : CandidateBlock} (h : CreditedIn proposers b s)
    (hframe : OperationFrame c s s') (hcredited : Credited proposers s') :
    CreditedIn proposers b s' := by
  refine ⟨hcredited, ?_, ?_⟩
  · rw [hframe.latestBlockHeader, hframe.slot]
    exact h.slot
  · rw [hframe.latestBlockHeader]
    exact h.proposer

/-- A block leaves the proposers with its own added. -/
theorem Credited.processBlock (h : Credited proposers s) (hc : c.Consistent) {b : CandidateBlock}
    (hblock : processBlock c s b = .ok s') :
    Credited (Function.update proposers b.slot b.proposerIndex) s' := by
  obtain ⟨hslot, hmay, -, -, hops⟩ := (processBlock_eq_ok hc).1 hblock
  have hopened := h.opened (c := c) (b := b) (by rw [hslot]; exact hmay.newer)
  refine (applyOperations_invariant (P := CreditedIn _ b) ?_ ?_ ?_ ⟨hopened, hslot, rfl⟩
    hops).credited
  · intro evidence t t' ht happly
    have hframe := applySlashing_frame happly
    obtain ⟨index, v, balance, -, -, -, -, rfl⟩ := applySlashing_eq_ok.1 happly
    exact ht.operation hframe (ht.credited.congr rfl rfl (List.Subset.refl _))
  · intro a t t' ht happly
    exact ht.operation (applyAttestation_frame happly)
      (ht.credited.applyAttestation ht.slot ht.proposer happly)
  · intro d t t' ht happly
    have hframe := applyDeposit_frame happly
    obtain ⟨-, -, ⟨index, balance, -, -, rfl⟩ | ⟨-, rfl⟩⟩ := applyDeposit_eq_ok.1 happly
    · exact ht.operation hframe (ht.credited.congr rfl rfl (List.Subset.refl _))
    · exact ht.operation hframe (ht.credited.congr rfl rfl (List.Subset.refl _))

/-- Along every run each slot has one proposer to be paid for its inclusions. -/
theorem Engine.Reachable.credited (h : e.Reachable s) : ∃ proposers, Credited proposers s := by
  obtain ⟨time, validators, data, fork, hrun⟩ := h
  refine hrun.invariant (P := fun t => ∃ proposers, Credited proposers t) ?_
    ⟨_, credited_genesis e.constants time validators data fork⟩
  rintro t t' ⟨proposers, ht⟩ hmove
  cases hmove with
  | step hstep => exact ⟨proposers, ht.step hstep⟩
  | block b hb => exact ⟨_, ht.processBlock e.consistent (applyBlock_eq_ok.1 hb).1⟩

/-! ## One place in each epoch -/

/-- Lists that are disjoint one by one have no element in common but at one position. -/
theorem position_eq_of_mem {α : Type} {xss : List (List α)} (hnodup : xss.flatten.Nodup) {i j : Nat}
    {xs ys : List α} {x : α} (hi : xss[i]? = some xs) (hj : xss[j]? = some ys) (hx : x ∈ xs)
    (hy : x ∈ ys) : i = j := by
  have hdisjoint := List.pairwise_iff_getElem.1 (List.nodup_flatten.1 hnodup).2
  obtain ⟨hilt, rfl⟩ := List.getElem?_eq_some_iff.1 hi
  obtain ⟨hjlt, rfl⟩ := List.getElem?_eq_some_iff.1 hj
  rcases Nat.lt_trichotomy i j with hlt | heq | hlt
  · exact absurd hy (hdisjoint i j hilt hjlt hlt hx)
  · exact heq
  · exact absurd hx (hdisjoint j i hjlt hilt hlt hy)

/-- A validator that is in two committees of an epoch is in them at one slot. -/
theorem EpochCommittees.slot_eq_of_mem {committees : EpochCommittees} {slot slot' : Slot}
    {index index' : CommitteeIndex} {members members' : List ValidatorIndex} {w : ValidatorIndex}
    (hnodup : committees.members.toList.flatten.Nodup)
    (h : committees.committee? slot index = some members)
    (h' : committees.committee? slot' index' = some members')
    (hw : w ∈ members) (hw' : w ∈ members') : slot = slot' := by
  unfold EpochCommittees.committee? at h h'
  split at h
  · next hplace =>
      split at h'
      · next hplace' =>
          rw [← Array.getElem?_toList] at h h'
          have hpos : 0 < committees.committeesPerSlot := Nat.zero_lt_of_lt hplace.2
          -- The two committees are one, so they stand in one row.
          have hflat := position_eq_of_mem hnodup h h' hw hw'
          have hrow := congrArg (· / committees.committeesPerSlot) hflat
          simp only [Nat.mul_comm _ committees.committeesPerSlot, Nat.mul_add_div hpos,
            Nat.div_eq_of_lt hplace.2, Nat.div_eq_of_lt hplace'.2, Nat.add_zero] at hrow
          rw [← Nat.div_add_mod' slot committees.slotsPerEpoch, hplace.1, hrow, ← hplace'.1,
            Nat.div_add_mod']
      · cases h'
  · cases h

/-- The attesters of an attestation are members of the committee that it names. -/
theorem committee_of_attestersOf {lookup : CommitteeLookup} {a : PendingAttestation}
    {attesters : List ValidatorIndex} (h : attestersOf lookup a = .ok attesters) :
    ∃ committees members, lookup a.data.target.epoch = .ok committees ∧
      committees.committee? a.data.slot a.data.index = some members ∧ attesters ⊆ members := by
  simp only [attestersOf, Attempt.bind_eq_ok, Attempt.widen_eq_ok] at h
  obtain ⟨committees, hcommittees, h⟩ := h
  cases hmembers : committees.committee? a.data.slot a.data.index with
  | none => simp [hmembers] at h
  | some members =>
      simp only [hmembers, Attempt.pure_eq_ok] at h
      subst h
      refine ⟨committees, members, hcommittees, hmembers, fun w hw => ?_⟩
      obtain ⟨⟨w', bit⟩, hpair, rfl⟩ := List.mem_map.1 hw
      exact (List.of_mem_zip (List.mem_filter.1 hpair).1).1

/-- All attestations of an epoch in which a validator attests are of one slot. -/
theorem slot_eq_of_attesters (hc : c.Consistent) {a b : PendingAttestation}
    {attesters attesters' : List ValidatorIndex} {w : ValidatorIndex}
    (ha : attestersOf (committeesOf c s) a = .ok attesters)
    (hb : attestersOf (committeesOf c s) b = .ok attesters')
    (hepoch : b.data.target.epoch = a.data.target.epoch) (hw : w ∈ attesters)
    (hw' : w ∈ attesters') : a.data.slot = b.data.slot := by
  obtain ⟨committees, members, hcommittees, hmembers, hsubset⟩ := committee_of_attestersOf ha
  obtain ⟨committees', members', hcommittees', hmembers', hsubset'⟩ := committee_of_attestersOf hb
  rw [hepoch, hcommittees] at hcommittees'
  obtain rfl := Except.ok.inj hcommittees'
  have hnodup : committees.members.toList.flatten.Nodup :=
    (flatten_members_perm hc hcommittees).nodup_iff.2
      ((pairwise_activeIndices s _).imp fun hlt => hlt.ne)
  exact EpochCommittees.slot_eq_of_mem hnodup hmembers hmembers' (hsubset hw) (hsubset' hw')

/-- Attestations of one validator in one epoch that were included after the same delay were
    included by the same proposer. -/
theorem Credited.proposer_eq (h : Credited proposers s) (hc : c.Consistent)
    {a b : PendingAttestation} {attesters attesters' : List ValidatorIndex} {w : ValidatorIndex}
    (hapending : a ∈ s.pending) (hbpending : b ∈ s.pending)
    (ha : attestersOf (committeesOf c s) a = .ok attesters)
    (hb : attestersOf (committeesOf c s) b = .ok attesters')
    (hepoch : b.data.target.epoch = a.data.target.epoch) (hw : w ∈ attesters)
    (hw' : w ∈ attesters') (hdelay : a.inclusionDelay = b.inclusionDelay) :
    a.proposerIndex = b.proposerIndex := by
  have hslot := slot_eq_of_attesters hc ha hb hepoch hw hw'
  have hincluded : a.includedAt = b.includedAt := by
    rw [PendingAttestation.includedAt, hslot, hdelay, PendingAttestation.includedAt]
  rw [h.proposer a hapending, hincluded, h.proposer b hbpending]

/-! ## The earliest inclusion -/

/-- Attestations with their attesters. -/
abbrev Attested : Type := PendingAttestation × List ValidatorIndex

/-- The inclusion of an attestation, for one of its attesters. -/
def inclusionOf (w : ValidatorIndex) (a : PendingAttestation) : Inclusion :=
  ⟨w, a.inclusionDelay, a.proposerIndex⟩

/-- One more attestation takes over if it was included earlier than all before it. -/
theorem earliestInclusion?_concat (ps : List Attested) (p : Attested) (w : ValidatorIndex) :
    earliestInclusion? (ps ++ [p]) w
      = if w ∈ p.2 then
          match earliestInclusion? ps w with
          | none => some (inclusionOf w p.1)
          | some b => if p.1.inclusionDelay < b.delay then some (inclusionOf w p.1) else some b
        else earliestInclusion? ps w := by
  by_cases hw : w ∈ p.2
  · have hone : [p].filter (fun q => q.2.contains w) = [p] := by simp [hw]
    rw [if_pos hw]
    cases hbest : earliestInclusion? ps w with
    | none =>
        unfold earliestInclusion? at hbest ⊢
        rw [List.filter_append, List.foldl_append, hbest, hone]
        rfl
    | some b =>
        unfold earliestInclusion? at hbest ⊢
        rw [List.filter_append, List.foldl_append, hbest, hone]
        rfl
  · have hnone : [p].filter (fun q => q.2.contains w) = [] := by simp [hw]
    unfold earliestInclusion?
    rw [if_neg hw, List.filter_append, List.foldl_append, hnone, List.foldl_nil]

/-- There is no earliest inclusion only of a validator that did not attest; else it is the inclusion
    of an attestation with the smallest delay. -/
theorem earliestInclusion?_cases (ps : List Attested) (w : ValidatorIndex) :
    (earliestInclusion? ps w = none ∧ ∀ p ∈ ps, w ∉ p.2) ∨
      ∃ p ∈ ps, w ∈ p.2 ∧ earliestInclusion? ps w = some (inclusionOf w p.1) ∧
        ∀ q ∈ ps, w ∈ q.2 → p.1.inclusionDelay ≤ q.1.inclusionDelay := by
  induction ps using List.reverseRecOn with
  | nil => exact Or.inl ⟨rfl, fun p hp => absurd hp List.not_mem_nil⟩
  | append_singleton ps p ih =>
      have hmem (q : Attested) : q ∈ ps ++ [p] ↔ q ∈ ps ∨ q = p := by simp
      rw [earliestInclusion?_concat]
      by_cases hw : w ∈ p.2
      · rw [if_pos hw]
        right
        rcases ih with ⟨hnone, hout⟩ | ⟨q, hq, hqw, hsome, hle⟩
        · -- The first attestation of the validator.
          refine ⟨p, (hmem p).2 (Or.inr rfl), hw, by rw [hnone], fun q hq hqw => ?_⟩
          rcases (hmem q).1 hq with hold | rfl
          · exact absurd hqw (hout q hold)
          · exact le_rfl
        · rw [hsome]
          by_cases hlt : p.1.inclusionDelay < q.1.inclusionDelay
          · refine ⟨p, (hmem p).2 (Or.inr rfl), hw, if_pos hlt, fun r hr hrw => ?_⟩
            rcases (hmem r).1 hr with hold | rfl
            · exact hlt.le.trans (hle r hold hrw)
            · exact le_rfl
          · refine ⟨q, (hmem q).2 (Or.inl hq), hqw, if_neg hlt, fun r hr hrw => ?_⟩
            rcases (hmem r).1 hr with hold | rfl
            · exact hle r hold hrw
            · exact Nat.not_lt.1 hlt
      · rw [if_neg hw]
        rcases ih with ⟨hnone, hout⟩ | ⟨q, hq, hqw, hsome, hle⟩
        · refine Or.inl ⟨hnone, fun q hq => ?_⟩
          rcases (hmem q).1 hq with hold | rfl
          · exact hout q hold
          · exact hw
        · refine Or.inr ⟨q, (hmem q).2 (Or.inl hq), hqw, hsome, fun r hr hrw => ?_⟩
          rcases (hmem r).1 hr with hold | rfl
          · exact hle r hold hrw
          · exact absurd hrw hw

end Beacon
