import Mathlib
import Beacon.Proofs.Deposits
import Beacon.Proofs.Serving.Stability

set_option autoImplicit false

/-! # Who is assigned to a committee

The committees of an epoch are listed row by row, a row for each slot (`mem_entries`), and every
requested validator in one of them is assigned its position there (`assigned_iff`). A head works the
assignments of an epoch out from its state at the start of the epoch, or from a later one; the
committees are then those of any state of the epoch that answers for one of its slots
(`duties_iff`). -/

namespace Beacon

variable {e : Engine} {h : ChainHead} {s t : ChainState} {epoch : Epoch} {slot : Slot}
  {index : CommitteeIndex} {members : List ValidatorIndex} {committees : EpochCommittees}
  {keys : List PublicKey} {d : ValidatorDuties} {duties : List ValidatorDuties} {position : Nat}
  {w : ValidatorIndex}

/-! ## The list of committees -/

/-- A committee has a slot of its epoch, and an index below their number. -/
theorem EpochCommittees.of_committee?
    (hmembers : committees.committee? slot index = some members) :
    slot / committees.slotsPerEpoch = committees.epoch ∧ index < committees.committeesPerSlot := by
  by_contra hout
  rw [EpochCommittees.committee?, if_neg hout] at hmembers
  cases hmembers

theorem EpochCommittees.mem_entries
    {entries : List (Slot × CommitteeIndex × List ValidatorIndex)}
    (hentries : committees.entries = .ok entries)
    (hslot : slot / committees.slotsPerEpoch = committees.epoch)
    (hindex : index < committees.committeesPerSlot) :
    (slot, index, members) ∈ entries ↔ committees.committee? slot index = some members := by
  have hrow : committees.epoch * committees.slotsPerEpoch + slot % committees.slotsPerEpoch
      = slot := by
    rw [← hslot, Nat.div_add_mod']
  simp only [EpochCommittees.entries, Attempt.bind_eq_ok, Word.mul_eq_ok] at hentries
  obtain ⟨_, ⟨rfl, -⟩, hentries⟩ := hentries
  rw [EpochCommittees.committee?, if_pos ⟨hslot, hindex⟩]
  constructor
  · intro hmem
    obtain ⟨⟨ms, i⟩, hms, hentry⟩ := Attempt.exists_of_mem_mapM hentries hmem
    simp only [Attempt.bind_eq_ok, Word.add_eq_ok, Attempt.pure_eq_ok, Prod.mk.injEq] at hentry
    obtain ⟨_, ⟨rfl, -⟩, hi, rfl, rfl⟩ := hentry
    have hrow' : slot % committees.slotsPerEpoch = i / committees.committeesPerSlot :=
      Nat.add_left_cancel (hrow.trans hi.symm)
    rw [hrow', Nat.div_add_mod', ← Array.getElem?_toList]
    exact List.mk_mem_zipIdx_iff_getElem?.1 hms
  · intro hmembers
    rw [← Array.getElem?_toList] at hmembers
    obtain ⟨⟨slot', index', ms⟩, hmem, hentry⟩ :=
      Attempt.exists_mem_of_mapM hentries (List.mk_mem_zipIdx_iff_getElem?.2 hmembers)
    simp only [Attempt.bind_eq_ok, Word.add_eq_ok, Attempt.pure_eq_ok, Prod.mk.injEq] at hentry
    obtain ⟨_, ⟨rfl, -⟩, rfl, rfl, rfl⟩ := hentry
    have hpos : 0 < committees.committeesPerSlot := Nat.zero_lt_of_lt hindex
    have hrow' : (slot % committees.slotsPerEpoch * committees.committeesPerSlot + index)
        / committees.committeesPerSlot = slot % committees.slotsPerEpoch := by
      rw [Nat.mul_comm, Nat.mul_add_div hpos, Nat.div_eq_of_lt hindex, Nat.add_zero]
    rw [hrow', hrow, Nat.mul_add_mod', Nat.mod_eq_of_lt hindex] at hmem
    exact hmem

/-! ## Assignments -/

/-- The assignments name a validator for a position of a committee. -/
def AssignedTo (duties : List ValidatorDuties) (slot : Slot) (index : CommitteeIndex)
    (position : Nat) (w : ValidatorIndex) : Prop :=
  ∃ d ∈ duties, d.attestationSlot = slot ∧ d.committeeIndex = index ∧
    d.committeePosition = position ∧ d.validatorIndex = w

theorem Engine.mem_assignCommittee {proposers : List (Slot × ValidatorIndex)}
    {wanted : List ValidatorIndex} :
    d ∈ Engine.assignCommittee s proposers wanted slot index members ↔
      ∃ position w, members[position]? = some w ∧ w ∈ wanted ∧
        Engine.assignment s proposers slot index members.length position w = d := by
  simp only [Engine.assignCommittee, List.mem_map, List.mem_filter, List.contains_iff_mem,
    Prod.exists, List.mk_mem_zipIdx_iff_getElem?]
  constructor
  · rintro ⟨w, position, ⟨hmember, hwanted⟩, rfl⟩
    exact ⟨position, w, hmember, hwanted, rfl⟩
  · rintro ⟨position, w, hmember, hwanted, rfl⟩
    exact ⟨w, position, ⟨hmember, hwanted⟩, rfl⟩

/-- A requested validator is assigned a position of a committee exactly if it is the member there. -/
theorem Engine.assigned_iff (hassign : e.assignments s epoch keys = .ok duties)
    (hcommittees : committeesOf e.constants s epoch = .ok committees)
    (hmembers : committees.committee? slot index = some members) :
    AssignedTo duties slot index position w ↔
      members[position]? = some w ∧ w ∈ Engine.requested s keys := by
  obtain ⟨hslot, hindex⟩ := EpochCommittees.of_committee? hmembers
  simp only [Engine.assignments, Engine.committees, hcommittees, Attempt.bind_eq_ok,
    Attempt.widen_eq_ok, Attempt.liftM_eq_ok, Attempt.pure_eq_ok] at hassign
  obtain ⟨_, hok, proposers, -, entries, hentries, rfl⟩ := hassign
  obtain rfl := Except.ok.inj hok
  simp only [AssignedTo, List.mem_mergeSort, List.mem_flatMap, Prod.exists,
    Engine.mem_assignCommittee]
  constructor
  · rintro ⟨_, ⟨slot', index', ms, hmem, position', w', hw, hwanted, rfl⟩, hplace⟩
    obtain ⟨rfl, rfl, rfl, rfl⟩ : slot' = slot ∧ index' = index ∧ position' = position ∧ w' = w :=
      hplace
    rw [EpochCommittees.mem_entries hentries hslot hindex, hmembers] at hmem
    obtain rfl := Option.some.inj hmem
    exact ⟨hw, hwanted⟩
  · rintro ⟨hw, hwanted⟩
    have hmem := (EpochCommittees.mem_entries hentries hslot hindex).2 hmembers
    exact ⟨_, ⟨slot, index, members, hmem, position, w, hw, hwanted, rfl⟩, rfl, rfl, rfl, rfl⟩

/-- Assignments can be given wherever there are committees, as far as the epoch ends within the
    64-bit range. -/
theorem Engine.assignments_within {ℓ : Leeway} (hs : RingsFit e.constants s)
    (hstart : epoch * e.constants.slotsPerEpoch < Word.limit)
    (hfits : ℓ.faults .overflow ∨
      epoch * e.constants.slotsPerEpoch + e.constants.slotsPerEpoch < Word.limit)
    (hcommittees : committeesOf e.constants s epoch = .ok committees) (keys : List PublicKey) :
    (e.assignments s epoch keys).Within ℓ := by
  have hmixes := hs.randaoMixes_pos e.consistent
  obtain ⟨seed, -, hactive, -, hcut⟩ := committeesOf_eq_ok.1 hcommittees
  obtain ⟨htwo, hnext, hwindow⟩ := window_of_committeesOf e.consistent hcommittees
  -- Every slot of the epoch has a proposer.
  have hproposers : (e.proposers s epoch).Within ℓ := by
    rw [Engine.proposers, Engine.proposalSlots, Constants.epochStart_of_lt hstart]
    refine Attempt.Within.bind ?_ fun slots hslots => Attempt.Within.mapM fun slot hslot => ?_
    · refine Attempt.Within.lift ?_
      exact (Word.add_within hfits).bind fun _ _ => trivial
    · simp only [Attempt.liftM_eq_ok, Attempt.bind_eq_ok, Word.add_eq_ok, Attempt.pure_eq_ok]
        at hslots
      obtain ⟨_, ⟨rfl, -⟩, rfl⟩ := hslots
      have hslot := List.mem_range'_1.1 hslot
      have hepoch : e.constants.epochAt slot = epoch := by
        rw [Constants.epochAt]
        refine (Nat.div_eq_iff e.consistent.slotsPerEpoch_pos).2 ?_
        lia
      have hproposer : (e.proposer s slot).Within ℓ := by
        refine (proposerOf_within e.consistent (Or.inr ?_) (Or.inr ?_)).widen _
        · rw [hepoch]
          exact ⟨htwo, hnext⟩
        · rw [hepoch]
          exact ⟨⟨hwindow, hmixes⟩, hactive⟩
      exact hproposer.bind fun _ _ => trivial
  -- And every row of committees stands at one of these slots.
  have hentries : committees.entries.Within ℓ := by
    subst hcut
    refine (Word.mul_within (Or.inr hstart)).bind fun start hmul => Attempt.Within.mapM ?_
    obtain ⟨rfl, -⟩ := Word.mul_eq_ok.1 hmul
    rintro ⟨ms, i⟩ hms
    have hrow : i / e.constants.committeesPerSlot (s.activeIndices epoch).length
        < e.constants.slotsPerEpoch := Nat.div_lt_of_lt_mul (lt_of_mem_zipIdx_slices hms)
    exact (Word.add_within (hfits.imp_right (by lia))).bind fun _ _ => trivial
  rw [Engine.assignments, Engine.committees, hcommittees]
  exact hproposers.bind fun proposers _ => hentries.lift.bind fun entries _ => trivial

/-! ## What a head answers -/

/-- Empty slots leave every key with its validator. -/
theorem validatorIndex?_of_advance {target : Slot} {key : PublicKey}
    (hadvance : e.advance s target = .ok t) : t.validatorIndex? key = s.validatorIndex? key := by
  have hfind (s : ChainState) : s.validatorIndex? key = s.pubkeys.findIdx? (· = key) := by
    rw [ChainState.pubkeys, List.findIdx?_map]
    rfl
  rw [hfind, hfind, (advance_sameIntake hadvance).pubkeys]

/-- The state from which a head answers for an epoch has the committees of the state from which it
    answers for one of its slots. -/
theorem ChainHead.Reachable.exists_epochState (hreach : h.Reachable e)
    (hstate : h.stateAt e slot = .ok t)
    (hcommittees : committeesOf e.constants t (e.constants.epochAt slot) = .ok committees) :
    ∃ s, h.stateAt e (e.constants.epochStart (e.constants.epochAt slot)) = .ok s ∧
      e.Reachable s ∧ committeesOf e.constants s (e.constants.epochAt slot) = .ok committees ∧
      ∀ keys, Engine.requested s keys = Engine.requested h.state keys := by
  obtain ⟨ht, hslot⟩ := hreach.stateAt hstate
  obtain ⟨_, hrun⟩ := ht.exists_run
  have hle : e.constants.epochAt slot * e.constants.slotsPerEpoch ≤ slot :=
    Constants.epochAt_mul_le slot
  rw [Constants.epochStart_of_lt ((hle.trans hslot).trans_lt hrun.slot_lt)]
  obtain ⟨s, hs⟩ := ChainHead.exists_stateAt hle hstate
  have hreaches := ChainHead.stateAt_reaches hle hs hstate
  obtain ⟨hs', hstart⟩ := hreach.stateAt hs
  obtain ⟨htwo, hnext, hwindow⟩ := window_of_committeesOf e.consistent hcommittees
  have hmono : s.currentEpoch e.constants ≤ t.currentEpoch e.constants :=
    Constants.epochAt_mono hreaches.slot_le
  -- It comes before the other one, and the epoch has started for it.
  obtain ⟨-, hsame⟩ := hreaches.sameSources hstart (hreaches.slot_le.trans_lt hrun.slot_lt)
    (lt_farFuture htwo) hwindow.1
  have hfrom : e.constants.epochAt slot ≤ s.currentEpoch e.constants :=
    (Nat.le_div_iff_mul_le e.consistent.slotsPerEpoch_pos).2 hstart
  have hback : SameSources e.constants t s (e.constants.epochAt slot) :=
    ⟨hsame.mix.symm, hsame.active.symm⟩
  refine ⟨s, hs, hs', hback.committeesOf e.consistent hcommittees (checkWindow_eq_ok.2
    ⟨htwo, lt_of_le_of_lt (Nat.succ_le_succ hmono) hnext, hmono.trans hwindow.1,
      hfrom.trans (Nat.le_succ _)⟩), fun keys => ?_⟩
  rcases ChainHead.stateAt_eq_ok.1 hs with ⟨-, rfl⟩ | ⟨-, hadvance⟩
  · rfl
  · exact List.filterMap_congr fun key _ => validatorIndex?_of_advance hadvance

/-- The assignments of a head for the epoch of a slot are those of the committees with which it
    answers for the slot. -/
theorem ChainHead.duties_iff (hreach : h.Reachable e) (hstate : h.stateAt e slot = .ok t)
    (hcommittees : committeesOf e.constants t (e.constants.epochAt slot) = .ok committees)
    (hmembers : committees.committee? slot index = some members)
    (hduties : h.duties e (e.constants.epochAt slot) keys = .ok duties) :
    AssignedTo duties slot index position w ↔
      members[position]? = some w ∧ w ∈ Engine.requested h.state keys := by
  obtain ⟨s, hs, -, hcommittees', hrequested⟩ := hreach.exists_epochState hstate hcommittees
  rw [ChainHead.duties, hs, Attempt.ok_bind, Attempt.widen_eq_ok] at hduties
  rw [← hrequested]
  exact Engine.assigned_iff hduties hcommittees' hmembers

/-- A head that can answer for a slot can give the assignments of its epoch, as far as the slot an
    epoch later is in the 64-bit range. -/
theorem ChainHead.duties_within {ℓ : Leeway} (hreach : h.Reachable e)
    (hstate : h.stateAt e slot = .ok t)
    (hcommittees : committeesOf e.constants t (e.constants.epochAt slot) = .ok committees)
    (hfits : ℓ.faults .overflow ∨ slot + e.constants.slotsPerEpoch < Word.limit)
    (keys : List PublicKey) : (h.duties e (e.constants.epochAt slot) keys).Within ℓ := by
  obtain ⟨s, hs, hs', hcommittees', -⟩ := hreach.exists_epochState hstate hcommittees
  obtain ⟨ht, hslot⟩ := hreach.stateAt hstate
  obtain ⟨_, hrun⟩ := ht.exists_run
  have hle := Constants.epochAt_mul_le (c := e.constants) slot
  rw [ChainHead.duties, hs, Attempt.ok_bind]
  refine (Engine.assignments_within hs'.coherent.rings ((hle.trans hslot).trans_lt hrun.slot_lt)
    (hfits.imp_right fun hlt => ?_) hcommittees' keys).widen _
  exact (Nat.add_le_add_right hle _).trans_lt hlt

end Beacon
