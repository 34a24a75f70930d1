import Mathlib
import Beacon.Proofs.Serving.Assigned
import Beacon.Proofs.Transition.Partition

set_option autoImplicit false

/-! # Assignments are complete

The committees of an epoch hold every active validator once, so the requested members of all of them
are the requested active validators, each with one assignment (`Engine.map_validatorIndex`). The
slots of an epoch are listed from its start, committees by their rows, and both come to the same
slots (`EpochCommittees.of_mem_entries`, `Engine.mem_proposers`). A proposer is an active validator,
so that none of its slots is lost when they are handed out to the members of committees
(`handOut_eq`). -/

namespace Beacon

variable {e : Engine} {s : ChainState} {epoch : Epoch} {slot : Slot} {index : CommitteeIndex}
  {members : List ValidatorIndex} {committees : EpochCommittees}
  {entries : List (Slot × CommitteeIndex × List ValidatorIndex)} {keys : List PublicKey}
  {d : ValidatorDuties} {duties : List ValidatorDuties} {proposer : ValidatorIndex}
  {proposers : List (Slot × ValidatorIndex)} {wanted : List ValidatorIndex}

/-! ## The rows of committees -/

namespace EpochCommittees

theorem map_entries (h : committees.entries = .ok entries) :
    entries.map (·.2.2) = committees.members.toList := by
  simp only [EpochCommittees.entries, Attempt.bind_eq_ok] at h
  obtain ⟨start, -, h⟩ := h
  rw [Attempt.map_of_mapM (g := (·.2.2)) (k := (·.1)) ?_ h, List.zipIdx_map_fst]
  rintro ⟨ms, i⟩ entry hentry
  simp only [Attempt.bind_eq_ok, Attempt.pure_eq_ok] at hentry
  obtain ⟨_, -, rfl⟩ := hentry
  rfl

/-- What is listed is a committee of the epoch. -/
theorem of_mem_entries (hc : e.constants.Consistent)
    (hcommittees : committeesOf e.constants s epoch = .ok committees)
    (h : committees.entries = .ok entries) (hmem : (slot, index, members) ∈ entries) :
    committees.committee? slot index = some members := by
  obtain ⟨seed, -, -, -, rfl⟩ := committeesOf_eq_ok.1 hcommittees
  have hperSlot : 0 < e.constants.committeesPerSlot (s.activeIndices epoch).length :=
    Nat.lt_of_lt_of_le Nat.zero_lt_one (Nat.le_max_left ..)
  have hlisted := h
  simp only [EpochCommittees.entries, Attempt.bind_eq_ok, Word.mul_eq_ok] at h
  obtain ⟨_, ⟨rfl, -⟩, hmap⟩ := h
  obtain ⟨⟨ms, i⟩, hms, hentry⟩ := Attempt.exists_of_mem_mapM hmap hmem
  simp only [Attempt.bind_eq_ok, Word.add_eq_ok, Attempt.pure_eq_ok, Prod.mk.injEq] at hentry
  obtain ⟨_, ⟨rfl, -⟩, hslot, hindex, -⟩ := hentry
  have hrow : i / e.constants.committeesPerSlot (s.activeIndices epoch).length
      < e.constants.slotsPerEpoch := Nat.div_lt_of_lt_mul (lt_of_mem_zipIdx_slices hms)
  refine (mem_entries hlisted ?_ ?_).1 hmem
  · show slot / e.constants.slotsPerEpoch = epoch
    rw [← hslot, Nat.div_eq_iff hc.slotsPerEpoch_pos]
    lia
  · show index < e.constants.committeesPerSlot (s.activeIndices epoch).length
    rw [← hindex]
    exact Nat.mod_lt _ hperSlot

end EpochCommittees

/-! ## Proposals -/

namespace Engine

/-- The slots of an epoch that have a proposer are those from slot one on. -/
theorem mem_proposalSlots {slots : List Slot}
    (hstart : epoch * e.constants.slotsPerEpoch < Word.limit)
    (h : e.proposalSlots epoch = .ok slots) :
    slot ∈ slots ↔ e.constants.epochAt slot = epoch ∧ 1 ≤ slot := by
  simp only [proposalSlots, Constants.epochStart_of_lt hstart, Attempt.bind_eq_ok, Word.add_eq_ok,
    Attempt.pure_eq_ok] at h
  obtain ⟨_, ⟨rfl, -⟩, rfl⟩ := h
  rw [List.mem_range'_1, Constants.epochAt, Nat.div_eq_iff e.consistent.slotsPerEpoch_pos]
  lia

/-- The proposers of an epoch are listed with their slots, slot by slot. -/
theorem mem_proposers (hstart : epoch * e.constants.slotsPerEpoch < Word.limit)
    (h : e.proposers s epoch = .ok proposers) :
    (slot, proposer) ∈ proposers ↔
      (e.constants.epochAt slot = epoch ∧ 1 ≤ slot) ∧ e.proposer s slot = .ok proposer := by
  simp only [Engine.proposers, Attempt.bind_eq_ok, Attempt.liftM_eq_ok] at h
  obtain ⟨slots, hslots, h⟩ := h
  rw [← mem_proposalSlots hstart hslots]
  constructor
  · intro hmem
    obtain ⟨slot', hslot, hpair⟩ := Attempt.exists_of_mem_mapM h hmem
    simp only [Attempt.bind_eq_ok, Attempt.pure_eq_ok, Prod.mk.injEq] at hpair
    obtain ⟨_, hproposer, rfl, rfl⟩ := hpair
    exact ⟨hslot, hproposer⟩
  · rintro ⟨hslot, hproposer⟩
    obtain ⟨pair, hmem, hpair⟩ := Attempt.exists_mem_of_mapM h hslot
    simp only [hproposer, Attempt.ok_bind, Attempt.pure_eq_ok] at hpair
    exact hpair ▸ hmem

theorem pairwise_proposers (h : e.proposers s epoch = .ok proposers) :
    (proposers.map (·.1)).Pairwise (· < ·) := by
  simp only [Engine.proposers, Attempt.bind_eq_ok, Attempt.liftM_eq_ok] at h
  obtain ⟨slots, hslots, h⟩ := h
  rw [Attempt.map_of_mapM (g := (·.1)) (k := id) ?_ h, List.map_id]
  · simp only [proposalSlots, Attempt.bind_eq_ok, Attempt.pure_eq_ok] at hslots
    obtain ⟨_, -, rfl⟩ := hslots
    exact List.pairwise_lt_range'
  · intro slot pair hpair
    simp only [Attempt.bind_eq_ok, Attempt.pure_eq_ok] at hpair
    obtain ⟨_, -, rfl⟩ := hpair
    rfl

/-! ## One assignment for each validator -/

theorem map_assignCommittee (s : ChainState) (slot : Slot) (index : CommitteeIndex)
    (members : List ValidatorIndex) :
    (assignCommittee s proposers wanted slot index members).map (·.validatorIndex)
      = members.filter wanted.contains := by
  have hfirst : (ValidatorDuties.validatorIndex ∘ fun m : ValidatorIndex × Nat =>
      assignment s proposers slot index members.length m.2 m.1) = Prod.fst := rfl
  have hwanted : (fun m : ValidatorIndex × Nat => wanted.contains m.1)
      = wanted.contains ∘ Prod.fst := rfl
  rw [assignCommittee, List.map_map, hfirst, hwanted, ← List.filter_map, List.zipIdx_map_fst]

/-- The requested members of all committees are the requested active validators. -/
theorem map_entries_perm (hc : e.constants.Consistent) (s : ChainState)
    (proposers : List (Slot × ValidatorIndex)) (wanted : List ValidatorIndex)
    (hcommittees : committeesOf e.constants s epoch = .ok committees)
    (hentries : committees.entries = .ok entries) :
    ((entries.flatMap fun (slot, index, members) =>
      assignCommittee s proposers wanted slot index members).map (·.validatorIndex)).Perm
        ((s.activeIndices epoch).filter wanted.contains) := by
  have hflat : (entries.flatMap fun (slot, index, members) =>
      assignCommittee s proposers wanted slot index members).map (·.validatorIndex)
        = (committees.members.toList.flatten).filter wanted.contains := by
    rw [List.map_flatMap, List.filter_flatten, ← EpochCommittees.map_entries hentries, List.map_map,
      ← List.flatMap_def]
    exact List.flatMap_congr fun (slot, index, members) _ => map_assignCommittee ..
  rw [hflat]
  exact (flatten_members_perm hc hcommittees).filter _

/-- What assignments are worked out from. -/
theorem exists_of_assignments (hassign : e.assignments s epoch keys = .ok duties) :
    ∃ committees proposers entries, committeesOf e.constants s epoch = .ok committees ∧
      e.proposers s epoch = .ok proposers ∧ committees.entries = .ok entries ∧
      duties = (entries.flatMap fun (slot, index, members) =>
        assignCommittee s proposers (requested s keys) slot index members).mergeSort
          (·.validatorIndex ≤ ·.validatorIndex) := by
  simp only [assignments, Engine.committees, Attempt.bind_eq_ok, Attempt.widen_eq_ok,
    Attempt.liftM_eq_ok, Attempt.pure_eq_ok] at hassign
  obtain ⟨committees, hcommittees, proposers, hproposers, entries, hentries, rfl⟩ := hassign
  exact ⟨committees, proposers, entries, hcommittees, hproposers, hentries, rfl⟩

/-- In the order of the registry, the assigned validators are the requested active ones. -/
theorem map_validatorIndex (hassign : e.assignments s epoch keys = .ok duties) :
    duties.map (·.validatorIndex)
      = (s.activeIndices epoch).filter (requested s keys).contains := by
  obtain ⟨committees, proposers, entries, hcommittees, -, hentries, rfl⟩ :=
    exists_of_assignments hassign
  have hperm := map_entries_perm e.consistent s proposers (requested s keys) hcommittees hentries
  refine List.Perm.eq_of_pairwise (fun a b _ _ (hab : a ≤ b) hba => le_antisymm hab hba) ?_ ?_
    (((List.mergeSort_perm ..).map _).trans hperm)
  · refine List.pairwise_map.2 ((List.pairwise_mergeSort ?_ ?_ _).imp fun h => of_decide_eq_true h)
    · intro a b d hab hbd
      exact decide_eq_true ((of_decide_eq_true hab).trans (of_decide_eq_true hbd))
    · intro a b
      simpa using Nat.le_total a.validatorIndex b.validatorIndex
  · exact ((pairwise_activeIndices s epoch).imp le_of_lt).filter _

/-- Each entry is the assignment of a requested member of a committee. -/
theorem exists_assignment (hassign : e.assignments s epoch keys = .ok duties)
    (hproposers : e.proposers s epoch = .ok proposers)
    (hcommittees : committeesOf e.constants s epoch = .ok committees) (hd : d ∈ duties) :
    ∃ slot index members position w, committees.committee? slot index = some members ∧
      members[position]? = some w ∧ w ∈ requested s keys ∧
      assignment s proposers slot index members.length position w = d := by
  obtain ⟨committees', proposers', entries, hok, hok', hentries, rfl⟩ :=
    exists_of_assignments hassign
  obtain rfl := Except.ok.inj (hcommittees.symm.trans hok)
  obtain rfl := Except.ok.inj (hproposers.symm.trans hok')
  rw [List.mem_mergeSort, List.mem_flatMap] at hd
  obtain ⟨⟨slot, index, members⟩, hmem, hd⟩ := hd
  obtain ⟨position, w, hw, hwanted, rfl⟩ := mem_assignCommittee.1 hd
  exact ⟨slot, index, members, position, w,
    EpochCommittees.of_mem_entries e.consistent hcommittees hentries hmem, hw, hwanted, rfl⟩

theorem mem_requested {w : ValidatorIndex} :
    w ∈ requested s keys ↔ ∃ key ∈ keys, s.validatorIndex? key = some w :=
  List.mem_filterMap

/-- The key of a requested validator is the one by which it has been found. -/
theorem pubkey_assignment {w : ValidatorIndex} {size position : Nat} (h : w ∈ requested s keys) :
    (assignment s proposers slot index size position w).pubkey ∈ keys ∧
      s.validatorIndex? (assignment s proposers slot index size position w).pubkey = some w := by
  obtain ⟨key, hkey, hindex⟩ := mem_requested.1 h
  suffices hpubkey : (assignment s proposers slot index size position w).pubkey = key by
    rw [hpubkey]
    exact ⟨hkey, hindex⟩
  obtain ⟨hlt, hsame, -⟩ := List.findIdx?_eq_some_iff_getElem.1 hindex
  have hvalidator : s.validators[w]? = some s.validators[w] :=
    Array.getElem?_eq_getElem (by simpa using hlt)
  rw [assignment, hvalidator]
  simpa using hsame

/-! ## Handing out proposals -/

/-- The entry without proposals. -/
def withoutProposals (d : ValidatorDuties) : ValidatorDuties := { d with proposalSlots := [] }

/-- Walk through the entries and give each one all slots that are left for its validator. -/
def handOut : List (Slot × ValidatorIndex) → List ValidatorDuties → List ValidatorDuties
  | _, [] => []
  | left, d :: ds =>
    { d with proposalSlots := (left.filter (·.2 = d.validatorIndex)).map (·.1) } ::
      handOut (left.filter (·.2 ≠ d.validatorIndex)) ds

/-- Where no validator comes twice, each one gets all its slots. -/
theorem handOut_eq {left : List (Slot × ValidatorIndex)} {ds : List ValidatorDuties}
    (hnodup : (ds.map (·.validatorIndex)).Nodup)
    (hslots : ∀ d ∈ ds, d.proposalSlots
      = (left.filter (·.2 = d.validatorIndex)).map (·.1)) :
    handOut left (ds.map withoutProposals) = ds := by
  induction ds generalizing left with
  | nil => rfl
  | cons d ds ih =>
      obtain ⟨hnew, hnodup⟩ := List.nodup_cons.1 hnodup
      obtain ⟨hd, hds⟩ := List.forall_mem_cons.1 hslots
      rw [List.map_cons, handOut]
      refine congrArg₂ List.cons ?_ (ih hnodup fun d' hd' => ?_)
      · rw [withoutProposals, ← hd]
      · -- The slots that have been taken out are those of another validator.
        have hne : d'.validatorIndex ≠ d.validatorIndex :=
          fun heq => hnew (List.mem_map.2 ⟨d', hd', heq⟩)
        rw [hds d' hd', List.filter_filter]
        refine congrArg _ (List.filter_congr fun pair _ => ?_)
        by_cases hpair : pair.2 = d'.validatorIndex
        · simp [hpair, hne, withoutProposals]
        · simp [hpair]

/-- The assignments come out the same when only the proposals of requested validators are collected
    and then handed out on the way through the committees: every validator is met once. -/
theorem assignments_eq_handOut (hassign : e.assignments s epoch keys = .ok duties) :
    ∃ committees proposers entries, committeesOf e.constants s epoch = .ok committees ∧
      e.proposers s epoch = .ok proposers ∧ committees.entries = .ok entries ∧
      duties = (handOut (proposers.filter fun pair => (requested s keys).contains pair.2)
        (entries.flatMap fun (slot, index, members) =>
          assignCommittee s [] (requested s keys) slot index members)).mergeSort
            (·.validatorIndex ≤ ·.validatorIndex) := by
  obtain ⟨committees, proposers, entries, hcommittees, hproposers, hentries, rfl⟩ :=
    exists_of_assignments hassign
  refine ⟨committees, proposers, entries, hcommittees, hproposers, hentries, ?_⟩
  have hperm := map_entries_perm e.consistent s proposers (requested s keys) hcommittees hentries
  have hnodup := hperm.nodup_iff.2
    (((pairwise_activeIndices s epoch).imp fun h => h.ne).filter _)
  have hstripped : (entries.flatMap fun (slot, index, members) =>
      assignCommittee s [] (requested s keys) slot index members)
      = (entries.flatMap fun (slot, index, members) =>
        assignCommittee s proposers (requested s keys) slot index members).map
          withoutProposals := by
    rw [List.map_flatMap]
    refine List.flatMap_congr fun (slot, index, members) _ => ?_
    simp only [assignCommittee, List.map_map]
    rfl
  rw [hstripped, handOut_eq hnodup]
  intro d hd
  obtain ⟨⟨slot, index, members⟩, -, hd⟩ := List.mem_flatMap.1 hd
  obtain ⟨position, w, -, hwanted, rfl⟩ := mem_assignCommittee.1 hd
  rw [assignment, List.filter_filter]
  refine congrArg _ (List.filter_congr fun pair _ => ?_)
  by_cases hpair : pair.2 = w
  · simp [hpair, hwanted]
  · simp [hpair]

/-! ## All assignments of an epoch -/

/-- Where an epoch has committees the assignments are given. -/
theorem exists_assignments (hslots : e.constants.slotsPerEpoch ≤ 2147483648)
    (hrings : RingsFit e.constants s) (hslot : s.slot ≤ horizon)
    (hvalidators : s.validators.size ≤ 2147483648) (hwindow : InWindow e.constants s epoch)
    (hactive : s.activeIndices epoch ≠ []) (keys : List PublicKey) :
    ∃ committees duties, committeesOf e.constants s epoch = .ok committees ∧
      e.assignments s epoch keys = .ok duties := by
  have hmixes := hrings.randaoMixes_pos e.consistent
  obtain ⟨htwo, hnext, -⟩ := checkWindow_eq_ok.1 (hwindow.checkWindow hslot)
  have hends : epoch * e.constants.slotsPerEpoch + e.constants.slotsPerEpoch < Word.limit := by
    have hle : epoch * e.constants.slotsPerEpoch
        ≤ (s.currentEpoch e.constants + 1) * e.constants.slotsPerEpoch :=
      Nat.mul_le_mul_right _ hwindow.2
    have hnow := Constants.epochAt_mul_le (c := e.constants) s.slot
    simp only [ChainState.currentEpoch, horizon, Word.limit] at *
    lia
  obtain ⟨committees, hcommittees⟩ := Attempt.Within.exists_ok (committeesOf_within e.consistent
    (Or.inr ⟨⟨htwo, hnext⟩, committeesFit_of_le hslots hvalidators epoch⟩)
    (Or.inr ⟨⟨hwindow, hmixes⟩, hactive⟩))
  obtain ⟨duties, hassign⟩ := Attempt.Within.exists_ok
    (assignments_within hrings (hwindow.start_lt e.consistent hslot) (Or.inr hends) hcommittees keys)
  exact ⟨committees, duties, hcommittees, hassign⟩

/-- An entry lists the slots for which its validator is selected, in their order. -/
theorem mem_proposalSlots_iff
    (hstart : epoch * e.constants.slotsPerEpoch < Word.limit)
    (hassign : e.assignments s epoch keys = .ok duties) (hd : d ∈ duties) :
    d.proposalSlots.Pairwise (· < ·) ∧ ∀ slot, slot ∈ d.proposalSlots ↔
      (e.constants.epochAt slot = epoch ∧ 1 ≤ slot) ∧
        e.proposer s slot = .ok d.validatorIndex := by
  obtain ⟨committees, proposers, -, hcommittees, hproposers, -⟩ := exists_of_assignments hassign
  obtain ⟨slot, index, members, position, w, -, -, -, rfl⟩ :=
    exists_assignment hassign hproposers hcommittees hd
  refine ⟨(pairwise_proposers hproposers).sublist (List.filter_sublist.map _), fun slot => ?_⟩
  simp only [assignment, List.mem_map, List.mem_filter, decide_eq_true_eq, Prod.exists,
    exists_and_right, exists_eq_right]
  rw [← mem_proposers hstart hproposers]

/-- An entry is for a listed key, and its validator stands where the entry says. -/
theorem exists_seat (hcommittees : committeesOf e.constants s epoch = .ok committees)
    (hassign : e.assignments s epoch keys = .ok duties) (hd : d ∈ duties) :
    d.pubkey ∈ keys ∧ s.validatorIndex? d.pubkey = some d.validatorIndex ∧
      ∃ members, committees.committee? d.attestationSlot d.committeeIndex = some members ∧
        members[d.committeePosition]? = some d.validatorIndex ∧
        d.committeeSize = members.length := by
  obtain ⟨-, proposers, -, -, hproposers, -⟩ := exists_of_assignments hassign
  obtain ⟨slot, index, members, position, w, hmembers, hw, hwanted, rfl⟩ :=
    exists_assignment hassign hproposers hcommittees hd
  obtain ⟨hkey, hindex⟩ := pubkey_assignment hwanted
  exact ⟨hkey, hindex, members, hmembers, hw, rfl⟩

/-- An active validator is selected for each slot of such an epoch. -/
theorem exists_proposer (hrings : RingsFit e.constants s) (hslot : s.slot ≤ horizon)
    (hwindow : InWindow e.constants s (e.constants.epochAt slot))
    (hactive : s.activeIndices (e.constants.epochAt slot) ≠ []) :
    ∃ proposer ∈ s.activeIndices (e.constants.epochAt slot), e.proposer s slot = .ok proposer := by
  have hmixes := hrings.randaoMixes_pos e.consistent
  obtain ⟨htwo, hnext, -⟩ := checkWindow_eq_ok.1 (hwindow.checkWindow hslot)
  obtain ⟨proposer, hproposer⟩ := Attempt.Within.exists_ok (proposerOf_within e.consistent
    (Or.inr ⟨htwo, hnext⟩) (Or.inr ⟨⟨hwindow, hmixes⟩, hactive⟩))
  exact ⟨proposer, mem_of_proposerOf hproposer, Attempt.widen_eq_ok.2 hproposer⟩

/-- **Assignments are complete, and none is made twice.** Where an epoch has committees the
    assignments are given: one for each validator that is active and belongs to a listed key, in the
    order of the registry, at a place of a committee where this validator stands. Every slot of the
    epoch has a proposer, and from slot one on it is listed in the entry of its proposer, if that one
    is requested, and in no other entry. -/
theorem assignments_complete (hslots : e.constants.slotsPerEpoch ≤ 2147483648)
    (hrings : RingsFit e.constants s) (hslot : s.slot ≤ horizon)
    (hvalidators : s.validators.size ≤ 2147483648) (hwindow : InWindow e.constants s epoch)
    (hactive : s.activeIndices epoch ≠ []) (keys : List PublicKey) :
    ∃ duties committees, e.assignments s epoch keys = .ok duties ∧
      e.committees s epoch = .ok committees ∧
      (duties.map (·.validatorIndex)).Pairwise (· < ·) ∧
      (∀ w, (∃ d ∈ duties, d.validatorIndex = w) ↔
        w ∈ s.activeIndices epoch ∧ ∃ key ∈ keys, s.validatorIndex? key = some w) ∧
      (∀ d ∈ duties, d.pubkey ∈ keys ∧ s.validatorIndex? d.pubkey = some d.validatorIndex ∧
        ∃ members, committees.committee? d.attestationSlot d.committeeIndex = some members ∧
          members[d.committeePosition]? = some d.validatorIndex ∧
          d.committeeSize = members.length) ∧
      (∀ d ∈ duties, d.proposalSlots.Pairwise (· < ·) ∧ ∀ slot, slot ∈ d.proposalSlots ↔
        (e.constants.epochAt slot = epoch ∧ 1 ≤ slot) ∧
          e.proposer s slot = .ok d.validatorIndex) ∧
      ∀ slot, e.constants.epochAt slot = epoch →
        ∃ proposer ∈ s.activeIndices epoch, e.proposer s slot = .ok proposer ∧
          (1 ≤ slot → (∃ key ∈ keys, s.validatorIndex? key = some proposer) →
            ∃ d ∈ duties, d.validatorIndex = proposer ∧ slot ∈ d.proposalSlots ∧
              ∀ d' ∈ duties, slot ∈ d'.proposalSlots → d' = d) := by
  obtain ⟨committees, duties, hcommittees, hassign⟩ :=
    exists_assignments hslots hrings hslot hvalidators hwindow hactive keys
  have hstart := hwindow.start_lt e.consistent hslot
  have hlisted := map_validatorIndex hassign
  have hsorted : (duties.map (·.validatorIndex)).Pairwise (· < ·) := by
    rw [hlisted]
    exact (pairwise_activeIndices s epoch).filter _
  have hmem (w : ValidatorIndex) : (∃ d ∈ duties, d.validatorIndex = w) ↔
      w ∈ s.activeIndices epoch ∧ ∃ key ∈ keys, s.validatorIndex? key = some w := by
    rw [← List.mem_map, hlisted, List.mem_filter, List.contains_iff_mem, mem_requested]
  have hproposals (d : ValidatorDuties) (hd : d ∈ duties) :=
    mem_proposalSlots_iff hstart hassign hd
  refine ⟨duties, committees, hassign, Attempt.widen_eq_ok.2 hcommittees, hsorted, hmem,
    fun d hd => exists_seat hcommittees hassign hd, hproposals, ?_⟩
  rintro slot rfl
  obtain ⟨proposer, hproposer, hselected⟩ := exists_proposer hrings hslot hwindow hactive
  refine ⟨proposer, hproposer, hselected, fun hpos hkeys => ?_⟩
  obtain ⟨d, hd, rfl⟩ := (hmem proposer).2 ⟨hproposer, hkeys⟩
  refine ⟨d, hd, rfl, ((hproposals d hd).2 slot).2 ⟨⟨rfl, hpos⟩, hselected⟩, ?_⟩
  intro d' hd' hslot'
  have hsame := (((hproposals d' hd').2 slot).1 hslot').2
  have heq : d'.validatorIndex = d.validatorIndex := Except.ok.inj (hsame.symm.trans hselected)
  exact List.inj_on_of_nodup_map (hsorted.imp fun h => h.ne) hd' hd heq

/-- Two validators, of which the first is asked about twice, along with a key of nobody. -/
theorem assignments_complete_pair :
    let s := ChainState.genesis Constants.tightest 0
      [.genesis (Bytes.zero 48) 32000000000, .genesis (Bytes.fill 48 1) 32000000000] {} {}
    let keys := [Bytes.zero 48, Bytes.fill 48 2, Bytes.zero 48]
    RingsFit Constants.tightest s ∧ InWindow Constants.tightest s 1 ∧ s.activeIndices 1 = [0, 1] ∧
    ∃ duties, Engine.tightest.assignments s 1 keys = .ok duties ∧
      (duties.map (·.validatorIndex)).Pairwise (· < ·) ∧ (∃ d ∈ duties, d.validatorIndex = 0) ∧
      (¬ ∃ d ∈ duties, d.validatorIndex = 1) ∧
      ∃ proposer ∈ [0, 1], Engine.tightest.proposer s 1 = .ok proposer ∧
        (proposer = 0 → ∃ d ∈ duties, d.validatorIndex = 0 ∧ 1 ∈ d.proposalSlots) := by
  intro s keys
  have hrings : RingsFit Constants.tightest s := ringsFit_genesis ..
  have hwindow : InWindow Constants.tightest s 1 := by
    unfold InWindow
    decide
  have hactive : s.activeIndices 1 = [0, 1] := by decide
  obtain ⟨duties, -, hassign, -, hsorted, hmem, -, -, hproposals⟩ :=
    assignments_complete (e := .tightest) (s := s) (by decide) hrings (by decide)
      (by decide) hwindow (by rw [hactive]; exact List.cons_ne_nil _ _) keys
  obtain ⟨proposer, hproposer, hselected, hlisted⟩ := hproposals 1 (by decide)
  have hkey : ∃ key ∈ keys, s.validatorIndex? key = some 0 :=
    ⟨Bytes.zero 48, List.mem_cons_self .., by decide⟩
  refine ⟨hrings, hwindow, hactive, duties, hassign, hsorted, ?_, ?_, proposer, ?_, hselected, ?_⟩
  · exact (hmem 0).2 ⟨by rw [hactive]; decide, hkey⟩
  · rw [hmem]
    rintro ⟨-, key, hlisted, hindex⟩
    revert hindex
    revert key
    decide
  · rw [← hactive]
    exact hproposer
  · rintro rfl
    obtain ⟨d, hd, hindex, hslot, -⟩ := hlisted le_rfl hkey
    exact ⟨d, hd, hindex, hslot⟩

end Engine

end Beacon
