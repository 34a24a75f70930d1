import Mathlib
import Beacon.Proofs.Serving.Assigned
import Beacon.Proofs.Transition.Partition

set_option autoImplicit false

/-! # The roll of committees

The committees of an epoch stand in one list, slot after slot. Read out, the committee at place `i`
is given the slot `slotOf i` and the index `i % committeesPerSlot` (`lists_iff`); looked up, the
committee of a slot and an index is found at the place that these two come from
(`lists_iff_committee?`). Reading out ends at the last slot of all, so `Lists` speaks of what has
been listed by then. The cuts that make the committees lie a fixed fraction of the active set apart,
so that no committee has two members more than another (`length_slice`). -/

namespace Beacon

variable {c : Constants} {s : ChainState} {epoch : Epoch} {slot : Slot} {index : CommitteeIndex}
  {members : List ValidatorIndex} {committees : EpochCommittees}
  {listed : List (Slot × CommitteeIndex × List ValidatorIndex)}

/-! ## Reading out the committees -/

namespace EpochCommittees

variable {e : EpochCommittees}

/-- The epoch with its first `n` committees only. -/
def firsts (e : EpochCommittees) (n : Nat) : EpochCommittees :=
  { e with members := e.members.take n }

/-- A committee is listed with a slot and an index, before the list ends or a slot is no word. -/
def Lists (e : EpochCommittees) (slot : Slot) (index : CommitteeIndex)
    (members : List ValidatorIndex) : Prop :=
  ∃ n listed, (e.firsts n).entries = .ok listed ∧ (slot, index, members) ∈ listed

/-- The slot of the committee at a place of the list. -/
def slotOf (e : EpochCommittees) (i : Nat) : Slot :=
  e.epoch * e.slotsPerEpoch + i / e.committeesPerSlot

theorem slotOf_mono {i j : Nat} (h : i ≤ j) : e.slotOf i ≤ e.slotOf j :=
  Nat.add_le_add_left (Nat.div_le_div_right h) _

theorem entries_eq_ok :
    e.entries = .ok listed ↔
      (e.epoch * e.slotsPerEpoch < Word.limit ∧
        ∀ i < e.members.size, e.slotOf i < Word.limit) ∧
      listed = e.members.toList.zipIdx.map fun p =>
        (e.slotOf p.2, p.2 % e.committeesPerSlot, p.1) := by
  have hplace {ms : List ValidatorIndex} {i : Nat} :
      (ms, i) ∈ e.members.toList.zipIdx ↔ e.members[i]? = some ms := by
    rw [List.mk_mem_zipIdx_iff_getElem?, Array.getElem?_toList]
  -- As far as the slots are words, every step of the walk gives an entry.
  have hwalk (hslots : ∀ i < e.members.size, e.slotOf i < Word.limit) :
      (e.members.toList.zipIdx.mapM fun p => do
        let slot ← Word.add (e.epoch * e.slotsPerEpoch) (p.2 / e.committeesPerSlot)
        return (slot, p.2 % e.committeesPerSlot, p.1) : Checked _)
        = .ok (e.members.toList.zipIdx.map fun p =>
          (e.slotOf p.2, p.2 % e.committeesPerSlot, p.1)) := by
    refine Attempt.mapM_eq_map fun p hp => ?_
    obtain ⟨ms, i⟩ := p
    have hlt := hslots i (Array.getElem?_eq_some_iff.1 (hplace.1 hp)).1
    simp only [Attempt.bind_eq_ok, Word.add_eq_ok, Attempt.pure_eq_ok]
    exact ⟨_, ⟨rfl, hlt⟩, rfl⟩
  simp only [entries, Attempt.bind_eq_ok, Word.mul_eq_ok]
  constructor
  · rintro ⟨_, ⟨rfl, hstart⟩, hmap⟩
    have hslots (i : Nat) (hi : i < e.members.size) : e.slotOf i < Word.limit := by
      obtain ⟨entry, -, hentry⟩ := Attempt.exists_mem_of_mapM hmap
        (hplace.2 (Array.getElem?_eq_getElem hi))
      simp only [Attempt.bind_eq_ok, Word.add_eq_ok] at hentry
      obtain ⟨_, ⟨rfl, hlt⟩, -⟩ := hentry
      exact hlt
    exact ⟨⟨hstart, hslots⟩, Except.ok.inj (hmap.symm.trans (hwalk hslots))⟩
  · rintro ⟨⟨hstart, hslots⟩, rfl⟩
    exact ⟨_, ⟨rfl, hstart⟩, hwalk hslots⟩

theorem exists_entries (hstart : e.epoch * e.slotsPerEpoch < Word.limit)
    (hslots : ∀ i < e.members.size, e.slotOf i < Word.limit) : ∃ listed, e.entries = .ok listed :=
  ⟨_, entries_eq_ok.2 ⟨⟨hstart, hslots⟩, rfl⟩⟩

theorem mem_entries_iff (h : e.entries = .ok listed) :
    (slot, index, members) ∈ listed ↔
      ∃ i, e.members[i]? = some members ∧ e.slotOf i = slot ∧ i % e.committeesPerSlot = index := by
  obtain ⟨-, rfl⟩ := entries_eq_ok.1 h
  simp only [List.mem_map, Prod.exists, Prod.mk.injEq, List.mk_mem_zipIdx_iff_getElem?,
    Array.getElem?_toList]
  constructor
  · rintro ⟨ms, i, hms, hslot, hindex, rfl⟩
    exact ⟨i, hms, hslot, hindex⟩
  · rintro ⟨i, hms, hslot, hindex⟩
    exact ⟨members, i, hms, hslot, hindex, rfl⟩

theorem getElem?_firsts {n i : Nat} :
    (e.firsts n).members[i]? = some members ↔ i < n ∧ e.members[i]? = some members := by
  simp only [firsts, Array.take_eq_extract, Array.getElem?_extract]
  grind

/-- Which committees are listed: those whose slot is a word. -/
theorem lists_iff :
    e.Lists slot index members ↔
      ∃ i, e.members[i]? = some members ∧ (e.slotOf i = slot ∧ slot < Word.limit) ∧
        i % e.committeesPerSlot = index := by
  constructor
  · rintro ⟨n, listed, hentries, hmem⟩
    obtain ⟨i, hms, rfl, rfl⟩ := (mem_entries_iff hentries).1 hmem
    have hi : i < (e.firsts n).members.size := (Array.getElem?_eq_some_iff.1 hms).1
    have hlt := (entries_eq_ok.1 hentries).1.2 i hi
    exact ⟨i, (getElem?_firsts.1 hms).2, ⟨rfl, hlt⟩, rfl⟩
  · rintro ⟨i, hms, ⟨rfl, hlt⟩, rfl⟩
    -- The committees before this one have slots that are no later.
    have hslots (j : Nat) (hj : j < (e.firsts (i + 1)).members.size) :
        (e.firsts (i + 1)).slotOf j < Word.limit := by
      have hle := (getElem?_firsts.1 (Array.getElem?_eq_getElem hj)).1
      exact (slotOf_mono (Nat.le_of_lt_succ hle)).trans_lt hlt
    obtain ⟨listed, hentries⟩ :=
      exists_entries (e := e.firsts (i + 1)) ((Nat.le_add_right _ _).trans_lt hlt) hslots
    exact ⟨i + 1, listed, hentries, (mem_entries_iff hentries).2
      ⟨i, getElem?_firsts.2 ⟨Nat.lt_succ_self i, hms⟩, rfl, rfl⟩⟩

/-- A roll that comes to its end has listed everything. -/
theorem mem_entries_iff_lists (h : e.entries = .ok listed) :
    (slot, index, members) ∈ listed ↔ e.Lists slot index members := by
  rw [mem_entries_iff h, lists_iff]
  constructor
  · rintro ⟨i, hms, rfl, hindex⟩
    have hi : i < e.members.size := (Array.getElem?_eq_some_iff.1 hms).1
    exact ⟨i, hms, ⟨rfl, (entries_eq_ok.1 h).1.2 i hi⟩, hindex⟩
  · rintro ⟨i, hms, ⟨hslot, -⟩, hindex⟩
    exact ⟨i, hms, hslot, hindex⟩

/-- No slot and index are listed twice: a place can be told from its row and its place there. -/
theorem nodup_entries (h : e.entries = .ok listed) :
    (listed.map fun entry => (entry.1, entry.2.1)).Nodup := by
  obtain ⟨-, rfl⟩ := entries_eq_ok.1 h
  have hplaces : (e.members.toList.zipIdx.map fun p =>
      (e.slotOf p.2, p.2 % e.committeesPerSlot, p.1)).map (fun entry => (entry.1, entry.2.1))
      = (e.members.toList.zipIdx.map Prod.snd).map fun i =>
        (e.slotOf i, i % e.committeesPerSlot) := by
    rw [List.map_map, List.map_map]
    rfl
  rw [hplaces]
  refine (List.nodup_zipIdx_map_snd _).map fun i j hij => ?_
  obtain ⟨hrow, hindex⟩ := Prod.mk.inj hij
  have hdiv : i / e.committeesPerSlot = j / e.committeesPerSlot := Nat.add_left_cancel hrow
  rw [← Nat.div_add_mod i e.committeesPerSlot, hdiv, hindex, Nat.div_add_mod]

end EpochCommittees

/-! ## Lengths -/

/-- Where the next run begins: a share of the whole length further on, or one more. -/
theorem cut_succ (n k total : Nat) :
    n * k / total + n / total ≤ n * (k + 1) / total ∧
      n * (k + 1) / total ≤ n * k / total + n / total + 1 := by
  rcases Nat.eq_zero_or_pos total with rfl | hpos
  · simp
  · rw [Nat.mul_succ, Nat.add_div hpos]
    split <;> omega

/-- A run has the share of the whole length that falls to it, or one more. -/
theorem length_slice {α : Type} {xs : Array α} {total : Nat} {piece : List α}
    (h : piece ∈ slices xs total) :
    xs.size / total ≤ piece.length ∧ piece.length ≤ xs.size / total + 1 := by
  obtain ⟨k, rfl⟩ := Array.mem_ofFn.1 h
  have hend : xs.size * (k + 1) / total ≤ xs.size :=
    Nat.div_le_of_le_mul (by rw [Nat.mul_comm]; exact Nat.mul_le_mul_right _ k.isLt)
  obtain ⟨hlow, hhigh⟩ := cut_succ xs.size k total
  rw [Array.length_toList, Array.size_extract, Nat.min_eq_left hend]
  exact ⟨Nat.le_sub_of_add_le' hlow, Nat.sub_le_of_le_add (by lia)⟩

/-! ## The committees of an epoch -/

/-- What is listed can be looked up, and the other way round. -/
theorem lists_iff_committee? (hc : c.Consistent) (h : committeesOf c s epoch = .ok committees) :
    committees.Lists slot index members ↔
      slot < Word.limit ∧ committees.committee? slot index = some members := by
  obtain ⟨seed, -, -, -, rfl⟩ := committeesOf_eq_ok.1 h
  have hslots := hc.slotsPerEpoch_pos
  have hperSlot : 0 < c.committeesPerSlot (s.activeIndices epoch).length :=
    Nat.lt_of_lt_of_le Nat.zero_lt_one (Nat.le_max_left ..)
  rw [EpochCommittees.lists_iff]
  simp only [EpochCommittees.slotOf]
  constructor
  · rintro ⟨i, hms, ⟨rfl, hword⟩, rfl⟩
    have hi := (Array.getElem?_eq_some_iff.1 hms).1
    rw [size_slices] at hi
    have hrow : i / c.committeesPerSlot (s.activeIndices epoch).length < c.slotsPerEpoch :=
      Nat.div_lt_of_lt_mul hi
    -- The row is the place of the slot in its epoch.
    have hepoch : (epoch * c.slotsPerEpoch + i / c.committeesPerSlot (s.activeIndices epoch).length)
        / c.slotsPerEpoch = epoch := by
      rw [Nat.mul_comm, Nat.mul_add_div hslots, Nat.div_eq_of_lt hrow, Nat.add_zero]
    refine ⟨hword, ?_⟩
    rw [EpochCommittees.committee?, if_pos ⟨hepoch, Nat.mod_lt _ hperSlot⟩, Nat.mul_add_mod',
      Nat.mod_eq_of_lt hrow, Nat.div_add_mod']
    exact hms
  · rintro ⟨hword, hms⟩
    obtain ⟨hepoch, hindex⟩ : slot / c.slotsPerEpoch = epoch ∧
        index < c.committeesPerSlot (s.activeIndices epoch).length :=
      EpochCommittees.of_committee? hms
    have hrow : epoch * c.slotsPerEpoch + slot % c.slotsPerEpoch = slot := by
      rw [← hepoch, Nat.div_add_mod']
    rw [EpochCommittees.committee?, if_pos ⟨hepoch, hindex⟩] at hms
    refine ⟨_, hms, ⟨?_, hword⟩, ?_⟩
    · rw [Nat.mul_comm (slot % _), Nat.mul_add_div hperSlot, Nat.div_eq_of_lt hindex, Nat.add_zero]
      exact hrow
    · rw [Nat.mul_add_mod', Nat.mod_eq_of_lt hindex]

/-- The roll comes to its end where the epoch does not go on after the last slot of all. -/
theorem exists_entries_of_ends (hc : c.Consistent) (h : committeesOf c s epoch = .ok committees)
    (hends : (epoch + 1) * c.slotsPerEpoch ≤ Word.limit) :
    ∃ listed, committees.entries = .ok listed := by
  obtain ⟨seed, -, -, -, rfl⟩ := committeesOf_eq_ok.1 h
  rw [Nat.succ_mul] at hends
  have hslots := hc.slotsPerEpoch_pos
  refine EpochCommittees.exists_entries (show epoch * c.slotsPerEpoch < _ by lia) fun i hi => ?_
  rw [size_slices] at hi
  have hrow : i / c.committeesPerSlot (s.activeIndices epoch).length < c.slotsPerEpoch :=
    Nat.div_lt_of_lt_mul hi
  exact (Nat.add_lt_add_left hrow _).trans_le hends

/-- **Committees divide the active set evenly.** The members of all committees of an epoch are the
    validators active at it, each once. There are as many committees as the slots of the epoch have
    together, and none has two members more than another. The shuffle only changes the order of what
    it is given. A committee is listed with a slot and an index exactly if it is found under them:
    one for every slot of the epoch and every index below the number for a slot, each listed once.
    The list comes to its end unless the epoch goes on after the last slot of all. -/
theorem committees_divide_evenly (hc : c.Valid) (h : committeesOf c s epoch = .ok committees) :
    (committees.members.toList.flatten.Perm (s.activeIndices epoch) ∧
      committees.members.toList.flatten.Nodup ∧
      ∀ w, w ∈ committees.members.toList.flatten ↔
        ∃ v, s.validators[w]? = some v ∧ v.isActiveAt epoch = true) ∧
    (committees.members.size = committees.committeesPerSlot * c.slotsPerEpoch ∧
      ∀ ms ∈ committees.members, ∀ ms' ∈ committees.members, ms.length ≤ ms'.length + 1) ∧
    (∀ (α : Type) (xs : Array α) (seed : Root), (shuffle xs seed).toList.Perm xs.toList) ∧
    (∀ slot index ms, committees.Lists slot index ms ↔
      slot < Word.limit ∧ committees.committee? slot index = some ms) ∧
    (∀ slot index, slot < Word.limit →
      ((∃ ms, committees.Lists slot index ms) ↔
        c.epochAt slot = epoch ∧ index < committees.committeesPerSlot)) ∧
    (∀ n listed, (committees.firsts n).entries = .ok listed →
      (listed.map fun entry => (entry.1, entry.2.1)).Nodup) ∧
    ((epoch + 1) * c.slotsPerEpoch ≤ Word.limit → ∃ listed, committees.entries = .ok listed ∧
      ∀ slot index ms, (slot, index, ms) ∈ listed ↔ committees.Lists slot index ms) := by
  have hc := (Constants.valid_iff c).1 hc
  have hperm := flatten_members_perm hc h
  obtain ⟨seed, -, -, -, hcut⟩ := committeesOf_eq_ok.1 h
  refine ⟨⟨hperm, ?_, fun w => ?_⟩, ⟨?_, ?_⟩, fun α xs seed => shuffle_perm xs seed,
    fun slot index ms => lists_iff_committee? hc h, fun slot index hword => ⟨?_, ?_⟩,
    fun n listed hlisted => EpochCommittees.nodup_entries hlisted, fun hends => ?_⟩
  · exact hperm.nodup_iff.2 ((pairwise_activeIndices s epoch).imp fun hlt => hlt.ne)
  · rw [hperm.mem_iff, ChainState.mem_activeIndices]
  · rw [hcut]
    exact size_slices ..
  · rw [hcut]
    intro ms hms ms' hms'
    exact (length_slice hms).2.trans (Nat.succ_le_succ (length_slice hms').1)
  · rintro ⟨ms, hms⟩
    have hplace := EpochCommittees.of_committee? ((lists_iff_committee? hc h).1 hms).2
    rw [hcut] at hplace ⊢
    exact hplace
  · rintro ⟨hepoch, hindex⟩
    rw [hcut] at hindex
    obtain ⟨ms, hms⟩ := committee?_isSome hc h hepoch hindex
    exact ⟨ms, (lists_iff_committee? hc h).2 ⟨hword, hms⟩⟩
  · obtain ⟨listed, hlisted⟩ := exists_entries_of_ends hc h hends
    exact ⟨listed, hlisted, fun slot index ms => EpochCommittees.mem_entries_iff_lists hlisted⟩

/-- Three validators for the eight committees of an epoch: most of them are empty. -/
theorem committees_divide_evenly_minimal :
    let s := ChainState.genesis Constants.minimal 0
      [.genesis (Bytes.zero 48) 32000000000, .genesis (Bytes.fill 48 1) 32000000000,
        .genesis (Bytes.fill 48 2) 32000000000] {} {}
    Constants.minimal.Valid ∧ ∃ committees, committeesOf Constants.minimal s 1 = .ok committees ∧
      committees.members.toList.flatten.Perm [0, 1, 2] ∧ committees.members.size = 8 ∧
      (∀ ms ∈ committees.members, ms.length ≤ 1) ∧
      (∃ ms, committees.Lists 15 0 ms ∧ committees.committee? 15 0 = some ms) ∧
      (¬ ∃ ms, committees.Lists 16 0 ms) ∧ ∃ listed, committees.entries = .ok listed := by
  intro s
  have hvalid : Constants.minimal.Valid := by decide
  have hwindow : InWindow Constants.minimal s 1 := by
    unfold InWindow
    decide
  have hactive : s.activeIndices 1 = [0, 1, 2] := by decide
  have hmixes : 0 < s.randaoMixes.size := by
    rw [(ringsFit_genesis Constants.minimal _ _ _ _).randaoMixes]
    decide
  have hwithin : (committeesOf Constants.minimal s 1).Within .none :=
    committeesOf_within ((Constants.valid_iff _).1 hvalid)
      (Or.inr ⟨⟨by decide, by decide⟩, committeesFit_of_le (by decide) (by decide) 1⟩)
      (Or.inr ⟨⟨hwindow, hmixes⟩, by rw [hactive]; exact List.cons_ne_nil _ _⟩)
  obtain ⟨committees, hcommittees⟩ := hwithin.exists_ok
  obtain ⟨seed, -, -, -, hcut⟩ := committeesOf_eq_ok.1 hcommittees
  have hperSlot : committees.committeesPerSlot = 1 := by
    rw [hcut]
    show Constants.minimal.committeesPerSlot (s.activeIndices 1).length = 1
    rw [hactive]
    decide
  obtain ⟨⟨hperm, -, -⟩, ⟨hsize, -⟩, -, hlookup, hplaces, -, hlisted⟩ :=
    committees_divide_evenly hvalid hcommittees
  refine ⟨hvalid, committees, hcommittees, hactive ▸ hperm, ?_, ?_, ?_, ?_, ?_⟩
  · rw [hsize, hperSlot]
    decide
  · rw [hcut]
    intro ms hms
    refine (length_slice hms).2.trans ?_
    rw [size_shuffle, List.size_toArray, committeeCount, hactive]
    decide
  · obtain ⟨ms, hms⟩ := (hplaces 15 0 (by decide)).2 ⟨by decide, by rw [hperSlot]; decide⟩
    exact ⟨ms, hms, ((hlookup 15 0 ms).1 hms).2⟩
  · rw [hplaces 16 0 (by decide)]
    exact fun h => absurd h.1 (by decide)
  · obtain ⟨listed, hentries, -⟩ := hlisted (by decide)
    exact ⟨listed, hentries⟩

end Beacon
