import Mathlib
import Beacon.Proofs.Packing

set_option autoImplicit false

/-! # The committees of an epoch are a partition

Each swap of the shuffle keeps what is there (`shuffleFrom_perm`), and the cuts of a list join up to
the list again (`flatten_slices`): read one after the other, the committees of an epoch are its
active set in another order (`flatten_members_perm`). So every active validator has exactly one
place in them. The proposers of the epoch come from the same set (`mem_of_proposerOf`). -/

namespace Beacon

variable {c : Constants} {e : Engine} {s : ChainState} {epoch : Epoch} {committees : EpochCommittees}

/-! ## The shuffle -/

section

variable {α : Type}

theorem shuffleFrom_perm (i : Nat) (seed : Root) (xs : Array α) :
    (shuffleFrom i seed xs).toList.Perm xs.toList := by
  induction i generalizing seed xs with
  | zero => exact .refl _
  | succ i ih =>
      refine (ih _ _).trans ?_
      rw [Array.swapIfInBounds_def]
      split
      · split
        · exact Array.perm_iff_toList_perm.1 (Array.swap_perm ..)
        · exact .refl _
      · exact .refl _

theorem shuffle_perm (xs : Array α) (seed : Root) : (shuffle xs seed).toList.Perm xs.toList :=
  shuffleFrom_perm ..

/-! ## The cuts -/

/-- Pieces that begin where the one before ends make up one long piece. -/
theorem flatten_pieces (xs : List α) {cut : Nat → Nat} (hmono : Monotone cut) (n : Nat) :
    ((List.range n).map fun k => (xs.drop (cut k)).take (cut (k + 1) - cut k)).flatten
      = (xs.drop (cut 0)).take (cut n - cut 0) := by
  induction n with
  | zero => simp
  | succ n ih =>
      have hfirst : cut 0 ≤ cut n := hmono (Nat.zero_le n)
      have hlast : cut n ≤ cut (n + 1) := hmono (Nat.le_succ n)
      have hlength : cut (n + 1) - cut 0 = (cut n - cut 0) + (cut (n + 1) - cut n) := by omega
      rw [List.range_succ, List.map_append, List.flatten_append, ih, hlength, List.take_add,
        List.drop_drop, Nat.add_sub_cancel' hfirst]
      simp

/-- The slices of a list are the list, cut into pieces. -/
theorem flatten_slices (xs : Array α) {total : Nat} (hpos : 0 < total) :
    (slices xs total).toList.flatten = xs.toList := by
  have hmono : Monotone fun k => xs.size * k / total :=
    fun a b hab => Nat.div_le_div_right (Nat.mul_le_mul_left _ hab)
  have hlist : (slices xs total).toList = (List.range total).map fun k =>
      (xs.toList.drop (xs.size * k / total)).take
        (xs.size * (k + 1) / total - xs.size * k / total) := by
    refine List.ext_getElem (by simp [slices]) fun k _ _ => ?_
    simp [slices, List.extract_eq_take_drop]
  rw [hlist, flatten_pieces xs.toList hmono]
  simp [Nat.mul_div_cancel _ hpos]

end

/-! ## Committees -/

/-- An epoch has some committee. -/
theorem committeeCount_pos (hc : c.Consistent) : 0 < committeeCount c s epoch :=
  Nat.mul_pos (Nat.lt_of_lt_of_le Nat.zero_lt_one (Nat.le_max_left ..)) hc.slotsPerEpoch_pos

/-- The members of all committees are the active validators. -/
theorem flatten_members_perm (hc : c.Consistent) (h : committeesOf c s epoch = .ok committees) :
    committees.members.toList.flatten.Perm (s.activeIndices epoch) := by
  obtain ⟨seed, -, -, -, rfl⟩ := committeesOf_eq_ok.1 h
  rw [flatten_slices _ (committeeCount_pos hc)]
  exact shuffle_perm ..

theorem pairwise_activeIndices (s : ChainState) (epoch : Epoch) :
    (s.activeIndices epoch).Pairwise (· < ·) := by
  rw [s.activeIndices_eq_filter]
  exact List.pairwise_lt_range.filter _

/-! ## Proposers -/

/-- The proposer of a slot is one of the active validators of its epoch. -/
theorem mem_of_proposerOf {slot : Slot} {proposer : ValidatorIndex}
    (h : proposerOf c s slot = .ok proposer) : proposer ∈ s.activeIndices (c.epochAt slot) := by
  simp only [proposerOf, Attempt.bind_eq_ok, activeSet_eq_ok, Attempt.pure_eq_ok] at h
  obtain ⟨seed, -, _, ⟨hne, rfl⟩, rfl⟩ := h
  have hpos : 0 < (s.activeIndices (c.epochAt slot)).length := List.length_pos_iff.2 hne
  rw [List.size_toArray, Array.getD, dif_pos (by simpa using Nat.mod_lt _ hpos)]
  simp

end Beacon
