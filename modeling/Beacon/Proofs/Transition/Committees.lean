import Mathlib
import Beacon.Proofs.Transition.Slots

set_option autoImplicit false

/-! # When there are committees

`seedOf`, `committeesOf` and `proposerOf` read three things of a state: its epoch, for the window of
epochs it can answer for; the randao mix of the epoch's anchor slot; and the epoch's active set.
States that agree on these give the same committees and proposers (`committeesOf_congr`,
`proposerOf_congr`). What stands in the way of an answer is stated as leeway: a rejection outside
the window, for an empty active set or without a mix, an overflow for sizes out of range. -/

namespace Beacon

variable {c : Constants} {s s' : ChainState} {epoch : Epoch} {ℓ : Leeway}

/-! ## The window and the anchor -/

/-- The epochs that a state can answer for: the two before and the one after its own. -/
def InWindow (c : Constants) (s : ChainState) (epoch : Epoch) : Prop :=
  s.currentEpoch c ≤ epoch + 2 ∧ epoch ≤ s.currentEpoch c + 1

/-- The slot of a state lies in its window. -/
theorem inWindow_slot (c : Constants) (s : ChainState) : InWindow c s (c.epochAt s.slot) :=
  ⟨Nat.le_add_right _ 2, Nat.le_succ _⟩

theorem checkWindow_eq_ok {u : Unit} :
    checkWindow c s epoch = .ok u ↔
      epoch + 2 < Word.limit ∧ s.currentEpoch c + 1 < Word.limit ∧ InWindow c s epoch := by
  simp only [checkWindow, Attempt.bind_eq_ok, Attempt.liftM_eq_ok, Word.add_eq_ok, InWindow]
  constructor
  · rintro ⟨_, ⟨rfl, htwo⟩, h⟩
    split at h
    · simp at h
    · next hlate =>
        simp only [Attempt.bind_eq_ok, Attempt.liftM_eq_ok, Word.add_eq_ok,
          Attempt.require_eq_ok] at h
        obtain ⟨_, ⟨rfl, hone⟩, hle⟩ := h
        exact ⟨htwo, hone, Nat.not_lt.1 hlate, hle⟩
  · rintro ⟨htwo, hone, hlate, hle⟩
    refine ⟨_, ⟨rfl, htwo⟩, ?_⟩
    rw [if_neg (Nat.not_lt.2 hlate)]
    simp only [Attempt.bind_eq_ok, Attempt.liftM_eq_ok, Word.add_eq_ok, Attempt.require_eq_ok]
    exact ⟨_, ⟨rfl, hone⟩, hle⟩

theorem checkWindow_within
    (hfits : ℓ.faults .overflow ∨ epoch + 2 < Word.limit ∧ s.currentEpoch c + 1 < Word.limit)
    (hwindow : ℓ.rejections ∨ InWindow c s epoch) : (checkWindow c s epoch).Within ℓ := by
  refine (Word.add_within (hfits.imp_right And.left)).lift.bind fun two htwo => ?_
  simp only [Attempt.liftM_eq_ok, Word.add_eq_ok] at htwo
  obtain ⟨rfl, -⟩ := htwo
  split
  · next hlate => exact hwindow.resolve_right fun h => absurd h.1 (Nat.not_le_of_lt hlate)
  · refine (Word.add_within (hfits.imp_right And.right)).lift.bind fun one hone => ?_
    simp only [Attempt.liftM_eq_ok, Word.add_eq_ok] at hone
    obtain ⟨rfl, -⟩ := hone
    exact Attempt.within_require (hwindow.imp_right And.right)

/-- The slot whose mix seeds an epoch, as a number. -/
def anchorOf (c : Constants) (epoch : Epoch) : Slot := c.epochStart epoch - (c.slotsPerEpoch + 1)

theorem anchorSlot_eq (hc : c.Consistent) : anchorSlot c epoch = .ok (anchorOf c epoch) := by
  have hlt := hc.fiveEpochs_lt
  simp only [anchorSlot, Attempt.bind_eq_ok, Word.add_eq_ok, Attempt.pure_eq_ok]
  exact ⟨_, ⟨rfl, by simp only [Word.limit] at *; omega⟩, rfl⟩

theorem anchorOf_eq (h : epoch * c.slotsPerEpoch < Word.limit) :
    anchorOf c epoch = epoch * c.slotsPerEpoch - (c.slotsPerEpoch + 1) := by
  rw [anchorOf, Constants.epochStart_of_lt h]

/-- After its anchor slot an epoch is at most one ahead. -/
theorem le_epochAt_succ (hc : c.Consistent) {slot : Slot}
    (h : epoch * c.slotsPerEpoch - (c.slotsPerEpoch + 1) < slot) : epoch ≤ c.epochAt slot + 1 := by
  have hnext := hc.lt_epochAt_succ_mul slot
  have hle : epoch * c.slotsPerEpoch ≤ slot + c.slotsPerEpoch := by lia
  have hlt : epoch * c.slotsPerEpoch < (c.epochAt slot + 2) * c.slotsPerEpoch := by lia
  exact Nat.lt_succ_iff.1 (Nat.lt_of_mul_lt_mul_right hlt)

/-- Inside the window of an epoch its start is a word. -/
theorem InWindow.start_lt (hc : c.Consistent) (h : InWindow c s epoch) (hslot : s.slot ≤ horizon) :
    epoch * c.slotsPerEpoch < Word.limit := by
  have hle : epoch * c.slotsPerEpoch ≤ (s.currentEpoch c + 1) * c.slotsPerEpoch :=
    Nat.mul_le_mul_right _ h.2
  have hcurrent := Constants.epochAt_mul_le (c := c) s.slot
  have hfive := hc.fiveEpochs_lt
  simp only [ChainState.currentEpoch, horizon, Word.limit] at *
  lia

/-- Inside the window the mix of the anchor slot has not been overwritten yet. -/
theorem InWindow.slot_lt_round (hc : c.Consistent) (h : InWindow c s epoch) :
    s.slot < epoch * c.slotsPerEpoch - (c.slotsPerEpoch + 1) + c.randaoMixesLength := by
  have hpos := hc.slotsPerEpoch_pos
  have hfive := hc.fiveEpochs_le
  have hlt : s.slot < (epoch + 3) * c.slotsPerEpoch := by
    calc s.slot < (s.currentEpoch c + 1) * c.slotsPerEpoch := hc.lt_epochAt_succ_mul s.slot
      _ ≤ (epoch + 3) * c.slotsPerEpoch := Nat.mul_le_mul_right _ (by have := h.1; lia)
  by_cases hearly : epoch ≤ 1
  · have hle : (epoch + 3) * c.slotsPerEpoch ≤ 4 * c.slotsPerEpoch :=
      Nat.mul_le_mul_right _ (by lia)
    lia
  · have hle : 2 * c.slotsPerEpoch ≤ epoch * c.slotsPerEpoch := Nat.mul_le_mul_right _ (by lia)
    lia

/-- Inside the window nothing overflows, so the window check passes. -/
theorem InWindow.checkWindow (h : InWindow c s epoch) (hslot : s.slot ≤ horizon) :
    checkWindow c s epoch = .ok () := by
  have hcurrent : s.currentEpoch c ≤ s.slot := Constants.epochAt_le s.slot
  refine checkWindow_eq_ok.2 ⟨?_, ?_, h⟩
  · have := h.2
    simp only [horizon, Word.limit] at *
    lia
  · simp only [horizon, Word.limit] at *
    lia

/-! ## Seeds -/

/-- The mix that seeds an epoch, if the ring has any. -/
def ChainState.anchorMix? (c : Constants) (s : ChainState) (epoch : Epoch) : Option Root :=
  s.randaoMixes[anchorOf c epoch % max s.randaoMixes.size 1]?

theorem seedOf_eq (hc : c.Consistent) :
    seedOf c s epoch = (do
      checkWindow c s epoch
      match s.anchorMix? c epoch with
      | some mix => return taggedDigest "epoch-seed" [.word epoch, .digest mix]
      | none => Attempt.reject (.missingRandaoMix (anchorOf c epoch))) := by
  rw [seedOf, anchorSlot_eq hc]
  rfl

theorem seedOf_eq_ok (hc : c.Consistent) {seed : Root} :
    seedOf c s epoch = .ok seed ↔
      checkWindow c s epoch = .ok () ∧ ∃ mix, s.anchorMix? c epoch = some mix ∧
        seed = taggedDigest "epoch-seed" [.word epoch, .digest mix] := by
  rw [seedOf_eq hc, Attempt.bind_eq_ok]
  constructor
  · rintro ⟨_, hwindow, h⟩
    cases hmix : s.anchorMix? c epoch with
    | none => simp [hmix] at h
    | some mix =>
        simp only [hmix, Attempt.pure_eq_ok] at h
        exact ⟨hwindow, mix, rfl, h.symm⟩
  · rintro ⟨hwindow, mix, hmix, rfl⟩
    exact ⟨(), hwindow, by simp [hmix]⟩

theorem ChainState.anchorMix?_isSome (h : 0 < s.randaoMixes.size) :
    ∃ mix, s.anchorMix? c epoch = some mix := by
  rw [ChainState.anchorMix?, Nat.max_eq_left h]
  exact ⟨_, Array.getElem?_eq_getElem (Nat.mod_lt _ h)⟩

theorem seedOf_within (hc : c.Consistent)
    (hfits : ℓ.faults .overflow ∨ epoch + 2 < Word.limit ∧ s.currentEpoch c + 1 < Word.limit)
    (hseeded : ℓ.rejections ∨ InWindow c s epoch ∧ 0 < s.randaoMixes.size) :
    (seedOf c s epoch).Within ℓ := by
  rw [seedOf_eq hc]
  refine (checkWindow_within hfits (hseeded.imp_right And.left)).bind fun _ _ => ?_
  cases hmix : s.anchorMix? c epoch with
  | some mix => trivial
  | none =>
      refine hseeded.resolve_right fun h => ?_
      obtain ⟨mix, hsome⟩ : ∃ mix, s.anchorMix? c epoch = some mix :=
        ChainState.anchorMix?_isSome h.2
      simp [hmix] at hsome

/-! ## Committees -/

theorem activeSet_eq_ok {active : Array ValidatorIndex} :
    activeSet s epoch = .ok active ↔
      s.activeIndices epoch ≠ [] ∧ active = (s.activeIndices epoch).toArray := by
  simp only [activeSet, Attempt.bind_eq_ok, Attempt.require_eq_ok, Attempt.pure_eq_ok]
  constructor
  · rintro ⟨_, hne, rfl⟩
    exact ⟨hne, rfl⟩
  · rintro ⟨hne, rfl⟩
    exact ⟨(), hne, rfl⟩

theorem activeSet_within (h : ℓ.rejections ∨ s.activeIndices epoch ≠ []) :
    (activeSet s epoch).Within ℓ :=
  (Attempt.within_require h).bind fun _ _ => trivial

/-- How many committees an epoch has. -/
def committeeCount (c : Constants) (s : ChainState) (epoch : Epoch) : Nat :=
  c.committeesPerSlot (s.activeIndices epoch).length * c.slotsPerEpoch

/-- The sizes that committees are cut by stay words. -/
def CommitteesFit (c : Constants) (s : ChainState) (epoch : Epoch) : Prop :=
  committeeCount c s epoch < Word.limit ∧
    (s.activeIndices epoch).length * committeeCount c s epoch < Word.limit

theorem committeesOf_eq_ok {committees : EpochCommittees} :
    committeesOf c s epoch = .ok committees ↔
      ∃ seed, seedOf c s epoch = .ok seed ∧ s.activeIndices epoch ≠ [] ∧ CommitteesFit c s epoch ∧
        committees =
          { epoch
            committeesPerSlot := c.committeesPerSlot (s.activeIndices epoch).length
            slotsPerEpoch := c.slotsPerEpoch
            members := slices (shuffle (s.activeIndices epoch).toArray seed)
              (committeeCount c s epoch) } := by
  simp only [committeesOf, Attempt.bind_eq_ok, Attempt.liftM_eq_ok, Word.mul_eq_ok,
    Attempt.pure_eq_ok, Word.require_eq_ok, activeSet_eq_ok]
  constructor
  · rintro ⟨seed, hseed, _, ⟨hne, rfl⟩, _, ⟨rfl, hcount⟩, _, hcuts, rfl⟩
    exact ⟨seed, hseed, hne, ⟨hcount, hcuts⟩, rfl⟩
  · rintro ⟨seed, hseed, hne, ⟨hcount, hcuts⟩, rfl⟩
    exact ⟨seed, hseed, _, ⟨hne, rfl⟩, _, ⟨rfl, hcount⟩, (), hcuts, rfl⟩

theorem committeesOf_within (hc : c.Consistent)
    (hfits : ℓ.faults .overflow ∨ (epoch + 2 < Word.limit ∧ s.currentEpoch c + 1 < Word.limit) ∧
      CommitteesFit c s epoch)
    (hexist : ℓ.rejections ∨ (InWindow c s epoch ∧ 0 < s.randaoMixes.size) ∧
      s.activeIndices epoch ≠ []) :
    (committeesOf c s epoch).Within ℓ := by
  refine (seedOf_within hc (hfits.imp_right And.left) (hexist.imp_right And.left)).bind
    fun seed _ => ?_
  refine (activeSet_within (hexist.imp_right And.right)).bind fun active hactive => ?_
  obtain ⟨-, rfl⟩ := activeSet_eq_ok.1 hactive
  refine (Word.mul_within (hfits.imp_right fun h => h.2.1)).lift.bind fun count hcount => ?_
  simp only [Attempt.liftM_eq_ok, Word.mul_eq_ok] at hcount
  obtain ⟨rfl, -⟩ := hcount
  exact (Word.require_within (hfits.imp_right fun h => h.2.2)).lift.bind fun _ _ => trivial

/-- Committees are only found inside the window, with epochs that are words. -/
theorem window_of_committeesOf (hc : c.Consistent) {committees : EpochCommittees}
    (h : committeesOf c s epoch = .ok committees) :
    epoch + 2 < Word.limit ∧ s.currentEpoch c + 1 < Word.limit ∧ InWindow c s epoch := by
  obtain ⟨seed, hseed, -⟩ := committeesOf_eq_ok.1 h
  exact checkWindow_eq_ok.1 ((seedOf_eq_ok hc).1 hseed).1

theorem size_slices {α : Type} (xs : Array α) (count : Nat) : (slices xs count).size = count := by
  simp [slices]

theorem lt_of_mem_zipIdx_slices {α : Type} {xs : Array α} {count i : Nat} {piece : List α}
    (h : (piece, i) ∈ (slices xs count).toList.zipIdx) : i < count := by
  rw [List.mk_mem_zipIdx_iff_getElem?, Array.getElem?_toList] at h
  have hlt := (Array.getElem?_eq_some_iff.1 h).1
  rwa [size_slices] at hlt

/-- A committee exists for every slot of the epoch and every index below the number per slot. -/
theorem committee?_isSome (hc : c.Consistent) {committees : EpochCommittees} {slot : Slot}
    {index : CommitteeIndex} (h : committeesOf c s epoch = .ok committees)
    (hslot : c.epochAt slot = epoch)
    (hindex : index < c.committeesPerSlot (s.activeIndices epoch).length) :
    ∃ members, committees.committee? slot index = some members := by
  obtain ⟨seed, -, -, -, rfl⟩ := committeesOf_eq_ok.1 h
  have hrow : slot % c.slotsPerEpoch + 1 ≤ c.slotsPerEpoch :=
    Nat.mod_lt slot hc.slotsPerEpoch_pos
  -- Row by row: the row of the slot, and the index in it.
  have hplace : slot % c.slotsPerEpoch * c.committeesPerSlot (s.activeIndices epoch).length + index
      < committeeCount c s epoch := by
    calc slot % c.slotsPerEpoch * c.committeesPerSlot (s.activeIndices epoch).length + index
        < slot % c.slotsPerEpoch * c.committeesPerSlot (s.activeIndices epoch).length
            + c.committeesPerSlot (s.activeIndices epoch).length := Nat.add_lt_add_left hindex _
      _ = (slot % c.slotsPerEpoch + 1) * c.committeesPerSlot (s.activeIndices epoch).length :=
          (Nat.succ_mul _ _).symm
      _ ≤ c.slotsPerEpoch * c.committeesPerSlot (s.activeIndices epoch).length :=
          Nat.mul_le_mul_right _ hrow
      _ = committeeCount c s epoch := Nat.mul_comm _ _
  simp only [EpochCommittees.committee?]
  rw [if_pos ⟨hslot, hindex⟩]
  exact ⟨_, Array.getElem?_eq_getElem (by rw [size_slices]; exact hplace)⟩

/-! ## Proposers -/

theorem proposerOf_within (hc : c.Consistent) {slot : Slot}
    (hfits : ℓ.faults .overflow ∨
      c.epochAt slot + 2 < Word.limit ∧ s.currentEpoch c + 1 < Word.limit)
    (hexist : ℓ.rejections ∨ (InWindow c s (c.epochAt slot) ∧ 0 < s.randaoMixes.size) ∧
      s.activeIndices (c.epochAt slot) ≠ []) :
    (proposerOf c s slot).Within ℓ := by
  refine (seedOf_within hc hfits (hexist.imp_right And.left)).bind fun _ _ => ?_
  exact (activeSet_within (hexist.imp_right And.right)).bind fun _ _ => trivial

/-- The only active validator is the proposer of the slot of a state. -/
theorem proposerOf_single (hc : c.Consistent) (hrings : RingsFit c s) (hslot : s.slot ≤ horizon)
    {index : ValidatorIndex} (hactive : s.activeIndices (c.epochAt s.slot) = [index]) :
    proposerOf c s s.slot = .ok index := by
  have hmixes := hrings.randaoMixes_pos hc
  obtain ⟨mix, hmix⟩ : ∃ mix, s.anchorMix? c (c.epochAt s.slot) = some mix :=
    ChainState.anchorMix?_isSome hmixes
  have hwindow := (inWindow_slot c s).checkWindow hslot
  have hseed := (seedOf_eq_ok hc).2 ⟨hwindow, mix, hmix, rfl⟩
  have hset : activeSet s (c.epochAt s.slot) = .ok #[index] := by
    rw [activeSet_eq_ok, hactive]
    exact ⟨List.cons_ne_nil _ _, rfl⟩
  simp only [proposerOf, hseed, hset, Attempt.ok_bind, List.size_toArray, List.length_singleton,
    Nat.mod_one]
  rfl

/-! ## States that agree -/

theorem anchorMix?_congr (hfit : RingsFit c s) (hfit' : RingsFit c s')
    (h : s'.randaoMixes[anchorOf c epoch % c.randaoMixesLength]?
      = s.randaoMixes[anchorOf c epoch % c.randaoMixesLength]?)
    (hpos : 0 < c.randaoMixesLength) : s'.anchorMix? c epoch = s.anchorMix? c epoch := by
  rw [ChainState.anchorMix?, ChainState.anchorMix?, hfit.randaoMixes, hfit'.randaoMixes,
    Nat.max_eq_left hpos]
  exact h

theorem seedOf_congr (hc : c.Consistent) (hwindow : checkWindow c s epoch = checkWindow c s' epoch)
    (hmix : s.anchorMix? c epoch = s'.anchorMix? c epoch) :
    seedOf c s epoch = seedOf c s' epoch := by
  rw [seedOf_eq hc, seedOf_eq hc, hwindow, hmix]

theorem committeesOf_congr (hseed : seedOf c s epoch = seedOf c s' epoch)
    (hactive : s.activeIndices epoch = s'.activeIndices epoch) :
    committeesOf c s epoch = committeesOf c s' epoch := by
  simp only [committeesOf, activeSet, hseed, hactive]

theorem proposerOf_congr {slot : Slot}
    (hseed : seedOf c s (c.epochAt slot) = seedOf c s' (c.epochAt slot))
    (hactive : s.activeIndices (c.epochAt slot) = s'.activeIndices (c.epochAt slot)) :
    proposerOf c s slot = proposerOf c s' slot := by
  simp only [proposerOf, activeSet, hseed, hactive]

end Beacon
