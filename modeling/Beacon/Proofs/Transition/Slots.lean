import Mathlib
import Beacon.Proofs.Transition.Registry

set_option autoImplicit false

/-! # One slot

`nextSlot` succeeds exactly on states with rings of the right lengths and room for one more slot,
and then gives `ChainState.atNextSlot` (`nextSlot_eq_ok`). A ring holds the entry of a slot at the
slot's remainder, so an entry is overwritten only once the ring has gone round
(`place_ne_of_lt_round`). -/

namespace Beacon

variable {c : Constants} {s s' : ChainState}

/-- The rings have the lengths that the constants give them. -/
structure RingsFit (c : Constants) (s : ChainState) : Prop where
  blockRoots : s.blockRoots.size = c.slotsPerHistoricalRoot
  randaoMixes : s.randaoMixes.size = c.randaoMixesLength

theorem RingsFit.randaoMixes_pos (h : RingsFit c s) (hc : c.Consistent) :
    0 < s.randaoMixes.size := by
  rw [h.randaoMixes]
  exact hc.randaoMixesLength_pos

theorem checkRings_eq_ok {u : Unit} : checkRings c s = .ok u ↔ RingsFit c s := by
  simp only [checkRings, Attempt.bind_eq_ok, Attempt.require_eq_ok]
  constructor
  · rintro ⟨_, hroots, hmixes⟩
    exact ⟨hroots, hmixes⟩
  · rintro ⟨hroots, hmixes⟩
    exact ⟨(), hroots, hmixes⟩

/-! ## The filled header -/

@[simp] theorem ChainState.filledHeader_slot (s : ChainState) :
    s.filledHeader.slot = s.latestBlockHeader.slot := by
  unfold ChainState.filledHeader
  split <;> rfl

/-- A header with a state root stays as it is. -/
theorem ChainState.filledHeader_of_ne (h : s.latestBlockHeader.stateRoot ≠ Root.none) :
    s.filledHeader = s.latestBlockHeader := if_neg h

theorem ChainState.filledHeader_of_eq (h : s.latestBlockHeader.stateRoot = Root.none) :
    s.filledHeader = { s.latestBlockHeader with stateRoot := hashRoot s } := if_pos h

/-! ## The next slot -/

/-- The state one slot later, before the epoch that ends with the slot is settled. -/
@[simps] def ChainState.atNextSlot (c : Constants) (s : ChainState) : ChainState :=
  { s with
    slot := s.slot + 1
    latestBlockHeader := s.filledHeader
    randaoMixes := s.randaoMixes.setIfInBounds ((s.slot + 1) % c.randaoMixesLength)
      (s.randaoMixes.getD (s.slot % c.randaoMixesLength) Root.none)
    blockRoots := s.blockRoots.setIfInBounds (s.slot % c.slotsPerHistoricalRoot)
      (hashRoot s.filledHeader) }

theorem nextSlot_eq_ok :
    nextSlot c s = .ok s' ↔
      RingsFit c s ∧ s.slot + 1 < Word.limit ∧ s' = s.atNextSlot c := by
  simp only [nextSlot, Attempt.bind_eq_ok, Attempt.require_eq_ok, Attempt.pure_eq_ok,
    checkRings_eq_ok]
  constructor
  · rintro ⟨_, hrings, _, hlt, rfl⟩
    exact ⟨hrings, hlt, rfl⟩
  · rintro ⟨hrings, hlt, rfl⟩
    exact ⟨(), hrings, (), hlt, rfl⟩

theorem RingsFit.atNextSlot (h : RingsFit c s) : RingsFit c (s.atNextSlot c) :=
  ⟨by simpa using h.blockRoots, by simpa using h.randaoMixes⟩

/-! ## Places in a ring -/

/-- Two slots less than a round apart have different places. -/
theorem place_ne_of_lt_round {a b n : Nat} (hlt : a < b) (hround : b < a + n) :
    a % n ≠ b % n := by
  intro heq
  have hdvd : n ∣ b - a := (Nat.modEq_iff_dvd' hlt.le).1 heq
  have hle := Nat.le_of_dvd (by omega) hdvd
  omega

theorem ChainState.getElem?_atNextSlot_randaoMixes {place : Nat}
    (h : (s.slot + 1) % c.randaoMixesLength ≠ place) :
    (s.atNextSlot c).randaoMixes[place]? = s.randaoMixes[place]? :=
  Array.getElem?_setIfInBounds_ne h

theorem ChainState.getElem?_atNextSlot_blockRoots_ne {place : Nat}
    (h : s.slot % c.slotsPerHistoricalRoot ≠ place) :
    (s.atNextSlot c).blockRoots[place]? = s.blockRoots[place]? :=
  Array.getElem?_setIfInBounds_ne h

theorem ChainState.getElem?_atNextSlot_blockRoots_self (hfit : RingsFit c s)
    (hpos : 0 < c.slotsPerHistoricalRoot) :
    (s.atNextSlot c).blockRoots[s.slot % c.slotsPerHistoricalRoot]?
      = some (hashRoot s.filledHeader) :=
  Array.getElem?_setIfInBounds_self_of_lt (by rw [hfit.blockRoots]; exact Nat.mod_lt _ hpos)

/-- The history of a state: the root recorded for an earlier slot, while the ring holds it. -/
theorem ChainState.blockRootAt?_eq (hslot : s.slot < Word.limit) (u : Nat) :
    s.blockRootAt? c u
      = if u < s.slot ∧ s.slot ≤ u + c.slotsPerHistoricalRoot
        then s.blockRoots[u % c.slotsPerHistoricalRoot]? else none := by
  have hsat : s.slot ≤ Word.addSat u c.slotsPerHistoricalRoot
      ↔ s.slot ≤ u + c.slotsPerHistoricalRoot := by
    simp only [Word.addSat, Word.max]
    lia
  simp only [ChainState.blockRootAt?, hsat]

end Beacon
