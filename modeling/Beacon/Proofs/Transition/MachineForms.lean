import Mathlib
import Beacon.Proofs.Packing

set_option autoImplicit false

/-! # Quotients and positions as a machine has them

Where the constants are valid, the transition divides by none that is zero and reads no list past
its end, so its definitions use total quotients and lookups. Here are the same computations with
every quotient, product and position checked, and a fault where a machine would stop. `InDomain c s`
says that on the state `s` they give what the definitions give; it holds of all states of moderate
size (`Moderate.inDomain`), whatever their lists hold. -/

namespace Beacon

variable {c : Constants} {s : ChainState} {epoch : Epoch}

/-! ## Arithmetic -/

theorem Constants.Consistent.epochAtChecked (hc : c.Consistent) (slot : Slot) :
    c.epochAtChecked slot = .ok (c.epochAt slot) :=
  Word.div_of_pos hc.slotsPerEpoch_pos

theorem Constants.Consistent.committeesPerSlotChecked (hc : c.Consistent) (active : Nat) :
    c.committeesPerSlotChecked active = .ok (c.committeesPerSlot active) := by
  simp only [Constants.committeesPerSlotChecked, Word.div_of_pos hc.slotsPerEpoch_pos,
    Word.div_of_pos hc.targetCommitteeSize_pos, Attempt.ok_bind,
    if_neg hc.maxCommitteesPerSlot_pos.ne']
  rfl

/-- `effective`, a fault when increments are empty. -/
def Constants.effectiveChecked (c : Constants) (balance : Gwei) : Checked Gwei := do
  let rest ← Word.mod balance c.effectiveBalanceIncrement
  let whole ← Word.sub balance rest
  return min whole c.maxEffectiveBalance

theorem Constants.Consistent.effectiveChecked (hc : c.Consistent) (balance : Gwei) :
    c.effectiveChecked balance = .ok (c.effective balance) := by
  have hwhole : Word.sub balance (balance % c.effectiveBalanceIncrement)
      = .ok (balance - balance % c.effectiveBalanceIncrement) := if_pos (Nat.mod_le ..)
  rw [Constants.effectiveChecked, Word.mod_of_pos hc.effectiveBalanceIncrement_pos, Attempt.ok_bind,
    hwhole]
  rfl

/-! ## The shuffle and the cuts -/

section

variable {α : Type}

/-- Swap two elements, a fault when a position lies outside. -/
def swapChecked (xs : Array α) (i j : Nat) : Checked (Array α) :=
  if i < xs.size ∧ j < xs.size then .ok (xs.swapIfInBounds i j) else Attempt.fault .outOfRange

/-- `shuffleFrom`, with every swap checked. -/
def shuffleFromChecked : Nat → Root → Array α → Checked (Array α)
  | 0, _, xs => .ok xs
  | i + 1, seed, xs => do
    let round := shuffleRound seed (i + 1)
    let place ← Word.mod round.leadingWord (i + 2)
    shuffleFromChecked i round (← swapChecked xs (i + 1) place)

theorem shuffleFromChecked_eq {i : Nat} {seed : Root} {xs : Array α} (hi : i = 0 ∨ i < xs.size) :
    shuffleFromChecked i seed xs = .ok (shuffleFrom i seed xs) := by
  induction i generalizing seed xs with
  | zero => rfl
  | succ i ih =>
      have hlt : i + 1 < xs.size := hi.resolve_left (Nat.succ_ne_zero i)
      have hplace : (shuffleRound seed (i + 1)).leadingWord % (i + 2) < xs.size :=
        (Nat.mod_lt _ (Nat.succ_pos _)).trans_le hlt
      rw [shuffleFromChecked, Word.mod_of_pos (Nat.succ_pos _), Attempt.ok_bind, swapChecked,
        if_pos ⟨hlt, hplace⟩, Attempt.ok_bind]
      exact ih (.inr (by simpa using Nat.lt_of_succ_lt hlt))

/-- `shuffle`, with every swap checked. -/
def shuffleChecked (xs : Array α) (seed : Root) : Checked (Array α) :=
  shuffleFromChecked (xs.size - 1) seed xs

theorem shuffleChecked_eq (xs : Array α) (seed : Root) :
    shuffleChecked xs seed = .ok (shuffle xs seed) :=
  shuffleFromChecked_eq (by lia)

/-- A run of a list, a fault when it does not lie inside. -/
def sliceChecked (xs : Array α) (start stop : Nat) : Checked (List α) :=
  if start ≤ stop ∧ stop ≤ xs.size then .ok (xs.extract start stop).toList
  else Attempt.fault .outOfRange

/-- `slices`, with every cut checked. -/
def slicesChecked (xs : Array α) (total : Nat) : Checked (List (List α)) :=
  (List.range total).mapM fun k => do
    let start ← Word.div (← Word.mul xs.size k) total
    let stop ← Word.div (← Word.mul xs.size (k + 1)) total
    sliceChecked xs start stop

theorem toList_slices (xs : Array α) (total : Nat) :
    (slices xs total).toList = (List.range total).map fun k =>
      (xs.extract (xs.size * k / total) (xs.size * (k + 1) / total)).toList := by
  refine List.ext_getElem (by simp [slices]) fun k _ _ => ?_
  simp [slices]

/-- The cuts are words where the last one is, and run upwards inside the list. -/
theorem slicesChecked_eq {xs : Array α} {total : Nat} (hfits : xs.size * total < Word.limit) :
    slicesChecked xs total = .ok (slices xs total).toList := by
  rw [toList_slices, slicesChecked]
  refine Attempt.mapM_eq_map fun k hk => ?_
  have hlt : k < total := List.mem_range.1 hk
  have hpos : 0 < total := Nat.zero_lt_of_lt hlt
  have hcut {j : Nat} (hj : j ≤ total) : xs.size * j ≤ xs.size * total := Nat.mul_le_mul_left _ hj
  have hmul {j : Nat} (hj : j ≤ total) : Word.mul xs.size j = .ok (xs.size * j) :=
    if_pos ((hcut hj).trans_lt hfits)
  have hupwards : xs.size * k / total ≤ xs.size * (k + 1) / total :=
    Nat.div_le_div_right (Nat.mul_le_mul_left _ (Nat.le_succ k))
  have hinside : xs.size * (k + 1) / total ≤ xs.size := by
    rw [← Nat.mul_div_cancel xs.size hpos]
    exact Nat.div_le_div_right (by simpa [Nat.mul_div_cancel _ hpos] using hcut hlt)
  simp only [hmul hlt.le, hmul (Nat.succ_le_of_lt hlt), Word.div_of_pos hpos, Attempt.ok_bind]
  exact if_pos ⟨hupwards, hinside⟩

end

/-! ## Committees and proposers -/

/-- `seedOf`, with its quotients checked. -/
def seedOfChecked (c : Constants) (s : ChainState) (epoch : Epoch) : Attempt CommitteeError Root := do
  let _ ← c.epochAtChecked s.slot
  checkWindow c s epoch
  let anchor ← anchorSlot c epoch
  let place ← Word.mod anchor (max s.randaoMixes.size 1)
  match s.randaoMixes[place]? with
  | some mix => return taggedDigest "epoch-seed" [.word epoch, .digest mix]
  | none => Attempt.reject (.missingRandaoMix anchor)

theorem seedOfChecked_eq (hc : c.Consistent) (s : ChainState) (epoch : Epoch) :
    seedOfChecked c s epoch = seedOf c s epoch := by
  have hpos : 0 < max s.randaoMixes.size 1 := Nat.lt_of_lt_of_le Nat.one_pos (Nat.le_max_right ..)
  simp only [seedOfChecked, seedOf, hc.epochAtChecked, Word.mod_of_pos hpos]
  rfl

/-- `committeesOf`, with its quotients, swaps and cuts checked. -/
def committeesOfChecked (c : Constants) (s : ChainState) (epoch : Epoch) :
    Attempt CommitteeError EpochCommittees := do
  let seed ← seedOfChecked c s epoch
  let active ← activeSet s epoch
  let perSlot ← c.committeesPerSlotChecked active.size
  let total ← Word.mul perSlot c.slotsPerEpoch
  let members ← slicesChecked (← shuffleChecked active seed) total
  return { epoch, committeesPerSlot := perSlot, slotsPerEpoch := c.slotsPerEpoch
           members := members.toArray }

theorem committeesOfChecked_eq (hc : c.Consistent) (hfits : CommitteesFit c s epoch) :
    committeesOfChecked c s epoch = committeesOf c s epoch := by
  rw [committeesOfChecked, committeesOf, seedOfChecked_eq hc]
  refine Attempt.bind_congr_ok fun seed _ => Attempt.bind_congr_ok fun active hactive => ?_
  obtain ⟨-, rfl⟩ := activeSet_eq_ok.1 hactive
  rw [hc.committeesPerSlotChecked, Attempt.liftM_ok, Attempt.ok_bind]
  refine Attempt.bind_congr_ok fun total htotal => ?_
  rw [Attempt.liftM_eq_ok, Word.mul_eq_ok] at htotal
  obtain ⟨rfl, -⟩ := htotal
  have hcuts : (s.activeIndices epoch).toArray.size
      * (c.committeesPerSlot (s.activeIndices epoch).toArray.size * c.slotsPerEpoch) < Word.limit :=
    hfits.2
  rw [shuffleChecked_eq, Attempt.liftM_ok, Attempt.ok_bind,
    slicesChecked_eq (by rw [size_shuffle]; exact hcuts), Word.require, if_pos hcuts]
  simp only [Attempt.liftM_ok, Attempt.ok_bind, Array.toArray_toList]

/-- `proposerOf`, with its quotients and the position of the proposer checked. -/
def proposerOfChecked (c : Constants) (s : ChainState) (slot : Slot) :
    Attempt CommitteeError ValidatorIndex := do
  let epoch ← c.epochAtChecked slot
  let seed ← seedOfChecked c s epoch
  let active ← activeSet s epoch
  let pick := taggedDigest "proposer" [.digest seed, .word slot]
  let place ← Word.mod pick.leadingWord active.size
  match active[place]? with
  | some index => return index
  | none => Attempt.fault .outOfRange

theorem proposerOfChecked_eq (hc : c.Consistent) (s : ChainState) (slot : Slot) :
    proposerOfChecked c s slot = proposerOf c s slot := by
  rw [proposerOfChecked, proposerOf, hc.epochAtChecked, Attempt.liftM_ok, Attempt.ok_bind,
    seedOfChecked_eq hc]
  refine Attempt.bind_congr_ok fun seed _ => Attempt.bind_congr_ok fun active hactive => ?_
  obtain ⟨hne, rfl⟩ := activeSet_eq_ok.1 hactive
  have hpos : 0 < (s.activeIndices (c.epochAt slot)).toArray.size := by
    simpa using List.length_pos_of_ne_nil hne
  have hplace (word : Nat) := Nat.mod_lt word hpos
  simp only [Word.mod_of_pos hpos, Attempt.liftM_ok, Attempt.ok_bind,
    Array.getElem?_eq_getElem (hplace _), Array.getD_eq_getD_getElem?, Option.getD_some]

/-- `committee?`, with its quotients and the place of the committee checked. -/
def EpochCommittees.committeeChecked? (e : EpochCommittees) (slot : Slot) (index : CommitteeIndex) :
    Checked (Option (List ValidatorIndex)) := do
  let epoch ← Word.div slot e.slotsPerEpoch
  if epoch = e.epoch ∧ index < e.committeesPerSlot then
    let row ← Word.mod slot e.slotsPerEpoch
    let start ← Word.mul row e.committeesPerSlot
    let place ← Word.add start index
    return e.members[place]?
  else return none

theorem committeeChecked?_eq (hc : c.Consistent) {committees : EpochCommittees}
    (h : committeesOf c s epoch = .ok committees) (slot : Slot) (index : CommitteeIndex) :
    committees.committeeChecked? slot index = .ok (committees.committee? slot index) := by
  obtain ⟨seed, -, -, hfits, rfl⟩ := committeesOf_eq_ok.1 h
  have hpos := hc.slotsPerEpoch_pos
  simp only [EpochCommittees.committeeChecked?, EpochCommittees.committee?, Word.div_of_pos hpos,
    Word.mod_of_pos hpos, Attempt.ok_bind]
  split
  · next hnamed =>
      -- The place is one of the committees, of which there are less than a word can say.
      obtain ⟨members, hmembers⟩ := committee?_isSome hc h hnamed.1 hnamed.2
      rw [EpochCommittees.committee?, if_pos hnamed] at hmembers
      have hplace := (Array.getElem?_eq_some_iff.1 hmembers).1
      rw [size_slices] at hplace
      have hlt := hplace.trans hfits.1
      rw [Word.mul, if_pos (Nat.lt_of_le_of_lt (Nat.le_add_right ..) hlt), Attempt.ok_bind,
        Word.add_of_lt hlt, Attempt.ok_bind]
      rfl
  · rfl

/-! ## States where all of them agree -/

/-- On the state the machine forms give what the definitions give: no quotient has a zero divisor,
    no number leaves the range, no position lies outside its list. -/
structure InDomain (c : Constants) (s : ChainState) : Prop where
  epoch : ∀ slot, c.epochAtChecked slot = .ok (c.epochAt slot)
  mix : ∀ slot, Word.mod slot c.randaoMixesLength = .ok (slot % c.randaoMixesLength)
  proposer : ∀ slot, proposerOfChecked c s slot = proposerOf c s slot
  committees : ∀ epoch, committeesOfChecked c s epoch = committeesOf c s epoch
  committee : ∀ epoch committees, committeesOf c s epoch = .ok committees → ∀ slot index,
    committees.committeeChecked? slot index = .ok (committees.committee? slot index)
  penalty : ∀ stake, Word.div stake c.minSlashingPenaltyQuotient
    = .ok (stake / c.minSlashingPenaltyQuotient)
  effective : ∀ balance, c.effectiveChecked balance = .ok (c.effective balance)

theorem Moderate.inDomain (h : Moderate c s) (hc : c.Consistent) : InDomain c s where
  epoch := hc.epochAtChecked
  mix _ := Word.mod_of_pos hc.randaoMixesLength_pos
  proposer := proposerOfChecked_eq hc s
  committees epoch := committeesOfChecked_eq hc (h.committeesFit epoch)
  committee _ _ := committeeChecked?_eq hc
  penalty _ := Word.div_of_pos hc.minSlashingPenaltyQuotient_pos
  effective := hc.effectiveChecked

end Beacon
