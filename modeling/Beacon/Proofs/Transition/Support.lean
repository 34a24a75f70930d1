import Mathlib
import Beacon.Proofs.Constants

set_option autoImplicit false

/-! # How much stake supports a target

A ballot is what an attestation says, apart from who signed and who included it: bits and a vote.
The support of some ballots is the stake of the unslashed validators whose committee positions are
set in any of them, each counted once. Settling an epoch works with sums that stop at the largest
word and with at least one increment; `targetSupport_eq` and `activeBalance_eq` say what that makes
of the plain sums, and `twoThirds_iff` that it does not matter to the question of two thirds as long
as the stake is a word and at least two increments. -/

namespace Beacon

variable {c : Constants} {s : ChainState} {epoch : Epoch}

/-! ## Sums -/

/-- A sum that stops at the largest word is the plain sum, or the largest word. -/
theorem foldl_addSat (xs : List Nat) {a : Nat} (ha : a ≤ Word.max) :
    xs.foldl Word.addSat a = min (a + xs.sum) Word.max := by
  induction xs generalizing a with
  | nil =>
      rw [List.foldl_nil, List.sum_nil, Nat.add_zero, Nat.min_eq_left ha]
  | cons x xs ih =>
      have hx : Word.addSat a x ≤ Word.max := Nat.min_le_right ..
      rw [List.foldl_cons, ih hx, List.sum_cons, Word.addSat]
      omega

/-! ## Ballots -/

/-- What an attestation says. -/
structure Ballot where
  bits : List Bool
  data : AttestationData
  deriving DecidableEq

/-- The ballot of an attestation. -/
def Attestation.ballot (a : Attestation) : Ballot := ⟨a.bits, a.data⟩

/-- The ballot of an attestation that the chain remembers. -/
def PendingAttestation.ballot (a : PendingAttestation) : Ballot := ⟨a.bits, a.data⟩

/-- The members of the ballot's committee whose positions are set, nobody if there is no such
    committee. -/
def Ballot.voters (c : Constants) (s : ChainState) (b : Ballot) : List ValidatorIndex :=
  match committeesOf c s b.data.target.epoch with
  | .error _ => []
  | .ok committees =>
    match committees.committee? b.data.slot b.data.index with
    | none => []
    | some members => ((members.zip b.bits).filter (·.2)).map (·.1)

theorem attestersOf_eq {a : PendingAttestation} {attesters : List ValidatorIndex}
    (h : attestersOf (committeesOf c s) a = .ok attesters) :
    a.ballot.voters c s = attesters := by
  simp only [attestersOf, Attempt.bind_eq_ok, Attempt.widen_eq_ok] at h
  obtain ⟨committees, hcommittees, h⟩ := h
  cases hmembers : committees.committee? a.data.slot a.data.index with
  | none => simp [hmembers] at h
  | some members =>
      simp only [hmembers, Attempt.pure_eq_ok] at h
      simp only [Ballot.voters, PendingAttestation.ballot, hcommittees, hmembers]
      exact h

/-! ## Support -/

/-- The unslashed validators that vote in any of the ballots, each once, in registry order. -/
def supporters (c : Constants) (s : ChainState) (ballots : List Ballot) : List ValidatorIndex :=
  (List.range s.validators.size).filter fun i =>
    s.isUnslashed i && (ballots.flatMap (Ballot.voters c s)).contains i

/-- The stake of these validators. -/
def support (c : Constants) (s : ChainState) (ballots : List Ballot) : Gwei :=
  ((supporters c s ballots).map s.effectiveBalance).sum

theorem nodup_supporters (c : Constants) (s : ChainState) (ballots : List Ballot) :
    (supporters c s ballots).Nodup :=
  List.nodup_range.filter _

theorem ChainState.isUnslashed_iff {i : ValidatorIndex} :
    s.isUnslashed i = true ↔ ∃ v, s.validators[i]? = some v ∧ v.slashed = false := by
  rw [ChainState.isUnslashed]
  cases hv : s.validators[i]? with
  | none => simp
  | some v => simp

theorem mem_supporters {ballots : List Ballot} {i : ValidatorIndex} :
    i ∈ supporters c s ballots ↔
      (∃ v, s.validators[i]? = some v ∧ v.slashed = false) ∧ ∃ b ∈ ballots, i ∈ b.voters c s := by
  simp only [supporters, List.mem_filter, List.mem_range, Bool.and_eq_true, List.contains_iff_mem,
    List.mem_flatMap, ChainState.isUnslashed_iff]
  constructor
  · rintro ⟨-, hunslashed, hvotes⟩
    exact ⟨hunslashed, hvotes⟩
  · rintro ⟨⟨v, hv, hunslashed⟩, hvotes⟩
    exact ⟨(Array.getElem?_eq_some_iff.1 hv).1, ⟨v, hv, hunslashed⟩, hvotes⟩

theorem unslashedAttesters_eq {as : List PendingAttestation} {attesters : List ValidatorIndex}
    (h : unslashedAttesters s (committeesOf c s) as = .ok attesters) :
    attesters = supporters c s (as.map PendingAttestation.ballot) := by
  simp only [unslashedAttesters, Attempt.bind_eq_ok, Attempt.pure_eq_ok] at h
  obtain ⟨attesting, hattesting, rfl⟩ := h
  -- The lists of attesters are those of the voters, one by one.
  have hvoters : (as.map PendingAttestation.ballot).map (Ballot.voters c s) = attesting := by
    have hall := Attempt.mapM_eq_ok hattesting
    clear hattesting
    induction hall with
    | nil => rfl
    | cons hhead _ ih =>
        rw [List.map_cons, List.map_cons, attestersOf_eq hhead, ih]
  rw [supporters, List.flatMap_def, hvoters]

theorem targetSupport_eq {as : List PendingAttestation} {root : Root} {balance : Gwei}
    (h : targetSupport c s (committeesOf c s) as root = .ok balance) :
    balance = max (min (support c s
      ((as.filter fun a => a.data.target.root = root).map PendingAttestation.ballot)) Word.max)
        c.effectiveBalanceIncrement := by
  simp only [targetSupport, Attempt.bind_eq_ok, Attempt.pure_eq_ok] at h
  obtain ⟨attesters, hattesters, rfl⟩ := h
  rw [attestingBalance, foldl_addSat _ (Nat.zero_le _), Nat.zero_add,
    unslashedAttesters_eq hattesters, support]

/-- The sum of the effective balances of the validators active at an epoch. -/
def ChainState.activeStake (s : ChainState) (epoch : Epoch) : Gwei :=
  ((s.validators.toList.filter (·.isActiveAt epoch)).map Validator.effectiveBalance).sum

theorem activeBalance_eq (c : Constants) (s : ChainState) (epoch : Epoch) :
    activeBalance c s epoch
      = max (min (s.activeStake epoch) Word.max) c.effectiveBalanceIncrement := by
  rw [activeBalance, ChainState.totalActiveBalance, foldl_addSat _ (Nat.zero_le _), Nat.zero_add,
    ChainState.activeStake]

/-! ## Two thirds -/

/-- The active stake of an epoch is a word and at least two increments. -/
def StakeFits (c : Constants) (s : ChainState) (epoch : Epoch) : Prop :=
  2 * c.effectiveBalanceIncrement ≤ s.activeStake epoch ∧ s.activeStake epoch < Word.limit

instance : Decidable (StakeFits c s epoch) :=
  inferInstanceAs (Decidable (_ ∧ _))

private theorem two_mul_le_iff {increment stake backing : Nat} (hpos : 0 < increment)
    (hmin : 2 * increment ≤ stake) (hmax : stake ≤ Word.max) :
    max (min stake Word.max) increment * 2 ≤ max (min backing Word.max) increment * 3 ↔
      2 * stake ≤ 3 * backing := by
  rw [Nat.min_eq_left hmax]
  omega

/-- The floors and ceilings of the sums do not make two thirds out of less, nor less out of two
    thirds. -/
theorem twoThirds_iff (hc : c.Consistent) (hfits : StakeFits c s epoch) {backing : Gwei} :
    activeBalance c s epoch * 2
        ≤ max (min backing Word.max) c.effectiveBalanceIncrement * 3 ↔
      2 * s.activeStake epoch ≤ 3 * backing := by
  rw [activeBalance_eq]
  exact two_mul_le_iff hc.effectiveBalanceIncrement_pos hfits.1 (Nat.le_pred_of_lt hfits.2)

end Beacon
