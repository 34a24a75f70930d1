import Mathlib
import Beacon.Proofs.Transition.Blocks
import Beacon.Proofs.Transition.Epochs

set_option autoImplicit false

/-! # What a boundary decides about checkpoints

Settling an epoch counts the support for the targets of the epoch that ends and of the one before it
(`Tally`), shifts the bits, takes the justified checkpoint that the count allows and finalizes one
that starts a row of bits. `processEpoch_verdict` says that this is all that becomes of the four
fields, `Verdict` what each of them becomes, and `FinalizedFrom` which checkpoints the four rules
finalize. The fields are those of a state that is settled; the first two epochs settle nothing. -/

namespace Beacon

variable {c : Constants} {s s' : ChainState} {lookup : CommitteeLookup} {ended : Epoch}
  {summary : EpochSummary} {cp : Checkpoint}

/-! ## Bits -/

/-- The bit for the epoch that lies `k` before the one that ended last; there are four. -/
def bitAt (bits : Vector Bool 4) (k : Nat) : Bool := bits[k]?.getD false

@[simp] theorem bitAt_add_four (bits : Vector Bool 4) (k : Nat) : bitAt bits (k + 4) = false := by
  simp [bitAt]

theorem bitAt_replicate_false (k : Nat) : bitAt (Vector.replicate 4 false) k = false := by
  by_cases hk : k < 4 <;> simp [bitAt, hk]

/-! ## The count -/

/-- The targets of the two epochs that a boundary counts, with the balance that supports each. -/
structure Tally where
  /-- The target of the epoch before the one that ends. -/
  before : Root
  supportBefore : Gwei
  /-- The target of the epoch that ends. -/
  last : Root
  supportLast : Gwei

namespace Tally

/-- The tally is what a state counts. -/
structure Counts (c : Constants) (s : ChainState) (lookup : CommitteeLookup) (ended : Epoch)
    (t : Tally) : Prop where
  before : boundaryRoot c s (ended - 1) = .ok t.before
  supportBefore :
    targetSupport c s lookup s.previousEpochAttestations t.before = .ok t.supportBefore
  last : boundaryRoot c s ended = .ok t.last
  supportLast : targetSupport c s lookup s.currentEpochAttestations t.last = .ok t.supportLast

/-- Two thirds of `total` support the target of the epoch before the one that ends. -/
def passesBefore (t : Tally) (total : Gwei) : Bool := decide (total * 2 ≤ t.supportBefore * 3)

/-- Two thirds of `total` support the target of the epoch that ends. -/
def passesLast (t : Tally) (total : Gwei) : Bool := decide (total * 2 ≤ t.supportLast * 3)

/-- The checkpoint that the count justifies, the later one if there are two. -/
def justified? (t : Tally) (total : Gwei) (ended : Epoch) : Option Checkpoint :=
  if t.passesLast total = true then some ⟨ended, t.last⟩
  else if t.passesBefore total = true then some ⟨ended - 1, t.before⟩
  else none

/-- The bits, shifted by one epoch, with the epochs in them that the count justifies. -/
def shifted (t : Tally) (total : Gwei) (bits : Vector Bool 4) : Vector Bool 4 :=
  #v[t.passesLast total, bitAt bits 0 || t.passesBefore total, bitAt bits 1, bitAt bits 2]

/-- An older bit is one of the bits before, one place later. -/
theorem bitAt_shifted_add_two {t : Tally} {total : Gwei} {bits : Vector Bool 4} {k : Nat}
    (h : bitAt (t.shifted total bits) (k + 2) = true) : bitAt bits (k + 1) = true := by
  match k with
  | 0 => exact h
  | 1 => exact h
  | k + 2 => simp at h

theorem justified?_epoch {t : Tally} {total : Gwei} (h : t.justified? total ended = some cp) :
    cp.epoch = ended ∨ cp.epoch = ended - 1 := by
  unfold justified? at h
  split at h
  · obtain rfl := Option.some.inj h
    exact Or.inl rfl
  · split at h
    · obtain rfl := Option.some.inj h
      exact Or.inr rfl
    · cases h

end Tally

/-! ## The rules of finality -/

/-- A checkpoint that is finalized when `ended` ends: an old justified one, with the epochs after it
    justified up to the one that ends, or to the one before that. -/
inductive FinalizedFrom (bits : Vector Bool 4) (previous current : Checkpoint) (ended : Epoch)
    (cp : Checkpoint) : Prop where
  | previous (eq : cp = previous) (before : bitAt bits 1 = true) (second : bitAt bits 2 = true)
      (distance : cp.epoch + 2 = ended ∨ cp.epoch + 3 = ended)
  | current (eq : cp = current) (last : bitAt bits 0 = true) (before : bitAt bits 1 = true)
      (distance : cp.epoch + 1 = ended ∨ cp.epoch + 2 = ended)

theorem liesBefore_eq_ok {distance : Nat} {answer : Bool} (h : liesBefore cp distance ended
      = .ok answer) : answer = decide (cp.epoch + distance = ended) := by
  simp only [liesBefore, Attempt.bind_eq_ok, Word.add_eq_ok, Attempt.pure_eq_ok] at h
  obtain ⟨_, ⟨rfl, -⟩, rfl⟩ := h
  rfl

/-- Each rule asks for a row of bits and for the distance of a checkpoint, and else leaves the
    question to the next rule. -/
theorem rule_cases {row : Bool} {candidate : Checkpoint} {distance : Nat}
    {rest : Checked (Option Checkpoint)} {found : Option Checkpoint}
    (h : (if row = true then do
        if ← liesBefore candidate distance ended then return some candidate else rest
      else rest) = .ok found) :
    (row = true ∧ candidate.epoch + distance = ended) ∧ found = some candidate ∨
      ¬ (row = true ∧ candidate.epoch + distance = ended) ∧ rest = .ok found := by
  split at h
  · next hrow =>
      rw [Attempt.bind_eq_ok] at h
      obtain ⟨answer, hlies, h⟩ := h
      have hanswer := liesBefore_eq_ok hlies
      split at h
      · next htrue =>
          have hdistance := of_decide_eq_true (hanswer.symm.trans htrue)
          exact Or.inl ⟨⟨hrow, hdistance⟩, (Attempt.pure_eq_ok.1 h).symm⟩
      · next hfalse =>
          refine Or.inr ⟨fun hmet => hfalse ?_, h⟩
          rw [hanswer, decide_eq_true_iff]
          exact hmet.2
  · next hrow => exact Or.inr ⟨fun hmet => hrow hmet.1, h⟩

theorem finalizedBy_eq_ok {bits : Vector Bool 4} {previous current : Checkpoint}
    (h : finalizedBy bits previous current ended = .ok (some cp)) :
    FinalizedFrom bits previous current ended cp := by
  rcases rule_cases h with ⟨⟨hrow, hdistance⟩, hfound⟩ | ⟨-, h⟩
  · obtain rfl := Option.some.inj hfound
    simp only [Bool.and_eq_true] at hrow
    exact .previous rfl hrow.1.1 hrow.1.2 (Or.inr hdistance)
  rcases rule_cases h with ⟨⟨hrow, hdistance⟩, hfound⟩ | ⟨-, h⟩
  · obtain rfl := Option.some.inj hfound
    simp only [Bool.and_eq_true] at hrow
    exact .previous rfl hrow.1 hrow.2 (Or.inl hdistance)
  rcases rule_cases h with ⟨⟨hrow, hdistance⟩, hfound⟩ | ⟨-, h⟩
  · obtain rfl := Option.some.inj hfound
    simp only [Bool.and_eq_true] at hrow
    exact .current rfl hrow.1.1 hrow.1.2 (Or.inr hdistance)
  rcases rule_cases h with ⟨⟨hrow, hdistance⟩, hfound⟩ | ⟨-, h⟩
  · obtain rfl := Option.some.inj hfound
    simp only [Bool.and_eq_true] at hrow
    exact .current rfl hrow.1 hrow.2 (Or.inl hdistance)
  · cases h

/-! ## The verdict -/

/-- The four fields of a state that speak of finality are the same in both. -/
structure SameCheckpoints (s s' : ChainState) : Prop where
  previousJustified : s'.previousJustified = s.previousJustified
  currentJustified : s'.currentJustified = s.currentJustified
  justificationBits : s'.justificationBits = s.justificationBits
  finalized : s'.finalized = s.finalized

/-- What the count makes of checkpoints and bits. -/
structure Verdict (s s' : ChainState) (total : Gwei) (ended : Epoch) (t : Tally)
    (summary : EpochSummary) : Prop where
  justified : summary.justified = t.justified? total ended
  previousJustified : s'.previousJustified = s.currentJustified
  currentJustified : s'.currentJustified = (t.justified? total ended).getD s.currentJustified
  justificationBits : s'.justificationBits = t.shifted total s.justificationBits
  finalized : s'.finalized = summary.finalized.getD s.finalized
  decided : finalizedBy s'.justificationBits s.previousJustified s.currentJustified ended
    = .ok summary.finalized

theorem Verdict.rule {total : Gwei} {t : Tally} (hverdict : Verdict s s' total ended t summary)
    (hfinalized : summary.finalized = some cp) :
    FinalizedFrom s'.justificationBits s.previousJustified s.currentJustified ended cp :=
  finalizedBy_eq_ok (hfinalized ▸ hverdict.decided)

theorem justifyAndFinalize_early (hearly : ended ≤ 1) :
    justifyAndFinalize c lookup ended s = .ok ({}, s) := by
  rw [justifyAndFinalize, if_pos hearly]
  rfl

theorem justifyAndFinalize_verdict (hlate : 1 < ended)
    (h : justifyAndFinalize c lookup ended s = .ok (summary, s')) :
    ∃ t : Tally, t.Counts c s lookup ended ∧
      Verdict s s' (activeBalance c s ended) ended t summary := by
  rw [justifyAndFinalize, if_neg (Nat.not_le_of_lt hlate)] at h
  simp only [Attempt.bind_eq_ok, Attempt.liftM_eq_ok, Attempt.pure_eq_ok, Prod.mk.injEq] at h
  obtain ⟨before, hbefore, supportBefore, hsupportBefore, last, hlast, supportLast, hsupportLast,
    finalized, hfinalized, rfl, rfl⟩ := h
  refine ⟨⟨before, supportBefore, last, supportLast⟩,
    ⟨hbefore, hsupportBefore, hlast, hsupportLast⟩, rfl, rfl, rfl, rfl, rfl, hfinalized⟩

/-- **What becomes of checkpoints at a boundary.** Nothing in the first two epochs, and then what
    the count of the state makes of them. -/
theorem processEpoch_verdict (h : processEpoch c s = .ok (summary, s')) :
    (s.currentEpoch c - 1 ≤ 1 ∧ summary = {} ∧ SameCheckpoints s s') ∨
      (1 < s.currentEpoch c - 1 ∧ ∃ t : Tally,
        t.Counts c s (committeesOf c s) (s.currentEpoch c - 1) ∧
        Verdict s s' (activeBalance c s (s.currentEpoch c - 1)) (s.currentEpoch c - 1) t
          summary) := by
  obtain ⟨-, s₁, s₂, s₃, hjustify, hpay, heffective, rfl⟩ := processEpoch_eq_ok.1 h
  -- Rewards, activations and effective balances leave the four fields alone.
  have hpay' := (payRewards_frame hpay).1
  have heffective' := (updateEffectiveBalances_frame heffective).1
  have hprevious : s₃.previousJustified = s₁.previousJustified := by
    rw [heffective', activateValidators, hpay']
  have hcurrent : s₃.currentJustified = s₁.currentJustified := by
    rw [heffective', activateValidators, hpay']
  have hbits : s₃.justificationBits = s₁.justificationBits := by
    rw [heffective', activateValidators, hpay']
  have hfinalized : s₃.finalized = s₁.finalized := by
    rw [heffective', activateValidators, hpay']
  rcases Nat.lt_or_ge 1 (s.currentEpoch c - 1) with hlate | hearly
  · obtain ⟨t, hcounts, hverdict⟩ := justifyAndFinalize_verdict hlate hjustify
    refine Or.inr ⟨hlate, t, hcounts, hverdict.justified, ?_, ?_, ?_, ?_, ?_⟩
    · exact hprevious.trans hverdict.previousJustified
    · exact hcurrent.trans hverdict.currentJustified
    · exact hbits.trans hverdict.justificationBits
    · exact hfinalized.trans hverdict.finalized
    · rw [ChainState.settled_justificationBits, hbits]
      exact hverdict.decided
  · rw [justifyAndFinalize_early hearly] at hjustify
    obtain ⟨rfl, rfl⟩ := Prod.mk.injEq .. ▸ Except.ok.inj hjustify
    exact Or.inl ⟨hearly, rfl, hprevious, hcurrent, hbits, hfinalized⟩

/-! ## Slots and blocks -/

/-- A block decides nothing about checkpoints. -/
theorem BlockFrame.sameCheckpoints {b : CandidateBlock} (h : BlockFrame c s s' b) :
    SameCheckpoints s s' :=
  ⟨h.frame.previousJustified, h.frame.currentJustified, h.frame.justificationBits,
    h.frame.finalized⟩

end Beacon
