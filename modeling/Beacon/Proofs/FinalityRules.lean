import Mathlib
import Beacon.Proofs.Transition.Runs
import Beacon.Proofs.Transition.Verdicts

set_option autoImplicit false

/-! # Which of two checkpoints is finalized

When an epoch ends, two rules may finalize the older of the two justified checkpoints that the state
had before, and two more the newer one (`AllowsOlder`, `AllowsNewer`). The rules are tried in this
order and the first that applies decides (`finalizedBy_eq`). While one epoch after the other is
justified, rules for both checkpoints apply together: then the older checkpoint is finalized, although
the newer one might be. This is the only way in which a boundary misses the latest checkpoint that the
rules allow (`finalizes_older_first`). -/

namespace Beacon

variable {c : Constants} {s s' : ChainState} {lookup : CommitteeLookup} {ended : Epoch}
  {summary : EpochSummary} {bits : Vector Bool 4} {older newer cp : Checkpoint}

/-! ## The four rules -/

/-- The epochs from the older checkpoint up to the one before the epoch that ends are justified, two
    or three of them. -/
def AllowsOlder (bits : Vector Bool 4) (older : Checkpoint) (ended : Epoch) : Prop :=
  (bitAt bits 1 = true ∧ bitAt bits 2 = true ∧ bitAt bits 3 = true ∧ older.epoch + 3 = ended) ∨
    (bitAt bits 1 = true ∧ bitAt bits 2 = true ∧ older.epoch + 2 = ended)

/-- The epochs from the newer checkpoint up to the one that ends are justified, two or three of
    them. -/
def AllowsNewer (bits : Vector Bool 4) (newer : Checkpoint) (ended : Epoch) : Prop :=
  (bitAt bits 0 = true ∧ bitAt bits 1 = true ∧ bitAt bits 2 = true ∧ newer.epoch + 2 = ended) ∨
    (bitAt bits 0 = true ∧ bitAt bits 1 = true ∧ newer.epoch + 1 = ended)

instance (bits : Vector Bool 4) (older : Checkpoint) (ended : Epoch) :
    Decidable (AllowsOlder bits older ended) :=
  inferInstanceAs (Decidable (_ ∨ _))

instance (bits : Vector Bool 4) (newer : Checkpoint) (ended : Epoch) :
    Decidable (AllowsNewer bits newer ended) :=
  inferInstanceAs (Decidable (_ ∨ _))

/-- One of the rules for `cp` applies. -/
def Allows (bits : Vector Bool 4) (older newer : Checkpoint) (ended : Epoch) (cp : Checkpoint) :
    Prop :=
  (cp = older ∧ AllowsOlder bits older ended) ∨ (cp = newer ∧ AllowsNewer bits newer ended)

/-- From `before` to `after`: the latest checkpoint for which a rule applies is finalized, and nothing
    changes if there is none. -/
def FinalizesLatest (bits : Vector Bool 4) (older newer : Checkpoint) (ended : Epoch)
    (before after : Checkpoint) : Prop :=
  ((∃ cp, Allows bits older newer ended cp) →
    Allows bits older newer ended after ∧
      ∀ cp, Allows bits older newer ended cp → cp.epoch ≤ after.epoch) ∧
  ((¬ ∃ cp, Allows bits older newer ended cp) → after = before)

theorem allowsOlder_iff : AllowsOlder bits older ended ↔
    ((bitAt bits 1 && bitAt bits 2 && bitAt bits 3) = true ∧ older.epoch + 3 = ended) ∨
      ((bitAt bits 1 && bitAt bits 2) = true ∧ older.epoch + 2 = ended) := by
  simp only [AllowsOlder, Bool.and_eq_true, and_assoc]

theorem allowsNewer_iff : AllowsNewer bits newer ended ↔
    ((bitAt bits 0 && bitAt bits 1 && bitAt bits 2) = true ∧ newer.epoch + 2 = ended) ∨
      ((bitAt bits 0 && bitAt bits 1) = true ∧ newer.epoch + 1 = ended) := by
  simp only [AllowsNewer, Bool.and_eq_true, and_assoc]

/-- The first rule that applies decides, and the rules for the older checkpoint come first. -/
theorem finalizedBy_eq {found : Option Checkpoint}
    (h : finalizedBy bits older newer ended = .ok found) :
    found = if AllowsOlder bits older ended then some older
      else if AllowsNewer bits newer ended then some newer else none := by
  rcases rule_cases h with ⟨hmet, hfound⟩ | ⟨hthree, h⟩
  · rw [hfound, if_pos (allowsOlder_iff.2 (Or.inl hmet))]
  rcases rule_cases h with ⟨hmet, hfound⟩ | ⟨htwo, h⟩
  · rw [hfound, if_pos (allowsOlder_iff.2 (Or.inr hmet))]
  rw [if_neg fun holder => (allowsOlder_iff.1 holder).elim hthree htwo]
  rcases rule_cases h with ⟨hmet, hfound⟩ | ⟨hthree, h⟩
  · rw [hfound, if_pos (allowsNewer_iff.2 (Or.inl hmet))]
  rcases rule_cases h with ⟨hmet, hfound⟩ | ⟨htwo, h⟩
  · rw [hfound, if_pos (allowsNewer_iff.2 (Or.inr hmet))]
  rw [if_neg fun hnewer => (allowsNewer_iff.1 hnewer).elim hthree htwo]
  exact (Attempt.pure_eq_ok.1 h).symm

/-! ## The latest of two -/

/-- A checkpoint that is finalized first is the latest one unless both may be finalized and it is the
    older one. -/
theorem finalizesLatest_iff {before : Checkpoint} :
    FinalizesLatest bits older newer ended before
        (if AllowsOlder bits older ended then older
          else if AllowsNewer bits newer ended then newer else before) ↔
      ¬ (AllowsOlder bits older ended ∧ AllowsNewer bits newer ended ∧
        older.epoch < newer.epoch) := by
  by_cases holder : AllowsOlder bits older ended
  · rw [if_pos holder]
    constructor
    · rintro ⟨hlatest, -⟩ ⟨-, hnewer, hlt⟩
      have hle := (hlatest ⟨older, Or.inl ⟨rfl, holder⟩⟩).2 newer (Or.inr ⟨rfl, hnewer⟩)
      exact absurd hlt (Nat.not_lt.2 hle)
    · intro hone
      refine ⟨fun _ => ⟨Or.inl ⟨rfl, holder⟩, ?_⟩, fun hnone => ?_⟩
      · rintro cp (⟨rfl, -⟩ | ⟨rfl, hnewer⟩)
        · exact le_rfl
        · exact Nat.not_lt.1 fun hlt => hone ⟨holder, hnewer, hlt⟩
      · exact absurd ⟨older, Or.inl ⟨rfl, holder⟩⟩ hnone
  · rw [if_neg holder]
    refine iff_of_true ?_ fun hboth => holder hboth.1
    by_cases hnewer : AllowsNewer bits newer ended
    · rw [if_pos hnewer]
      refine ⟨fun _ => ⟨Or.inr ⟨rfl, hnewer⟩, ?_⟩, fun hnone => ?_⟩
      · rintro cp (⟨-, hcp⟩ | ⟨rfl, -⟩)
        · exact absurd hcp holder
        · exact le_rfl
      · exact absurd ⟨newer, Or.inr ⟨rfl, hnewer⟩⟩ hnone
    · rw [if_neg hnewer]
      refine ⟨?_, fun _ => rfl⟩
      rintro ⟨cp, ⟨-, hcp⟩ | ⟨-, hcp⟩⟩
      · exact absurd hcp holder
      · exact absurd hcp hnewer

/-! ## The theorem -/

/-- **The older checkpoint goes first.** From the third epoch on, a boundary finalizes the older of
    the two checkpoints that were justified before when one of its two rules applies to the bits that
    the boundary leaves, else the newer one when one of its two rules applies, and nothing else. It is
    the latest checkpoint that the rules allow unless they allow both and the newer one belongs to a
    later epoch. -/
theorem finalizes_older_first (hlate : 2 ≤ ended)
    (h : justifyAndFinalize c lookup ended s = .ok (summary, s')) :
    s'.finalized = (if AllowsOlder s'.justificationBits s.previousJustified ended then
        s.previousJustified
      else if AllowsNewer s'.justificationBits s.currentJustified ended then s.currentJustified
      else s.finalized) ∧
    (FinalizesLatest s'.justificationBits s.previousJustified s.currentJustified ended s.finalized
        s'.finalized ↔
      ¬ (AllowsOlder s'.justificationBits s.previousJustified ended ∧
        AllowsNewer s'.justificationBits s.currentJustified ended ∧
        s.previousJustified.epoch < s.currentJustified.epoch)) := by
  obtain ⟨t, -, hverdict⟩ := justifyAndFinalize_verdict hlate h
  have hfinalized : s'.finalized =
      if AllowsOlder s'.justificationBits s.previousJustified ended then s.previousJustified
      else if AllowsNewer s'.justificationBits s.currentJustified ended then s.currentJustified
      else s.finalized := by
    rw [hverdict.finalized, finalizedBy_eq hverdict.decided]
    split
    · rfl
    · split <;> rfl
  refine ⟨hfinalized, ?_⟩
  rw [hfinalized]
  exact finalizesLatest_iff

/-- A single validator at the start of epoch five. Epochs two and three have been justified when they
    ended; its votes for epochs three and four have been included. -/
def ChainState.steady : ChainState :=
  { ChainState.solo with
    slot := 5
    previousEpochAttestations :=
      [{ bits := [true], data := { slot := 3, target := { epoch := 3 } } }]
    currentEpochAttestations :=
      [{ bits := [true], data := { slot := 4, target := { epoch := 4 } } }]
    justificationBits := #v[true, true, false, false]
    previousJustified := { epoch := 2 }
    currentJustified := { epoch := 3 } }

/-- The boundary justifies both epochs, and finalizes epoch two. -/
theorem ChainState.exists_steady :
    ∃ summary s', justifyAndFinalize .tightest (committeesOf .tightest .steady) 4 .steady
        = .ok (summary, s') ∧
      s'.justificationBits = #v[true, true, true, false] ∧ s'.finalized = { epoch := 2 } := by
  have hrun : (justifyAndFinalize .tightest (committeesOf .tightest .steady) 4 .steady).toOption.map
      (fun r => (r.2.justificationBits, r.2.finalized))
        = some (#v[true, true, true, false], { epoch := 2 }) := by decide +kernel
  obtain ⟨⟨summary, s'⟩, hok, hfields⟩ := Option.map_eq_some_iff.1 hrun
  obtain ⟨hbits, hfinalized⟩ := Prod.mk.inj hfields
  refine ⟨summary, s', ?_, hbits, hfinalized⟩
  cases hresult : justifyAndFinalize .tightest (committeesOf .tightest .steady) 4 .steady with
  | ok result =>
      rw [hresult] at hok
      rw [Option.some.inj hok]
  | error =>
      rw [hresult] at hok
      cases hok

/-- Of the two checkpoints that it may finalize, the boundary takes the one of epoch two. -/
theorem finalizes_older_first_steady :
    ∃ summary s', 2 ≤ 4 ∧
      justifyAndFinalize .tightest (committeesOf .tightest .steady) 4 .steady
        = .ok (summary, s') ∧
      AllowsOlder s'.justificationBits { epoch := 2 } 4 ∧
      AllowsNewer s'.justificationBits { epoch := 3 } 4 ∧ s'.finalized = { epoch := 2 } := by
  obtain ⟨summary, s', hok, hbits, -⟩ := ChainState.exists_steady
  have holder : AllowsOlder s'.justificationBits { epoch := 2 } 4 := by
    rw [hbits]
    decide
  refine ⟨summary, s', by decide, hok, holder, ?_, ?_⟩
  · rw [hbits]
    decide
  · rw [(finalizes_older_first (by decide) hok).1]
    exact if_pos holder

/-- The checkpoint of epoch three, which the rules allow as well, is missed. -/
theorem latest_missed_steady :
    ∃ summary s', justifyAndFinalize .tightest (committeesOf .tightest .steady) 4 .steady
        = .ok (summary, s') ∧
      ¬ FinalizesLatest s'.justificationBits ChainState.steady.previousJustified
        ChainState.steady.currentJustified 4 ChainState.steady.finalized s'.finalized := by
  obtain ⟨summary, s', hok, hbits, hfinalized⟩ := ChainState.exists_steady
  refine ⟨summary, s', hok, fun hlatest => ?_⟩
  have hnewer : Allows s'.justificationBits ChainState.steady.previousJustified
      ChainState.steady.currentJustified 4 { epoch := 3 } := by
    rw [hbits]
    exact Or.inr ⟨rfl, by decide⟩
  have hle : 3 ≤ s'.finalized.epoch := (hlatest.1 ⟨_, hnewer⟩).2 _ hnewer
  rw [hfinalized] at hle
  exact absurd hle (by decide)

end Beacon
