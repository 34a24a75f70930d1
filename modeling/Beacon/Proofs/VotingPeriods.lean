import Mathlib
import Beacon.Proofs.SoleVoter

set_option autoImplicit false

/-! # One record in each voting period

A record is adopted when more than half of all the votes that a period can have are for it. A state
has no more votes than that (`Run.length_externalDataVotes_le`), so that no other record can follow
in the same period (`Run.externalData_stays`). -/

namespace Beacon

variable {c : Constants} {e : Engine} {h : Chronicle} {s s' : ChainState} {b : CandidateBlock}
  {n : Nat}

/-! ## Majorities -/

/-- More than half of the votes that a period can have are for the record. -/
def Carried (c : Constants) (s : ChainState) (record : ExternalData) : Prop :=
  c.votingSlots < 2 * s.externalDataVotes.count record

/-- A block that changes the record adopts what it votes for, which is carried then. -/
theorem BlockFrame.carried (hframe : BlockFrame c s s' b)
    (hchange : s'.externalData ≠ s.externalData) :
    s'.externalData = b.body.externalData ∧ Carried c s' b.body.externalData := by
  rw [hframe.externalData, recordAfterVote] at hchange ⊢
  by_cases hmajority :
      c.epochsPerVotingPeriod * c.slotsPerEpoch
        < (s.externalDataVotes.count b.body.externalData + 1) * 2
  · refine ⟨if_pos hmajority, ?_⟩
    rw [Carried, hframe.externalDataVotes, List.count_append, List.count_singleton_self,
      Nat.mul_comm]
    exact hmajority
  · exact absurd (if_neg hmajority) hchange

/-- What is for one record is not for another. -/
theorem count_add_count_le {α : Type} [DecidableEq α] {x y : α} (hne : x ≠ y) (xs : List α) :
    xs.count x + xs.count y ≤ xs.length := by
  rw [List.length_eq_countP_add_countP (· == x)]
  refine Nat.add_le_add_left (List.countP_mono_left fun z _ hz => ?_) _
  obtain rfl := eq_of_beq hz
  simpa using hne.symm

/-- With no more votes than the slots of a period, only one record can be carried. -/
theorem Carried.unique {record record' : ExternalData} (hcarried : Carried c s record)
    (hcarried' : Carried c s record') (hlength : s.externalDataVotes.length ≤ c.votingSlots) :
    record = record' := by
  by_contra hne
  have hcounts := count_add_count_le hne s.externalDataVotes
  simp only [Carried] at hcarried hcarried'
  lia

/-! ## Runs -/

/-- The record has been adopted in the period of `first`, as far as this period goes on. -/
def Adopted (c : Constants) (first s : ChainState) : Prop :=
  s.slot / c.votingSlots = first.slot / c.votingSlots →
    s.externalData = first.externalData ∧ Carried c s first.externalData

/-- A slot keeps the record, and the votes as long as the period goes on. -/
theorem Adopted.step {first : ChainState} (hadopted : Adopted c first s) (hc : c.Consistent)
    (hle : first.slot ≤ s.slot) (hstep : Engine.step c s = .ok s') : Adopted c first s' := by
  have hframe := step_frame hstep
  intro hperiod
  have hsame : s.slot / c.votingSlots = first.slot / c.votingSlots := by
    refine Nat.le_antisymm ?_ (Nat.div_le_div_right hle)
    rw [← hperiod, hframe.slot]
    exact Nat.div_le_div_right (Nat.le_succ _)
  have hgoes : ¬ (s.slot + 1) % c.votingSlots = 0 := by
    intro hstart
    rw [hframe.slot, Nat.succ_div_of_dvd (Nat.dvd_of_mod_eq_zero hstart)] at hperiod
    lia
  obtain ⟨hrecord, hcarried⟩ := hadopted hsame
  refine ⟨hframe.externalData.trans hrecord, ?_⟩
  rw [Carried, step_externalDataVotes hc hstep, if_neg hgoes]
  exact hcarried

/-- A block could only change the record for another one that is carried. -/
theorem Adopted.block {first : ChainState} (hadopted : Adopted c first s)
    (hframe : BlockFrame c s s' b) (hlength : s'.externalDataVotes.length ≤ c.votingSlots) :
    Adopted c first s' := by
  intro hperiod
  rw [hframe.slot] at hperiod
  obtain ⟨hrecord, hcarried⟩ := hadopted hperiod
  have hstill : Carried c s' first.externalData := by
    refine Nat.lt_of_lt_of_le hcarried (Nat.mul_le_mul_left 2 ?_)
    rw [hframe.externalDataVotes, List.count_append]
    exact Nat.le_add_right ..
  refine ⟨?_, hstill⟩
  by_contra hother
  obtain ⟨hvote, hvoted⟩ := hframe.carried (hrecord ▸ hother)
  exact hother (hvote.trans (hvoted.unique hstill hlength))

/-- A carried record stays in force until the period is over. -/
theorem Engine.Run.externalData_stays (hrun : e.Run h s)
    (hcarried : Carried e.constants s s.externalData) (hreach : e.Reaches s s')
    (hperiod : s'.slot / e.constants.votingSlots = s.slot / e.constants.votingSlots) :
    s'.externalData = s.externalData := by
  suffices hadopted : Adopted e.constants s s' from (hadopted hperiod).1
  refine hrun.invariant (P := Adopted e.constants s) hreach ?_ ?_ fun _ => ⟨rfl, hcarried⟩
  · intro h t t' _ hle hadopted hstep
    exact hadopted.step e.consistent hle hstep
  · intro h t t' b hrun _ hadopted hblock
    exact hadopted.block (applyBlock_frame hblock) (hrun.block hblock).length_externalDataVotes_le

/-! ## The theorem -/

/-- **At most one record wins in each voting period.** In a run with periods of `n` slots, the votes
    of a state are those of the blocks of the running period, at most `n`. Empty slots do not change
    the record; a block that does adopts the record of its own vote, which has more than half of `n`
    votes then, and no call changes it again up to the end of the period. -/
theorem one_record_per_period (hrun : e.Run h s)
    (hperiod : e.constants.slotsPerVotingPeriod = .ok n) :
    s.externalDataVotes = votesIn n (s.slot / n) h.blocks ∧ s.externalDataVotes.length ≤ n ∧
      (∀ target s', e.advance s target = .ok s' → s'.externalData = s.externalData) ∧
      ∀ b s', e.importBlock s b = .ok s' → s'.externalData ≠ s.externalData →
        s'.externalData = b.body.externalData ∧
        n < 2 * s'.externalDataVotes.count b.body.externalData ∧
        ∀ s'', e.Reaches s' s'' → s''.slot / n = s'.slot / n →
          s''.externalData = s'.externalData := by
  obtain ⟨rfl, -⟩ := Constants.slotsPerVotingPeriod_eq_ok.1 hperiod
  refine ⟨hrun.externalDataVotes, hrun.length_externalDataVotes_le,
    fun target s' => advance_externalData, ?_⟩
  intro b s' himport hchange
  obtain ⟨t, hadvance, hblock⟩ := importBlock_eq_ok.1 himport
  have hframe := applyBlock_frame hblock
  obtain ⟨hvote, hcarried⟩ := hframe.carried (advance_externalData hadvance ▸ hchange)
  obtain ⟨h', hrun', -⟩ := hrun.extend (.single (.importBlock b himport))
  refine ⟨hvote, hcarried, fun s'' hreach hsame => ?_⟩
  exact hrun'.externalData_stays (hvote ▸ hcarried) hreach hsame

/-- A record for the single validator to vote for. -/
def soloRecord : ExternalData := { depositRoot := Bytes.fill 32 1 }

/-- In periods of three slots a single validator needs two votes. Its first block leaves the record
    as it is; the second one adopts what both vote for, which stays to the end of the period. With
    slot three the next period begins, without votes. -/
theorem one_record_per_period_solo :
    ∃ b₁ s₁ b₂ s₂ s₃, Engine.solo.importBlock .solo b₁ = .ok s₁ ∧
      s₁.externalDataVotes = [soloRecord] ∧ s₁.externalData = {} ∧
      Engine.solo.importBlock s₁ b₂ = .ok s₂ ∧ s₂.externalDataVotes = [soloRecord, soloRecord] ∧
      s₂.externalData = soloRecord ∧
      (∀ s', Engine.solo.Reaches s₂ s' → s'.slot / 3 = s₂.slot / 3 →
        s'.externalData = soloRecord) ∧
      Engine.solo.advance s₂ 3 = .ok s₃ ∧ s₃.externalDataVotes = [] ∧
      s₃.externalData = soloRecord := by
  obtain ⟨t₁, b₁, h₁, s₁, hadvance₁, hb₁, -, himport₁, hat₁, -, hblocks₁⟩ :=
    soleAt_solo.exists_importBlock (m := 1) Constants.brief_solo soloRecord
      (by decide) (by decide) rfl
  obtain ⟨t₂, b₂, h₂, s₂, hadvance₂, hb₂, hs₂, himport₂, hat₂, -, hblocks₂⟩ :=
    hat₁.exists_importBlock (m := 2) Constants.brief_solo soloRecord
      (by decide) (by decide) rfl
  obtain ⟨h₃, s₃, hadvance₃, hat₃, -, hblocks₃⟩ :=
    hat₂.exists_advance (m := 3) Constants.brief_solo (by decide) (by decide)
  have hslot₁ : b₁.slot = 1 := hb₁.slot.trans (advance_slot hadvance₁)
  have hslot₂ : b₂.slot = 2 := hb₂.slot.trans (advance_slot hadvance₂)
  obtain ⟨-, -, -, hfirst⟩ := one_record_per_period (n := 3) run_solo rfl
  obtain ⟨hvotes₁, -, -, hsecond⟩ := one_record_per_period (n := 3) hat₁.run rfl
  obtain ⟨hvotes₂, -, hempty, -⟩ := one_record_per_period (n := 3) hat₂.run rfl
  obtain ⟨hvotes₃, -⟩ := one_record_per_period (n := 3) hat₃.run rfl
  rw [hat₁.slot, hblocks₁] at hvotes₁
  rw [hat₂.slot, hblocks₂, hblocks₁] at hvotes₂
  rw [hat₃.slot, hblocks₃, hblocks₂, hblocks₁] at hvotes₃
  replace hvotes₁ : s₁.externalDataVotes = [soloRecord] := by
    simpa [votesIn, hslot₁, hb₁.externalData] using hvotes₁
  replace hvotes₂ : s₂.externalDataVotes = [soloRecord, soloRecord] := by
    simpa [votesIn, hslot₁, hslot₂, hb₁.externalData, hb₂.externalData] using hvotes₂
  replace hvotes₃ : s₃.externalDataVotes = [] := by
    simpa [votesIn, hslot₁, hslot₂] using hvotes₃
  have hrecord₁ : s₁.externalData = {} := by
    by_contra hchange
    obtain ⟨-, hmajority, -⟩ := hfirst b₁ s₁ himport₁ hchange
    rw [hb₁.externalData, hvotes₁, List.count_singleton_self] at hmajority
    exact absurd hmajority (by decide)
  have hrecord₂ : s₂.externalData = soloRecord := by
    have hframe := applyBlock_frame hb₂.applies
    have hbefore : t₂.externalDataVotes = [soloRecord] := by
      rw [hs₂, hframe.externalDataVotes, hb₂.externalData] at hvotes₂
      exact List.append_cancel_right (hvotes₂ : _ = [soloRecord] ++ [soloRecord])
    rw [hs₂, hframe.externalData, recordAfterVote, hb₂.externalData, hbefore,
      List.count_singleton_self]
    rfl
  have hchange : s₂.externalData ≠ s₁.externalData := by
    rw [hrecord₂, hrecord₁]
    decide
  obtain ⟨-, -, hstays⟩ := hsecond b₂ s₂ himport₂ hchange
  exact ⟨b₁, s₁, b₂, s₂, s₃, himport₁, hvotes₁, hrecord₁, himport₂, hvotes₂, hrecord₂,
    fun s' hreach hperiod => (hstays s' hreach hperiod).trans hrecord₂, hadvance₃, hvotes₃,
    (hempty 3 s₃ hadvance₃).trans hrecord₂⟩

end Beacon
