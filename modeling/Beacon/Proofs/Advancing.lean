import Mathlib
import Beacon.Proofs.SoleVoter

set_option autoImplicit false

/-! # Advancing a chain

From a reachable state a chain can be advanced to any later slot, if no number leaves the 64-bit
range (`advance_total`). Slots are entered one after the other, so that a stretch of them can be cut
anywhere: the slots up to the cut give a state or fail, and the slots after the cut go on from that
state (`Engine.stepBy_add`). As an advance ends at its target, this holds of `Engine.advance` with
any slot in between, for states that are not well formed as well (`advance_composes`). -/

namespace Beacon

variable {e : Engine} {s s' : ChainState}

/-! ## The chain goes on -/

/-- **Epoch processing never fails.** From every reachable state the chain can be advanced to any
    later slot; the only other way it may end is a number that leaves the 64-bit range. -/
theorem advance_total {target : Slot} (h : e.Reachable s) (hle : s.slot ≤ target)
    (hlimit : target < Word.limit) :
    (∃ s', e.advance s target = .ok s' ∧ s'.slot = target) ∨
      e.advance s target = .error (.fault .overflow) := by
  refine (h.advance_within hle hlimit).ok_or_overflow.imp_left ?_
  rintro ⟨s', hs'⟩
  exact ⟨s', hs', advance_slot hs'⟩

/-- The single validator attests in blocks at slots one and three; from there its chain goes on over
    the boundaries that count both votes. -/
theorem advance_total_solo :
    ∃ b₁ s₁ b₂ s₂ s₃, Engine.solo.importBlock .solo b₁ = .ok s₁ ∧
      s₁.previousEpochAttestations ≠ [] ∧ Engine.solo.importBlock s₁ b₂ = .ok s₂ ∧
      s₂.previousEpochAttestations ≠ [] ∧ Engine.solo.advance s₂ 5 = .ok s₃ ∧ s₃.slot = 5 := by
  obtain ⟨t₁, b₁, h₁, s₁, -, -, hs₁, himport₁, hat₁, -⟩ := soleAt_solo.exists_importBlock (m := 1)
    Constants.brief_solo {} (by decide) (by decide) rfl
  obtain ⟨t₂, b₂, h₂, s₂, -, -, hs₂, himport₂, hat₂, -⟩ := hat₁.exists_importBlock (m := 3)
    Constants.brief_solo {} (by decide) (by decide) rfl
  obtain ⟨_, _, hadvance, -⟩ := hat₂.exists_advance (m := 5) Constants.brief_solo (by decide)
    (by decide)
  obtain ⟨s₃, hadvance', hslot⟩ := (advance_total hat₂.run.reachable
    (hat₂.slot.trans_le (by decide : 3 ≤ 5)) (by decide)).resolve_right fun hfault => by
      cases hadvance.symm.trans hfault
  refine ⟨b₁, s₁, b₂, s₂, s₃, himport₁, ?_, himport₂, ?_, hadvance', hslot⟩
  · simp [hs₁]
  · simp [hs₂]

/-! ## Parts -/

/-- The slots of a stretch, cut into two. -/
theorem Engine.stepBy_add (c : Constants) (m n : Nat) (s : ChainState) :
    Engine.stepBy c (m + n) s = Engine.stepBy c m s >>= Engine.stepBy c n := by
  induction m generalizing s with
  | zero =>
      rw [Nat.zero_add, Engine.stepBy, Attempt.ok_bind]
  | succ m ih =>
      rw [Nat.succ_add, Engine.stepBy, Engine.stepBy, bind_assoc]
      congr 1
      funext t
      exact ih t

/-- A target that is not in the past asks for the slots up to it. -/
theorem advance_eq_stepBy {target : Slot} (hle : s.slot ≤ target) :
    e.advance s target = Engine.stepBy e.constants (target - s.slot) s := by
  rw [Engine.advance, Attempt.require_of_pos _ hle, Attempt.ok_bind]

theorem advance_self (e : Engine) (s : ChainState) : e.advance s s.slot = .ok s := by
  rw [advance_eq_stepBy le_rfl, Nat.sub_self]
  rfl

/-- Any slot in between may be stopped at. -/
theorem advance_eq_bind {mid target : Slot} (hmid : s.slot ≤ mid) (htarget : mid ≤ target) :
    e.advance s target = e.advance s mid >>= fun t => e.advance t target := by
  have hsplit : target - s.slot = (mid - s.slot) + (target - mid) := by lia
  rw [advance_eq_stepBy (hmid.trans htarget), hsplit, Engine.stepBy_add, advance_eq_stepBy hmid]
  cases hfirst : Engine.stepBy e.constants (mid - s.slot) s with
  | error f => rfl
  | ok t =>
      have hslot : t.slot = mid := by
        rw [stepBy_slot hfirst]
        lia
      rw [Attempt.ok_bind, Attempt.ok_bind, advance_eq_stepBy (hslot.trans_le htarget), hslot]

/-- An advance that has come to a slot in between goes on to the same end. -/
theorem advance_of_advance {mid target : Slot} (htarget : mid ≤ target)
    (hfirst : e.advance s mid = .ok s') : e.advance s' target = e.advance s target := by
  rw [advance_eq_bind (advance_eq_ok.1 hfirst).1 htarget, hfirst, Attempt.ok_bind]

/-- **Advancing composes.** For any state, well formed or not, an advance to its own slot leaves it
    as it is. An advance to a slot on the way ends there, and going on from there ends as the whole
    advance does, with the same state, the same rejection or the same fault; and where the first
    part fails, the whole fails in the same way. -/
theorem advance_composes (e : Engine) (s : ChainState) {mid target : Slot} (hmid : s.slot ≤ mid)
    (htarget : mid ≤ target) :
    e.advance s s.slot = .ok s ∧
      (∀ s', e.advance s mid = .ok s' →
        s'.slot = mid ∧ e.advance s' target = e.advance s target) ∧
      ∀ failure, e.advance s mid = .error failure → e.advance s target = .error failure := by
  refine ⟨advance_self e s, ?_, ?_⟩
  · intro s' hfirst
    exact ⟨advance_slot hfirst, advance_of_advance htarget hfirst⟩
  · intro failure hfirst
    rw [advance_eq_bind hmid htarget, hfirst]
    rfl

/-- A single validator's chain on its way to slot three, cut at the first slot; and a state without
    rings, which fails at once wherever it is to go. -/
theorem advance_composes_solo :
    (∃ s', Engine.tightest.advance .solo 1 = .ok s' ∧ s'.slot = 1 ∧
      Engine.tightest.advance s' 3 = Engine.tightest.advance .solo 3) ∧
    Engine.tightest.advance {} 3
      = .error (.rejected (.slot (.ringLength 0 .blockRoots 0 2))) := by
  refine ⟨?_, ?_⟩
  · obtain ⟨s', h'⟩ : ∃ s', Engine.tightest.advance .solo 1 = .ok s' :=
      Attempt.exists_ok_of_isOk (by decide +kernel)
    have hcomposes := (advance_composes .tightest .solo (by decide : 0 ≤ 1) (by decide : 1 ≤ 3)).2.1
    exact ⟨s', h', hcomposes s' h'⟩
  · have hcomposes := (advance_composes .tightest {} (by decide : 0 ≤ 1) (by decide : 1 ≤ 3)).2.2
    exact hcomposes _ rfl

end Beacon
