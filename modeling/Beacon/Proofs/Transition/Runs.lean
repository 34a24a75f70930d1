import Mathlib
import Beacon.Proofs.Transition.Blocks
import Beacon.Proofs.Transition.Epochs

set_option autoImplicit false

/-! # Runs of a chain

A chain is moved by two calls, `advance` and `importBlock`; `e.Reaches s s'` says that some sequence
of successful calls leads from `s` to `s'`, `e.Reachable s` that one leads there from a first state.
Every call is a sequence of two kinds of move, a single slot and a single block
(`Reaches.moves`), so that a property that both kinds of move keep holds along every run
(`Reaches.invariant`). -/

namespace Beacon

variable {e : Engine} {s s' s'' : ChainState}

/-! ## Calls and moves -/

/-- A call that moves a chain and succeeds. -/
inductive Engine.Call (e : Engine) (s s' : ChainState) : Prop where
  | advance (target : Slot) (h : e.advance s target = .ok s')
  | importBlock (b : CandidateBlock) (h : e.importBlock s b = .ok s')

/-- Some sequence of successful calls leads from `s` to `s'`. -/
def Engine.Reaches (e : Engine) (s s' : ChainState) : Prop := Relation.ReflTransGen e.Call s s'

/-- Some sequence of successful calls leads from a first state to `s`. -/
def Engine.Reachable (e : Engine) (s : ChainState) : Prop :=
  ∃ time validators data fork,
    e.Reaches (ChainState.genesis e.constants time validators data fork) s

/-- The smallest moves of a chain: one slot, or one block. -/
inductive Engine.Move (e : Engine) (s s' : ChainState) : Prop where
  | step (h : Engine.step e.constants s = .ok s')
  | block (b : CandidateBlock) (h : e.applyBlock s b = .ok s')

theorem Engine.Reaches.refl (s : ChainState) : e.Reaches s s := Relation.ReflTransGen.refl

theorem Engine.Reaches.of_advance {target : Slot} (h : e.advance s target = .ok s') :
    e.Reaches s s' :=
  Relation.ReflTransGen.single (.advance target h)

theorem Engine.Reaches.of_importBlock {b : CandidateBlock} (h : e.importBlock s b = .ok s') :
    e.Reaches s s' :=
  Relation.ReflTransGen.single (.importBlock b h)

/-- What a reachable state reaches is reachable. -/
theorem Engine.Reachable.reaches (h : e.Reachable s) (hreach : e.Reaches s s') :
    e.Reachable s' := by
  obtain ⟨time, validators, data, fork, hfirst⟩ := h
  exact ⟨time, validators, data, fork, hfirst.trans hreach⟩

/-! ## Calls as moves -/

theorem stepBy_succ_eq_ok {c : Constants} {n : Nat} :
    Engine.stepBy c (n + 1) s = .ok s' ↔
      ∃ t, Engine.step c s = .ok t ∧ Engine.stepBy c n t = .ok s' := by
  rw [Engine.stepBy, Attempt.bind_eq_ok]

theorem advance_eq_ok {target : Slot} :
    e.advance s target = .ok s' ↔
      s.slot ≤ target ∧ Engine.stepBy e.constants (target - s.slot) s = .ok s' := by
  simp only [Engine.advance, Attempt.bind_eq_ok, Attempt.require_eq_ok]
  constructor
  · rintro ⟨_, hle, h⟩
    exact ⟨hle, h⟩
  · rintro ⟨hle, h⟩
    exact ⟨(), hle, h⟩

theorem importBlock_eq_ok {b : CandidateBlock} :
    e.importBlock s b = .ok s' ↔
      ∃ t, e.advance s b.slot = .ok t ∧ e.applyBlock t b = .ok s' := by
  rw [Engine.importBlock, Attempt.bind_eq_ok]

theorem stepBy_moves {n : Nat} (h : Engine.stepBy e.constants n s = .ok s') :
    Relation.ReflTransGen e.Move s s' := by
  induction n generalizing s with
  | zero =>
      obtain rfl : s = s' := by simpa [Engine.stepBy] using h
      exact .refl
  | succ n ih =>
      obtain ⟨t, ht, htail⟩ := stepBy_succ_eq_ok.1 h
      exact .head (.step ht) (ih htail)

theorem stepBy_slot {c : Constants} {n : Nat} (h : Engine.stepBy c n s = .ok s') :
    s'.slot = s.slot + n := by
  induction n generalizing s with
  | zero =>
      obtain rfl : s = s' := by simpa [Engine.stepBy] using h
      rfl
  | succ n ih =>
      obtain ⟨t, ht, htail⟩ := stepBy_succ_eq_ok.1 h
      rw [ih htail, (step_frame ht).slot]
      lia

/-- What every slot keeps, slots one after the other keep. -/
theorem stepBy_invariant {c : Constants} {P : ChainState → Prop} {n : Nat}
    (step : ∀ s s', P s → Engine.step c s = .ok s' → P s') (hs : P s)
    (h : Engine.stepBy c n s = .ok s') : P s' := by
  induction n generalizing s with
  | zero =>
      obtain rfl : s = s' := by simpa [Engine.stepBy] using h
      exact hs
  | succ n ih =>
      obtain ⟨t, ht, htail⟩ := stepBy_succ_eq_ok.1 h
      exact ih (step s t hs ht) htail

/-- An advance ends at its target. -/
theorem advance_slot {target : Slot} (h : e.advance s target = .ok s') : s'.slot = target := by
  obtain ⟨hle, hsteps⟩ := advance_eq_ok.1 h
  rw [stepBy_slot hsteps]
  lia

/-- Empty slots have no block, whose slot the latest header would take over. -/
theorem advance_latestBlockHeader_slot {target : Slot} (hadvance : e.advance s target = .ok s') :
    s'.latestBlockHeader.slot = s.latestBlockHeader.slot := by
  refine stepBy_invariant (P := fun t => t.latestBlockHeader.slot = s.latestBlockHeader.slot)
    (fun t t' ht hstep => ?_) rfl (advance_eq_ok.1 hadvance).2
  rw [(step_frame hstep).latestBlockHeader, ChainState.filledHeader_slot]
  exact ht

theorem Engine.Call.moves (h : e.Call s s') : Relation.ReflTransGen e.Move s s' := by
  cases h with
  | advance target h => exact stepBy_moves (advance_eq_ok.1 h).2
  | importBlock b h =>
      obtain ⟨t, ht, hb⟩ := importBlock_eq_ok.1 h
      exact (stepBy_moves (advance_eq_ok.1 ht).2).tail (.block b hb)

theorem Engine.Reaches.moves (h : e.Reaches s s') : Relation.ReflTransGen e.Move s s' := by
  induction h with
  | refl => exact .refl
  | tail _ hcall ih => exact ih.trans hcall.moves

/-! ## Invariants -/

/-- What every move keeps, every run keeps. -/
theorem Engine.Reaches.invariant {P : ChainState → Prop} (h : e.Reaches s s')
    (move : ∀ s s', P s → e.Move s s' → P s') (hs : P s) : P s' := by
  have hmoves := h.moves
  clear h
  induction hmoves with
  | refl => exact hs
  | tail _ hmove ih => exact move _ _ ih hmove

theorem Engine.Move.slot_le (h : e.Move s s') : s.slot ≤ s'.slot := by
  cases h with
  | step h =>
      rw [(step_frame h).slot]
      exact Nat.le_succ _
  | block b h => exact (applyBlock_frame h).slot.ge

theorem Engine.Reaches.slot_le (h : e.Reaches s s') : s.slot ≤ s'.slot :=
  h.invariant (P := fun t => s.slot ≤ t.slot) (fun _ _ ht hmove => ht.trans hmove.slot_le) le_rfl

theorem ringsFit_genesis (c : Constants) (time : Nat) (validators : List Validator)
    (data : ExternalData) (fork : Fork) :
    RingsFit c (ChainState.genesis c time validators data fork) := by
  constructor <;> simp [ChainState.genesis]

/-! ## A small chain -/

/-- Epochs of one slot, and the shortest rings that `validate` accepts for them. -/
def Constants.tightest : Constants where
  slotsPerEpoch := 1
  slotsPerHistoricalRoot := 2
  randaoMixesLength := 5

/-- The engine of these constants. -/
def Engine.tightest : Engine := ⟨Constants.tightest, by decide⟩

/-- The first state with a single validator. -/
def ChainState.solo : ChainState :=
  ChainState.genesis Constants.tightest 0 [Validator.genesis (Bytes.zero 48) 32000000000] {} {}

theorem reachable_solo : Engine.tightest.Reachable ChainState.solo :=
  ⟨0, [Validator.genesis (Bytes.zero 48) 32000000000], {}, {}, .refl _⟩

end Beacon
