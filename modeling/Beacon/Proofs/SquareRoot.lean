import Mathlib
import Beacon.Proofs.Attempts
import Beacon.SquareRoot

set_option autoImplicit false

/-! # Square roots, and how long a machine takes for one

Newton's iteration finds the root (`integerSqrt_eq_sqrt`): the mean of a guess and its quotient
never falls below it, and the guess at which the iteration stops is no larger than its quotient. A
machine runs the same iteration on words, where a sum can overflow, a divisor can be zero, and a loop
can go on for ever. `RootEnds` is that run with nothing taken for granted. On every word it ends, at
the root and without a fault: a round keeps the search `Sound`, and halves what its guess exceeds
the root by (`Sound.gap_halves`), so there are no more rounds than the number has bits. -/

namespace Beacon

variable {n x : Nat}

/-! ## Newton's iteration -/

/-- Newton's iteration stops at a guess that is no larger than its quotient. -/
theorem sqrtFrom_mul_self_le (n x : Nat) :
    sqrtFrom n x ((x + n / x) / 2) * sqrtFrom n x ((x + n / x) / 2) ≤ n := by
  induction x using Nat.strong_induction_on with
  | _ x ih =>
      rw [sqrtFrom]
      split
      · next hless => exact ih _ hless
      · next hstop =>
          have hle : x ≤ n / x := by lia
          calc x * x ≤ x * (n / x) := Nat.mul_le_mul_left _ hle
            _ ≤ n := Nat.mul_div_le n x

/-- The mean of a guess and its quotient is at least the root, rounded down. -/
theorem lt_mean_mul_self (hpos : 0 < x) :
    n < ((x + n / x) / 2 + 1) * ((x + n / x) / 2 + 1) := by
  have hquotient : n < x * (n / x + 1) := Nat.lt_mul_div_succ n hpos
  have hmean : x + (n / x + 1) ≤ 2 * ((x + n / x) / 2 + 1) := by lia
  have hfour : 4 * n < 4 * (((x + n / x) / 2 + 1) * ((x + n / x) / 2 + 1)) := by
    calc 4 * n < 4 * (x * (n / x + 1)) := Nat.mul_lt_mul_of_pos_left hquotient (by decide)
      _ = 4 * x * (n / x + 1) := (Nat.mul_assoc ..).symm
      _ ≤ (x + (n / x + 1)) ^ 2 := four_mul_le_sq_add ..
      _ ≤ (2 * ((x + n / x) / 2 + 1)) ^ 2 := Nat.pow_le_pow_left hmean 2
      _ = 4 * (((x + n / x) / 2 + 1) * ((x + n / x) / 2 + 1)) := by ring
  exact Nat.lt_of_mul_lt_mul_left hfour

/-- And it never falls below the root. -/
theorem lt_sqrtFrom_mul_self (h : n < (x + 1) * (x + 1)) :
    n < (sqrtFrom n x ((x + n / x) / 2) + 1) * (sqrtFrom n x ((x + n / x) / 2) + 1) := by
  induction x using Nat.strong_induction_on with
  | _ x ih =>
      rw [sqrtFrom]
      split
      · next hless => exact ih _ hless (lt_mean_mul_self (Nat.zero_lt_of_lt hless))
      · exact h

/-- The first mean is half of the number, rounded up: the first quotient is one. -/
theorem half_add_odd (hpos : 0 < n) : n / 2 + n % 2 = (n + n / n) / 2 := by
  rw [Nat.div_self hpos]
  lia

theorem integerSqrt_eq_sqrt (n : Nat) : integerSqrt n = Nat.sqrt n := by
  rw [integerSqrt]
  split
  · next hsmall => interval_cases n <;> simp
  · next hlarge =>
      rw [half_add_odd (by lia)]
      exact Nat.eq_sqrt.2 ⟨sqrtFrom_mul_self_le n n, lt_sqrtFrom_mul_self (by nlinarith)⟩

theorem integerSqrt_mono {m : Nat} (h : m ≤ n) : integerSqrt m ≤ integerSqrt n := by
  rw [integerSqrt_eq_sqrt, integerSqrt_eq_sqrt]
  exact Nat.sqrt_le_sqrt h

/-! ## The same iteration on words -/

/-- What the search for a root holds: a guess, and the guess that would follow it. -/
structure RootSearch where
  guess : Nat
  next : Nat

namespace RootSearch

/-- The first guess is the number itself. -/
def start (n : Nat) : Checked RootSearch := do
  let half ← Word.div n 2
  let odd ← Word.mod n 2
  let next ← Word.add half odd
  return { guess := n, next }

/-- One round: the next guess is taken, and the mean of it and its quotient comes after it. -/
def round (n : Nat) (s : RootSearch) : Checked RootSearch := do
  let quotient ← Word.div n s.next
  let sum ← Word.add s.next quotient
  let mean ← Word.div sum 2
  return { guess := s.next, next := mean }

/-- `s.Ends n rounds outcome`: after so many whole rounds the search stops, at a guess that the next
    one does not improve or with the fault of a round. A search that goes on for ever has no end. -/
inductive Ends (n : Nat) : RootSearch → Nat → Checked Nat → Prop
  | found {s : RootSearch} : s.guess ≤ s.next → Ends n s 0 (.ok s.guess)
  | failed {s : RootSearch} {f : Failure Empty} :
      s.next < s.guess → s.round n = .error f → Ends n s 0 (.error f)
  | round {s s' : RootSearch} {rounds : Nat} {outcome : Checked Nat} :
      s.next < s.guess → s.round n = .ok s' → Ends n s' rounds outcome →
        Ends n s (rounds + 1) outcome

end RootSearch

/-- `RootEnds n rounds outcome`: with every operation checked, the computation of the root of `n`
    ends with this outcome, after so many rounds. -/
def RootEnds (n rounds : Nat) (outcome : Checked Nat) : Prop :=
  if n < 2 then rounds = 0 ∧ outcome = .ok n
  else
    match RootSearch.start n with
    | .ok s => s.Ends n rounds outcome
    | .error f => rounds = 0 ∧ outcome = .error f

namespace RootSearch

variable {s : RootSearch}

/-- A search ends in one way at most. -/
theorem Ends.unique {rounds rounds' : Nat} {outcome outcome' : Checked Nat}
    (h : s.Ends n rounds outcome) (h' : s.Ends n rounds' outcome') :
    rounds' = rounds ∧ outcome' = outcome := by
  induction h generalizing rounds' with
  | found hstop =>
      cases h' with
      | found => exact ⟨rfl, rfl⟩
      | failed hless => exact absurd hless hstop.not_gt
      | round hless => exact absurd hless hstop.not_gt
  | failed hless hround =>
      cases h' with
      | found hstop => exact absurd hless hstop.not_gt
      | failed _ hround' =>
          rw [hround, Except.error.injEq] at hround'
          exact ⟨rfl, by rw [hround']⟩
      | round _ hround' => rw [hround] at hround'; cases hround'
  | round hless hround _ ih =>
      cases h' with
      | found hstop => exact absurd hless hstop.not_gt
      | failed _ hround' => rw [hround] at hround'; cases hround'
      | round _ hround' hends' =>
          rw [hround, Except.ok.injEq] at hround'
          obtain ⟨rfl, rfl⟩ := ih (hround' ▸ hends')
          exact ⟨rfl, rfl⟩

/-- The guess lies between the root and the number, and the next one is its mean. -/
structure Sound (n : Nat) (s : RootSearch) : Prop where
  next_eq : s.next = (s.guess + n / s.guess) / 2
  above : n < (s.guess + 1) * (s.guess + 1)
  guess_le : s.guess ≤ n

theorem start_eq_ok (hword : n < Word.limit) : start n = .ok ⟨n, n / 2 + n % 2⟩ := by
  have hnext : n / 2 + n % 2 < Word.limit := by lia
  simp only [start, Word.div_of_pos Nat.two_pos, Word.mod_of_pos Nat.two_pos,
    Word.add_of_lt hnext, Attempt.ok_bind]
  rfl

theorem sound_start (hpos : 0 < n) : Sound n ⟨n, n / 2 + n % 2⟩ where
  next_eq := half_add_odd hpos
  above := by nlinarith
  guess_le := le_rfl

/-- A guess above the root and its quotient add up to no more than the number, except at one, which
    is above the roots of two and three only. -/
theorem add_div_lt_limit (hword : n < Word.limit) (habove : n < (x + 1) * (x + 1)) (hless : x < n) :
    x + n / x < Word.limit := by
  rcases Nat.lt_or_ge x 2 with hsmall | hlarge
  · have hroot : n < 2 * 2 := habove.trans_le (Nat.mul_le_mul hsmall hsmall)
    have hquotient : n / x ≤ n := Nat.div_le_self ..
    simp only [Word.limit]
    lia
  · refine lt_of_le_of_lt ?_ hword
    rcases Nat.lt_or_ge (n / x) 2 with hone | htwo
    · lia
    · calc x + n / x ≤ x * (n / x) := add_le_mul hlarge htwo
        _ ≤ n := Nat.mul_div_le n x

namespace Sound

variable (h : s.Sound n) (hless : s.next < s.guess)

include h hless

theorem above_next : n < (s.next + 1) * (s.next + 1) := by
  rw [h.next_eq]
  exact lt_mean_mul_self (Nat.zero_lt_of_lt hless)

theorem next_lt : s.next < n := hless.trans_le h.guess_le

/-- A next guess of zero would be below the root. -/
theorem next_pos : 0 < s.next := by
  by_contra hzero
  have habove := h.above_next hless
  have hlt := h.next_lt hless
  rw [Nat.eq_zero_of_not_pos hzero] at habove hlt
  lia

theorem round_eq_ok (hword : n < Word.limit) :
    s.round n = .ok ⟨s.next, (s.next + n / s.next) / 2⟩ := by
  simp only [round, Word.div_of_pos (h.next_pos hless), Word.div_of_pos Nat.two_pos,
    Word.add_of_lt (add_div_lt_limit hword (h.above_next hless) (h.next_lt hless)),
    Attempt.ok_bind]
  rfl

theorem round : Sound n ⟨s.next, (s.next + n / s.next) / 2⟩ where
  next_eq := rfl
  above := h.above_next hless
  guess_le := (h.next_lt hless).le

theorem sqrt_lt_guess : Nat.sqrt n < s.guess :=
  (Nat.lt_succ_iff.1 (Nat.sqrt_lt.2 (h.above_next hless))).trans_lt hless

/-- A guess above the root has a quotient that is not, so their mean is at most half as far off. -/
theorem gap_halves : s.next - Nat.sqrt n ≤ (s.guess - Nat.sqrt n) / 2 := by
  have hroot := h.sqrt_lt_guess hless
  have hquotient : n / s.guess ≤ Nat.sqrt n := by
    refine Nat.lt_succ_iff.1 (Nat.div_lt_of_lt_mul ?_)
    calc n < (Nat.sqrt n + 1) * (Nat.sqrt n + 1) := Nat.lt_succ_sqrt n
      _ ≤ s.guess * (Nat.sqrt n + 1) := Nat.mul_le_mul_right _ hroot
  rw [h.next_eq]
  lia

omit hless

/-- From a sound state the search ends where the iteration does. The induction is on the bits of
    what the guess exceeds the root by: a round takes one of them away. -/
theorem exists_ends {bits : Nat} (hword : n < Word.limit)
    (hgap : s.guess - Nat.sqrt n < 2 ^ bits) :
    ∃ rounds ≤ bits, s.Ends n rounds (.ok (sqrtFrom n s.guess s.next)) := by
  induction bits generalizing s with
  | zero =>
      have hstop : ¬ s.next < s.guess := fun hless => by
        have := h.sqrt_lt_guess hless
        lia
      rw [sqrtFrom, if_neg hstop]
      exact ⟨0, le_rfl, .found (Nat.le_of_not_lt hstop)⟩
  | succ bits ih =>
      rw [sqrtFrom]
      split
      · next hless =>
          have hgap' : s.next - Nat.sqrt n < 2 ^ bits := by
            have := h.gap_halves hless
            rw [Nat.pow_succ] at hgap
            lia
          obtain ⟨rounds, hrounds, hends⟩ := ih (h.round hless) hgap'
          exact ⟨rounds + 1, by lia, .round hless (h.round_eq_ok hless hword) hends⟩
      · next hstop => exact ⟨0, Nat.zero_le _, .found (Nat.le_of_not_lt hstop)⟩

end Sound

end RootSearch

/-- The root of a word is found on words: the computation ends, in one way only, without an overflow
    or a division by zero and after no more rounds than the number has bits, with the largest number
    whose square is not above it. -/
theorem integerSqrt_exact (hword : n < Word.limit) :
    (∃ rounds ≤ Nat.size n, ∀ rounds' outcome,
        RootEnds n rounds' outcome ↔ rounds' = rounds ∧ outcome = .ok (integerSqrt n)) ∧
      integerSqrt n * integerSqrt n ≤ n ∧ n < (integerSqrt n + 1) * (integerSqrt n + 1) := by
  refine ⟨?_, ?_⟩
  · rcases Nat.lt_or_ge n 2 with hsmall | hlarge
    · refine ⟨0, Nat.zero_le _, fun rounds' outcome => ?_⟩
      rw [RootEnds, if_pos hsmall, integerSqrt, if_pos hsmall]
    · have hgap : n - Nat.sqrt n < 2 ^ Nat.size n :=
        (Nat.sub_le ..).trans_lt (Nat.lt_size_self n)
      obtain ⟨rounds, hrounds, hends⟩ :=
        (RootSearch.sound_start (Nat.zero_lt_of_lt hlarge)).exists_ends hword hgap
      refine ⟨rounds, hrounds, fun rounds' outcome => ?_⟩
      simp only [RootEnds, if_neg hlarge.not_gt, RootSearch.start_eq_ok hword, integerSqrt]
      exact ⟨hends.unique, by rintro ⟨rfl, rfl⟩; exact hends⟩
  · rw [integerSqrt_eq_sqrt]
    exact ⟨Nat.sqrt_le n, Nat.lt_succ_sqrt n⟩

/-- The largest word, whose root is the largest number of 32 bits. -/
theorem integerSqrt_exact_largest :
    Word.max < Word.limit ∧ integerSqrt Word.max = Word.shortLimit - 1 ∧
      ∃ rounds ≤ 64, ∀ rounds' outcome,
        RootEnds Word.max rounds' outcome ↔
          rounds' = rounds ∧ outcome = .ok (Word.shortLimit - 1) := by
  have hword : Word.max < Word.limit := by decide
  obtain ⟨⟨rounds, hrounds, hends⟩, hle, hlt⟩ := integerSqrt_exact hword
  have hroot : integerSqrt Word.max = Word.shortLimit - 1 := by
    simp only [Word.max, Word.limit] at hle hlt
    simp only [Word.max, Word.limit, Word.shortLimit]
    nlinarith
  have hbits : Nat.size Word.max ≤ 64 := Nat.size_le.2 (by decide)
  exact ⟨hword, hroot, rounds, hrounds.trans hbits, hroot ▸ hends⟩

end Beacon
