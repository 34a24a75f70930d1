set_option autoImplicit false

/-! # Outcomes and machine words

A computation of this library ends in one of three ways: with a value, with a *rejection* that says
why its input is refused, or with a *fault*: a quantity left the 64-bit range, a divisor was zero, a
position lay outside a list, or there was no room for one. A rejection is an answer; a fault is the
end of the computation, and no caller may treat it as one more kind of invalid input. `Failure` keeps
the two apart.

Quantities are natural numbers. Every quantity that is stored or sent is below `Word.limit`; the
operations of `Word` either keep it so or fault. -/

namespace Beacon

/-! ## Faults and rejections -/

/-- What makes a computation stop without an answer. -/
inductive Fault where
  /-- A sum, difference or product left the 64-bit range. -/
  | overflow
  /-- A quotient or remainder by zero. -/
  | divisionByZero
  /-- A position outside the list it was meant for. -/
  | outOfRange
  /-- A bound below the lower end of its range. -/
  | emptyRange
  /-- More room asked for than a machine can have. -/
  | noRoom
  /-- A collaborator stopped in the middle of its work. -/
  | collaborator
  deriving DecidableEq, Repr, Inhabited

/-- Why there is no value: a rejection with its cause, or a fault. -/
inductive Failure (ε : Type) where
  | rejected (cause : ε)
  | fault (fault : Fault)
  deriving DecidableEq, Repr

/-- A computation that may be rejected with a cause in `ε`, or fault. -/
abbrev Attempt (ε α : Type) : Type := Except (Failure ε) α

/-- A computation that can fault but never rejects. -/
abbrev Checked (α : Type) : Type := Attempt Empty α

namespace Attempt

variable {ε ε' α : Type}

/-- Refuse with a cause. -/
def reject (cause : ε) : Attempt ε α := .error (.rejected cause)

/-- Stop with a fault. -/
def fault (f : Fault) : Attempt ε α := .error (.fault f)

/-- Refuse with `cause` unless `p` holds. -/
def require (p : Prop) [Decidable p] (cause : ε) : Attempt ε Unit :=
  if p then .ok () else reject cause

/-- Read the cause of a rejection as a cause of a wider kind; faults stay faults. -/
def widen (f : ε → ε') : Attempt ε α → Attempt ε' α
  | .ok a => .ok a
  | .error (.rejected cause) => .error (.rejected (f cause))
  | .error (.fault x) => .error (.fault x)

/-- A checked computation inside one that may also reject. -/
def ofChecked : Checked α → Attempt ε α
  | .ok a => .ok a
  | .error (.fault x) => .error (.fault x)

instance : MonadLift (Attempt Empty) (Attempt ε) := ⟨ofChecked⟩

theorem liftM_eq_ofChecked (x : Checked α) : (liftM x : Attempt ε α) = ofChecked x := rfl

/-- Whether there is a value; a rejection counts as "no", a fault stays a fault. -/
def accepted : Attempt ε α → Attempt ε' Bool
  | .ok _ => .ok true
  | .error (.rejected _) => .ok false
  | .error (.fault x) => .error (.fault x)

@[simp] theorem require_of_pos {p : Prop} [Decidable p] (cause : ε) (h : p) :
    require p cause = .ok () := by
  simp [require, h]

@[simp] theorem require_eq_ok {p : Prop} [Decidable p] {cause : ε} {u : Unit} :
    require p cause = .ok u ↔ p := by
  unfold require
  split <;> simp_all [reject]

@[simp] theorem widen_eq_ok {f : ε → ε'} {x : Attempt ε α} {a : α} :
    widen f x = .ok a ↔ x = .ok a := by
  rcases x with (_ | _) | _ <;> simp [widen]

@[simp] theorem ofChecked_eq_ok {x : Checked α} {a : α} :
    (ofChecked x : Attempt ε α) = .ok a ↔ x = .ok a := by
  rcases x with (e | _) | _
  · exact e.elim
  all_goals simp [ofChecked]

end Attempt

/-- The elements of `xs` on which `p` says yes, in order; the first fault of `p` ends the search. -/
def filterAttempt {ε α : Type} (p : α → Attempt ε Bool) : List α → Attempt ε (List α)
  | [] => .ok []
  | x :: xs => do
    let keep ← p x
    let rest ← filterAttempt p xs
    return if keep then x :: rest else rest

/-! ## Words of 64 bits -/

namespace Word

/-- The first natural number that is not a word: two to the 64th. -/
def limit : Nat := 18446744073709551616

/-- The first natural number of more than 32 bits. -/
def shortLimit : Nat := 4294967296

/-- The largest word. -/
def max : Nat := limit - 1

/-- `a + b`, a fault when the sum is no word. -/
def add (a b : Nat) : Checked Nat :=
  if a + b < limit then .ok (a + b) else Attempt.fault .overflow

/-- `a - b`, a fault when `b` exceeds `a`. -/
def sub (a b : Nat) : Checked Nat :=
  if b ≤ a then .ok (a - b) else Attempt.fault .overflow

/-- `a * b`, a fault when the product is no word. -/
def mul (a b : Nat) : Checked Nat :=
  if a * b < limit then .ok (a * b) else Attempt.fault .overflow

/-- The quotient `a / b`, a fault when `b` is zero. -/
def div (a b : Nat) : Checked Nat :=
  if b = 0 then Attempt.fault .divisionByZero else .ok (a / b)

/-- The remainder `a % b`, a fault when `b` is zero. -/
def mod (a b : Nat) : Checked Nat :=
  if b = 0 then Attempt.fault .divisionByZero else .ok (a % b)

/-- A fault when `n` is no word. -/
def require (n : Nat) : Checked Unit :=
  if n < limit then .ok () else Attempt.fault .overflow

/-- `a + b`, stopping at the largest word. -/
def addSat (a b : Nat) : Nat := min (a + b) max

/-- `a * b`, stopping at the largest word. -/
def mulSat (a b : Nat) : Nat := min (a * b) max

/-- The low 64 bits of a number. -/
def wrap (a : Nat) : Nat := a % limit

theorem add_eq_ok {a b c : Nat} : add a b = .ok c ↔ c = a + b ∧ a + b < limit := by
  unfold add
  split <;> simp_all [Attempt.fault, eq_comm]

theorem sub_eq_ok {a b c : Nat} : sub a b = .ok c ↔ c = a - b ∧ b ≤ a := by
  unfold sub
  split <;> simp_all [Attempt.fault, eq_comm]

theorem mul_eq_ok {a b c : Nat} : mul a b = .ok c ↔ c = a * b ∧ a * b < limit := by
  unfold mul
  split <;> simp_all [Attempt.fault, eq_comm]

theorem add_of_lt {a b : Nat} (h : a + b < limit) : add a b = .ok (a + b) := if_pos h

theorem div_of_pos {a b : Nat} (hpos : 0 < b) : div a b = .ok (a / b) :=
  if_neg (Nat.ne_of_gt hpos)

theorem mod_of_pos {a b : Nat} (hpos : 0 < b) : mod a b = .ok (a % b) :=
  if_neg (Nat.ne_of_gt hpos)

theorem addSat_of_lt {a b : Nat} (h : a + b < limit) : addSat a b = a + b := by
  simp only [addSat, max, limit] at *
  omega

end Word

end Beacon
