set_option autoImplicit false

/-! # Integer square roots

Newton's iteration from above: each step replaces a guess by the mean of itself and the quotient,
rounded down, and stops when that no longer makes it smaller. -/

namespace Beacon

/-- Iterate from the guess `x`, whose successor is `y`, as long as guesses get smaller. -/
def sqrtFrom (n x y : Nat) : Nat :=
  if y < x then sqrtFrom n y ((y + n / y) / 2) else x
termination_by x

/-- The largest number whose square is at most `n`. -/
def integerSqrt (n : Nat) : Nat :=
  if n < 2 then n else sqrtFrom n n (n / 2 + n % 2)

end Beacon
