import Beacon.Outcome

set_option autoImplicit false

/-! # JSON values

A value as it is written: members of an object stay in their order, repeated names included, and a
number keeps its digits until somebody asks for an amount. A string is kept by its bytes when it is
no text: its escapes spell half of a surrogate pair, or a control character stands in it bare. The
first kind is well formed and may be skipped; the second is let pass only where bytes are read. -/

namespace Beacon

/-- A number that has a sign, a fraction or an exponent, digit by digit. -/
structure Decimal where
  negative : Bool := false
  whole : List Nat
  fraction : List Nat := []
  /-- Whether the exponent is negative, and its digits. -/
  exponent : Option (Bool × List Nat) := none
  deriving DecidableEq, Repr, Inhabited

/-- A value as it is written. -/
inductive Json where
  | null
  | bool (b : Bool)
  /-- Digits alone. -/
  | natural (n : Nat)
  /-- A number of any other form. -/
  | decimal (d : Decimal)
  | string (s : String)
  /-- A string that is no text, by its bytes, and whether a control character stands in it bare. -/
  | rawString (bare : Bool) (bytes : List UInt8)
  | array (items : List Json)
  | object (members : List (String × Json))
  /-- An object with a name that is no text, and whether its values may be skipped. -/
  | unreadable (skippable : Bool)
  deriving Inhabited

namespace Json

mutual

/-- Whether a reader may pass over a value without looking at it. -/
def isSkippable : Json → Bool
  | .rawString bare _ => !bare
  | .unreadable skippable => skippable
  | .array items => allSkippable items
  | .object members => valuesSkippable members
  | _ => true

/-- Whether all of the values may be passed over. -/
def allSkippable : List Json → Bool
  | [] => true
  | j :: js => j.isSkippable && allSkippable js

/-- Whether the values of all members may be passed over. -/
def valuesSkippable : List (String × Json) → Bool
  | [] => true
  | (_, j) :: ms => j.isSkippable && valuesSkippable ms

end

/-- The last member of an object under a name. -/
def member? (name : String) : Json → Option Json
  | .object ms => (ms.findRev? (·.1 == name)).map (·.2)
  | _ => none

/-- The last member under a name unless it is null. -/
def present? (name : String) (j : Json) : Option Json :=
  match j.member? name with
  | some .null => none
  | other => other

/-- Put a member in the place of the first of its name, or at the end. -/
def setMember (name : String) (value : Json) : List (String × Json) → List (String × Json)
  | [] => [(name, value)]
  | m :: ms => if m.1 == name then (name, value) :: ms else m :: setMember name value ms

end Json

/-! ## The amount of a number

A decimal is read into a double by one multiplication or division: as many leading digits as fit in
a word make the significand, the digits left out only raise the exponent. -/

namespace Decimal

/-- The largest exponent that stays in 32 bits. -/
def exponentLimit : Nat := 2147483647

/-- The leading digits that fit in a word, and how many are left over. -/
def leading : Nat → List Nat → Nat × Nat
  | sig, [] => (sig, 0)
  | sig, d :: ds => if sig * 10 + d < Word.limit then leading (sig * 10 + d) ds else (sig, ds.length + 1)

/-- The digits of the fraction that still fit, and how many of them were taken. -/
def extend : Nat → List Nat → Nat × Nat
  | sig, [] => (sig, 0)
  | sig, d :: ds =>
    if sig * 10 + d < Word.limit then
      let (s, taken) := extend (sig * 10 + d) ds
      (s, taken + 1)
    else (sig, 0)

/-- Scale a double by a power of ten; none when the result is infinite. -/
def scale (f : Float) (exponent : Int) : Option Float :=
  if exponent ≥ 0 then
    if exponent ≤ 308 then
      let g := f * Float.ofScientific 1 false exponent.toNat
      if g.isInf then none else some g
    else if f == 0.0 then some f else none
  else
    let down := (-exponent).toNat
    let steps := (down - 1) / 308
    if down ≤ 308 then some (f / Float.ofScientific 1 false down)
    else
      -- after three steps of 308 nothing is left of any word
      let g := (List.replicate (min steps 4) ()).foldl (fun g _ => g / Float.ofScientific 1 false 308) f
      some (if steps ≤ 4 then g / Float.ofScientific 1 false (down - 308 * steps) else g)

/-- The double that a number spells; none when it is too large for one. -/
def toFloat? (d : Decimal) : Option Float :=
  let (head, left) := leading 0 d.whole
  let (sig, taken) := extend head d.fraction
  let base : Int := (left : Int) - (taken : Int)
  let sign (f : Float) : Float := if d.negative then -f else f
  match d.exponent with
  | none => (scale sig.toUInt64.toFloat base).map sign
  | some (down, digits) =>
    let e := digits.foldl (fun n k => n * 10 + k) 0
    if e > exponentLimit then
      if sig ≠ 0 && !down then none else some (sign 0.0)
    else (scale sig.toUInt64.toFloat (if down then base - e else base + e)).map sign

end Decimal

/-- The double that a number spells. -/
def Json.toFloat? : Json → Option Float
  | .natural n => Decimal.toFloat? { whole := (Nat.toDigits 10 n).map fun c => c.toNat - '0'.toNat }
  | .decimal d => d.toFloat?
  | _ => none

end Beacon
