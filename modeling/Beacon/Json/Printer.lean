import Beacon.Json.Basic
import Beacon.Bytes

set_option autoImplicit false

/-! # Writing JSON

The compact text of a value: no blanks, members in their order, and in a string an escape for the
quote, the backslash and the characters below the blank, everything else as it is. -/

namespace Beacon

namespace Json

/-- A character inside a string. -/
def escape (c : Char) : List Char :=
  if c = '"' then ['\\', '"']
  else if c = '\\' then ['\\', '\\']
  else if c = '\n' then ['\\', 'n']
  else if c = '\r' then ['\\', 'r']
  else if c = '\t' then ['\\', 't']
  else if c.toNat = 8 then ['\\', 'b']
  else if c.toNat = 12 then ['\\', 'f']
  else if c.toNat < 32 then
    ['\\', 'u', '0', '0', Hex.digit (c.toNat / 16), Hex.digit (c.toNat % 16)]
  else [c]

/-- A string between quotes. -/
def quote (s : String) : List Char := '"' :: (s.toList.flatMap escape ++ ['"'])

/-- The digits of a number, most significant first. -/
def digits (n : Nat) : List Char := Nat.toDigits 10 n

/-- The characters of digit values. -/
def digitChars (ds : List Nat) : List Char := ds.map fun d => Char.ofNat ('0'.toNat + d)

/-- A number as it was written. -/
def renderDecimal (d : Decimal) : List Char :=
  (if d.negative then ['-'] else []) ++ digitChars d.whole
    ++ (if d.fraction.isEmpty then [] else '.' :: digitChars d.fraction)
    ++ match d.exponent with
      | none => []
      | some (down, ds) => 'e' :: ((if down then ['-'] else []) ++ digitChars ds)

mutual

/-- The compact text of a value. -/
def chars : Json → List Char
  | .null => "null".toList
  | .bool b => if b then "true".toList else "false".toList
  | .natural n => digits n
  | .decimal d => renderDecimal d
  | .string s => quote s
  | .rawString _ _ => "null".toList
  | .array items => '[' :: itemChars items ++ [']']
  | .object members => '\x7b' :: memberChars members ++ ['\x7d']
  | .unreadable _ => "null".toList

/-- Values with a comma between them. -/
def itemChars : List Json → List Char
  | [] => []
  | [j] => chars j
  | j :: js => chars j ++ ',' :: itemChars js

/-- Named values with a comma between them. -/
def memberChars : List (String × Json) → List Char
  | [] => []
  | [(name, j)] => quote name ++ ':' :: chars j
  | (name, j) :: ms => quote name ++ ':' :: chars j ++ ',' :: memberChars ms

end

/-- The compact text of a value. -/
def render (j : Json) : String := String.ofList j.chars

end Json

end Beacon
