import Beacon.Json.Basic

set_option autoImplicit false

/-! # Reading JSON

One value with blanks around it and nothing after it. Each reader takes the characters that are
left and gives its result with the characters it did not need, or nothing. A nesting depth bounds
the recursion: no value is nested deeper than it has characters. -/

namespace Beacon

namespace Json

/-! ## Blanks, digits and escapes -/

/-- Blanks between tokens. -/
def isBlank (c : Char) : Bool := c = ' ' || c = '\n' || c = '\t' || c = '\r'

/-- The text after leading blanks. -/
def skipBlanks (cs : List Char) : List Char := cs.dropWhile isBlank

/-- A decimal digit. -/
def isDigit (c : Char) : Bool := '0' ≤ c && c ≤ '9'

/-- The value of a decimal digit. -/
def digitValue (c : Char) : Nat := c.toNat - '0'.toNat

/-- The value of a hexadecimal digit of either case. -/
def hexValue? (c : Char) : Option Nat :=
  if '0' ≤ c ∧ c ≤ '9' then some (c.toNat - '0'.toNat)
  else if 'a' ≤ c ∧ c ≤ 'f' then some (c.toNat - 'a'.toNat + 10)
  else if 'A' ≤ c ∧ c ≤ 'F' then some (c.toNat - 'A'.toNat + 10)
  else none

/-- The number that four hexadecimal digits spell. -/
def hex4? (a b c d : Char) : Option Nat := do
  return (((← hexValue? a) * 16 + (← hexValue? b)) * 16 + (← hexValue? c)) * 16 + (← hexValue? d)

/-- The character that a single-letter escape stands for. -/
def escaped? (c : Char) : Option Nat :=
  if c = '"' then some 0x22
  else if c = '\\' then some 0x5c
  else if c = '/' then some 0x2f
  else if c = 'b' then some 8
  else if c = 'f' then some 12
  else if c = 'n' then some 10
  else if c = 'r' then some 13
  else if c = 't' then some 9
  else none

/-! ## Strings -/

/-- What is added to the code of a control character that stands in a string without an escape;
no character has a code as large. -/
def bareMark : Nat := 0x110000

/-- The codes of a string up to its closing quote, escapes resolved one by one. -/
def stringCodes : List Char → Option (List Nat × List Char)
  | [] => none
  | '"' :: rest => some ([], rest)
  | '\\' :: 'u' :: a :: b :: c :: d :: rest => do
    let n ← hex4? a b c d
    let (codes, rest) ← stringCodes rest
    return (n :: codes, rest)
  | '\\' :: e :: rest => do
    let n ← escaped? e
    let (codes, rest) ← stringCodes rest
    return (n :: codes, rest)
  | c :: rest =>
    if c = '\\' then none
    else do
      let (codes, rest) ← stringCodes rest
      return ((if c.toNat < 32 then bareMark + c.toNat else c.toNat) :: codes, rest)

/-- Whether a control character stands bare among the characters of a string. -/
def anyBare (codes : List Nat) : Bool := codes.any (bareMark ≤ ·)

/-- The first half of a surrogate pair. -/
def isLead (n : Nat) : Bool := 0xD800 ≤ n && n < 0xDC00

/-- The second half of a surrogate pair. -/
def isTrail (n : Nat) : Bool := 0xDC00 ≤ n && n < 0xE000

/-- Put the halves of surrogate pairs together. -/
def joinPairs : List Nat → List Nat
  | [] => []
  | [n] => [n]
  | a :: b :: rest =>
    if isLead a && isTrail b then (0x10000 + (a - 0xD800) * 0x400 + (b - 0xDC00)) :: joinPairs rest
    else a :: joinPairs (b :: rest)

/-- The bytes of a code, surrogates included. -/
def codeBytes (n : Nat) : List UInt8 :=
  if n < 0x80 then [UInt8.ofNat n]
  else if n < 0x800 then [UInt8.ofNat (0xC0 + n / 0x40), UInt8.ofNat (0x80 + n % 0x40)]
  else if n < 0x10000 then
    [UInt8.ofNat (0xE0 + n / 0x1000), UInt8.ofNat (0x80 + n / 0x40 % 0x40),
     UInt8.ofNat (0x80 + n % 0x40)]
  else
    [UInt8.ofNat (0xF0 + n / 0x40000), UInt8.ofNat (0x80 + n / 0x1000 % 0x40),
     UInt8.ofNat (0x80 + n / 0x40 % 0x40), UInt8.ofNat (0x80 + n % 0x40)]

/-- The text that codes spell; none if half a pair is left over or a control character is bare. -/
def textOfCodes? (codes : List Nat) : Option String :=
  if anyBare codes || codes.any fun n => isLead n || isTrail n then none
  else some (String.ofList (codes.map Char.ofNat))

/-- The value of a string literal. -/
def ofCodes (codes : List Nat) : Json :=
  let joined := joinPairs codes
  match textOfCodes? joined with
  | some s => .string s
  | none => .rawString (anyBare codes) (joined.flatMap fun n => codeBytes (n % bareMark))

/-! ## Numbers -/

/-- A run of at least one digit. -/
def digits1? (cs : List Char) : Option (List Nat × List Char) :=
  let ds := cs.takeWhile isDigit
  if ds.isEmpty then none else some (ds.map digitValue, cs.dropWhile isDigit)

/-- Digits without a leading zero. -/
def whole? (cs : List Char) : Option (List Nat × List Char) := do
  let (ds, rest) ← digits1? cs
  if ds.head? = some 0 && ds.length > 1 then none else some (ds, rest)

/-- A fraction, if there is one. -/
def fraction? (cs : List Char) : Option (List Nat × List Char) :=
  match cs with
  | '.' :: rest => digits1? rest
  | _ => some ([], cs)

/-- The sign and the digits of an exponent. -/
def signedDigits? (cs : List Char) : Option ((Bool × List Nat) × List Char) :=
  match cs with
  | '-' :: rest => (digits1? rest).map fun r => ((true, r.1), r.2)
  | '+' :: rest => (digits1? rest).map fun r => ((false, r.1), r.2)
  | _ => (digits1? cs).map fun r => ((false, r.1), r.2)

/-- An exponent, if there is one. -/
def exponent? (cs : List Char) : Option (Option (Bool × List Nat) × List Char) :=
  match cs with
  | 'e' :: rest | 'E' :: rest => (signedDigits? rest).map fun r => (some r.1, r.2)
  | _ => some (none, cs)

/-- A number after its sign. -/
def unsigned? (negative : Bool) (cs : List Char) : Option (Json × List Char) := do
  let (ds, rest) ← whole? cs
  let (fraction, rest) ← fraction? rest
  let (exponent, rest) ← exponent? rest
  if negative || !fraction.isEmpty || exponent.isSome then
    return (.decimal { negative, whole := ds, fraction, exponent }, rest)
  else
    return (.natural (ds.foldl (fun n d => n * 10 + d) 0), rest)

/-- A number. -/
def number? (cs : List Char) : Option (Json × List Char) :=
  match cs with
  | '-' :: rest => unsigned? true rest
  | _ => unsigned? false cs

/-! ## Values -/

/-- The text after a word that has to come next. -/
def keyword? : List Char → List Char → Option (List Char)
  | [], rest => some rest
  | _ :: _, [] => none
  | k :: ks, c :: cs => if k = c then keyword? ks cs else none

/-- Gather named values; one name that is no text makes the object unreadable. -/
def ofMembers (ms : List (Json × Json)) : Json :=
  match ms.mapM fun
    | (.string s, v) => some (s, v)
    | _ => none
  with
  | some named => .object named
  | none => .unreadable (ms.all fun m => m.2.isSkippable)

mutual

/-- A value without blanks before it, nested at most `depth` deep. -/
def value? : Nat → List Char → Option (Json × List Char)
  | 0, _ => none
  | depth + 1, cs =>
    match cs with
    | 'n' :: rest => (keyword? "ull".toList rest).map (.null, ·)
    | 't' :: rest => (keyword? "rue".toList rest).map (.bool true, ·)
    | 'f' :: rest => (keyword? "alse".toList rest).map (.bool false, ·)
    | '"' :: rest => (stringCodes rest).map fun r => (ofCodes r.1, r.2)
    | '[' :: rest =>
      match skipBlanks rest with
      | ']' :: rest => some (.array [], rest)
      | cs => (items? depth cs).map fun r => (.array r.1, r.2)
    | '\x7b' :: rest =>
      match skipBlanks rest with
      | '\x7d' :: rest => some (.object [], rest)
      | cs => (members? depth cs).map fun r => (ofMembers r.1, r.2)
    | cs => number? cs

/-- The values of an array from the first on, up to the closing bracket. -/
def items? : Nat → List Char → Option (List Json × List Char)
  | 0, _ => none
  | depth + 1, cs => do
    let (item, rest) ← value? depth (skipBlanks cs)
    match skipBlanks rest with
    | ',' :: rest =>
      let (items, rest) ← items? depth rest
      return (item :: items, rest)
    | ']' :: rest => return ([item], rest)
    | _ => none

/-- The members of an object from the first on, up to the closing brace. -/
def members? : Nat → List Char → Option (List (Json × Json) × List Char)
  | 0, _ => none
  | depth + 1, cs =>
    match skipBlanks cs with
    | '"' :: rest => do
      let (name, rest) ← stringCodes rest
      if anyBare name then none
      match skipBlanks rest with
      | ':' :: rest =>
        let (value, rest) ← value? depth (skipBlanks rest)
        match skipBlanks rest with
        | ',' :: rest =>
          let (members, rest) ← members? depth rest
          return ((ofCodes name, value) :: members, rest)
        | '\x7d' :: rest => return ([(ofCodes name, value)], rest)
        | _ => none
      | _ => none
    | _ => none

end

/-- The value that a text spells, if it spells one. -/
def parse (text : String) : Option Json := do
  let cs := text.toList
  let (j, rest) ← value? (cs.length + 1) (skipBlanks cs)
  if (skipBlanks rest).isEmpty then some j else none

end Json

end Beacon
