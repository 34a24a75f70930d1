import Beacon.Outcome

set_option autoImplicit false

/-! # The environment

Settings that come from outside as named texts, and the settings of the log output, which come from
nowhere else. -/

namespace Beacon

/-- Texts under their names. -/
abbrev Environment : Type := List (String × String)

namespace Environment

/-- The text under a name, the last one if there are several. -/
def get? (e : Environment) (name : String) : Option String := (e.findRev? (·.1 == name)).map (·.2)

/-- The number that a text spells: decimal digits, a plus sign before them or not, and no more than a
word holds. -/
def number? (text : String) : Option Nat :=
  let digits := match text.toList with
    | '+' :: rest => rest
    | cs => cs
  if digits ≠ [] ∧ digits.all Char.isDigit then
    let n := digits.foldl (fun n c => n * 10 + (c.toNat - '0'.toNat)) 0
    if n < Word.limit then some n else none
  else none

/-- The number under a name, or `current` when there is none. -/
def numberOr (e : Environment) (name : String) (current : Nat) : Nat :=
  ((e.get? name).bind number?).getD current

end Environment

/-! ## Log output -/

/-- Settings of the log output. -/
structure LogConfig where
  serviceName : String := "quantum-chain"
  level : String := "info"
  consoleOutput : Bool := true
  json : Bool := false
  network : String := "devnet"
  deriving DecidableEq, Repr, Inhabited

/-- A text with the letters from A to Z in lower case. -/
def lowerCase (text : String) : String := String.ofList (text.toList.map Char.toLower)

/-- Read the settings; in a container the output is JSON unless told otherwise. -/
def LogConfig.ofEnvironment (e : Environment) : LogConfig :=
  let inContainer := (e.get? "KUBERNETES_SERVICE_HOST").isSome || (e.get? "DOCKER_CONTAINER").isSome
  let d : LogConfig := {}
  { serviceName := (e.get? "OTEL_SERVICE_NAME").getD d.serviceName
    level := ((e.get? "QC_LOG_LEVEL").or (e.get? "RUST_LOG")).getD d.level
    consoleOutput := ((e.get? "QC_CONSOLE_OUTPUT").map fun v =>
      lowerCase v != "false" && v != "0").getD true
    json := ((e.get? "QC_JSON_LOGS").map fun v => lowerCase v == "true" || v == "1").getD inContainer
    network := (e.get? "QC_NETWORK").getD d.network }

end Beacon
