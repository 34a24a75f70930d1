import Beacon.Json.Form

set_option autoImplicit false

/-! # Patches

A patch changes one place of a value. The place is a path of member names and positions that has to
be there. A patched record is read back from its patched JSON form, so that a patch which breaks the
form gives nothing. -/

namespace Beacon

/-- One step into a value. -/
inductive PathStep where
  | member (name : String)
  | item (position : Nat)
  deriving DecidableEq, Repr

/-- What happens at the end of a path. -/
inductive Change where
  | replace (value : Json)
  | append (value : Json)
  /-- Replace every item. -/
  | fill (value : Json)
  | truncate (length : Nat)

/-- A change at a path. -/
structure Patch where
  path : List PathStep
  change : Change

/-- Change a value; all but replacing is for arrays. -/
def Change.apply : Change → Json → Option Json
  | .replace x, _ => some x
  | .append x, .array xs => some (.array (xs ++ [x]))
  | .fill x, .array xs => some (.array (xs.map fun _ => x))
  | .truncate n, .array xs => some (.array (xs.take n))
  | _, _ => none

/-- Change what a path leads to. -/
def Json.modify? (f : Json → Option Json) : List PathStep → Json → Option Json
  | [], j => f j
  | .member name :: path, .object ms => do
    let old ← (Json.object ms).member? name
    return .object (setMember name (← modify? f path old) ms)
  | .item i :: path, .array xs => do
    let old ← xs[i]?
    return .array (xs.set i (← modify? f path old))
  | _, _ => none

namespace Patch

/-- Apply a patch. -/
def apply (p : Patch) (j : Json) : Option Json := j.modify? p.change.apply p.path

/-- Read a step of a path. -/
def readStep : Json → Option PathStep
  | .string name => some (.member name)
  | .natural i => some (.item i)
  | _ => none

/-- Read a patch; of several changes the first in the order of `Change` counts. -/
def ofJson? (j : Json) : Option Patch := do
  let steps ← match j.present? "path" with
    | some (.array steps) => some steps
    | none => some []
    | _ => none
  let change ← match j.member? "set", j.member? "push", j.member? "fill", j.member? "truncate" with
    | some x, _, _, _ => some (.replace x)
    | _, some x, _, _ => some (.append x)
    | _, _, some x, _ => some (.fill x)
    | _, _, _, some (.natural n) => some (.truncate n)
    | _, _, _, _ => none
  return ⟨← steps.mapM readStep, change⟩

end Patch

/-- Apply patches in order to the terse form of a record. -/
def patched? {α : Type} [Form α] (a : α) (ps : List Json) : Option α :=
  if ps.isEmpty then some a
  else (ps.foldlM (fun j p => (Patch.ofJson? p).bind (·.apply j)) (write .terse a)).bind (read .terse)

@[simp] theorem patched?_nil {α : Type} [Form α] (a : α) : patched? a [] = some a := rfl

end Beacon
