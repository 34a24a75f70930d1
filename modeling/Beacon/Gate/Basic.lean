import Beacon.Outcome

set_option autoImplicit false

/-! # The request gate

A gate bounds how many requests run at once. Requests queue in the order in which they come; while a
slot is free, the head of the queue claims it, and a request that settles gives its slot back. -/

namespace Beacon

/-- Why a request has no outcome of its own. -/
inductive GateError where
  /-- It was given up before it ran to its end. -/
  | abandoned (gate : String)
  deriving DecidableEq, Repr

/-- The text of the cause. -/
def GateError.message : GateError → String
  | .abandoned gate => s!"Request abandoned before admission by gate '{gate}'"

/-- A gate with the tickets that wait in front of it. -/
structure Gate (τ : Type) where
  name : String
  /-- How many requests may run at once. -/
  limit : Nat
  /-- How many requests run. -/
  inFlight : Nat := 0
  /-- The tickets of the requests that wait, oldest first. -/
  queue : List τ := []
  deriving DecidableEq, Repr, Inhabited

namespace Gate

variable {τ : Type}

/-- An idle gate; it admits at least one request at a time. -/
def create (name : String) (limit : Nat) : Gate τ where
  name
  limit := max limit 1

/-- Slots that are free. -/
def room (g : Gate τ) : Nat := g.limit - g.inFlight

/-- Queue a ticket. -/
def push (g : Gate τ) (t : τ) : Gate τ := { g with queue := g.queue ++ [t] }

/-- Let the head of the queue claim slots while there are free ones; the admitted tickets come in
the order of the queue. -/
def claim (g : Gate τ) : List τ × Gate τ :=
  (g.queue.take g.room,
    { g with
      inFlight := g.inFlight + (g.queue.take g.room).length
      queue := g.queue.drop g.room })

/-- Give a slot back. -/
def release (g : Gate τ) : Gate τ := { g with inFlight := g.inFlight - 1 }

theorem claim_append (g : Gate τ) : g.claim.1 ++ g.claim.2.queue = g.queue := by
  simp [claim]

theorem claim_inFlight_le {g : Gate τ} (h : g.inFlight ≤ g.limit) :
    g.claim.2.inFlight ≤ g.claim.2.limit := by
  simp only [claim, room, List.length_take]
  omega

/-- After claims a ticket still waits only when every slot is taken. -/
theorem claim_full {g : Gate τ} (h : g.inFlight ≤ g.limit) (hq : g.claim.2.queue ≠ []) :
    g.claim.2.inFlight = g.claim.2.limit := by
  simp only [claim, room, ne_eq, List.drop_eq_nil_iff, List.length_take] at *
  omega

/-! ## Serving a batch -/

/-- Let the requests with the given tickets settle, oldest first, and with them all that are
admitted after them: the order of admission, and the gate afterwards. -/
def settleAll (g : Gate τ) (running : List τ) : List τ × Gate τ :=
  match running with
  | [] => ([], g)
  | t :: rest =>
    let (order, last) := settleAll g.release.claim.2 (rest ++ g.release.claim.1)
    (t :: order, last)
  termination_by g.queue.length + running.length
  decreasing_by
    have h := congrArg List.length (claim_append g.release)
    simp only [List.length_append, List.length_cons, release] at *
    omega

/-- Submit a batch and let it run to its end. -/
def serve (g : Gate τ) (tickets : List τ) : List τ × Gate τ :=
  let (admitted, g) := { g with queue := g.queue ++ tickets }.claim
  g.settleAll admitted

end Gate

end Beacon
