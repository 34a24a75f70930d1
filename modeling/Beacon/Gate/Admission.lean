import Beacon.Gate.Basic

set_option autoImplicit false

/-! # Requests behind a gate

What happens when requests of different kinds pass a gate. A submission queues the request and lets
the gate claim slots; the claimed requests are then started one after the other, and a request that
has started waits for its outcome or is ready to settle. Starting may go wrong, which gives the slot
back at once, and it may submit another request, whose own start then comes first. Ready requests
settle in the order in which they became ready; each gives its slot back before its reply is known.

`Turnstile` is the state of all this, `startAll` runs the claimed starts and `settleReady` the ready
requests. Both end because every start and every settlement uses up part of what was submitted
(`Turnstile.weight`). -/

namespace Beacon

/-- What a request does once it has a slot. -/
inductive Work (α : Type) where
  /-- Runs until its outcome arrives. -/
  | waits
  /-- Has its outcome at once. -/
  | yields (a : α)
  /-- Stops while it is started. -/
  | breaks
  /-- Stops after it was started. -/
  | breaksLater
  /-- Looks at the number of requests in flight and submits another request. -/
  | submits (id : String) (work : Work α)
  deriving Repr

/-- A request under its name. -/
structure Request (α : Type) where
  id : String
  work : Work α
  deriving Repr

/-- A request after the outcome for a name has come in: it takes the outcome if it has that name and
waits for one. -/
def Request.receive {α : Type} (r : Request α) (id : String) (a : α) : Request α :=
  match r.work with
  | .waits => if r.id = id then { r with work := .yields a } else r
  | _ => r

/-- What the submitter of a request learns. -/
inductive Reply (α : Type) where
  | value (a : α)
  /-- The number of requests in flight when the request was started. -/
  | seen (inFlight : Nat)
  | abandoned
  deriving DecidableEq, Repr

/-- What is left to do for a claimed slot. -/
inductive Errand (α : Type) where
  | start (r : Request α)
  /-- The request has been started and can settle. -/
  | enter (id : String) (reply : Reply α)
  deriving Repr

/-- How many starts, entries and settlements a request brings at most. -/
def Work.weight {α : Type} : Work α → Nat
  | .waits | .yields _ | .breaksLater => 2
  | .breaks => 1
  | .submits _ work => 3 + work.weight

/-- How many starts, entries and settlements an errand brings at most. -/
def Errand.weight {α : Type} : Errand α → Nat
  | .start r => r.work.weight
  | .enter .. => 2

/-- A gate with the requests on both sides of it. -/
structure Turnstile (α : Type) where
  gate : Gate (Request α)
  /-- What the claimed slots still need, next first. -/
  agenda : List (Errand α) := []
  /-- Started requests whose outcome has not arrived. -/
  waiting : List String := []
  /-- Requests that can settle, oldest first. -/
  ready : List (String × Reply α) := []
  /-- Requests whose start has run, oldest first. -/
  started : List String := []
  /-- Requests with their replies, oldest first. -/
  settled : List (String × Reply α) := []

namespace Turnstile

variable {α : Type}

/-- An idle turnstile. -/
def create (name : String) (limit : Nat) : Turnstile α where
  gate := Gate.create name limit

/-- Let the gate claim slots; what was claimed is started before all else. -/
def drain (t : Turnstile α) : Turnstile α :=
  { t with gate := t.gate.claim.2, agenda := t.gate.claim.1.map .start ++ t.agenda }

/-- How many starts, entries and settlements are still to come, outcomes that have not arrived
apart. -/
def weight (t : Turnstile α) : Nat :=
  (t.gate.queue.map fun r => r.work.weight).foldr (· + ·) 0
    + (t.agenda.map Errand.weight).foldr (· + ·) 0 + t.ready.length

theorem weight_drain (t : Turnstile α) : t.drain.weight = t.weight := by
  have h := congrArg (fun q => (q.map fun r : Request α => r.work.weight).sum) t.gate.claim_append
  simp only [List.map_append, List.sum_append_nat] at h
  have hs : ((t.gate.claim.1.map Errand.start).map Errand.weight)
      = t.gate.claim.1.map fun r => r.work.weight := by
    simp [Errand.weight, Function.comp_def]
  simp only [weight, ← List.sum_eq_foldr, drain, List.map_append, List.sum_append_nat, hs]
  omega

/-- Run the start of a request. -/
def start (t : Turnstile α) (r : Request α) : Turnstile α :=
  let t := { t with started := t.started ++ [r.id] }
  match r.work with
  | .waits => { t with waiting := t.waiting ++ [r.id] }
  | .yields a => { t with ready := t.ready ++ [(r.id, .value a)] }
  | .breaksLater => { t with ready := t.ready ++ [(r.id, .abandoned)] }
  | .breaks =>
    { t with gate := t.gate.release, settled := t.settled ++ [(r.id, Reply.abandoned)] }.drain
  | .submits id work =>
    { t with
      gate := t.gate.push ⟨id, work⟩
      agenda := .enter r.id (.seen t.gate.inFlight) :: t.agenda }.drain

/-- Run one errand. -/
def perform (t : Turnstile α) : Errand α → Turnstile α
  | .start r => t.start r
  | .enter id reply => { t with ready := t.ready ++ [(id, reply)] }

theorem weight_start_lt (t : Turnstile α) (r : Request α) :
    (t.start r).weight < t.weight + r.work.weight := by
  rcases r with ⟨id, work⟩
  cases work with
  | waits => simp [start, weight, Work.weight]
  | yields a => simp [start, weight, Work.weight]; omega
  | breaksLater => simp [start, weight, Work.weight]; omega
  | breaks =>
    simp only [start]
    rw [weight_drain]
    simp [weight, Work.weight, Gate.release]
  | submits child work =>
    simp only [start]
    rw [weight_drain]
    simp only [weight, ← List.sum_eq_foldr, Gate.push, List.map_append, List.map_cons, List.map_nil,
      List.sum_append_nat, List.sum_cons, List.sum_nil, Errand.weight, Work.weight]
    omega

theorem weight_perform_lt (t : Turnstile α) (e : Errand α) (rest : List (Errand α))
    (h : t.agenda = e :: rest) : ({ t with agenda := rest }.perform e).weight < t.weight := by
  have hw : t.weight = ({ t with agenda := rest } : Turnstile α).weight + e.weight := by
    simp only [weight, h, List.map_cons, List.foldr_cons]
    omega
  rw [hw]
  cases e with
  | start r => exact weight_start_lt _ r
  | enter id reply => simp [perform, weight, Errand.weight]; omega

/-- Run the errands of all claimed slots. -/
def startAll (t : Turnstile α) : Turnstile α :=
  match _h : t.agenda with
  | [] => t
  | e :: rest => startAll ({ t with agenda := rest }.perform e)
  termination_by t.weight
  decreasing_by exact weight_perform_lt t e rest _h

theorem weight_startAll_le (t : Turnstile α) : t.startAll.weight ≤ t.weight := by
  fun_induction startAll t with
  | case1 => exact Nat.le_refl _
  | case2 t e rest h ih => exact Nat.le_trans ih (Nat.le_of_lt (weight_perform_lt t e rest h))

/-- Settle a request: its slot is given back first. -/
def settle (t : Turnstile α) (id : String) (reply : Reply α) : Turnstile α :=
  let t := { t with gate := t.gate.release }.drain.startAll
  { t with settled := t.settled ++ [(id, reply)] }

theorem weight_settle_le (t : Turnstile α) (id : String) (reply : Reply α) :
    (t.settle id reply).weight ≤ t.weight := by
  have h := weight_startAll_le ({ t with gate := t.gate.release } : Turnstile α).drain
  rw [weight_drain] at h
  exact h

/-- Settle every request that is ready, and those that become ready by it. -/
def settleReady (t : Turnstile α) : Turnstile α :=
  match _h : t.ready with
  | [] => t
  | (id, reply) :: rest => settleReady ({ t with ready := rest }.settle id reply)
  termination_by t.weight
  decreasing_by
    have hw : ({ t with ready := rest } : Turnstile α).weight + 1 = t.weight := by
      simp [weight, _h, Nat.add_assoc]
    have := weight_settle_le { t with ready := rest } id reply
    omega

/-! ## What callers do -/

/-- Submit a request. -/
def submit (t : Turnstile α) (r : Request α) : Turnstile α :=
  { t with gate := t.gate.push r }.drain.startAll

/-- Submit a request where nothing can run: it is given up, and with it all that waited. -/
def submitOffline (t : Turnstile α) (r : Request α) : Turnstile α :=
  let g := t.gate.push r
  { t with
    gate := { g with queue := [] }
    settled := t.settled ++ g.queue.map fun r => (r.id, .abandoned) }

/-- Give a request that waits for its outcome, started or still queued, that outcome. A name that no
such request has changes nothing. -/
def deliver (t : Turnstile α) (id : String) (a : α) : Turnstile α :=
  if t.waiting.contains id then
    { t with waiting := t.waiting.erase id, ready := t.ready ++ [(id, .value a)] }
  else
    { t with gate := { t.gate with queue := t.gate.queue.map (·.receive id a) } }

/-- The reply to a request, once there is one. -/
def reply? (t : Turnstile α) (id : String) : Option (Reply α) :=
  (t.settled.find? (·.1 == id)).map (·.2)

end Turnstile

end Beacon
