import Beacon.Duties.Call

set_option autoImplicit false

/-! # Processes

The course of one duty, or of one load of duties, as a tree: each node says what the process does
next, its branches what it does upon each possible answer, and its leaves how it ends. A process
calls, waits for a time, lets others go first, or asks for the fork of an epoch, which is looked up
once for all processes that ask for it. Who answers, and when, is not part of a process. -/

namespace Beacon

/-- What is left to do until a result in `ρ`. -/
inductive Process (ρ : Type) where
  | done (result : ρ)
  /-- Go on after the processes that are ready. -/
  | pause (next : Process ρ)
  /-- Go on when it is `time`. -/
  | sleepUntil (time : Nat) (next : Process ρ)
  /-- Ask for the fork of an epoch. -/
  | forkFor (epoch : Epoch) (next : Attempt ForkLookupError ForkInfo → Process ρ)
  | ask (call : Call) (next : call.Answer → Process ρ)

namespace Process

variable {α β : Type}

/-- Go on with a second process when the first is done. -/
def bind : Process α → (α → Process β) → Process β
  | .done a, f => f a
  | .pause next, f => .pause (bind next f)
  | .sleepUntil time next, f => .sleepUntil time (bind next f)
  | .forkFor epoch next, f => .forkFor epoch fun r => bind (next r) f
  | .ask call next, f => .ask call fun r => bind (next r) f

instance : Monad Process where
  pure := .done
  bind := Process.bind

theorem bind_done (x : Process α) : x.bind .done = x := by
  induction x with
  | done => rfl
  | pause _ ih => simp [bind, ih]
  | sleepUntil _ _ ih => simp [bind, ih]
  | forkFor _ _ ih => simp [bind, ih]
  | ask _ _ ih => simp [bind, ih]

theorem bind_bind {γ : Type} (x : Process α) (f : α → Process β) (g : β → Process γ) :
    (x.bind f).bind g = x.bind fun a => (f a).bind g := by
  induction x with
  | done => rfl
  | pause _ ih => simp [bind, ih]
  | sleepUntil _ _ ih => simp [bind, ih]
  | forkFor _ _ ih => simp [bind, ih]
  | ask _ _ ih => simp [bind, ih]

instance : LawfulMonad Process :=
  LawfulMonad.mk' _ (fun x => bind_done x) (fun _ _ => rfl) bind_bind

end Process

/-- A process that may be rejected with a cause in `ε`, or fault. -/
abbrev Procedure (ε α : Type) : Type := ExceptT (Failure ε) Process α

namespace Procedure

variable {ε ε' α : Type}

/-- Continue with what is known. -/
def ofAttempt (x : Attempt ε α) : Procedure ε α := ExceptT.mk (.done x)

/-- Wait for a time. -/
def sleepUntil (time : Nat) : Procedure ε Unit := ExceptT.mk (.sleepUntil time (.done (.ok ())))

/-- Ask for the fork of an epoch. -/
def forkFor (epoch : Epoch) (cause : ForkLookupError → ε) : Procedure ε ForkInfo :=
  ExceptT.mk (.forkFor epoch fun r => .done (r.widen cause))

/-- Call a node. -/
def ask (call : ApiCall) (cause : ApiError → ε) : Procedure ε call.Result :=
  ExceptT.mk (.ask (.api call) fun r => .done (r.widen cause))

/-- Call a signer. -/
def sign (key : PublicKey) (request : SigningRequest) (fork : ForkInfo) (cause : SignerError → ε) :
    Procedure ε Signature :=
  ExceptT.mk (.ask (.sign key request fork) fun r => .done (r.widen cause))

end Procedure

end Beacon
