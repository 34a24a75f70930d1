import Mathlib
import Beacon.Duties.Loading
import Beacon.Proofs.Attempts
import Beacon.Proofs.Duties.Turns

set_option autoImplicit false

/-! # What a process is told

The course of a process is settled by the replies that it gets: `Process.Runs` relates a process and
the replies, in their order and with the requests that they answer, to the result. Who replies, and
when, does not matter; the results of all courses are those that `Process.Ends` speaks about
(`ends_iff_runs`). The course of one process after another is two courses, one after the other
(`runs_bind`).

A load is forthright: it succeeds when it is told of no failure, and fails at once with the first
one that it is told of (`Procedure.Forthright`). -/

namespace Beacon

variable {α β ρ ε ε' : Type}

/-! ## Courses -/

/-- A request with what came back for it. -/
inductive Exchange where
  | fork (epoch : Epoch) (answer : Attempt ForkLookupError ForkInfo)
  | call (call : Call) (answer : call.Answer)

variable {log : List Exchange}

namespace Process

/-- A process that gets these replies, one after the other, has asked for nothing else and comes to
    this result. -/
def Runs : Process ρ → List Exchange → ρ → Prop
  | .done r, log, result => log = [] ∧ result = r
  | .pause next, log, result => next.Runs log result
  | .sleepUntil _ next, log, result => next.Runs log result
  | .forkFor epoch next, log, result =>
    ∃ answer rest, log = .fork epoch answer :: rest ∧ (next answer).Runs rest result
  | .ask call next, log, result =>
    ∃ answer rest, log = .call call answer :: rest ∧ (next answer).Runs rest result

/-- Two processes in a row get the replies of the first one, then those of the second. -/
theorem runs_bind {p : Process α} {f : α → Process β} {result : β} :
    (p.bind f).Runs log result ↔
      ∃ before after a, log = before ++ after ∧ p.Runs before a ∧ (f a).Runs after result := by
  induction p generalizing log with
  | done a =>
      constructor
      · exact fun h => ⟨[], log, a, rfl, ⟨rfl, rfl⟩, h⟩
      · rintro ⟨_, after, _, rfl, ⟨rfl, rfl⟩, h⟩
        exact h
  | pause next ih => exact ih
  | sleepUntil time next ih => exact ih
  | forkFor epoch next ih =>
      constructor
      · rintro ⟨answer, rest, rfl, h⟩
        obtain ⟨before, after, a, rfl, hp, hf⟩ := (ih answer).1 h
        exact ⟨_, after, a, rfl, ⟨answer, before, rfl, hp⟩, hf⟩
      · rintro ⟨_, after, a, rfl, ⟨answer, before, rfl, hp⟩, hf⟩
        exact ⟨answer, _, rfl, (ih answer).2 ⟨before, after, a, rfl, hp, hf⟩⟩
  | ask call next ih =>
      constructor
      · rintro ⟨answer, rest, rfl, h⟩
        obtain ⟨before, after, a, rfl, hp, hf⟩ := (ih answer).1 h
        exact ⟨_, after, a, rfl, ⟨answer, before, rfl, hp⟩, hf⟩
      · rintro ⟨_, after, a, rfl, ⟨answer, before, rfl, hp⟩, hf⟩
        exact ⟨answer, _, rfl, (ih answer).2 ⟨before, after, a, rfl, hp, hf⟩⟩

/-- What a process ends with is what it comes to in some course. -/
theorem ends_iff_runs {P : ρ → Prop} {p : Process ρ} :
    p.Ends P ↔ ∀ log result, p.Runs log result → P result := by
  induction p with
  | done r => exact ⟨fun h _ _ ⟨_, heq⟩ => heq ▸ h, fun h => h [] r ⟨rfl, rfl⟩⟩
  | pause next ih => exact ih
  | sleepUntil time next ih => exact ih
  | forkFor epoch next ih =>
      constructor
      · rintro h _ result ⟨answer, rest, rfl, hnext⟩
        exact (ih answer).1 (h answer) rest result hnext
      · intro h answer
        exact (ih answer).2 fun rest result hnext => h _ result ⟨answer, rest, rfl, hnext⟩
  | ask call next ih =>
      constructor
      · rintro h _ result ⟨answer, rest, rfl, hnext⟩
        exact (ih answer).1 (h answer) rest result hnext
      · intro h answer
        exact (ih answer).2 fun rest result hnext => h _ result ⟨answer, rest, rfl, hnext⟩

end Process

/-! ## Courses of procedures -/

namespace Procedure

/-- A procedure that gets these replies comes to this outcome. -/
def Runs (x : Procedure ε α) (log : List Exchange) (outcome : Attempt ε α) : Prop :=
  x.run.Runs log outcome

@[simp] theorem runs_pure {a : α} {outcome : Attempt ε α} :
    Runs (pure a) log outcome ↔ log = [] ∧ outcome = .ok a :=
  Iff.rfl

/-- A failure ends two procedures in a row, a value is what the second one starts from. -/
theorem runs_bind {x : Procedure ε α} {f : α → Procedure ε β} {outcome : Attempt ε β} :
    Runs (x >>= f) log outcome ↔
      (∃ before after a, log = before ++ after ∧ x.Runs before (.ok a) ∧ (f a).Runs after outcome) ∨
        ∃ failure, x.Runs log (.error failure) ∧ outcome = .error failure := by
  refine (Process.runs_bind (p := x.run)).trans ?_
  constructor
  · rintro ⟨before, after, a | a, rfl, hx, hf⟩
    · obtain ⟨rfl, rfl⟩ := hf
      rw [List.append_nil]
      exact .inr ⟨a, hx, rfl⟩
    · exact .inl ⟨before, after, a, rfl, hx, hf⟩
  · rintro (⟨before, after, a, rfl, hx, hf⟩ | ⟨failure, hx, rfl⟩)
    · exact ⟨before, after, .ok a, rfl, hx, hf⟩
    · exact ⟨log, [], .error failure, (List.append_nil log).symm, hx, rfl, rfl⟩

theorem runs_bind_ok {x : Procedure ε α} {f : α → Procedure ε β} {b : β} :
    Runs (x >>= f) log (.ok b) ↔
      ∃ before after a, log = before ++ after ∧ x.Runs before (.ok a) ∧
        (f a).Runs after (.ok b) := by
  simp [runs_bind]

theorem runs_forkFor {epoch : Epoch} {cause : ForkLookupError → ε} {outcome : Attempt ε ForkInfo} :
    (forkFor epoch cause).Runs log outcome ↔
      ∃ answer, log = [.fork epoch answer] ∧ outcome = answer.widen cause := by
  constructor
  · rintro ⟨answer, _, rfl, rfl, rfl⟩
    exact ⟨answer, rfl, rfl⟩
  · rintro ⟨answer, rfl, rfl⟩
    exact ⟨answer, [], rfl, rfl, rfl⟩

theorem runs_ask {call : ApiCall} {cause : ApiError → ε} {outcome : Attempt ε call.Result} :
    (ask call cause).Runs log outcome ↔
      ∃ answer, log = [.call (.api call) answer] ∧ outcome = answer.widen cause := by
  constructor
  · rintro ⟨answer, _, rfl, rfl, rfl⟩
    exact ⟨answer, rfl, rfl⟩
  · rintro ⟨answer, rfl, rfl⟩
    exact ⟨answer, [], rfl, rfl, rfl⟩

theorem runs_sign {key : PublicKey} {request : SigningRequest} {fork : ForkInfo}
    {cause : SignerError → ε} {outcome : Attempt ε Signature} :
    (sign key request fork cause).Runs log outcome ↔
      ∃ answer, log = [.call (.sign key request fork) answer] ∧ outcome = answer.widen cause := by
  constructor
  · rintro ⟨answer, _, rfl, rfl, rfl⟩
    exact ⟨answer, rfl, rfl⟩
  · rintro ⟨answer, rfl, rfl⟩
    exact ⟨answer, [], rfl, rfl, rfl⟩

end Procedure

-- From here on courses are taken apart by these lemmas only: to unfold one is to compute whatever
-- its procedure computes.
attribute [irreducible] Procedure.Runs

/-! ## Failures -/

/-- Why there is no value, if there is none. -/
def Attempt.failure? : Attempt ε α → Option (Failure ε)
  | .ok _ => none
  | .error failure => some failure

/-- The failure of a load that an exchange tells of. -/
def Exchange.failure? : Exchange → Option (Failure LoadError)
  | .fork _ answer => (answer.widen LoadError.fork).failure?
  | .call (.api _) answer => (answer.widen LoadError.api).failure?
  | .call (.sign ..) answer => (answer.widen LoadError.signer).failure?

namespace Procedure

/-- A procedure that has a value is told of no failure; one that has none is told of the failure
    that it ends with, and this is the last and the only one it is told of. -/
def Forthright (x : Procedure LoadError α) : Prop :=
  ∀ log outcome, x.Runs log outcome →
    match outcome with
    | .ok _ => ∀ exchange ∈ log, exchange.failure? = none
    | .error failure => ∃ before last, log = before ++ [last] ∧
        (∀ exchange ∈ before, exchange.failure? = none) ∧ last.failure? = some failure

namespace Forthright

theorem pure (a : α) : Forthright (Pure.pure a) := by
  intro log outcome hruns
  obtain ⟨rfl, rfl⟩ := runs_pure.1 hruns
  exact fun _ h => absurd h List.not_mem_nil

theorem bind {x : Procedure LoadError α} {f : α → Procedure LoadError β} (hx : x.Forthright)
    (hf : ∀ a, (f a).Forthright) : (x >>= f).Forthright := by
  intro log outcome hruns
  rcases runs_bind.1 hruns with ⟨before, after, a, rfl, hbefore, hafter⟩ | ⟨failure, hfails, rfl⟩
  · have hsilent : ∀ exchange ∈ before, exchange.failure? = none := hx _ _ hbefore
    have hrest := hf a _ _ hafter
    cases outcome with
    | ok b =>
        intro exchange hexchange
        rcases List.mem_append.1 hexchange with hexchange | hexchange
        · exact hsilent exchange hexchange
        · exact hrest exchange hexchange
    | error failure =>
        obtain ⟨more, last, rfl, hmore, hlast⟩ := hrest
        refine ⟨before ++ more, last, (List.append_assoc ..).symm, fun exchange hexchange => ?_,
          hlast⟩
        rcases List.mem_append.1 hexchange with hexchange | hexchange
        · exact hsilent exchange hexchange
        · exact hmore exchange hexchange
  · exact hx _ _ hfails

/-- One exchange, whose failure is the failure of the procedure. -/
theorem of_exchange {x : Procedure LoadError α}
    (h : ∀ log outcome, x.Runs log outcome →
      ∃ exchange, log = [exchange] ∧ exchange.failure? = Attempt.failure? outcome) :
    x.Forthright := by
  intro log outcome hruns
  obtain ⟨exchange, rfl, hexchange⟩ := h log outcome hruns
  cases outcome with
  | ok a =>
      intro other hother
      rw [List.mem_singleton.1 hother]
      exact hexchange
  | error failure => exact ⟨[], exchange, rfl, fun _ h => absurd h List.not_mem_nil, hexchange⟩

theorem forkFor (epoch : Epoch) : (Procedure.forkFor epoch LoadError.fork).Forthright := by
  refine .of_exchange fun log outcome hruns => ?_
  obtain ⟨answer, rfl, rfl⟩ := runs_forkFor.1 hruns
  exact ⟨_, rfl, rfl⟩

theorem ask (call : ApiCall) : (Procedure.ask call LoadError.api).Forthright := by
  refine .of_exchange fun log outcome hruns => ?_
  obtain ⟨answer, rfl, rfl⟩ := runs_ask.1 hruns
  exact ⟨_, rfl, rfl⟩

theorem sign (key : PublicKey) (request : SigningRequest) (fork : ForkInfo) :
    (Procedure.sign key request fork LoadError.signer).Forthright := by
  refine .of_exchange fun log outcome hruns => ?_
  obtain ⟨answer, rfl, rfl⟩ := runs_sign.1 hruns
  exact ⟨_, rfl, rfl⟩

end Forthright

end Procedure

end Beacon
