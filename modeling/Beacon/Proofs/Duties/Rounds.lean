import Mathlib
import Beacon.Duties.Retry

set_option autoImplicit false

/-! # The rounds of a load

A load goes through rounds: it asks whether its epoch is still wanted, attempts to load it, and
learns how the attempt ended. `LoadTale` is a load with all that has happened to it; `LoadTale.ask`
and `LoadTale.learn` say what it makes of what it is told, by `LoadJob.next` and `LoadJob.verdict`.

What a load comes to depends on what it is told alone. Let `want j` be the answer and `out j` the
outcome in round `j`, for all rounds that there could be: then the tale of a load that has been told
the first of these is known in full (`LoadTale.Follows`), and each thing that it is told next keeps
it so (`LoadTale.Follows.ask`, `LoadTale.Follows.learn`). -/

namespace Beacon

/-! ## The first values of a sequence -/

section

variable {α : Type} {f : Nat → α} {xs : List α} {x : α}

/-- These are the first of the values `f 1`, `f 2` and so on. -/
def Begins (f : Nat → α) (xs : List α) : Prop := xs = (List.range' 1 xs.length).map f

theorem begins_concat : Begins f (xs ++ [x]) ↔ Begins f xs ∧ x = f (xs.length + 1) := by
  rw [Begins, List.length_append, List.length_singleton, List.range'_1_concat, List.map_append,
    List.map_singleton, Nat.add_comm 1]
  constructor
  · intro h
    obtain ⟨hxs, hx⟩ := List.append_inj h (by simp)
    exact ⟨hxs, List.singleton_inj.1 hx⟩
  · rintro ⟨hxs, rfl⟩
    exact congrArg (· ++ [f (xs.length + 1)]) hxs

end

/-! ## Where a load is -/

/-- Where a load is in its round. -/
inductive LoadStage where
  /-- It is to ask whether its epoch is still wanted. -/
  | asking (job : LoadJob)
  /-- Its attempt stands in line for the gate, or has a slot. -/
  | attempting (job : LoadJob)
  /-- Its attempt has given the slot back, and it is to learn how that ended. -/
  | settling (job : LoadJob) (result : Attempt LoadError DutySet)
  | finished (result : Except LoadError DutySet)

/-- A load with what has happened to it. -/
structure LoadTale where
  epoch : Epoch
  stage : LoadStage
  /-- Until when it waits before it asks. -/
  due : Nat := 0
  /-- Whether its epoch was wanted, each time it asked. -/
  answers : List Bool := []
  /-- When it asked. -/
  asks : List Nat := []
  /-- How its attempts ended. -/
  outcomes : List (Except LoadError DutySet) := []
  /-- When it learned of that. -/
  ends : List Nat := []
  /-- How long it waits after each attempt but the last. -/
  waits : List Nat := []

namespace LoadTale

/-- A load that has not asked yet. -/
def begin (e : Epoch) : LoadTale where
  epoch := e
  stage := .asking { epoch := e }

/-- A load is told whether its epoch is wanted. -/
def ask (x : LoadTale) (now : Nat) (job : LoadJob) (wanted : Bool) : LoadTale :=
  { x with
    stage := match job.next wanted with
      | .ok job => .attempting job
      | .error cause => .finished (.error cause)
    answers := x.answers ++ [wanted]
    asks := x.asks ++ [now] }

/-- A load learns how its attempt ended. -/
def learn (x : LoadTale) (p : RetryPolicy) (now : Nat) (job : LoadJob)
    (outcome : Except LoadError DutySet) : LoadTale :=
  let x := { x with outcomes := x.outcomes ++ [outcome], ends := x.ends ++ [now] }
  match job.verdict p outcome with
  | .finish result => { x with stage := .finished result }
  | .retry delay =>
    { x with stage := .asking job, due := now + delay, waits := x.waits ++ [delay] }

end LoadTale

/-! ## What ends a load -/

variable {p : RetryPolicy} {want : Nat → Bool} {out : Nat → Except LoadError DutySet} {e : Epoch}
variable {j n now : Nat} {job : LoadJob}

/-- A load does not go on after this round. -/
def LoadEnds (p : RetryPolicy) (want : Nat → Bool) (out : Nat → Except LoadError DutySet)
    (j : Nat) : Prop :=
  want j = false ∨ (∃ set, out j = .ok set) ∨
    (∃ cause, out j = .error cause ∧ cause.isRecoverable = false) ∨ p.maxAttempts = some j

/-- What a load of an epoch returns that does not go on after this round. -/
def loadEnding (e : Epoch) (want : Nat → Bool) (out : Nat → Except LoadError DutySet) (j : Nat) :
    Except LoadError DutySet :=
  if want j then
    match out j with
    | .ok set => .ok set
    | .error cause =>
      if cause.isRecoverable then .error (.retriesExhausted e j cause) else .error cause
  else .error (.noLongerNeeded e)

/-- A policy that allows an attempt, with a number of attempts that can be counted. -/
structure RetryPolicy.Countable (p : RetryPolicy) : Prop where
  positive : p.maxAttempts ≠ some 0
  counted : ∀ m ∈ p.maxAttempts, m < Word.shortLimit

/-- As long as the last attempt has not been made, no more have been than the policy allows. -/
theorem RetryPolicy.Countable.le (hp : p.Countable)
    (hgoing : ∀ i, 0 < i → i ≤ n → ¬ LoadEnds p want out i) {m : Nat}
    (hm : p.maxAttempts = some m) : n + 1 ≤ m := by
  by_contra hlt
  refine hgoing m ?_ (by lia) (.inr (.inr (.inr hm)))
  exact Nat.pos_of_ne_zero fun hzero => hp.positive (hzero ▸ hm)

/-- The attempts that are counted reach the last one that is allowed when it is made. -/
theorem RetryPolicy.Countable.any_le_iff (hp : p.Countable)
    (hgoing : ∀ i, 0 < i → i ≤ n → ¬ LoadEnds p want out i) :
    p.maxAttempts.any (· ≤ min (n + 1) LoadJob.maxAttempts) = true ↔
      p.maxAttempts = some (n + 1) := by
  cases hmax : p.maxAttempts with
  | none => simp
  | some m =>
      have hle := hp.le hgoing hmax
      have hlt := hp.counted m hmax
      simp only [Option.any_some, Option.some.injEq, LoadJob.maxAttempts]
      lia

/-- A load that goes on to an outcome with which it ends. -/
theorem LoadJob.verdict_of_ends (hp : p.Countable)
    (hgoing : ∀ i, 0 < i → i ≤ n → ¬ LoadEnds p want out i) (hwant : want (n + 1) = true)
    (hends : LoadEnds p want out (n + 1)) :
    LoadJob.verdict ⟨e, min (n + 1) maxAttempts⟩ p (out (n + 1)) =
      .finish (loadEnding e want out (n + 1)) := by
  rw [loadEnding, if_pos hwant]
  cases hout : out (n + 1) with
  | ok set => rfl
  | error cause =>
      rw [verdict]
      dsimp only
      by_cases hmay : cause.isRecoverable = true
      · -- It is the last attempt that is allowed, and so it has that number.
        have hmax : p.maxAttempts = some (n + 1) := by
          simpa [LoadEnds, hwant, hout, hmay] using hends
        have hcount : min (n + 1) maxAttempts = n + 1 := by
          have hlt := hp.counted _ hmax
          rw [maxAttempts]
          lia
        have hlast := (hp.any_le_iff hgoing).2 hmax
        rw [hcount] at hlast
        simp [hmay, hlast, hcount]
      · simp [hmay]

/-- A load that does not end waits. -/
theorem LoadJob.verdict_of_not_ends (hp : p.Countable)
    (hgoing : ∀ i, 0 < i → i ≤ n → ¬ LoadEnds p want out i)
    (hends : ¬ LoadEnds p want out (n + 1)) :
    LoadJob.verdict ⟨e, min (n + 1) maxAttempts⟩ p (out (n + 1)) =
      .retry (p.delay e (min (n + 1) maxAttempts)) := by
  simp only [LoadEnds, not_or, not_exists, not_and] at hends
  obtain ⟨-, hset, hcause, hmax⟩ := hends
  cases hout : out (n + 1) with
  | ok set => exact absurd hout (hset set)
  | error cause =>
      have hmay : cause.isRecoverable = true := by simpa using hcause cause hout
      have hlast : ¬ p.maxAttempts.any (· ≤ min (n + 1) maxAttempts) = true :=
        fun hlast => hmax ((hp.any_le_iff hgoing).1 hlast)
      rw [verdict]
      dsimp only
      rw [if_neg (by simp [hmay]), if_neg hlast]

/-! ## The course of a load -/

namespace LoadTale

variable {x : LoadTale}

/-- A load has been told the first of these answers and outcomes. -/
def Hears (x : LoadTale) (want : Nat → Bool) (out : Nat → Except LoadError DutySet) : Prop :=
  Begins want x.answers ∧ Begins out x.outcomes

/-- Where a load is after this many rounds. -/
def At (p : RetryPolicy) (want : Nat → Bool) (out : Nat → Except LoadError DutySet) (x : LoadTale)
    (n : Nat) : LoadStage → Prop
  | .asking job =>
    job = ⟨x.epoch, min n LoadJob.maxAttempts⟩ ∧ (x.asks.length = n ∧ x.ends.length = n) ∧
      ∀ a, x.ends.getLast? = some a → x.due = a + p.delay x.epoch (min n LoadJob.maxAttempts)
  | .attempting job | .settling job _ =>
    job = ⟨x.epoch, min (n + 1) LoadJob.maxAttempts⟩ ∧
      (x.asks.length = n + 1 ∧ x.ends.length = n) ∧ want (n + 1) = true
  | .finished result =>
    result = loadEnding x.epoch want out (n + 1) ∧
      (x.asks.length = n + 1 ∧ x.ends.length = if want (n + 1) then n + 1 else n) ∧
      LoadEnds p want out (n + 1)

/-- The course of a load that is told these answers and outcomes. -/
structure Follows (p : RetryPolicy) (want : Nat → Bool) (out : Nat → Except LoadError DutySet)
    (x : LoadTale) : Prop where
  going : ∀ i, 0 < i → i ≤ x.waits.length → ¬ LoadEnds p want out i
  waits : Begins (fun i => p.delay x.epoch (min i LoadJob.maxAttempts)) x.waits
  /-- It asks again when it has waited after an attempt, and not before. -/
  pace : ∀ (i a b : Nat), x.ends[i]? = some a → x.asks[i + 1]? = some b →
    a + p.delay x.epoch (min (i + 1) LoadJob.maxAttempts) ≤ b
  lengths : x.answers.length = x.asks.length ∧ x.outcomes.length = x.ends.length
  stage : x.At p want out x.waits.length x.stage

theorem follows_begin (e : Epoch) : (begin e).Follows p want out where
  going _ hpos hle := absurd hpos (Nat.not_lt.2 hle)
  waits := rfl
  pace _ _ _ ha := nomatch ha
  lengths := ⟨rfl, rfl⟩
  stage := ⟨rfl, ⟨rfl, rfl⟩, nofun⟩

theorem learn_of_finish {outcome result : Except LoadError DutySet}
    (h : job.verdict p outcome = .finish result) (x : LoadTale) (now : Nat) :
    (x.learn p now job outcome).stage = .finished result := by
  rw [learn, h]

theorem learn_of_retry {outcome : Except LoadError DutySet} {delay : Nat}
    (h : job.verdict p outcome = .retry delay) (x : LoadTale) (now : Nat) :
    (x.learn p now job outcome).stage = .asking job ∧
      (x.learn p now job outcome).due = now + delay := by
  rw [learn, h]
  exact ⟨rfl, rfl⟩

/-- A load that has been told more had heard what came before. -/
theorem hears_ask {wanted : Bool} :
    (x.ask now job wanted).Hears want out ↔
      x.Hears want out ∧ wanted = want (x.answers.length + 1) := by
  rw [Hears, ask, begins_concat, and_right_comm]
  rfl

/-- It asks no earlier than it has waited for. -/
theorem Follows.pace_ask (h : x.Follows p want out) (hstage : x.stage = .asking job)
    (hdue : x.due ≤ now) (i a b : Nat) (ha : x.ends[i]? = some a)
    (hb : (x.asks ++ [now])[i + 1]? = some b) :
    a + p.delay x.epoch (min (i + 1) LoadJob.maxAttempts) ≤ b := by
  have hat := h.stage
  rw [hstage] at hat
  obtain ⟨-, ⟨hasks, hends⟩, hlast⟩ := hat
  rw [List.getElem?_append] at hb
  split at hb
  · exact h.pace i a b ha hb
  · next hnew =>
      have hlt := (List.getElem?_eq_some_iff.1 ha).1
      have hi : i + 1 = x.waits.length := by lia
      rw [hasks, hi, Nat.sub_self] at hb
      obtain rfl := Option.some.inj hb
      -- The attempt before was the last one to end.
      have hdue' := hlast a (by rw [List.getLast?_eq_getElem?, hends, ← hi]; exact ha)
      rw [hi, ← hdue']
      exact hdue

/-- What a load is told when it asks keeps it on its course. -/
theorem Follows.ask {wanted : Bool} (h : x.Follows p want out) (hstage : x.stage = .asking job)
    (hdue : x.due ≤ now) (hheard : (x.ask now job wanted).Hears want out) :
    (x.ask now job wanted).Follows p want out := by
  have hpace := h.pace_ask hstage hdue
  have hat := h.stage
  rw [hstage] at hat
  obtain ⟨hjob, ⟨hasks, hends⟩, -⟩ := hat
  obtain ⟨-, hwanted⟩ := hears_ask.1 hheard
  rw [h.lengths.1, hasks] at hwanted
  have hanswers : (x.answers ++ [wanted]).length = (x.asks ++ [now]).length := by
    simp only [List.length_append, List.length_singleton, h.lengths.1]
  have hlength : (x.asks ++ [now]).length = x.waits.length + 1 := by
    rw [List.length_append, List.length_singleton, hasks]
  subst hjob
  cases wanted with
  | true =>
      refine ⟨h.going, h.waits, hpace, ⟨hanswers, h.lengths.2⟩, ?_, ⟨hlength, hends⟩, hwanted.symm⟩
      have hcount : min (min x.waits.length LoadJob.maxAttempts + 1) LoadJob.maxAttempts =
          min (x.waits.length + 1) LoadJob.maxAttempts := by
        lia
      exact congrArg (LoadJob.mk x.epoch) hcount
  | false =>
      have hnot : ¬ want (x.waits.length + 1) = true := hwanted ▸ Bool.false_ne_true
      have hending : loadEnding x.epoch want out (x.waits.length + 1) =
          .error (.noLongerNeeded x.epoch) := if_neg hnot
      exact ⟨h.going, h.waits, hpace, ⟨hanswers, h.lengths.2⟩, hending.symm,
        ⟨hlength, hends.trans (if_neg hnot).symm⟩, .inl hwanted.symm⟩

/-- Whatever a load makes of an outcome, it has heard it. -/
theorem hears_learn {outcome : Except LoadError DutySet} :
    (x.learn p now job outcome).Hears want out ↔
      x.Hears want out ∧ outcome = out (x.outcomes.length + 1) := by
  have hheard : (x.learn p now job outcome).answers = x.answers ∧
      (x.learn p now job outcome).outcomes = x.outcomes ++ [outcome] := by
    rw [learn]
    split
    · exact ⟨rfl, rfl⟩
    · exact ⟨rfl, rfl⟩
  rw [Hears, hheard.1, hheard.2, begins_concat, ← and_assoc]
  rfl

/-- What a load learns of its attempt keeps it on its course. -/
theorem Follows.learn (hp : p.Countable) {result : Attempt LoadError DutySet}
    {outcome : Except LoadError DutySet} (h : x.Follows p want out)
    (hstage : x.stage = .settling job result)
    (hheard : (x.learn p now job outcome).Hears want out) :
    (x.learn p now job outcome).Follows p want out := by
  have hat := h.stage
  rw [hstage] at hat
  obtain ⟨rfl, ⟨hasks, hends⟩, hwant⟩ := hat
  obtain ⟨-, houtcome⟩ := hears_learn.1 hheard
  rw [h.lengths.2, hends] at houtcome
  have hpace (i a b : Nat) (ha : (x.ends ++ [now])[i]? = some a) (hb : x.asks[i + 1]? = some b) :
      a + p.delay x.epoch (min (i + 1) LoadJob.maxAttempts) ≤ b := by
    -- Nobody has asked after the attempt that ends now.
    have hlt := (List.getElem?_eq_some_iff.1 hb).1
    rw [List.getElem?_append_left (by lia)] at ha
    exact h.pace i a b ha hb
  have houtcomes : (x.outcomes ++ [outcome]).length = (x.ends ++ [now]).length := by
    simp only [List.length_append, List.length_singleton, h.lengths.2]
  have hlength : (x.ends ++ [now]).length = x.waits.length + 1 := by
    rw [List.length_append, List.length_singleton, hends]
  rw [LoadTale.learn]
  subst houtcome
  by_cases hover : LoadEnds p want out (x.waits.length + 1)
  · rw [LoadJob.verdict_of_ends hp h.going hwant hover]
    refine ⟨h.going, h.waits, hpace, ⟨h.lengths.1, houtcomes⟩, rfl, ⟨hasks, ?_⟩, hover⟩
    rw [if_pos hwant]
    exact hlength
  · rw [LoadJob.verdict_of_not_ends hp h.going hover]
    have hwaits (d : Nat) : (x.waits ++ [d]).length = x.waits.length + 1 := by
      rw [List.length_append, List.length_singleton]
    refine ⟨fun i hpos hle => ?_, begins_concat.2 ⟨h.waits, rfl⟩, hpace,
      ⟨h.lengths.1, houtcomes⟩, ?_⟩
    · rcases Nat.le_succ_iff.1 (hwaits _ ▸ hle) with hle | rfl
      · exact h.going i hpos hle
      · exact hover
    · dsimp only
      rw [hwaits]
      refine ⟨rfl, ⟨hasks, hlength⟩, fun a ha => ?_⟩
      rw [List.getLast?_concat] at ha
      obtain rfl := Option.some.inj ha
      rfl

/-! ## The last round -/

variable {k : Nat}

/-- A load that is over has been through all rounds to the first after which it does not go on. -/
theorem Follows.finished {result : Except LoadError DutySet} (h : x.Follows p want out)
    (hstage : x.stage = .finished result)
    (hk : IsLeast {i | 0 < i ∧ LoadEnds p want out i} k) :
    result = loadEnding x.epoch want out k ∧ x.waits.length = k - 1 ∧ x.asks.length = k ∧
      x.ends.length = if want k then k else k - 1 := by
  have hat := h.stage
  rw [hstage] at hat
  obtain ⟨hresult, ⟨hasks, hends⟩, hended⟩ := hat
  have hlast : x.waits.length + 1 = k := by
    refine le_antisymm ?_ (hk.2 ⟨Nat.succ_pos _, hended⟩)
    by_contra hlt
    exact h.going k hk.1.1 (by lia) hk.1.2
  obtain rfl := hlast
  exact ⟨hresult, rfl, hasks, hends⟩

/-- A load that is not over has been through fewer rounds. -/
theorem Follows.lt (h : x.Follows p want out) (hgoing : ∀ result, x.stage ≠ .finished result)
    (hk : IsLeast {i | 0 < i ∧ LoadEnds p want out i} k) :
    x.ends.length < k ∧ x.asks.length ≤ k ∧ (x.asks.length = k → want k = true) := by
  have hlt : x.waits.length < k := by
    by_contra hle
    exact h.going k hk.1.1 (Nat.not_lt.1 hle) hk.1.2
  have hat := h.stage
  cases hstage : x.stage with
  | asking job =>
      rw [hstage] at hat
      obtain ⟨-, ⟨hasks, hends⟩, -⟩ := hat
      exact ⟨hends ▸ hlt, hasks ▸ hlt.le, fun heq => absurd (hasks ▸ heq) hlt.ne⟩
  | attempting job =>
      rw [hstage] at hat
      obtain ⟨-, ⟨hasks, hends⟩, hwant⟩ := hat
      exact ⟨hends ▸ hlt, hasks ▸ hlt, fun heq => heq ▸ hasks ▸ hwant⟩
  | settling job result =>
      rw [hstage] at hat
      obtain ⟨-, ⟨hasks, hends⟩, hwant⟩ := hat
      exact ⟨hends ▸ hlt, hasks ▸ hlt, fun heq => heq ▸ hasks ▸ hwant⟩
  | finished result => exact absurd hstage (hgoing result)

end LoadTale

end Beacon
