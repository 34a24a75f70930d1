import Mathlib
import Beacon.Proofs.Duties.LoadClients

set_option autoImplicit false

/-! # Clients repeat their loads

Whatever the collaborators of a validator client answer, and in whatever order signals and turns
come as time goes by, there is a desk of loads behind it that follows it
(`ClientLine.Course.tells`). So what holds of every desk of loads holds of every client: a load is
attempted just as often as the policy of the client allows. -/

namespace Beacon

namespace ClientLine

variable {σ : Type} {t t' : ClientLine σ} {p : RetryPolicy} {d : LoadDesk} {log : List LoadEvent}

/-! ## Courses -/

/-- One step of a client after the other, in the course of time, with what its loads are told. -/
inductive Course (c : Collaborators σ) (t : ClientLine σ) : List LoadEvent → ClientLine σ → Prop
  | refl : Course c t [] t
  | epoch {log : List LoadEvent} {t' : ClientLine σ} (h : Course c t log t') (e : Epoch) :
      Course c t log (t'.onEpoch e)
  | slot {log : List LoadEvent} {t' : ClientLine σ} (h : Course c t log t') (slot : Slot) :
      Course c t log (t'.onSlot slot)
  | turn {log : List LoadEvent} {t' t'' : ClientLine σ} (h : Course c t log t')
      (hturn : Timeline.step (Client.collaborators c) t' = some (none, t'')) : Course c t log t''
  | result {log : List LoadEvent} {t' t'' : ClientLine σ} {signal : ClientSignal}
      (h : Course c t log t')
      (hresult : Timeline.step (Client.collaborators c) t' = some (some signal, t'')) :
      Course c t (log ++ signal.told t'') (ClientLine.handle signal t'')
  | time {log : List LoadEvent} {t' : ClientLine σ} (h : Course c t log t') {later : Nat}
      (hle : t'.now ≤ later) : Course c t log (Timeline.moveTo t' later)
  | others {log : List LoadEvent} {t' : ClientLine σ} (h : Course c t log t') (f : σ → σ) :
      Course c t log (t'.modify fun x => { x with others := f x.others })

/-- Whatever happens to a client, the desk behind it follows. -/
theorem Course.tells {c : Collaborators σ} (hcourse : Course c t log t') (h : t.Tells p [] d) :
    ∃ d', LoadDesk.Run p d log d' ∧ t'.Tells p [] d' := by
  induction hcourse with
  | refl => exact ⟨d, .refl, h⟩
  | epoch _ e ih =>
      obtain ⟨d₁, hrun, htells⟩ := ih
      obtain ⟨d₂, horders, hfollowed⟩ := htells.follow
      exact ⟨d₂, hrun.quiet horders, hfollowed⟩
  | slot _ slot ih =>
      obtain ⟨d₁, hrun, htells⟩ := ih
      obtain ⟨d₂, horders, hfollowed⟩ := htells.follow
      exact ⟨d₂, hrun.quiet horders, hfollowed⟩
  | turn _ hturn ih =>
      obtain ⟨d₁, hrun, htells⟩ := ih
      exact ⟨d₁, hrun, htells.step c hturn⟩
  | result _ hresult ih =>
      obtain ⟨d₁, hrun, htells⟩ := ih
      obtain ⟨o, hcontinues, hdone⟩ := htells.step c hresult
      obtain ⟨d₂, htold, hhandled⟩ := hdone.handle hcontinues
      exact ⟨d₂, hrun.trans htold, hhandled⟩
  | time _ hle ih =>
      obtain ⟨d₁, hrun, htells⟩ := ih
      have hpassed := LoadDesk.Run.refl.tail (.pass (p := p) (htells.now.trans_le hle))
      exact ⟨_, hrun.quiet hpassed, htells.moveTo hle⟩
  | others _ f ih =>
      obtain ⟨d₁, hrun, htells⟩ := ih
      exact ⟨d₁, hrun, htells.modify rfl rfl⟩

theorem tells_create {x : Client σ} (hqueue : x.gate.queue = []) (hretry : x.retry = p) :
    Tells { world := x } p [] { gate := x.gate } where
  now := rfl
  gate := rfl
  retry := hretry
  sound := ⟨⟨.nil, nofun, nofun⟩, nofun⟩
  alarms := ⟨[], .refl []⟩
  employs := by
    refine ⟨[], Held.nil _, ?_, .refl []⟩
    exact .of_eq (congrArg (List.map LoadStage.attempting) hqueue).symm

/-! ## In the course of time -/

/-- Whatever waits for a time does so for a later one. -/
def Ahead (t : ClientLine σ) : Prop := ∀ y ∈ t.timers, t.now < y.1

theorem Ahead.of_awaits (h : t.Ahead) (hawaits : t.Awaits t') : t'.Ahead := by
  obtain ⟨hnow, new, hperm, hnew⟩ := hawaits
  intro y hy
  rw [hnow]
  rcases List.mem_append.1 (hperm.subset hy) with hy | hy
  · exact hnew y hy
  · exact h y hy

theorem ahead_moveTo (t : ClientLine σ) (time : Nat) : Ahead (Timeline.moveTo t time) :=
  fun _ hy => of_decide_eq_true (List.mem_filter.1 hy).2

theorem awaits_foldl {α : Type} {f : ClientLine σ → α → ClientLine σ}
    (hf : ∀ t x, Timeline.Awaits t (f t x)) (xs : List α) (t : ClientLine σ) :
    t.Awaits (xs.foldl f t) := by
  induction xs generalizing t with
  | nil => exact .of_eq rfl rfl
  | cons x xs ih => exact (hf t x).trans (ih _)

theorem awaits_launch (t : ClientLine σ) : t.Awaits t.launch := by
  have hclaimed : t.Awaits (t.modify fun x => { x with gate := t.world.gate.claim.2 }) :=
    .of_eq rfl rfl
  refine hclaimed.trans (awaits_foldl (f := fun t job => Timeline.spawn t
    ((loadDuties t.world.loading job.epoch).run.bind fun r => .done (.attempted job r)))
    (fun _ _ => .of_eq rfl rfl) t.world.gate.claim.1 _)

theorem awaits_follow (t : ClientLine σ) (x : List Order × Schedule) : t.Awaits (t.follow x) := by
  have htaken : t.Awaits (t.modify fun client => { client with schedule := x.2 }) := .of_eq rfl rfl
  refine htaken.trans (awaits_foldl (fun t order => ?_) x.1 _)
  cases order with
  | load e => exact .of_eq rfl rfl
  | dispatch set slot started =>
      exact awaits_foldl (f := (·.start · started)) (fun _ _ => .of_eq rfl rfl) _ t
  | forget oldest => exact .of_eq rfl rfl

theorem awaits_attempt (t : ClientLine σ) (job : LoadJob) : t.Awaits (t.attempt job) := by
  rw [ClientLine.attempt]
  split
  · exact awaits_follow t _
  · next job' _ =>
      have hqueued : t.Awaits (t.modify fun x => { x with gate := x.gate.push job' }) :=
        .of_eq rfl rfl
      exact hqueued.trans (awaits_launch _)

/-- Acting on a result takes no time. -/
theorem awaits_handle (signal : ClientSignal) (t : ClientLine σ) :
    t.Awaits (ClientLine.handle signal t) := by
  cases signal with
  | attempt job => exact awaits_attempt t job
  | attempted job result =>
      have hreleased : t.Awaits (t.modify fun x => { x with gate := x.gate.release }) :=
        .of_eq rfl rfl
      exact (hreleased.trans (awaits_launch _)).trans (.of_eq rfl rfl)
  | settled job result =>
      rw [ClientLine.handle, ClientLine.settled]
      split
      · exact awaits_follow t _
      · exact awaits_attempt t job
      · next delay hnonzero _ =>
          exact Timeline.awaits_latency hnonzero _
  | performed duty result => exact .of_eq rfl rfl

/-- Whoever lets time pass only takes steps that a course consists of. -/
theorem Course.settleIn {c : Collaborators σ} (h : Course c t log t') (count : Nat) :
    ∃ log', Course c t log' (Timeline.settleIn (Client.collaborators c) handle count t') ∧
      t'.Awaits (Timeline.settleIn (Client.collaborators c) handle count t') := by
  induction count generalizing t' log with
  | zero => exact ⟨log, h, .of_eq rfl rfl⟩
  | succ count ih =>
      rw [Timeline.settleIn]
      split
      case h_1 => exact ⟨log, h, .of_eq rfl rfl⟩
      case h_2 t₁ hturn =>
          obtain ⟨log', hcourse, hawaits⟩ := ih (h.turn hturn)
          exact ⟨log', hcourse, (Timeline.awaits_step _ hturn).trans hawaits⟩
      case h_3 signal t₁ hresult =>
          obtain ⟨log', hcourse, hawaits⟩ := ih (h.result hresult)
          exact ⟨log', hcourse,
            ((Timeline.awaits_step _ hresult).trans (awaits_handle signal t₁)).trans hawaits⟩

theorem Course.elapseIn {c : Collaborators σ} {deadline : Nat} (h : Course c t log t')
    (hahead : t'.Ahead) (hle : t'.now ≤ deadline) (count : Nat) :
    ∃ log', Course c t log'
      (Timeline.elapseIn (Client.collaborators c) handle deadline count t') := by
  induction count generalizing t' log with
  | zero => exact ⟨log, h.time hle⟩
  | succ count ih =>
      obtain ⟨log', hcourse, hawaits⟩ := h.settleIn Timeline.turns
      have hle' := hawaits.now.trans_le hle
      rw [Timeline.elapseIn]
      dsimp only [Timeline.settle]
      split
      case h_1 time htime =>
          split
          · next hlt =>
              obtain ⟨y, hy, rfl⟩ := Option.map_eq_some_iff.1 htime
              have hlater := hahead.of_awaits hawaits y (List.mem_of_head? hy)
              exact ih (hcourse.time hlater.le) (ahead_moveTo _ _) hlt.le
          · exact ⟨log', hcourse.time hle'⟩
      case h_2 => exact ⟨log', hcourse.time hle'⟩

theorem Course.sleepUntil {c : Collaborators σ} (h : Course c t log t') (hahead : t'.Ahead)
    (deadline : Nat) : ∃ log', Course c t log' (t'.sleepUntil c deadline) := by
  rw [ClientLine.sleepUntil, Timeline.elapse]
  split
  · exact ⟨log, h⟩
  · next hlt => exact h.elapseIn hahead (Nat.not_le.1 hlt).le _

end ClientLine

/-! ## The theorem -/

/-- **A load is attempted just as often as its policy allows.** Let `want j` say whether the epoch
    of a load is wanted in round `j`, and `out j` how the attempt of round `j` ends, and let `k` be
    the first round in which the epoch is not wanted, the attempt succeeds or fails for good, or is
    the last that the policy allows. Whatever is told to whom around a gate, in whatever order and
    after whatever times:

    * a load that is told these things and is over has asked `k` times and has made `k - 1` attempts
      if it was wanted no longer, else `k`; it returns what the first of these causes says; and
      between one attempt and the next question it has had the wait of the policy for that attempt;
    * a load that is told them and is not over has had fewer than `k` outcomes and has asked at most
      `k` times, the last of these only if it was wanted then;
    * no load asks again before it has waited after its attempt;
    * the slots of the gate and the places in line are those of the attempts that are under way, so
      that a load that waits has none of them.

    There is such a load for every epoch. And a client whose gate that is does nothing else with its
    loads, whatever its collaborators answer: the desk of loads behind it is told what the client
    tells its loads, and a load that waits is an alarm for the time until which it does. -/
theorem load_attempts_exact {σ : Type} (c : Collaborators σ) (p : RetryPolicy)
    (hpositive : p.maxAttempts ≠ some 0) (hcounted : ∀ m ∈ p.maxAttempts, m < Word.shortLimit)
    (want : Nat → Bool) (out : Nat → Except LoadError DutySet) (k : Nat)
    (hk : IsLeast {j | 0 < j ∧ LoadEnds p want out j} k) (e : Epoch) (g : Gate LoadJob)
    (hidle : LoadDesk.Idle { gate := g }) :
    (∀ log d, LoadDesk.Run p { gate := g } log d →
      (∀ x ∈ d.tales, x.Hears want out →
        (∀ result, x.stage = .finished result →
          result = loadEnding x.epoch want out k ∧ x.asks.length = k ∧
          x.ends.length = (if want k then k else k - 1) ∧
          x.waits = (List.range' 1 (k - 1)).map
            fun j => p.delay x.epoch (min j (Word.shortLimit - 1))) ∧
        ((∀ result, x.stage ≠ .finished result) →
          x.ends.length < k ∧ x.asks.length ≤ k ∧ (x.asks.length = k → want k = true)) ∧
        ∀ j a b, x.ends[j]? = some a → x.asks[j + 1]? = some b →
          a + p.delay x.epoch (min (j + 1) (Word.shortLimit - 1)) ≤ b) ∧
      (d.tales.filterMap (·.stage.attempting?)).Perm (d.running ++ d.gate.queue) ∧
      d.running.length = d.gate.inFlight) ∧
    (∃ log d x result, LoadDesk.Run p { gate := g } log d ∧ x ∈ d.tales ∧ x.epoch = e ∧
      x.stage = .finished result ∧ x.Hears want out) ∧
    ∀ x : Client σ, x.retry = p → x.gate = g → ∀ log t, ClientLine.Course c { world := x } log t →
      ∃ d, LoadDesk.Run p { gate := g } log d ∧ t.Tells p [] d := by
  have hp : p.Countable := ⟨hpositive, hcounted⟩
  refine ⟨fun log d hrun => ⟨fun x hx hheard => ?_, ?_⟩, LoadDesk.exists_finished hp e hidle hk, ?_⟩
  · have hfollows := hrun.followed hp (fun _ hnone => nomatch hnone) x hx want out hheard
    refine ⟨fun result hstage => ?_, fun hgoing => hfollows.lt hgoing hk, hfollows.pace⟩
    obtain ⟨hresult, hwaits, hasks, hends⟩ := hfollows.finished hstage hk
    exact ⟨hresult, hasks, hends, hwaits ▸ hfollows.waits⟩
  · have hseated := hrun.seated hidle.seated
    exact ⟨hseated.holders, hseated.slots⟩
  · rintro x hretry rfl log t hcourse
    exact hcourse.tells (ClientLine.tells_create hidle.queue hretry)

/-- A policy that allows two attempts. -/
def RetryPolicy.twice : RetryPolicy := { maxAttempts := some 2 }

/-- A load whose node is down is attempted twice, with one wait between; and what a client does that
    attempts its loads twice follows such a desk. -/
theorem load_attempts_exact_twice :
    (∃ log d x, LoadDesk.Run .twice { gate := .create loaderGate 1 } log d ∧ x ∈ d.tales ∧
      x.epoch = 4 ∧ x.ends.length = 2 ∧ x.waits = [RetryPolicy.twice.delay 4 1] ∧
      x.stage = .finished (.error (.retriesExhausted 4 2 (.api (.unavailable "down"))))) ∧
    ∃ log d, LoadDesk.Run .twice { gate := .create loaderGate 1 } log d ∧
      ClientLine.Tells (ClientLine.sleepUntil .proposing (ClientLine.onSlot
        { world := { Client.hasty with retry := .twice } } 9) 5000) .twice [] d := by
  have hk : IsLeast {j | 0 < j ∧ LoadEnds .twice (fun _ => true)
      (fun _ => .error (.api (.unavailable "down"))) j} 2 := by
    refine ⟨⟨by decide, .inr (.inr (.inr rfl))⟩, fun j ⟨hpos, hends⟩ => ?_⟩
    rcases hends with hgone | ⟨set, hset⟩ | ⟨cause, hcause, hfinal⟩ | hlast
    · exact nomatch hgone
    · exact nomatch hset
    · obtain rfl := Except.error.inj hcause
      exact nomatch hfinal
    · exact (Option.some.inj hlast).le
  obtain ⟨hdesk, ⟨log, d, x, result, hrun, hx, hepoch, hstage, hheard⟩, hclient⟩ :=
    load_attempts_exact .proposing .twice (by decide) (by decide) _ _ 2 hk 4 (.create loaderGate 1)
      ⟨rfl, rfl, by decide, rfl⟩
  obtain ⟨hover, -, -⟩ := (hdesk log d hrun).1 x hx hheard
  obtain ⟨hresult, -, hends, hwaits⟩ := hover result hstage
  rw [hepoch] at hresult hwaits
  have hahead : ClientLine.Ahead { world := { Client.hasty with retry := .twice } } := nofun
  obtain ⟨log', hcourse⟩ := ((ClientLine.Course.refl (c := .proposing)).slot 9).sleepUntil
    (hahead.of_awaits (ClientLine.awaits_follow _ _)) 5000
  exact ⟨⟨log, d, x, hrun, hx, hepoch, hends, hwaits, hstage.trans (congrArg _ hresult)⟩,
    log', hclient { Client.hasty with retry := .twice } rfl rfl _ _ hcourse⟩

end Beacon
