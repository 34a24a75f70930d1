import Mathlib
import Beacon.Gate.Basic
import Beacon.Proofs.Duties.Rounds
import Beacon.Proofs.Gate.Crowd

set_option autoImplicit false

/-! # Loads around the loader gate

Many loads go through their rounds at a time, and all their attempts pass one gate. A `LoadDesk` is
the gate with all loads that there have been, and `LoadDesk.Move` is what may happen next to any of
them: whatever an answer or an outcome is, and however long an attempt, or the way to the next
question, takes. What is kept through all moves says that every load is on its course
(`LoadDesk.Run.follows`), and that the slots and the places in line are those of the attempts that
are under way (`LoadDesk.Run.seated`): so a load that waits takes up none of them. -/

namespace Beacon

/-- What a load is told. -/
inductive LoadEvent where
  /-- Whether the epoch of a job is wanted, before an attempt. -/
  | asked (job : LoadJob) (wanted : Bool)
  /-- How an attempt ended. -/
  | ended (job : LoadJob) (outcome : Except LoadError DutySet)

/-- The loader gate with the loads around it. -/
structure LoadDesk where
  /-- Milliseconds since the beginning. -/
  now : Nat := 0
  gate : Gate LoadJob
  /-- The jobs whose attempts have a slot of the gate. -/
  running : List LoadJob := []
  /-- The loads that there have been, oldest first. -/
  tales : List LoadTale := []

/-- The job whose attempt is under way. -/
def LoadStage.attempting? : LoadStage → Option LoadJob
  | .attempting job => some job
  | _ => none

/-- What is picked out of a list, that of one entry first. -/
theorem filterMap_perm_middle {α β : Type} (f : α → Option β) (x : α) (before after : List α) :
    ((before ++ x :: after).filterMap f).Perm
      ((f x).toList ++ (before ++ after).filterMap f) := by
  refine (List.perm_middle.filterMap f).trans (.of_eq ?_)
  rw [List.filterMap_cons]
  cases f x <;> rfl

namespace LoadDesk

variable {p : RetryPolicy} {g : Gate LoadJob} {d d' : LoadDesk} {log : List LoadEvent}

/-! ## What may happen -/

/-- Let the gate give its free slots to the first in line. -/
def launch (d : LoadDesk) : LoadDesk :=
  { d with gate := d.gate.claim.2, running := d.running ++ d.gate.claim.1 }

/-- Queue an attempt of a job. -/
def push (d : LoadDesk) (job : LoadJob) : LoadDesk := { d with gate := d.gate.push job }

/-- What may happen next, with what a load is told thereby. -/
inductive Move (p : RetryPolicy) : LoadDesk → List LoadEvent → LoadDesk → Prop
  | begin (d : LoadDesk) (e : Epoch) : Move p d [] { d with tales := d.tales ++ [.begin e] }
  | pass {d : LoadDesk} {later : Nat} (h : d.now ≤ later) : Move p d [] { d with now := later }
  /-- A load that has waited asks, and its epoch is wanted: its attempt stands in line. -/
  | wanted {d : LoadDesk} {before after : List LoadTale} {x : LoadTale} {job job' : LoadJob}
      (h : d.tales = before ++ x :: after) (hstage : x.stage = .asking job) (hdue : x.due ≤ d.now)
      (hnext : job.next true = .ok job') :
      Move p d [.asked job true]
        ({ d with tales := before ++ x.ask d.now job true :: after }.push job').launch
  /-- A load that has waited asks, and its epoch is wanted no longer. -/
  | unwanted {d : LoadDesk} {before after : List LoadTale} {x : LoadTale} {job : LoadJob}
      (h : d.tales = before ++ x :: after) (hstage : x.stage = .asking job)
      (hdue : x.due ≤ d.now) :
      Move p d [.asked job false] { d with tales := before ++ x.ask d.now job false :: after }
  /-- An attempt that has a slot ends and gives it back. -/
  | release {d : LoadDesk} {before after : List LoadTale} {x : LoadTale} {job : LoadJob}
      {others others' : List LoadJob} (h : d.tales = before ++ x :: after)
      (hstage : x.stage = .attempting job) (hrunning : d.running = others ++ job :: others')
      (result : Attempt LoadError DutySet) :
      Move p d [] ({ d with
        gate := d.gate.release
        running := others ++ others'
        tales := before ++ { x with stage := .settling job result } :: after }.launch)
  /-- A load learns how its attempt ended. -/
  | learn {d : LoadDesk} {before after : List LoadTale} {x : LoadTale} {job : LoadJob}
      {result : Attempt LoadError DutySet} (h : d.tales = before ++ x :: after)
      (hstage : x.stage = .settling job result) :
      Move p d [.ended job (loadOutcome result)]
        { d with tales := before ++ x.learn p d.now job (loadOutcome result) :: after }

/-- One move after the other, with what loads have been told. -/
inductive Run (p : RetryPolicy) (d : LoadDesk) : List LoadEvent → LoadDesk → Prop
  | refl : Run p d [] d
  | tail {log new : List LoadEvent} {d' d'' : LoadDesk} (h : Run p d log d')
      (hmove : Move p d' new d'') : Run p d (log ++ new) d''

theorem Run.trans {log' : List LoadEvent} {d'' : LoadDesk} (h : Run p d log d')
    (hlater : Run p d' log' d'') : Run p d (log ++ log') d'' := by
  induction hlater with
  | refl => exact (List.append_nil log).symm ▸ h
  | tail _ hmove ih => exact List.append_assoc log .. ▸ ih.tail hmove

/-- Later moves of which loads are told nothing. -/
theorem Run.quiet {d'' : LoadDesk} (h : Run p d log d') (hlater : Run p d' [] d'') :
    Run p d log d'' := List.append_nil log ▸ h.trans hlater

/-! ## Who has a slot -/

/-- The jobs whose attempts are under way. -/
def attempts (d : LoadDesk) : List LoadJob := d.tales.filterMap (·.stage.attempting?)

/-- Slots and places in line are those of the attempts that are under way. -/
structure Seated (d : LoadDesk) : Prop where
  holders : d.attempts.Perm (d.running ++ d.gate.queue)
  slots : d.running.length = d.gate.inFlight

theorem Seated.launch (h : d.Seated) : d.launch.Seated where
  holders := by
    refine h.holders.trans (.of_eq ?_)
    rw [LoadDesk.launch, List.append_assoc, Gate.claim_append]
  slots := by
    rw [LoadDesk.launch, List.length_append, h.slots]
    rfl

/-- The attempts under way, that of one load first. -/
theorem attempts_middle {before after : List LoadTale} {x : LoadTale}
    (h : d.tales = before ++ x :: after) :
    d.attempts.Perm (x.stage.attempting?.toList ++
      (before ++ after).filterMap (·.stage.attempting?)) := by
  rw [attempts, h]
  exact filterMap_perm_middle (·.stage.attempting?) x before after

/-- The tale of one load goes on. -/
theorem Seated.retell {before after : List LoadTale} {x x' : LoadTale} (h : d.Seated)
    (htales : d.tales = before ++ x :: after) (htales' : d'.tales = before ++ x' :: after)
    (hslots : d'.running.length = d'.gate.inFlight)
    (hholders : ∀ others : List LoadJob,
      (x.stage.attempting?.toList ++ others).Perm (d.running ++ d.gate.queue) →
      (x'.stage.attempting?.toList ++ others).Perm (d'.running ++ d'.gate.queue)) : d'.Seated where
  holders := (attempts_middle htales').trans
    (hholders _ ((attempts_middle htales).symm.trans h.holders))
  slots := hslots

theorem Seated.move (h : d.Seated) (hmove : Move p d log d') : d'.Seated := by
  cases hmove with
  | begin e =>
      refine ⟨?_, h.slots⟩
      have hnew : ({ d with tales := d.tales ++ [.begin e] } : LoadDesk).attempts = d.attempts := by
        rw [attempts, List.filterMap_append]
        exact List.append_nil _
      exact hnew ▸ h.holders
  | pass hle => exact ⟨h.holders, h.slots⟩
  | @wanted before after x job job' htales hstage hdue hnext =>
      have hnew : (x.ask d.now job true).stage = .attempting job' := by
        simp only [LoadTale.ask, hnext]
      refine launch (h.retell htales rfl h.slots fun others hothers => ?_)
      rw [hstage] at hothers
      rw [hnew, push, Gate.push, ← List.append_assoc]
      exact (hothers.cons job').trans (List.perm_append_singleton job' _).symm
  | @unwanted before after x job htales hstage hdue =>
      refine h.retell htales rfl h.slots fun others hothers => ?_
      rw [hstage] at hothers
      exact hothers
  | @release before after x job others others' htales hstage hrunning result =>
      refine launch (h.retell htales rfl ?_ fun rest hrest => ?_)
      · have hslots := h.slots
        rw [hrunning, List.length_append, List.length_cons] at hslots
        rw [Gate.release, List.length_append, ← hslots]
        rfl
      · rw [hstage, hrunning, List.append_assoc] at hrest
        rw [List.append_assoc]
        exact (hrest.trans List.perm_middle).cons_inv
  | @learn before after x job result htales hstage =>
      refine h.retell htales rfl h.slots fun others hothers => ?_
      rw [hstage] at hothers
      have hnone : (x.learn p d.now job (loadOutcome result)).stage.attempting? = none := by
        rw [LoadTale.learn]
        split
        · rfl
        · rfl
      rw [hnone]
      exact hothers

theorem Run.seated (hrun : Run p d log d') (h : d.Seated) : d'.Seated := by
  induction hrun with
  | refl => exact h
  | tail _ hmove ih => exact ih.move hmove

/-! ## Courses -/

/-- Every load is on its course, whatever it has been told. -/
def Followed (p : RetryPolicy) (d : LoadDesk) : Prop :=
  ∀ x ∈ d.tales, ∀ want out, x.Hears want out → x.Follows p want out

/-- The tale of one load goes on. -/
theorem Followed.retell {before after : List LoadTale} {x x' : LoadTale} (h : d.Followed p)
    (htales : d.tales = before ++ x :: after) (htales' : d'.tales = before ++ x' :: after)
    (hnew : (∀ want out, x.Hears want out → x.Follows p want out) →
      ∀ want out, x'.Hears want out → x'.Follows p want out) : d'.Followed p := by
  intro y hy
  rw [htales'] at hy
  rcases List.mem_append.1 hy with hy | hy
  · exact h y (htales ▸ List.mem_append_left _ hy)
  rcases List.mem_cons.1 hy with rfl | hy
  · exact hnew (h x (htales ▸ List.mem_append_right _ List.mem_cons_self))
  · exact h y (htales ▸ List.mem_append_right _ (List.mem_cons_of_mem _ hy))

theorem Followed.move (hp : p.Countable) (h : d.Followed p) (hmove : Move p d log d') :
    d'.Followed p := by
  cases hmove with
  | begin e =>
      intro x hx want out _
      rcases List.mem_append.1 hx with hx | hx
      · exact h x hx want out ‹_›
      · obtain rfl := List.mem_singleton.1 hx
        exact LoadTale.follows_begin e
  | pass hle => exact h
  | wanted htales hstage hdue hnext =>
      refine h.retell htales rfl fun hfollows want out hheard => ?_
      exact (hfollows want out (LoadTale.hears_ask.1 hheard).1).ask hstage hdue hheard
  | unwanted htales hstage hdue =>
      refine h.retell htales rfl fun hfollows want out hheard => ?_
      exact (hfollows want out (LoadTale.hears_ask.1 hheard).1).ask hstage hdue hheard
  | release htales hstage hrunning result =>
      refine h.retell htales rfl fun hfollows want out hheard => ?_
      have hold := hfollows want out hheard
      have hat := hold.stage
      rw [hstage] at hat
      exact { hold with stage := hat }
  | learn htales hstage =>
      refine h.retell htales rfl fun hfollows want out hheard => ?_
      exact (hfollows want out (LoadTale.hears_learn.1 hheard).1).learn hp hstage hheard

theorem Run.followed (hp : p.Countable) (hrun : Run p d log d') (h : d.Followed p) :
    d'.Followed p := by
  induction hrun with
  | refl => exact h
  | tail _ hmove ih => exact ih.move hp hmove

/-! ## Every course is taken -/

/-- Nobody uses the gate, and it lets somebody in. -/
structure Idle (d : LoadDesk) : Prop where
  queue : d.gate.queue = []
  inFlight : d.gate.inFlight = 0
  limit : 0 < d.gate.limit
  running : d.running = []

theorem Idle.seated (h : Idle { gate := g }) : Seated { gate := g } where
  holders := .of_eq h.queue.symm
  slots := h.inFlight.symm

/-- Where nobody else is, a load that asks and is wanted has a slot at once. -/
theorem Idle.exists_asked (h : d.Idle) {x : LoadTale} {job : LoadJob} (htales : d.tales = [x])
    (hstage : x.stage = .asking job) :
    ∃ log d' now, Run p d log d' ∧ d'.tales = [x.ask now job true] ∧
      d'.running = [⟨job.epoch, min (job.attempts + 1) LoadJob.maxAttempts⟩] ∧
      d'.gate = { d.gate with inFlight := 1, queue := [] } := by
  obtain ⟨hqueue, hinFlight, hlimit, hrunning⟩ := h
  have hwaited := (Run.refl (p := p) (d := d)).tail (.pass (le_max_left d.now x.due))
  have hlone : d.tales = [] ++ x :: [] := htales
  have hasked := hwaited.tail (.wanted hlone hstage (le_max_right _ _) rfl)
  have htake (job : LoadJob) : [job].take d.gate.limit = [job] := List.take_of_length_le hlimit
  have hdrop (job : LoadJob) : [job].drop d.gate.limit = [] := List.drop_of_length_le hlimit
  refine ⟨_, _, _, hasked, rfl, ?_, ?_⟩
  · simp [launch, push, Gate.push, Gate.claim, Gate.room, hqueue, hinFlight, hrunning, htake]
  · simp [launch, push, Gate.push, Gate.claim, Gate.room, hqueue, hinFlight, htake, hdrop]

/-- Where nobody else is, a load that asks and is wanted attempts at once, and learns what comes of
    it. -/
theorem Idle.exists_attempt (h : d.Idle) {x : LoadTale} {job : LoadJob} (htales : d.tales = [x])
    (hstage : x.stage = .asking job) (result : Attempt LoadError DutySet) :
    ∃ log d' now, Run p d log d' ∧ d'.Idle ∧ d'.tales = [(x.ask now job true).learn p d'.now
      ⟨job.epoch, min (job.attempts + 1) LoadJob.maxAttempts⟩ (loadOutcome result)] := by
  obtain ⟨log, d₁, now, hasked, htales₁, hrunning, hgate⟩ := h.exists_asked (p := p) htales hstage
  have hlone : d₁.tales = [] ++ x.ask now job true :: [] := htales₁
  have hslot : d₁.running =
      [] ++ ⟨job.epoch, min (job.attempts + 1) LoadJob.maxAttempts⟩ :: [] := hrunning
  have hreleased := hasked.tail (.release hlone rfl hslot result)
  have hlearned := hreleased.tail (.learn rfl rfl)
  refine ⟨_, _, now, hlearned, ⟨?_, ?_, ?_, ?_⟩, congrArg (fun y => [y]) ?_⟩
  · simp [launch, hgate, Gate.release, Gate.claim]
  · simp [launch, hgate, Gate.release, Gate.claim]
  · simpa [launch, hgate, Gate.release, Gate.claim] using h.limit
  · simp [launch, hgate, Gate.release, Gate.claim]
  · rw [LoadTale.learn, LoadTale.learn]

/-- Where nobody else is, a load that asks and is wanted no longer is over at once. -/
theorem exists_unwanted {x : LoadTale} {job : LoadJob} (htales : d.tales = [x])
    (hstage : x.stage = .asking job) :
    ∃ log d' now, Run p d log d' ∧ d'.tales = [x.ask now job false] := by
  have hwaited := (Run.refl (p := p) (d := d)).tail (.pass (le_max_left d.now x.due))
  have hlone : d.tales = [] ++ x :: [] := htales
  have hasked := hwaited.tail (.unwanted hlone hstage (le_max_right _ _))
  exact ⟨_, _, _, hasked, rfl⟩

variable {want : Nat → Bool} {out : Nat → Except LoadError DutySet} {n : Nat}

/-- Every outcome is that of an attempt. -/
theorem exists_loadOutcome (outcome : Except LoadError DutySet) :
    ∃ result, loadOutcome result = outcome := by
  cases outcome with
  | ok set => exact ⟨.ok set, rfl⟩
  | error cause => exact ⟨.error (.rejected cause), rfl⟩

/-- A load that asks has heard as many answers and outcomes as it has been through rounds. -/
theorem Run.exists_job (hp : p.Countable) (hrun : Run p { gate := g } log d) {x : LoadTale}
    {job : LoadJob} (hmem : x ∈ d.tales) (hheard : x.Hears want out)
    (hstage : x.stage = .asking job) :
    job = ⟨x.epoch, min x.waits.length LoadJob.maxAttempts⟩ ∧
      x.answers.length = x.waits.length ∧ x.outcomes.length = x.waits.length := by
  have hfollows := hrun.followed hp (fun _ hnone => nomatch hnone) x hmem want out hheard
  have hat := hfollows.stage
  rw [hstage] at hat
  obtain ⟨hjob, ⟨hasks, hends⟩, -⟩ := hat
  exact ⟨hjob, hfollows.lengths.1.trans hasks, hfollows.lengths.2.trans hends⟩

/-- A load goes on to the outcome of its next round. -/
theorem exists_outcome (hp : p.Countable) (hrun : Run p { gate := g } log d) (hidle : d.Idle)
    {x : LoadTale} {job : LoadJob} (htales : d.tales = [x]) (hheard : x.Hears want out)
    (hstage : x.stage = .asking job) (hwant : want (x.waits.length + 1) = true) :
    ∃ log d' y now, Run p { gate := g } log d' ∧ d'.Idle ∧ d'.tales = [y] ∧ y.Hears want out ∧
      y = (x.ask now job true).learn p d'.now
        ⟨x.epoch, min (x.waits.length + 1) LoadJob.maxAttempts⟩ (out (x.waits.length + 1)) := by
  obtain ⟨rfl, hanswers, houtcomes⟩ :=
    hrun.exists_job hp (htales ▸ List.mem_singleton_self x) hheard hstage
  obtain ⟨result, hresult⟩ := exists_loadOutcome (out (x.waits.length + 1))
  obtain ⟨log', d', now, hattempt, hd', htales'⟩ :=
    hidle.exists_attempt (p := p) htales hstage result
  have hcount : min (min x.waits.length LoadJob.maxAttempts + 1) LoadJob.maxAttempts =
      min (x.waits.length + 1) LoadJob.maxAttempts := by
    lia
  rw [hresult, hcount] at htales'
  refine ⟨_, d', _, now, hrun.trans hattempt, hd', htales', ?_, rfl⟩
  refine LoadTale.hears_learn.2 ⟨LoadTale.hears_ask.2 ⟨hheard, ?_⟩, ?_⟩
  · rw [hanswers, hwant]
  · exact congrArg (fun n => out (n + 1)) houtcomes.symm

/-- A load goes through every round after which it does not end. -/
theorem exists_rounds (hp : p.Countable) (e : Epoch) (hidle : Idle { gate := g })
    (hgoing : ∀ i, 0 < i → i ≤ n → ¬ LoadEnds p want out i) :
    ∃ log d x job, Run p { gate := g } log d ∧ d.Idle ∧ d.tales = [x] ∧ x.epoch = e ∧
      x.stage = .asking job ∧ x.waits.length = n ∧ x.Hears want out := by
  induction n with
  | zero =>
      have hbegun : Idle { gate := g, tales := [.begin e] } :=
        ⟨hidle.queue, hidle.inFlight, hidle.limit, rfl⟩
      exact ⟨_, _, _, _, Run.refl.tail (.begin _ e), hbegun, rfl, rfl, rfl, rfl, rfl, rfl⟩
  | succ n ih =>
      have hgoing' (i : Nat) (hpos : 0 < i) (hle : i ≤ n) : ¬ LoadEnds p want out i :=
        hgoing i hpos (Nat.le_succ_of_le hle)
      obtain ⟨log, d, x, job, hrun, hd, htales, rfl, hstage, rfl, hheard⟩ := ih hgoing'
      have hends := hgoing _ (Nat.succ_pos _) le_rfl
      have hwant : want (x.waits.length + 1) = true :=
        Bool.eq_true_of_not_eq_false fun hnot => hends (.inl hnot)
      obtain ⟨log', d', y, now, hrun', hd', htales', hheard', rfl⟩ :=
        exists_outcome hp hrun hd htales hheard hstage hwant
      rw [LoadTale.learn, LoadJob.verdict_of_not_ends hp hgoing' hends] at htales' hheard'
      refine ⟨log', d', _, _, hrun', hd', htales', rfl, rfl, ?_, hheard'⟩
      exact List.length_append

/-- Every load comes to its end. -/
theorem exists_finished (hp : p.Countable) (e : Epoch) (hidle : Idle { gate := g }) {k : Nat}
    (hk : IsLeast {i | 0 < i ∧ LoadEnds p want out i} k) :
    ∃ log d x result, Run p { gate := g } log d ∧ x ∈ d.tales ∧ x.epoch = e ∧
      x.stage = .finished result ∧ x.Hears want out := by
  obtain ⟨n, rfl⟩ := Nat.exists_eq_succ_of_ne_zero hk.1.1.ne'
  have hgoing (i : Nat) (hpos : 0 < i) (hle : i ≤ n) : ¬ LoadEnds p want out i :=
    fun hends => absurd (hk.2 ⟨hpos, hends⟩) (Nat.not_le.2 (Nat.lt_succ_of_le hle))
  obtain ⟨log, d, x, job, hrun, hd, htales, rfl, hstage, rfl, hheard⟩ :=
    exists_rounds hp e hidle hgoing
  obtain ⟨-, hanswers, -⟩ :=
    hrun.exists_job hp (htales ▸ List.mem_singleton_self x) hheard hstage
  cases hwant : want (x.waits.length + 1) with
  | true =>
      obtain ⟨log', d', y, now, hrun', -, htales', hheard', rfl⟩ :=
        exists_outcome hp hrun hd htales hheard hstage hwant
      have hmem := htales' ▸ List.mem_singleton_self _
      rw [LoadTale.learn, LoadJob.verdict_of_ends hp hgoing hwant hk.1.2] at hmem hheard'
      exact ⟨log', d', _, _, hrun', hmem, rfl, rfl, hheard'⟩
  | false =>
      obtain ⟨log', d', now, hunwanted, htales'⟩ := exists_unwanted (p := p) htales hstage
      have hmem : x.ask now job false ∈ d'.tales := htales' ▸ List.mem_singleton_self _
      refine ⟨_, d', _, _, hrun.trans hunwanted, hmem, rfl, rfl, ?_⟩
      exact LoadTale.hears_ask.2 ⟨hheard, by rw [hanswers, hwant]⟩

end LoadDesk

end Beacon
