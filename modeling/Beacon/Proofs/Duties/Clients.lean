import Mathlib
import Beacon.Duties.Client
import Beacon.Proofs.Attempts
import Beacon.Proofs.Duties.Accounts
import Beacon.Proofs.Duties.Turns
import Beacon.Proofs.Gate.Crowd

set_option autoImplicit false

/-! # Validator clients are services

A validator client carries out the orders of its schedule as processes on a timeline. Whatever its
collaborators answer, and in whatever order signals, turns and times come, there is a service behind
it that follows it (`ClientLine.Run.shown`): each of its processes is a load that is under way or a
duty that is being performed, and each of these has one process, or waits as a load in front of the
loader gate. So what holds of every service holds of every client. -/

namespace Beacon

/-- What a process of a client is for. -/
inductive Purpose where
  | load (epoch : Epoch)
  | duty (d : Duty)

/-- The epoch that a process loads. -/
def Purpose.load? : Purpose → Option Epoch
  | .load epoch => some epoch
  | .duty _ => none

/-- The duty that a process performs. -/
def Purpose.duty? : Purpose → Option Duty
  | .load _ => none
  | .duty d => some d

theorem filterMap_load?_map {α : Type} (f : α → Epoch) (xs : List α) :
    (xs.map fun x => Purpose.load (f x)).filterMap Purpose.load? = xs.map f := by
  rw [List.filterMap_map]
  exact congrFun List.filterMap_eq_map xs

theorem filterMap_duty?_map (ds : List Duty) :
    (ds.map Purpose.duty).filterMap Purpose.duty? = ds := by
  rw [List.filterMap_map]
  exact List.filterMap_some

theorem filterMap_duty?_map_load {α : Type} (f : α → Epoch) (xs : List α) :
    (xs.map fun x => Purpose.load (f x)).filterMap Purpose.duty? = [] := by
  rw [List.filterMap_map]
  exact List.filterMap_eq_nil_iff.2 fun _ _ => rfl

theorem filterMap_load?_map_duty (ds : List Duty) :
    (ds.map Purpose.duty).filterMap Purpose.load? = [] := by
  rw [List.filterMap_map]
  exact List.filterMap_eq_nil_iff.2 fun _ _ => rfl

/-- What processes with a purpose result in. -/
def ClientSignal.Serves : ClientSignal → Purpose → Prop
  | .attempt job, p => p = .load job.epoch
  | .attempted job _, p => p = .load job.epoch
  | .settled job _, p => p = .load job.epoch
  | .performed d _, p => p = .duty d

namespace ClientLine

variable {σ : Type} {t t' : ClientLine σ} {v w : Service} {p : Purpose} {hand : List Purpose}
variable {orders : List Order} {signals : List (Slot × Nat)} {e : Epoch}

/-- Each load and each duty has a task, or is in hand; or it is a load that waits in a queue. -/
structure Staffed (tasks : List (Task ClientSignal)) (queue : List LoadJob) (hand : List Purpose)
    (loads : List Epoch) (duties : List Duty) (purposes : List Purpose) : Prop where
  held : Held ClientSignal.Serves tasks purposes
  loads : loads.Perm ((hand ++ purposes).filterMap Purpose.load? ++ queue.map (·.epoch))
  duties : duties.Perm ((hand ++ purposes).filterMap Purpose.duty?)

/-- A service behind a client that has these orders to carry out, has these processes in hand, and
    has been told of these slots. -/
structure Shows (t : ClientLine σ) (hand : List Purpose) (orders : List Order)
    (signals : List (Slot × Nat)) (w : Service) : Prop where
  schedule : w.schedule = t.world.schedule
  orders : w.orders = orders
  signalled : w.signalled = signals
  idle : w.arriving = [] ∧ w.entering = [] ∧ w.serving = []
  reports : w.reports = t.world.reports
  sound : t.Sound none
  staffed : ∃ purposes, Staffed t.tasks t.world.gate.queue hand w.loads w.duties purposes

/-! ## Processes -/

/-- What is in hand gets a task. -/
theorem Staffed.employ {tasks tasks' : List (Task ClientSignal)} {queue : List LoadJob}
    {loads : List Epoch} {duties : List Duty} {purposes : List Purpose}
    (h : Staffed tasks queue (p :: hand) loads duties purposes)
    (hheld : Held ClientSignal.Serves tasks' (p :: purposes)) :
    Staffed tasks' queue hand loads duties (p :: purposes) where
  held := hheld
  loads := h.loads.trans ((List.perm_middle.symm.filterMap _).append_right _)
  duties := h.duties.trans (List.perm_middle.symm.filterMap _)

theorem Shows.spawn (h : t.Shows (p :: hand) orders signals w) {process : Process ClientSignal}
    (hprocess : process.Ends (ClientSignal.Serves · p)) :
    Shows (Timeline.spawn t process) hand orders signals w := by
  obtain ⟨purposes, hstaffed⟩ := h.staffed
  have hheld := Timeline.held_spawn hstaffed.held hprocess
  exact { h with
    sound := h.sound.spawn process
    staffed := ⟨p :: purposes, hstaffed.employ hheld⟩ }

theorem Shows.wait (h : t.Shows (p :: hand) orders signals w) (time : Nat)
    {task : Task ClientSignal} (htask : task.Ends (ClientSignal.Serves · p)) :
    Shows (Timeline.wait t time task) hand orders signals w := by
  obtain ⟨purposes, hstaffed⟩ := h.staffed
  have hheld := Timeline.held_wait hstaffed.held time htask
  exact { h with
    sound := h.sound.wait time task
    staffed := ⟨p :: purposes, hstaffed.employ hheld⟩ }

theorem Shows.moveTo (h : t.Shows hand orders signals w) (time : Nat) :
    Shows (Timeline.moveTo t time) hand orders signals w := by
  obtain ⟨purposes, hstaffed⟩ := h.staffed
  exact { h with
    sound := h.sound.moveTo time
    staffed :=
      ⟨purposes, Timeline.held_moveTo hstaffed.held time, hstaffed.loads, hstaffed.duties⟩ }

/-- A turn leaves a service as it is; a process that is done is in hand. -/
theorem Shows.step (c : Collaborators σ) {x : Option ClientSignal × ClientLine σ}
    (h : t.Shows [] orders signals w) (hstep : Timeline.step (Client.collaborators c) t = some x) :
    match x.1 with
    | none => x.2.Shows [] orders signals w
    | some result => ∃ p, result.Serves p ∧ x.2.Shows [p] orders signals w := by
  obtain ⟨purposes, hstaffed⟩ := h.staffed
  obtain ⟨p, rest, hperm, hsound, hran⟩ := Timeline.ran_step _ h.sound hstaffed.held hstep
  -- A process changes nothing of the client but the others, whom it calls.
  obtain ⟨hschedule, hgate, hreports⟩ : x.2.world.schedule = t.world.schedule ∧
      x.2.world.gate = t.world.gate ∧ x.2.world.reports = t.world.reports :=
    Timeline.world_step (Client.collaborators c)
      (P := fun world => world.schedule = t.world.schedule ∧ world.gate = t.world.gate ∧
        world.reports = t.world.reports)
      (fun _ _ _ hworld => hworld) (fun _ _ hworld => hworld) ⟨rfl, rfl, rfl⟩ hstep
  have hloads := hstaffed.loads.trans ((hperm.filterMap _).append_right _)
  have hduties := hstaffed.duties.trans (hperm.filterMap _)
  rw [← hgate] at hloads
  rcases x with ⟨result | _, line⟩
  · exact { h with
      schedule := h.schedule.trans hschedule.symm
      reports := h.reports.trans hreports.symm
      sound := hsound
      staffed := ⟨_, hran, hloads, hduties⟩ }
  · exact ⟨p, hran.1, { h with
      schedule := h.schedule.trans hschedule.symm
      reports := h.reports.trans hreports.symm
      sound := hsound
      staffed := ⟨_, hran.2, hloads, hduties⟩ }⟩

/-- A change of the client beside its processes. -/
theorem Shows.modify {hand' : List Purpose} {orders' : List Order} {signals' : List (Slot × Nat)}
    {f : Client σ → Client σ} (h : t.Shows hand orders signals w)
    (hschedule : v.schedule = (f t.world).schedule) (horders : v.orders = orders')
    (hsignalled : v.signalled = signals')
    (hidle : v.arriving = [] ∧ v.entering = [] ∧ v.serving = [])
    (hreports : v.reports = (f t.world).reports)
    (hstaffed : ∀ purposes, Staffed t.tasks t.world.gate.queue hand w.loads w.duties purposes →
      Staffed t.tasks (f t.world).gate.queue hand' v.loads v.duties purposes) :
    (t.modify f).Shows hand' orders' signals' v where
  schedule := hschedule
  orders := horders
  signalled := hsignalled
  idle := hidle
  reports := hreports
  sound := h.sound.of_active rfl (List.Subset.refl _)
  staffed := h.staffed.imp hstaffed

/-! ## Orders -/

theorem Shows.spawnAll {α : Type} {xs : List α} {purpose : α → Purpose}
    (h : t.Shows (xs.map purpose ++ hand) orders signals w)
    (process : ClientLine σ → α → Process ClientSignal)
    (hprocess : ∀ t x, (process t x).Ends (ClientSignal.Serves · (purpose x))) :
    Shows (xs.foldl (fun t x => Timeline.spawn t (process t x)) t) hand orders signals w := by
  induction xs generalizing t with
  | nil => exact h
  | cons x xs ih => exact ih (h.spawn (hprocess t x))

/-- A load that the gate admits gets a process. -/
theorem Shows.launch (h : t.Shows hand orders signals w) :
    t.launch.Shows hand orders signals w := by
  -- What is claimed leaves the queue and is in hand until it gets its process.
  have hclaimed : (t.modify fun x => { x with gate := t.world.gate.claim.2 }).Shows
      (t.world.gate.claim.1.map (fun job => .load job.epoch) ++ hand) orders signals w := by
    refine h.modify h.schedule h.orders h.signalled h.idle h.reports fun purposes hstaffed => ?_
    refine ⟨hstaffed.held, hstaffed.loads.trans ?_, hstaffed.duties.trans (.of_eq ?_)⟩
    · rw [← t.world.gate.claim_append]
      simp only [List.map_append, List.filterMap_append, filterMap_load?_map]
      rw [List.append_assoc (t.world.gate.claim.1.map _),
        List.append_assoc (t.world.gate.claim.1.map _)]
      exact List.perm_append_comm_assoc _ _ _
    · simp only [List.filterMap_append, filterMap_duty?_map_load, List.nil_append]
  exact hclaimed.spawnAll (fun t job => (loadDuties t.world.loading job.epoch).run.bind fun r =>
    .done (.attempted job r)) fun t job => Process.ends_bind _ fun _ => rfl

theorem Shows.obey {o : Order} (h : t.Shows hand (o :: orders) signals w) :
    ∃ w', Relation.ReflTransGen Service.Step w w' ∧ (t.obey o).Shows hand orders signals w' := by
  -- The service carries the order out first, so that what is begun is in hand.
  have hcarry : w.orders = [] ++ o :: orders := h.orders
  refine ⟨_, .single (.carry hcarry), ?_⟩
  cases o with
  | load e =>
      have hcarried : t.Shows (.load e :: hand) orders signals
          { w with orders, loads := w.loads ++ [e] } := by
        refine h.modify (f := id) h.schedule rfl h.signalled h.idle h.reports
          fun purposes hstaffed => ⟨hstaffed.held, ?_, hstaffed.duties⟩
        exact List.perm_append_comm.trans (hstaffed.loads.cons e)
      exact hcarried.spawn rfl
  | dispatch set slot started =>
      have hcarried : t.Shows ((set.dutiesAt slot).map .duty ++ hand) orders signals
          { w with
            orders
            dispatched := w.dispatched ++ [(set, slot, started)]
            duties := w.duties ++ set.dutiesAt slot } := by
        refine h.modify (f := id) h.schedule rfl h.signalled h.idle h.reports
          fun purposes hstaffed => ⟨hstaffed.held, hstaffed.loads.trans (.of_eq ?_), ?_⟩
        · simp only [List.filterMap_append, filterMap_load?_map_duty, List.nil_append]
          rfl
        · rw [List.append_assoc, List.filterMap_append, filterMap_duty?_map]
          exact List.perm_append_comm.trans (hstaffed.duties.append_left _)
      refine hcarried.spawnAll (fun t d => .pause ((d.perform t.world.execution started).run.bind
        fun r => .done (.performed d r))) fun t d => ?_
      exact Process.ends_bind (P := (ClientSignal.Serves · (.duty d))) _ fun _ => rfl
  | forget oldest =>
      obtain ⟨hforks, htickets, hasking⟩ := h.sound.forks.prune oldest
      obtain ⟨purposes, hstaffed⟩ := h.staffed
      have hheld := Timeline.held_of_tickets hstaffed.held htickets
      exact { h with
        orders := rfl
        sound := ⟨hforks, fun i hi => h.sound.asked i (hasking i hi)⟩
        staffed := ⟨purposes, hheld, hstaffed.loads, hstaffed.duties⟩ }

/-- The orders of a schedule are carried out one after the other. -/
theorem Shows.obeyAll (h : t.Shows hand orders signals w) :
    ∃ w', Relation.ReflTransGen Service.Step w w' ∧
      (orders.foldl ClientLine.obey t).Shows hand [] signals w' := by
  induction orders generalizing t w with
  | nil => exact ⟨w, .refl, h⟩
  | cons o orders ih =>
      obtain ⟨w₁, hcarried, hshows⟩ := h.obey
      obtain ⟨w₂, hrest, hlast⟩ := ih hshows
      exact ⟨w₂, hcarried.trans hrest, hlast⟩

/-- A schedule is taken over with its orders. -/
theorem Shows.follow {hand' : List Purpose} {signals' : List (Slot × Nat)}
    {x : List Order × Schedule} (h : t.Shows hand orders signals w)
    (hschedule : v.schedule = x.2) (horders : v.orders = x.1) (hsignalled : v.signalled = signals')
    (hidle : v.arriving = [] ∧ v.entering = [] ∧ v.serving = []) (hreports : v.reports = w.reports)
    (hstaffed : ∀ purposes, Staffed t.tasks t.world.gate.queue hand w.loads w.duties purposes →
      Staffed t.tasks t.world.gate.queue hand' v.loads v.duties purposes) :
    ∃ w', Relation.ReflTransGen Service.Step v w' ∧ (t.follow x).Shows hand' [] signals' w' :=
  obeyAll (h.modify (f := fun client => { client with schedule := x.2 }) hschedule horders
    hsignalled hidle (hreports.trans h.reports) hstaffed)

/-! ## Signals -/

theorem Shows.onEpoch (h : t.Shows [] [] signals w) (e : Epoch) :
    ∃ w', Relation.ReflTransGen Service.Step w w' ∧ (t.onEpoch e).Shows [] [] signals w' := by
  obtain ⟨w', hsteps, hshows⟩ := h.follow (v := w.advance e) (x := t.world.schedule.onEpoch e)
    (congrArg (fun s => (s.onEpoch e).2) h.schedule)
    (by rw [Service.advance, h.orders, h.schedule, List.nil_append]) h.signalled h.idle rfl
    fun _ => id
  exact ⟨w', .head (.epoch w e) hsteps, hshows⟩

/-- A slot signal lets its epoch begin if it is later than the current one. -/
theorem Shows.exists_entered (h : t.Shows [] [] signals w) (x : Slot × Nat) :
    ∃ w', Relation.ReflTransGen Service.Step w w' ∧
      w'.schedule = (t.world.schedule.enter (x.1 / t.world.schedule.slotsPerEpoch)).2 ∧
      w'.orders = (t.world.schedule.enter (x.1 / t.world.schedule.slotsPerEpoch)).1 ∧
      (w'.arriving = [] ∧ w'.entering = [] ∧ w'.serving = [x]) ∧
      w'.signalled = signals ++ [x] ∧ w'.reports = w.reports ∧ w'.loads = w.loads ∧
      w'.duties = w.duties := by
  obtain ⟨harriving, hentering, hserving⟩ := h.idle
  have harrived : ({ w with
      arriving := w.arriving ++ [x]
      signalled := w.signalled ++ [x] } : Service).arriving = [] ++ x :: [] := by
    simp only [harriving, List.nil_append]
  have hcompared := (Relation.ReflTransGen.single (Service.Step.slot w x)).tail (.compare harrived)
  have hsignalled : w.signalled ++ [x] = signals ++ [x] := congrArg (· ++ [x]) h.signalled
  rw [← h.schedule, Schedule.enter]
  by_cases hlater : w.schedule.current.all (· < x.1 / w.schedule.slotsPerEpoch)
  · -- Nobody comes between the comparison and the beginning of the epoch.
    rw [if_pos hlater]
    rw [Service.compare_of_later (w := { w with
      arriving := [] ++ []
      signalled := w.signalled ++ [x] }) hlater] at hcompared
    have hentered := hcompared.tail (@Service.Step.enter _ x [] [] (by
      simp only [hentering, List.nil_append]))
    refine ⟨_, hentered, rfl, ?_, ⟨rfl, rfl, ?_⟩, hsignalled, rfl, rfl, rfl⟩
    · exact congrArg (· ++ _) h.orders
    · exact congrArg (· ++ [x]) hserving
  · rw [if_neg hlater]
    rw [Service.compare_of_not_later (w := { w with
      arriving := [] ++ []
      signalled := w.signalled ++ [x] }) hlater] at hcompared
    exact ⟨_, hcompared, rfl, h.orders, ⟨rfl, hentering, congrArg (· ++ [x]) hserving⟩, hsignalled,
      rfl, rfl, rfl⟩

theorem Shows.onSlot (h : t.Shows [] [] signals w) (slot : Slot) :
    ∃ w', Relation.ReflTransGen Service.Step w w' ∧
      (t.onSlot slot).Shows [] [] (signals ++ [(slot, t.now)]) w' := by
  obtain ⟨w₁, hentered, hschedule, horders, ⟨harriving, hentering, hserving⟩, hsignalled, hreports,
    hloads, hduties⟩ := h.exists_entered (slot, t.now)
  have hserved := hentered.tail (@Service.Step.serve w₁ (slot, t.now) [] [] hserving)
  have honSlot := t.world.schedule.onSlot_eq slot t.now
  rw [← hschedule, ← horders] at honSlot
  obtain ⟨w', hsteps, hshows⟩ := h.follow (x := t.world.schedule.onSlot slot t.now)
    (v := { w₁ with serving := [] ++ [] }.serve (slot, t.now)) (congrArg (·.2) honSlot.symm)
    (congrArg (·.1) honSlot.symm) hsignalled ⟨harriving, hentering, rfl⟩ hreports
    fun purposes hstaffed => ⟨hstaffed.held, hloads ▸ hstaffed.loads, hduties ▸ hstaffed.duties⟩
  exact ⟨w', hserved.trans hsteps, hshows⟩

/-- A load ends whose process is in hand. -/
theorem Shows.finish (h : t.Shows [.load e] [] signals w) (result : Except LoadError DutySet) :
    ∃ w', Relation.ReflTransGen Service.Step w w' ∧
      (t.follow (t.world.schedule.finish e result)).Shows [] [] signals w' := by
  obtain ⟨purposes, hstaffed⟩ := h.staffed
  obtain ⟨before, after, hloads, hrest⟩ := exists_append_of_cons_perm hstaffed.loads.symm
  have hstaffed' : ∀ purposes,
      Staffed t.tasks t.world.gate.queue [.load e] w.loads w.duties purposes →
      Staffed t.tasks t.world.gate.queue [] (before ++ after) w.duties purposes :=
    fun purposes hstaffed => ⟨hstaffed.held,
      (List.perm_middle.symm.trans (hloads ▸ hstaffed.loads)).cons_inv, hstaffed.duties⟩
  obtain ⟨w', hsteps, hshows⟩ := h.follow (x := t.world.schedule.finish e result)
    (v := { w with loads := before ++ after }.finish e result)
    (congrArg (fun s => (s.finish e result).2) h.schedule)
    (by rw [Service.finish, h.orders, h.schedule, List.nil_append]) h.signalled h.idle rfl hstaffed'
  exact ⟨w', .head (.finish hloads result) hsteps, hshows⟩

/-! ## Results of processes -/

/-- A load whose epoch is wanted no longer ends; any other one stands in line for the gate. -/
theorem Shows.attempt {job : LoadJob} (h : t.Shows [.load job.epoch] [] signals w) :
    ∃ w', Relation.ReflTransGen Service.Step w w' ∧ (t.attempt job).Shows [] [] signals w' := by
  rw [ClientLine.attempt, LoadJob.next]
  split
  case h_1 => exact h.finish _
  case h_2 job' hnext =>
      have hepoch : job'.epoch = job.epoch := by
        split at hnext
        · rw [← Except.ok.inj hnext]
        · exact nomatch hnext
      have hqueued : (t.modify fun x => { x with gate := x.gate.push job' }).Shows
          [] [] signals w := by
        refine h.modify h.schedule h.orders h.signalled h.idle h.reports fun purposes hstaffed => ?_
        refine ⟨hstaffed.held, hstaffed.loads.trans ?_, hstaffed.duties⟩
        rw [Gate.push, List.map_append, List.map_singleton, hepoch, ← List.append_assoc]
        exact @List.perm_append_comm _ [job.epoch] _
      exact ⟨w, .refl, hqueued.launch⟩

/-- An attempt is the last of its load, or another one follows. -/
theorem Shows.settled {job : LoadJob} (h : t.Shows [.load job.epoch] [] signals w)
    (result : Attempt LoadError DutySet) :
    ∃ w', Relation.ReflTransGen Service.Step w w' ∧
      (t.settled job result).Shows [] [] signals w' := by
  rw [ClientLine.settled]
  split
  · exact h.finish _
  · exact h.attempt
  · exact ⟨w, .refl, h.wait _ rfl⟩

theorem Shows.performed {d : Duty} (h : t.Shows [.duty d] [] signals w)
    (result : Attempt ExecutionError Unit) :
    ∃ w', Relation.ReflTransGen Service.Step w w' ∧
      (handle (.performed d result) t).Shows [] [] signals w' := by
  obtain ⟨purposes, hstaffed⟩ := h.staffed
  obtain ⟨before, after, hduties, -⟩ := exists_append_of_cons_perm hstaffed.duties.symm
  refine ⟨_, .single (.report hduties result), ?_⟩
  refine h.modify (f := fun x => { x with reports := x.reports ++ [d.report result] }) h.schedule
    h.orders h.signalled h.idle (congrArg (· ++ [d.report result]) h.reports)
    fun purposes hstaffed => ⟨hstaffed.held, hstaffed.loads, ?_⟩
  exact (List.perm_middle.symm.trans (hduties ▸ hstaffed.duties)).cons_inv

theorem Shows.handle {signal : ClientSignal} (hserves : signal.Serves p)
    (h : t.Shows [p] [] signals w) :
    ∃ w', Relation.ReflTransGen Service.Step w w' ∧
      (ClientLine.handle signal t).Shows [] [] signals w' := by
  cases signal with
  | attempt job =>
      obtain rfl := hserves
      exact h.attempt
  | attempted job result =>
      obtain rfl := hserves
      have hreleased : (t.modify fun x => { x with gate := x.gate.release }).Shows
          [.load job.epoch] [] signals w :=
        h.modify h.schedule h.orders h.signalled h.idle h.reports
          fun purposes hstaffed => { hstaffed with }
      exact ⟨w, .refl, hreleased.launch.spawn rfl⟩
  | settled job result =>
      obtain rfl := hserves
      exact h.settled result
  | performed d result =>
      obtain rfl := hserves
      exact h.performed result

/-! ## Runs -/

/-- What may happen next, and which slot signals come with it: a signal comes, a task has its turn,
    time moves, or the others do something of their own. -/
inductive Step (c : Collaborators σ) : ClientLine σ → List (Slot × Nat) → ClientLine σ → Prop where
  | epoch (t : ClientLine σ) (e : Epoch) : Step c t [] (t.onEpoch e)
  | slot (t : ClientLine σ) (slot : Slot) : Step c t [(slot, t.now)] (t.onSlot slot)
  | turn {t t' : ClientLine σ} (h : Timeline.step (Client.collaborators c) t = some (none, t')) :
      Step c t [] t'
  | result {t t' : ClientLine σ} {signal : ClientSignal}
      (h : Timeline.step (Client.collaborators c) t = some (some signal, t')) :
      Step c t [] (handle signal t')
  | time (t : ClientLine σ) (time : Nat) : Step c t [] (Timeline.moveTo t time)
  | others (t : ClientLine σ) (f : σ → σ) :
      Step c t [] (t.modify fun x => { x with others := f x.others })

/-- One step after the other, with the slot signals that have come. -/
inductive Run (c : Collaborators σ) (t : ClientLine σ) :
    List (Slot × Nat) → ClientLine σ → Prop where
  | refl : Run c t [] t
  | tail {signals new : List (Slot × Nat)} {t' t'' : ClientLine σ} (h : Run c t signals t')
      (hstep : Step c t' new t'') : Run c t (signals ++ new) t''

/-- The lines that a client comes to that had done nothing before these slot signals. -/
def Reachable (c : Collaborators σ) (slotsPerEpoch lookahead : Nat) (signals : List (Slot × Nat))
    (t : ClientLine σ) : Prop :=
  ∃ x : Client σ, (x.schedule = { slotsPerEpoch, lookahead } ∧ x.gate.queue = [] ∧ x.reports = []) ∧
    Run c { world := x } signals t

theorem Run.trans {c : Collaborators σ} {t'' : ClientLine σ} {new : List (Slot × Nat)}
    (h : Run c t signals t') (hlater : Run c t' new t'') : Run c t (signals ++ new) t'' := by
  induction hlater with
  | refl => exact (List.append_nil signals).symm ▸ h
  | tail _ hstep ih => exact List.append_assoc signals .. ▸ ih.tail hstep

/-- A step without slot signals. -/
theorem Run.quiet {c : Collaborators σ} (h : Run c t signals t') {t'' : ClientLine σ}
    (hstep : Step c t' [] t'') : Run c t signals t'' :=
  List.append_nil signals ▸ h.tail hstep

/-- Whoever lets time pass only takes such steps. -/
theorem run_settleIn (c : Collaborators σ) (count : Nat) (t : ClientLine σ) :
    Run c t [] (Timeline.settleIn (Client.collaborators c) handle count t) := by
  induction count generalizing t with
  | zero => exact .refl
  | succ count ih =>
      rw [Timeline.settleIn]
      split
      case h_1 => exact .refl
      case h_2 t' hturn => exact (Run.refl.quiet (.turn hturn)).trans (ih t')
      case h_3 result t' hresult => exact (Run.refl.quiet (.result hresult)).trans (ih _)

theorem run_elapseIn (c : Collaborators σ) (deadline count : Nat) (t : ClientLine σ) :
    Run c t [] (Timeline.elapseIn (Client.collaborators c) handle deadline count t) := by
  induction count generalizing t with
  | zero => exact Run.refl.quiet (.time t deadline)
  | succ count ih =>
      have hsettled := run_settleIn c Timeline.turns t
      rw [Timeline.elapseIn]
      dsimp only [Timeline.settle]
      split
      case h_1 time htime =>
          split
          · exact (hsettled.quiet (.time _ time)).trans (ih _)
          · exact hsettled.quiet (.time _ deadline)
      case h_2 => exact hsettled.quiet (.time _ deadline)

theorem run_sleepUntil (c : Collaborators σ) (t : ClientLine σ) (deadline : Nat) :
    Run c t [] (t.sleepUntil c deadline) := by
  rw [sleepUntil, Timeline.elapse]
  split
  · exact .refl
  · exact run_elapseIn c deadline _ t

/-- A client that has been created has done nothing yet. -/
theorem reachable_create (c : Collaborators σ) {constants : Constants} {d : DutyConfig}
    {keys : List PublicKey} {others : σ} {x : Client σ}
    (h : Client.create constants d keys others = .ok x) :
    Reachable c constants.slotsPerEpoch d.lookahead [] { world := x } := by
  rw [Client.create] at h
  obtain ⟨-, -, h⟩ := Attempt.bind_eq_ok.1 h
  obtain ⟨-, -, h⟩ := Attempt.bind_eq_ok.1 h
  obtain rfl := Except.ok.inj h
  exact ⟨_, ⟨rfl, rfl, rfl⟩, .refl⟩

theorem Shows.exists_step {c : Collaborators σ} {new : List (Slot × Nat)}
    (h : t.Shows [] [] signals w) (hstep : Step c t new t') :
    ∃ w', Relation.ReflTransGen Service.Step w w' ∧ t'.Shows [] [] (signals ++ new) w' := by
  cases hstep with
  | slot slot => exact h.onSlot slot
  | epoch e =>
      rw [List.append_nil]
      exact h.onEpoch e
  | turn hturn =>
      rw [List.append_nil]
      exact ⟨w, .refl, h.step c hturn⟩
  | result hresult =>
      obtain ⟨p, hserves, hshows⟩ := h.step c hresult
      rw [List.append_nil]
      exact hshows.handle hserves
  | time time =>
      rw [List.append_nil]
      exact ⟨w, .refl, h.moveTo time⟩
  | others f =>
      rw [List.append_nil]
      exact ⟨w, .refl, h.modify h.schedule h.orders h.signalled h.idle h.reports fun _ => id⟩

/-- Whatever happens to a client, the service behind it follows. -/
theorem Run.shown {c : Collaborators σ} {new : List (Slot × Nat)} (hrun : Run c t new t')
    (h : t.Shows [] [] signals w) :
    ∃ w', Relation.ReflTransGen Service.Step w w' ∧ t'.Shows [] [] (signals ++ new) w' := by
  induction hrun with
  | refl => exact ⟨w, .refl, (List.append_nil signals).symm ▸ h⟩
  | tail _ hstep ih =>
      obtain ⟨w₁, hfirst, hshows⟩ := ih
      obtain ⟨w₂, hlast, hshows'⟩ := hshows.exists_step hstep
      exact ⟨w₂, hfirst.trans hlast, List.append_assoc signals .. ▸ hshows'⟩

/-- There is a service behind every client. -/
theorem Reachable.shown {c : Collaborators σ} {slotsPerEpoch lookahead : Nat}
    (h : Reachable c slotsPerEpoch lookahead signals t) :
    ∃ w, Service.Reachable slotsPerEpoch lookahead w ∧ t.Shows [] [] signals w := by
  obtain ⟨x, ⟨hschedule, hqueue, hreports⟩, hrun⟩ := h
  have hnew : Shows { world := x } [] [] [] (Service.create slotsPerEpoch lookahead) := by
    refine ⟨hschedule.symm, rfl, rfl, ⟨rfl, rfl, rfl⟩, hreports.symm, ⟨⟨.nil, nofun, nofun⟩, nofun⟩,
      [], ?_⟩
    exact ⟨Held.nil _, hqueue ▸ .refl [], .refl []⟩
  obtain ⟨w, hsteps, hshows⟩ := hrun.shown hnew
  exact ⟨w, hsteps, hshows⟩

/-- Nothing goes on except that loads wait for their next attempts. -/
def Idle (t : ClientLine σ) : Prop :=
  t.ready = [] ∧ ∀ x ∈ t.timers, ∃ job, x.2 = .run (.done (.attempt job))

/-- Then no duty is being performed. -/
theorem Shows.duties_eq_nil (h : t.Shows [] [] signals w) (hidle : t.Idle) : w.duties = [] := by
  obtain ⟨hready, htimers⟩ := hidle
  obtain ⟨purposes, hstaffed⟩ := h.staffed
  have hactive : ∀ task ∈ t.active, ∃ job, task = .run (.done (.attempt job)) := by
    intro task htask
    rw [Timeline.active, hready, List.nil_append] at htask
    obtain ⟨x, hx, rfl⟩ := List.mem_map.1 htask
    exact htimers x hx
  have htickets : t.forks.tickets = [] := h.sound.tickets_eq_nil fun task htask i hasks => by
    obtain ⟨job, rfl⟩ := hactive task htask
    exact hasks
  have hloads : ∀ p ∈ purposes, p.duty? = none := by
    refine hstaffed.held.forall_owners fun task htask p hp => ?_
    rw [Timeline.tasks, htickets, List.map_nil, List.append_nil] at htask
    obtain ⟨job, rfl⟩ := hactive task htask
    obtain rfl : p = .load job.epoch := hp
    rfl
  have hnone := hstaffed.duties
  rw [List.nil_append, List.filterMap_eq_nil_iff.2 hloads] at hnone
  exact hnone.eq_nil

end ClientLine

/-! ## A client with one duty -/

/-- Collaborators who have one proposal to give out, at slot 9, and stop in the middle of everything
    that it takes. -/
def Collaborators.proposing : Collaborators Unit where
  latency _ _ := 0
  note x _ _ := x
  answer x call := (match call with
    | .api (.forkInfo _) => .ok {}
    | .api (.duties _ _) => .ok [{ validatorIndex := 3, proposalSlots := [9] }]
    | .api _ => Attempt.fault .collaborator
    | .sign .. => Attempt.fault .collaborator, x)

/-- A client that attempts each load once. -/
def Client.hasty : Client Unit where
  loading := { slotsPerEpoch := 8, targetAggregators := 1, keys := [] }
  execution := { slotsPerEpoch := 8, attestationDelay := 4000, aggregationDelay := 8000 }
  retry := { maxAttempts := some 1 }
  schedule := { slotsPerEpoch := 8, lookahead := 1 }
  gate := .create loaderGate 1
  others := ()

/-- What the client has come to once slot 9 has begun. -/
def ClientLine.proposed : ClientLine Unit :=
  Timeline.settleIn (Client.collaborators .proposing) handle 10 (onSlot { world := .hasty } 9)

theorem ClientLine.reachable_proposed :
    ClientLine.Reachable .proposing 8 1 [(9, 0)] .proposed :=
  ⟨.hasty, ⟨rfl, rfl, rfl⟩,
    (ClientLine.Run.refl.tail (.slot _ 9)).trans (ClientLine.run_settleIn .proposing 10 _)⟩

/-! ## The theorems -/

/-- **A schedule keeps its window and loads no epoch twice at a time.** Whatever signals, loads and
    orders have done, in whatever order: entries lie from the epoch before the current one to the last
    that is loaded ahead, the loads that are ordered or under way are of different epochs, and an
    epoch is being loaded just when it has an entry and such a load. Whatever they do from then on:
    the current epoch does not go back, a loaded epoch keeps its duties until it is forgotten, and an
    epoch before the window has no entry any more. The schedule of a client is such a schedule, now
    and later, whatever its collaborators answer, and its loads are those of the client. -/
theorem schedule_keeps_window {σ : Type} (c : Collaborators σ) (slotsPerEpoch lookahead : Nat)
    (w w' : Service) (h : Service.Reachable slotsPerEpoch lookahead w)
    (hlater : Relation.ReflTransGen Service.Step w w')
    (signals new : List (Slot × Nat)) (t t' : ClientLine σ)
    (hclient : ClientLine.Reachable c slotsPerEpoch lookahead signals t)
    (hrun : ClientLine.Run c t new t') :
    (∀ e, w.schedule.duties? e ≠ none →
      ∃ now, w.schedule.current = some now ∧ now - 1 ≤ e ∧ e ≤ now + lookahead) ∧
    w.outstanding.Nodup ∧
    (∀ e, (∃ pending, w.schedule.duties? e = some (.loading pending)) ↔
      w.schedule.duties? e ≠ none ∧ e ∈ w.outstanding) ∧
    (∀ now, w.schedule.current = some now →
      ∃ now', w'.schedule.current = some now' ∧ now ≤ now') ∧
    (∀ e set, w.schedule.duties? e = some (.loaded set) →
      w'.schedule.duties? e = some (.loaded set) ∨
      (w'.schedule.duties? e = none ∧ ∃ now, w'.schedule.current = some now ∧ e < now - 1)) ∧
    (∀ e now, w.schedule.current = some now → e < now - 1 → w'.schedule.duties? e = none) ∧
    ∃ v v', Service.Reachable slotsPerEpoch lookahead v ∧ Relation.ReflTransGen Service.Step v v' ∧
      t.Shows [] [] signals v ∧ t'.Shows [] [] (signals ++ new) v' := by
  have hkept := h.kept
  obtain ⟨hkept', hfollows⟩ := Service.kept_follows_steps hkept hlater
  have hlookahead : w.schedule.lookahead = lookahead :=
    (Service.kept_follows_steps (Service.kept_create slotsPerEpoch lookahead) h).2.lookahead
  obtain ⟨v, hreachable, hshows⟩ := hclient.shown
  obtain ⟨v', hsteps, hshows'⟩ := hrun.shown hshows
  refine ⟨fun e he => ?_, hkept.schedule.single, fun e => ⟨?_, ?_⟩, hfollows.current,
    hfollows.loaded, fun e now hnow hlt => ?_, v, v', hreachable, hsteps, hshows, hshows'⟩
  · obtain ⟨now, hnow, hle, hahead⟩ := hkept.schedule.window e he
    exact ⟨now, hnow, hle, hlookahead ▸ hahead.trans (min_le_left _ _)⟩
  · rintro ⟨pending, hloading⟩
    exact ⟨hloading ▸ Option.some_ne_none _, hkept.schedule.loading e pending hloading⟩
  · rintro ⟨hentry, houtstanding⟩
    exact (hkept.schedule.loads e houtstanding).resolve_right fun hnone => hentry hnone.1
  · exact hkept'.schedule.duties?_eq_none (hfollows.exists_lt ⟨now, hnow, hlt⟩)

/-- Epoch 1 is loaded while epoch 2 still loads, and is forgotten when epoch 5 begins; in the client
    as well. -/
theorem schedule_keeps_window_forgotten :
    (∃ w w' : Service, Service.Reachable 8 1 w ∧ Relation.ReflTransGen Service.Step w w' ∧
      w.schedule.duties? 1 = some (.loaded ⟨1, {}, []⟩) ∧ w.outstanding = [2] ∧
      w.outstanding.Nodup ∧
      w'.schedule.duties? 1 = none ∧ ∃ now, w'.schedule.current = some now ∧ 1 < now - 1) ∧
    ∃ v v' : Service, Service.Reachable 8 1 v ∧ Relation.ReflTransGen Service.Step v v' ∧
      v.schedule.current = some 1 ∧ v'.schedule.current = some 5 := by
  have hbegun := (Relation.ReflTransGen.refl (r := Service.Step) (a := .create 8 1)).tail
    (.epoch _ 1)
  have hloaded := (hbegun.tail (@Service.Step.carry _ (.load 1) [.forget 0] [.load 2] rfl)).tail
    (@Service.Step.finish _ 1 [] [] rfl (.ok ⟨1, {}, []⟩))
  obtain ⟨-, hsingle, -, -, hkept, -, v, v', hv, hsteps, hshows, hshows'⟩ :=
    schedule_keeps_window .proposing 8 1 _ _ hloaded (.single (.epoch _ 5)) _ _ _ _
      ClientLine.reachable_proposed (ClientLine.Run.refl.quiet (.epoch _ 5))
  refine ⟨⟨_, _, hloaded, .single (.epoch _ 5), rfl, rfl, hsingle,
    (hkept 1 ⟨1, {}, []⟩ rfl).resolve_left ?_⟩, v, v', hv, hsteps, ?_, ?_⟩
  · exact fun hstill => absurd (congrArg Option.isSome hstill) (by decide)
  · rw [hshows.schedule]
    decide +kernel
  · rw [hshows'.schedule]
    decide +kernel

/-- **Every slot signal that is accepted is dispatched once, and every duty that is dispatched is
    reported once.** Whatever signals, loads and orders have done around a schedule, in whatever
    order:

    * every slot signal is on its way or has looked its epoch up once, and each of those that have
      found it in the window is in one of four places: its duties are dispatched, it waits, the load
      that it waited for has failed, or its epoch has left the window;
    * whoever finds the epoch loaded is dispatched at once, with his start time; whoever does not
      waits; and whoever waits does so for a load of his epoch that is ordered or under way, is
      dispatched with his start time when it succeeds, and misses his duties only when it ends in an
      error or when the epoch leaves the window;
    * what is dispatched is the one set that a load of the epoch has succeeded with;
    * every duty that is dispatched is being performed or has one report, whatever has become of
      others.

    A client is such a schedule that has carried out all its orders, whatever its collaborators
    answer; and when nothing goes on in it any more than loads that wait for their next attempts, no
    duty is without its report. -/
theorem slots_dispatched_once {σ : Type} (c : Collaborators σ) (slotsPerEpoch lookahead : Nat)
    (w : Service) (h : Service.Reachable slotsPerEpoch lookahead w)
    (signals : List (Slot × Nat)) (t : ClientLine σ)
    (hclient : ClientLine.Reachable c slotsPerEpoch lookahead signals t) :
    w.signalled.Perm (w.arriving ++ w.entering ++ w.serving ++ w.refused ++ w.accepted) ∧
    w.accepted.Perm (w.dispatches.map (·.2) ++ w.schedule.waiting ++ w.failed ++ w.left) ∧
    (∀ x set, w.schedule.duties? (w.epochOf x) = some (.loaded set) →
      (w.serve x).dispatches = w.dispatches ++ [(set, x)]) ∧
    (∀ x, w.schedule.inWindow (w.epochOf x) →
      (∀ set, w.schedule.duties? (w.epochOf x) ≠ some (.loaded set)) →
      (w.serve x).dispatches = w.dispatches ∧ (w.serve x).schedule.duties? (w.epochOf x) =
        some (.loading (w.schedule.pending (w.epochOf x) ++ [x]))) ∧
    (∀ x ∈ w.schedule.waiting, w.epochOf x ∈ w.outstanding ∧
      ∃ pending, w.schedule.duties? (w.epochOf x) = some (.loading pending) ∧ x ∈ pending) ∧
    (∀ e pending set, w.schedule.duties? e = some (.loading pending) →
      (w.finish e (.ok set)).dispatches = w.dispatches ++ pending.map (set, ·)) ∧
    (∀ w', Service.Step w w' →
      ∃ missed gone, w'.failed = w.failed ++ missed ∧ w'.left = w.left ++ gone ∧
        (missed ≠ [] → ∃ e cause, e ∈ w.loads ∧ w'.ends = w.ends ++ [(e, .error cause)] ∧
          w.schedule.duties? e = some (.loading missed)) ∧
        ∀ x ∈ gone, w.schedule.inWindow (w.epochOf x) ∧ ¬ w'.schedule.inWindow (w.epochOf x)) ∧
    (∀ y ∈ w.dispatches, (w.epochOf y.2, .ok y.1) ∈ w.ends) ∧
    (∀ e set set', (e, .ok set) ∈ w.ends → (e, .ok set') ∈ w.ends → set = set') ∧
    ((w.dispatched.flatMap fun y => y.1.dutiesAt y.2.1).map Duty.label).Perm
      (w.reports.map DutyReport.label ++ w.duties.map Duty.label) ∧
    ∃ v, Service.Reachable slotsPerEpoch lookahead v ∧ v.schedule = t.world.schedule ∧
      v.signalled = signals ∧ (v.arriving = [] ∧ v.entering = [] ∧ v.serving = []) ∧ v.orders = [] ∧
      v.reports = t.world.reports ∧ (t.Idle → v.duties = []) := by
  have hkept := h.kept
  have haccounted := h.accounted
  obtain ⟨v, hreachable, hshows⟩ := hclient.shown
  exact ⟨h.signalled, haccounted.accepted, fun x set => Service.dispatches_serve_loaded,
    fun x => Service.queued_serve,
    fun x => Service.exists_pending_of_waiting hkept haccounted.placed,
    fun e pending set => Service.dispatches_finish_loading,
    fun w' => Service.exists_missed_step hkept haccounted.placed,
    haccounted.sets, haccounted.single, h.reported,
    v, hreachable, hshows.schedule, hshows.signalled, hshows.idle, hshows.orders, hshows.reports,
    hshows.duties_eq_nil⟩

/-- In a service whose first signal is that of slot 9, the slot waits for the load of its epoch; the
    client has loaded it and has given up its one duty, which is reported. -/
theorem slots_dispatched_once_proposal :
    (∃ w : Service, Service.Reachable 8 1 w ∧ w.schedule.waiting = [(9, 5)] ∧
      w.accepted.Perm [(9, 5)]) ∧
    ∃ v : Service, Service.Reachable 8 1 v ∧ v.signalled = [(9, 0)] ∧ v.schedule.waiting = [] ∧
      v.reports.map DutyReport.label = [(9, 3, .proposal)] ∧ v.duties = [] := by
  have hslot := (Relation.ReflTransGen.refl (r := Service.Step) (a := .create 8 1)).tail
    (.slot _ (9, 5))
  have hserved := ((hslot.tail (@Service.Step.compare _ (9, 5) [] [] rfl)).tail
    (@Service.Step.enter _ (9, 5) [] [] rfl)).tail (@Service.Step.serve _ (9, 5) [] [] rfl)
  have htimers : ClientLine.proposed.timers = [] := List.isEmpty_iff.1 (by decide +kernel)
  have hidle : ClientLine.proposed.Idle :=
    ⟨List.isEmpty_iff.1 (by decide +kernel), htimers ▸ fun _ hx => absurd hx List.not_mem_nil⟩
  obtain ⟨-, haccepted, -, -, -, -, -, -, -, -, v, hv, hschedule, hsignalled, -, -, hreports,
    hduties⟩ := slots_dispatched_once .proposing 8 1 _ hserved _ _
    ClientLine.reachable_proposed
  refine ⟨⟨_, hserved, rfl, haccepted⟩, v, hv, hsignalled, ?_, ?_, hduties hidle⟩
  · rw [hschedule]
    exact List.isEmpty_iff.1 (by decide +kernel)
  · rw [hreports]
    decide +kernel

end Beacon
