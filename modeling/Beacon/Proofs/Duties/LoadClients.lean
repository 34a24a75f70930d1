import Mathlib
import Beacon.Proofs.Duties.Clients
import Beacon.Proofs.Duties.Loads

set_option autoImplicit false

/-! # Clients with desks of loads

The loads of a validator client go through their rounds as processes on its timeline: a load that
waits is an alarm and nothing else, one that is to ask or to learn is a task, and one whose attempt
is under way is a process with a slot of the loader gate, or stands in line. `ClientLine.Tells` says
so of a client and a desk of loads. A turn of a process leaves the desk as it is
(`ClientLine.Tells.step`); what the client makes of the result of a process, a desk makes of it too
(`ClientLine.Tells.handle`). -/

namespace Beacon

/-! ## Lists with gaps -/

theorem reduceOption_map_some {α β : Type} (f : α → β) (xs : List α) :
    (xs.map fun x => some (f x)).reduceOption = xs.map f := by
  rw [List.reduceOption, List.filterMap_map]
  exact congrFun List.filterMap_eq_map xs

theorem reduceOption_perm {α : Type} {xs ys : List (Option α)} (h : xs.Perm ys) :
    xs.reduceOption.Perm ys.reduceOption := h.filterMap id

/-! ## Loads that wait -/

namespace LoadTale

variable {x : LoadTale} {now : Nat} {stage : LoadStage}

/-- Until when a load waits to ask, if it does. -/
def alarm? (now : Nat) (x : LoadTale) : Option (Nat × LoadJob) :=
  match x.stage with
  | .asking job => if now < x.due then some (x.due, job) else none
  | _ => none

/-- Where a load is that does not wait, and is not over. -/
def present? (now : Nat) (x : LoadTale) : Option LoadStage :=
  match x.stage with
  | .asking job => if now < x.due then none else some (.asking job)
  | .finished _ => none
  | stage => some stage

theorem stage_of_present (h : x.present? now = some stage) :
    x.stage = stage ∧ ((∃ job, stage = .asking job) → x.due ≤ now) := by
  rw [present?] at h
  split at h
  · next job hstage =>
      split at h
      · exact nomatch h
      · next hlt =>
          obtain rfl := Option.some.inj h
          exact ⟨hstage, fun _ => Nat.not_lt.1 hlt⟩
  · exact nomatch h
  · next hasking _ =>
      obtain rfl := Option.some.inj h
      exact ⟨rfl, fun ⟨job, hjob⟩ => absurd hjob (hasking job)⟩

theorem alarm?_of_present (h : x.present? now = some stage) : x.alarm? now = none := by
  obtain ⟨rfl, hdue⟩ := stage_of_present h
  rw [alarm?]
  split
  · next job hstage => exact if_neg (Nat.not_lt.2 (hdue ⟨job, hstage⟩))
  · rfl

end LoadTale

namespace LoadDesk

variable {d : LoadDesk} {stage : LoadStage} {rest : List LoadStage}

/-- The loads that wait, with the times until which they do. -/
def alarms (d : LoadDesk) : List (Nat × LoadJob) := d.tales.filterMap (·.alarm? d.now)

/-- Where the loads are that do not wait and are not over. -/
def present (d : LoadDesk) : List LoadStage := d.tales.filterMap (·.present? d.now)

/-- A load that does not wait has a tale, which may go on. -/
theorem exists_present (h : d.present.Perm (stage :: rest)) :
    ∃ before x after, d.tales = before ++ x :: after ∧ x.present? d.now = some stage ∧
      ∀ (x' : LoadTale) (gate : Gate LoadJob) (running : List LoadJob),
        ({ d with gate, running, tales := before ++ x' :: after } : LoadDesk).alarms.Perm
          ((x'.alarm? d.now).toList ++ d.alarms) ∧
        ({ d with gate, running, tales := before ++ x' :: after } : LoadDesk).present.Perm
          ((x'.present? d.now).toList ++ rest) := by
  obtain ⟨x, hx, hstage⟩ := List.mem_filterMap.1 (h.symm.subset List.mem_cons_self)
  obtain ⟨before, after, htales⟩ := List.append_of_mem hx
  have halarms := filterMap_perm_middle (·.alarm? d.now) x before after
  have hpresent := filterMap_perm_middle (·.present? d.now) x before after
  rw [LoadTale.alarm?_of_present hstage] at halarms
  rw [hstage] at hpresent
  rw [present, htales] at h
  refine ⟨before, x, after, htales, hstage, fun x' gate running => ⟨?_, ?_⟩⟩
  · rw [alarms, alarms, htales]
    exact (filterMap_perm_middle (·.alarm? d.now) x' before after).trans
      (halarms.symm.append_left _)
  · exact (filterMap_perm_middle (·.present? d.now) x' before after).trans
      ((hpresent.symm.trans h).cons_inv.append_left _)

/-- As time passes, some of the loads that wait need not wait any longer. -/
theorem alarms_pass {later : Nat} (hle : d.now ≤ later) :
    ({ d with now := later } : LoadDesk).alarms = d.alarms.filter (later < ·.1) := by
  rw [alarms, alarms, List.filter_filterMap]
  refine List.filterMap_congr fun x _ => ?_
  rw [LoadTale.alarm?, LoadTale.alarm?]
  split
  · by_cases hlt : later < x.due
    · rw [if_pos hlt, if_pos (hle.trans_lt hlt), Option.filter_some, if_pos (decide_eq_true hlt)]
    · rw [if_neg hlt]
      split
      · rw [Option.filter_some, if_neg (by simpa using hlt)]
      · rfl
  · rfl

/-- Whoever waits goes on to wait, or need not any longer. -/
theorem alarms_perm_pass {later : Nat} (hle : d.now ≤ later) :
    d.alarms.Perm
      (({ d with now := later } : LoadDesk).alarms ++ d.alarms.filter (·.1 ≤ later)) := by
  have hlater : (d.alarms.filter fun y => decide (y.1 ≤ later)) =
      d.alarms.filter fun y => !decide (later < y.1) :=
    List.filter_congr fun y _ => by rw [← decide_not, decide_eq_decide, Nat.not_lt]
  rw [alarms_pass hle, hlater]
  exact (List.filter_append_perm _ _).symm

theorem present_pass {later : Nat} (hle : d.now ≤ later) :
    ({ d with now := later } : LoadDesk).present.Perm
      ((d.alarms.filter (·.1 ≤ later)).map (.asking ·.2) ++ d.present) := by
  rw [present, present, alarms]
  induction d.tales with
  | nil => exact .nil
  | cons x xs ih =>
      simp only [List.filterMap_cons, LoadTale.present?, LoadTale.alarm?] at ih ⊢
      cases hstage : x.stage with
      | asking job =>
          by_cases hlater : later < x.due
          · simpa [hlater, hle.trans_lt hlater] using ih
          · by_cases hnow : d.now < x.due
            · simpa [hlater, hnow, Nat.not_lt.1 hlater] using ih
            · simpa [hlater, hnow] using (ih.cons _).trans List.perm_middle.symm
      | finished result => simpa using ih
      | attempting job => simpa using (ih.cons _).trans List.perm_middle.symm
      | settling job result => simpa using (ih.cons _).trans List.perm_middle.symm

end LoadDesk

/-! ## Clients and desks -/

/-- What the processes of a load in this stage result in; those of a duty belong to no load. -/
def ClientSignal.Continues : ClientSignal → Option LoadStage → Prop
  | .attempt job, o => o = some (.asking job)
  | .attempted job _, o => o = some (.attempting job)
  | .settled job result, o => o = some (.settling job result)
  | .performed .., o => o = none

/-- What a load is told when its process results in this. -/
def ClientSignal.told {σ : Type} (t : ClientLine σ) : ClientSignal → List LoadEvent
  | .attempt job => [.asked job (t.world.schedule.inWindow job.epoch)]
  | .attempted .. => []
  | .settled job result =>
    .ended job (loadOutcome result) ::
      match job.verdict t.world.retry (loadOutcome result) with
      | .retry 0 => [.asked job (t.world.schedule.inWindow job.epoch)]
      | _ => []
  | .performed .. => []

namespace ClientLine

variable {σ : Type} {t : ClientLine σ} {p : RetryPolicy} {d : LoadDesk}
variable {o : Option LoadStage} {hand owners : List (Option LoadStage)} {log : List LoadEvent}

/-- What a load that waits is on a timeline. -/
def alarm (y : Nat × LoadJob) : Nat × Task ClientSignal := (y.1, .run (.done (.attempt y.2)))

/-- Whose task an alarm is. -/
def sleeper (y : Nat × LoadJob) : Option LoadStage := some (.asking y.2)

/-- Each load is an alarm, has a task or is in hand, or its attempt waits in a queue; the attempts
    with a slot are those that have a task or are in hand. -/
structure Employs (tasks : List (Task ClientSignal)) (hand : List (Option LoadStage))
    (d : LoadDesk) (owners : List (Option LoadStage)) : Prop where
  held : Held ClientSignal.Continues tasks (d.alarms.map sleeper ++ owners)
  present : d.present.Perm ((hand ++ owners).reduceOption ++ d.gate.queue.map .attempting)
  running : d.running.Perm ((hand ++ owners).reduceOption.filterMap LoadStage.attempting?)

/-- A desk of loads behind a client that has these stages of loads in hand. -/
structure Tells (t : ClientLine σ) (p : RetryPolicy) (hand : List (Option LoadStage))
    (d : LoadDesk) : Prop where
  now : d.now = t.now
  gate : d.gate = t.world.gate
  retry : t.world.retry = p
  sound : t.Sound none
  /-- A load that waits is an alarm for the time until which it does. -/
  alarms : ∃ others, t.timers.Perm (d.alarms.map alarm ++ others)
  employs : ∃ owners, Employs t.tasks hand d owners

/-! ## Processes -/

/-- What is in hand gets a task. -/
theorem Employs.employ {tasks tasks' : List (Task ClientSignal)}
    (h : Employs tasks (o :: hand) d owners)
    (hheld : Held ClientSignal.Continues tasks' (o :: (d.alarms.map sleeper ++ owners))) :
    Employs tasks' hand d (o :: owners) where
  held := hheld.perm_owners List.perm_middle.symm
  present := h.present.trans ((reduceOption_perm List.perm_middle.symm).append_right _)
  running := h.running.trans ((reduceOption_perm List.perm_middle.symm).filterMap _)

theorem Tells.spawn (h : t.Tells p (o :: hand) d) {process : Process ClientSignal}
    (hprocess : process.Ends (ClientSignal.Continues · o)) :
    Tells (Timeline.spawn t process) p hand d := by
  obtain ⟨owners, hemploys⟩ := h.employs
  have hheld := Timeline.held_spawn hemploys.held hprocess
  exact { h with
    sound := h.sound.spawn process
    employs := ⟨o :: owners, hemploys.employ hheld⟩ }

theorem Tells.spawnAll {α : Type} {xs : List α} {owner : α → Option LoadStage}
    (h : t.Tells p (xs.map owner ++ hand) d) (process : ClientLine σ → α → Process ClientSignal)
    (hprocess : ∀ t x, (process t x).Ends (ClientSignal.Continues · (owner x))) :
    Tells (xs.foldl (fun t x => Timeline.spawn t (process t x)) t) p hand d := by
  induction xs generalizing t with
  | nil => exact h
  | cons x xs ih => exact ih (h.spawn (hprocess t x))

/-- A turn leaves a desk as it is; a process that is done is in hand. -/
theorem Tells.step (c : Collaborators σ) {x : Option ClientSignal × ClientLine σ}
    (h : t.Tells p [] d) (hstep : Timeline.step (Client.collaborators c) t = some x) :
    match x.1 with
    | none => x.2.Tells p [] d
    | some signal => ∃ o, signal.Continues o ∧ x.2.Tells p [o] d := by
  obtain ⟨owners, hemploys⟩ := h.employs
  obtain ⟨others, hothers⟩ := h.alarms
  obtain ⟨o, rest, hperm, hsound, hran⟩ := Timeline.ran_step_beside _ h.sound hothers
    (fun _ _ => .rfl) hemploys.held hstep
  obtain ⟨hnow, new, hnew, -⟩ := Timeline.awaits_step _ hstep
  have halarms : ∃ others, x.2.timers.Perm (d.alarms.map alarm ++ others) :=
    ⟨new ++ others, (hnew.trans (hothers.append_left new)).trans
      (List.perm_append_comm_assoc _ _ _)⟩
  -- A process changes nothing of the client but the others, whom it calls.
  obtain ⟨hgate, hretry⟩ : x.2.world.gate = t.world.gate ∧ x.2.world.retry = t.world.retry :=
    Timeline.world_step (Client.collaborators c)
      (P := fun world => world.gate = t.world.gate ∧ world.retry = t.world.retry)
      (fun _ _ _ hworld => hworld) (fun _ _ hworld => hworld) ⟨rfl, rfl⟩ hstep
  have hpresent := hemploys.present.trans ((reduceOption_perm hperm).append_right _)
  have hrunning := hemploys.running.trans ((reduceOption_perm hperm).filterMap _)
  rcases x with ⟨signal | _, line⟩
  · exact ⟨h.now.trans hnow.symm, h.gate.trans hgate.symm, hretry.trans h.retry, hsound, halarms,
      o :: rest, hran.perm_owners List.perm_middle.symm, hpresent, hrunning⟩
  · exact ⟨o, hran.1, h.now.trans hnow.symm, h.gate.trans hgate.symm, hretry.trans h.retry, hsound,
      halarms, rest, hran.2, hpresent, hrunning⟩

/-! ## Time and slots -/

theorem Tells.moveTo (h : t.Tells p hand d) {later : Nat} (hle : t.now ≤ later) :
    Tells (Timeline.moveTo t later) p hand { d with now := later } := by
  obtain ⟨owners, hemploys⟩ := h.employs
  obtain ⟨others, hothers⟩ := h.alarms
  have hnow : d.now ≤ later := h.now.trans_le hle
  have hpresent := (LoadDesk.present_pass hnow).trans (hemploys.present.append_left _)
  have halarms := (LoadDesk.alarms_perm_pass hnow).map sleeper
  rw [List.map_append] at halarms
  have hheld := (Timeline.held_moveTo hemploys.held later).perm_owners (halarms.append_right owners)
  rw [List.append_assoc] at hheld
  have hwoken : ((d.alarms.filter (·.1 ≤ later)).map sleeper).reduceOption =
      (d.alarms.filter (·.1 ≤ later)).map (.asking ·.2) := reduceOption_map_some _ _
  refine ⟨rfl, h.gate, h.retry, h.sound.moveTo later, ⟨others.filter (later < ·.1), ?_⟩, _, hheld,
    ?_, ?_⟩
  · rw [LoadDesk.alarms_pass hnow]
    refine (hothers.filter _).trans (.of_eq ?_)
    rw [List.filter_append, List.filter_map]
    rfl
  · rw [List.reduceOption_append, List.reduceOption_append, hwoken]
    rw [List.reduceOption_append, List.append_assoc] at hpresent
    rw [List.append_assoc, List.append_assoc]
    exact hpresent.trans (List.perm_append_comm_assoc _ _ _)
  · have hrunning := hemploys.running
    rw [List.reduceOption_append, List.filterMap_append] at hrunning
    rw [List.reduceOption_append, List.reduceOption_append, hwoken,
      List.filterMap_append, List.filterMap_append, List.filterMap_map]
    have hnone (ys : List (Nat × LoadJob)) :
        ys.filterMap (LoadStage.attempting? ∘ fun y => .asking y.2) = [] :=
      List.filterMap_eq_nil_iff.2 fun _ _ => rfl
    rw [hnone, List.nil_append]
    exact hrunning

/-- An attempt that the gate admits gets a process. -/
theorem Tells.launch (h : t.Tells p hand d) : t.launch.Tells p hand d.launch := by
  obtain ⟨owners, hemploys⟩ := h.employs
  -- What is claimed leaves the queue and is in hand until it gets its process.
  have hclaimed : (t.modify fun x => { x with gate := t.world.gate.claim.2 }).Tells p
      (t.world.gate.claim.1.map (fun job => some (.attempting job)) ++ hand) d.launch := by
    refine ⟨h.now, congrArg (·.claim.2) h.gate, h.retry, h.sound.of_active rfl (List.Subset.refl _),
      h.alarms, owners, hemploys.held, ?_, ?_⟩
    · refine hemploys.present.trans ?_
      rw [← d.gate.claim_append, h.gate]
      simp only [List.reduceOption_append, reduceOption_map_some, List.map_append, LoadDesk.launch,
        h.gate]
      rw [List.append_assoc (t.world.gate.claim.1.map _),
        List.append_assoc (t.world.gate.claim.1.map _)]
      exact List.perm_append_comm_assoc _ _ _
    · rw [LoadDesk.launch, h.gate]
      have hrunning := hemploys.running
      have hclaims : (t.world.gate.claim.1.map LoadStage.attempting).filterMap
          LoadStage.attempting? = t.world.gate.claim.1 := by
        rw [List.filterMap_map]
        exact List.filterMap_some
      simp only [List.reduceOption_append, reduceOption_map_some, List.filterMap_append, hclaims]
        at hrunning ⊢
      rw [List.append_assoc]
      exact (hrunning.append_right _).trans List.perm_append_comm
  exact hclaimed.spawnAll (fun t job => (loadDuties t.world.loading job.epoch).run.bind fun r =>
    .done (.attempted job r)) fun t job => Process.ends_bind _ fun _ => rfl

/-- A change of the client beside the gate and the policy. -/
theorem Tells.modify {f : Client σ → Client σ} (h : t.Tells p hand d)
    (hgate : (f t.world).gate = t.world.gate) (hretry : (f t.world).retry = t.world.retry) :
    (t.modify f).Tells p hand d :=
  { h with
    gate := h.gate.trans hgate.symm
    retry := hretry.trans h.retry
    sound := h.sound.of_active rfl (List.Subset.refl _) }

/-! ## Orders -/

/-- Only a load that is ordered has a tale. -/
theorem Tells.obey (h : t.Tells p hand d) (order : Order) :
    ∃ d', LoadDesk.Run p d [] d' ∧ (t.obey order).Tells p hand d' := by
  obtain ⟨owners, hemploys⟩ := h.employs
  cases order with
  | load e =>
      have halarms : ({ d with tales := d.tales ++ [.begin e] } : LoadDesk).alarms = d.alarms := by
        rw [LoadDesk.alarms, List.filterMap_append]
        exact List.append_nil _
      have hpresent : ({ d with tales := d.tales ++ [.begin e] } : LoadDesk).present =
          d.present ++ [.asking { epoch := e }] := by
        rw [LoadDesk.present, List.filterMap_append]
        rfl
      have hbegun : t.Tells p (some (.asking { epoch := e }) :: hand)
          { d with tales := d.tales ++ [.begin e] } := by
        refine ⟨h.now, h.gate, h.retry, h.sound, halarms ▸ h.alarms, owners,
          halarms ▸ hemploys.held, ?_, hemploys.running⟩
        rw [hpresent]
        exact List.perm_append_comm.trans (hemploys.present.cons _)
      exact ⟨_, LoadDesk.Run.refl.tail (.begin d e), hbegun.spawn rfl⟩
  | dispatch set slot started =>
      have hnone :
          ((set.dutiesAt slot).map fun _ => (none : Option LoadStage)).reduceOption = [] := by
        rw [List.reduceOption, List.filterMap_map]
        exact List.filterMap_eq_nil_iff.2 fun _ _ => rfl
      have hstarted : t.Tells p ((set.dutiesAt slot).map (fun _ => none) ++ hand) d := by
        refine { h with employs := ⟨owners, hemploys.held, ?_, ?_⟩ }
        · rw [List.append_assoc, List.reduceOption_append, hnone]
          exact hemploys.present
        · rw [List.append_assoc, List.reduceOption_append, hnone]
          exact hemploys.running
      refine ⟨d, .refl, hstarted.spawnAll (fun t duty => .pause
        ((duty.perform t.world.execution started).run.bind fun r =>
          .done (.performed duty r))) fun t duty => ?_⟩
      exact Process.ends_bind (P := (ClientSignal.Continues · none)) _ fun _ => rfl
  | forget oldest =>
      obtain ⟨hforks, htickets, hasking⟩ := h.sound.forks.prune oldest
      have hheld := Timeline.held_of_tickets hemploys.held htickets
      exact ⟨d, .refl, { h with
        sound := ⟨hforks, fun i hi => h.sound.asked i (hasking i hi)⟩
        employs := ⟨owners, hheld, hemploys.present, hemploys.running⟩ }⟩

/-- A schedule is taken over, and its orders are carried out one after the other. -/
theorem Tells.follow {x : List Order × Schedule} (h : t.Tells p hand d) :
    ∃ d', LoadDesk.Run p d [] d' ∧ (t.follow x).Tells p hand d' := by
  have hall (orders : List Order) {t : ClientLine σ} {d : LoadDesk} (h : t.Tells p hand d) :
      ∃ d', LoadDesk.Run p d [] d' ∧ (orders.foldl ClientLine.obey t).Tells p hand d' := by
    induction orders generalizing t d with
    | nil => exact ⟨d, .refl, h⟩
    | cons order orders ih =>
        obtain ⟨d₁, hfirst, htells⟩ := h.obey order
        obtain ⟨d₂, hrest, hlast⟩ := ih htells
        exact ⟨d₂, hfirst.trans hrest, hlast⟩
  exact hall x.1 (h.modify rfl rfl)

/-! ## Rounds -/

/-- The load in hand has a tale, which goes on. -/
theorem Tells.exists_retold {stage : LoadStage} (h : t.Tells p [some stage] d) :
    ∃ before x after, d.tales = before ++ x :: after ∧ x.stage = stage ∧
      ((∃ job, stage = .asking job) → x.due ≤ d.now) ∧
      ∀ (x' : LoadTale) (gate : Gate LoadJob → Gate LoadJob) (running : List LoadJob)
        (hand' : List (Option LoadStage)),
        x'.alarm? d.now = none →
        (∀ others, ((x'.present? d.now).toList ++ (others ++
            d.gate.queue.map LoadStage.attempting)).Perm
          (hand'.reduceOption ++ others ++ (gate d.gate).queue.map LoadStage.attempting)) →
        (∀ others, d.running.Perm (stage.attempting?.toList ++ others) →
          running.Perm (hand'.reduceOption.filterMap LoadStage.attempting? ++ others)) →
        (t.modify fun client => { client with gate := gate client.gate }).Tells p hand'
          { d with gate := gate d.gate, running, tales := before ++ x' :: after } := by
  obtain ⟨owners, hemploys⟩ := h.employs
  have hpresent := hemploys.present
  have hrunning := hemploys.running
  rw [List.cons_append, List.nil_append, List.reduceOption_cons_of_some] at hpresent hrunning
  obtain ⟨before, x, after, htales, hx, hretold⟩ := LoadDesk.exists_present hpresent
  obtain ⟨hstage, hdue⟩ := LoadTale.stage_of_present hx
  refine ⟨before, x, after, htales, hstage, hdue, fun x' gate running hand' halarm hpresent'
    hrunning' => ?_⟩
  obtain ⟨halarms, hpresent''⟩ := hretold x' (gate d.gate) running
  rw [halarm] at halarms
  obtain ⟨others, hothers⟩ := h.alarms
  refine ⟨h.now, congrArg gate h.gate, h.retry, h.sound.of_active rfl (List.Subset.refl _),
    ⟨others, hothers.trans ((halarms.map _).symm.append_right _)⟩, owners,
    hemploys.held.perm_owners ((halarms.map _).symm.append_right _), ?_, ?_⟩
  · rw [List.reduceOption_append]
    exact hpresent''.trans (hpresent' _)
  · rw [List.reduceOption_append, List.filterMap_append]
    refine hrunning' _ (hrunning.trans (.of_eq ?_))
    rw [List.filterMap_cons]
    cases stage.attempting? <;> rfl

/-- A load that is told whether its epoch is wanted is over, or its attempt stands in line. -/
theorem Tells.attempt {job : LoadJob} (h : t.Tells p [some (.asking job)] d) :
    ∃ d', LoadDesk.Run p d [.asked job (t.world.schedule.inWindow job.epoch)] d' ∧
      (t.attempt job).Tells p [] d' := by
  obtain ⟨before, x, after, htales, hstage, hdue, hretold⟩ := h.exists_retold
  rw [ClientLine.attempt]
  cases t.world.schedule.inWindow job.epoch with
  | true =>
      have hqueued := hretold (x.ask d.now job true)
        (·.push ⟨job.epoch, min (job.attempts + 1) LoadJob.maxAttempts⟩) d.running [] rfl
        (fun others => ?_) fun others => id
      · exact ⟨_, LoadDesk.Run.refl.tail (.wanted htales hstage (hdue ⟨job, rfl⟩) rfl),
          hqueued.launch⟩
      · rw [Gate.push, List.map_append]
        exact (@List.perm_append_comm _ [_] _).trans (.of_eq (List.append_assoc ..))
  | false =>
      have hgone := hretold (x.ask d.now job false) id d.running [] rfl
        (fun others => .refl _) fun others => id
      obtain ⟨d', hrun, htells⟩ := hgone.follow
        (x := t.world.schedule.finish job.epoch (.error (.noLongerNeeded job.epoch)))
      have hasked := LoadDesk.Run.refl.tail (.unwanted (p := p) htales hstage (hdue ⟨job, rfl⟩))
      exact ⟨d', hasked.trans hrun, htells⟩

/-- An attempt that ends gives its slot to the next in line, and its load is to learn of it. -/
theorem Tells.attempted {job : LoadJob} (h : t.Tells p [some (.attempting job)] d)
    (result : Attempt LoadError DutySet) :
    ∃ d', LoadDesk.Run p d [] d' ∧
      (ClientLine.handle (.attempted job result) t).Tells p [] d' := by
  obtain ⟨before, x, after, htales, hstage, -, hretold⟩ := h.exists_retold
  obtain ⟨owners, hemploys⟩ := h.employs
  -- Whoever has an attempt in hand has a slot.
  obtain ⟨others, others', hrunning, -⟩ := exists_append_of_cons_perm hemploys.running.symm
  have hreleased := hretold { x with stage := .settling job result } (·.release)
    (others ++ others') [some (.settling job result)] rfl (fun _ => .refl _) fun rest hrest => ?_
  · have hprocess : (Process.done (.settled job result)).Ends
        (ClientSignal.Continues · (some (.settling job result))) := rfl
    exact ⟨_, LoadDesk.Run.refl.tail (.release htales hstage hrunning result),
      hreleased.launch.spawn hprocess⟩
  · rw [hrunning] at hrest
    exact (List.perm_middle.symm.trans hrest).cons_inv

/-- The load in hand has a tale, and may wait. -/
theorem Tells.exists_asleep {job : LoadJob} {result : Attempt LoadError DutySet}
    (h : t.Tells p [some (.settling job result)] d) :
    ∃ before x after, d.tales = before ++ x :: after ∧ x.stage = .settling job result ∧
      ∀ (x' : LoadTale) (job' : LoadJob), x'.stage = .asking job' → d.now < x'.due →
        Tells (Timeline.wait t x'.due (.run (.done (.attempt job')))) p []
          { d with tales := before ++ x' :: after } := by
  obtain ⟨owners, hemploys⟩ := h.employs
  obtain ⟨before, x, after, htales, hx, hretold⟩ := LoadDesk.exists_present hemploys.present
  refine ⟨before, x, after, htales, (LoadTale.stage_of_present hx).1, fun x' job' hstage hdue => ?_⟩
  have halarm : x'.alarm? d.now = some (x'.due, job') := by
    simp [LoadTale.alarm?, hstage, hdue]
  have habsent : x'.present? d.now = none := by
    simp [LoadTale.present?, hstage, hdue]
  obtain ⟨halarms, hpresent⟩ := hretold x' d.gate d.running
  rw [halarm] at halarms
  rw [habsent] at hpresent
  obtain ⟨others, hothers⟩ := h.alarms
  refine ⟨h.now, h.gate, h.retry, h.sound.wait _ _, ⟨others, ?_⟩, owners, ?_, hpresent,
    hemploys.running⟩
  · refine (Timeline.insertTimer_perm _ _ _).trans ((hothers.cons _).trans ?_)
    exact (halarms.map alarm).symm.append_right others
  · have htask : (Task.run (.done (.attempt job'))).Ends
        (ClientSignal.Continues · (sleeper (x'.due, job'))) := rfl
    have hheld := Timeline.held_wait hemploys.held x'.due htask
    exact hheld.perm_owners ((halarms.map sleeper).symm.append_right owners)

/-- A load that learns how its attempt ended is over, or waits, or asks at once. -/
theorem Tells.settled {job : LoadJob} {result : Attempt LoadError DutySet}
    (h : t.Tells p [some (.settling job result)] d) :
    ∃ d', LoadDesk.Run p d (ClientSignal.told t (.settled job result)) d' ∧
      (t.settled job result).Tells p [] d' := by
  rw [ClientLine.settled, ClientSignal.told, h.retry]
  cases hverdict : job.verdict p (loadOutcome result) with
  | finish result' =>
      obtain ⟨before, x, after, htales, hstage, -, hretold⟩ := h.exists_retold
      have hlearned := LoadDesk.Run.refl.tail (.learn (p := p) htales hstage)
      have hfinished := LoadTale.learn_of_finish hverdict x d.now
      have hgone := hretold (x.learn p d.now job (loadOutcome result)) id d.running []
        (by simp [LoadTale.alarm?, hfinished]) (fun _ => by simp [LoadTale.present?, hfinished])
        fun _ => id
      obtain ⟨d', hrun, htells⟩ := hgone.follow
        (x := t.world.schedule.finish job.epoch result')
      exact ⟨d', hlearned.trans hrun, htells⟩
  | retry delay =>
      cases delay with
      | zero =>
          obtain ⟨before, x, after, htales, hstage, -, hretold⟩ := h.exists_retold
          have hlearned := LoadDesk.Run.refl.tail (.learn (p := p) htales hstage)
          obtain ⟨hasking, hdue⟩ := LoadTale.learn_of_retry hverdict x d.now
          have hback := hretold (x.learn p d.now job (loadOutcome result)) id d.running
            [some (.asking job)] (by simp [LoadTale.alarm?, hasking, hdue])
            (fun _ => by simp [LoadTale.present?, hasking, hdue]) fun _ => id
          obtain ⟨d', hrun, htells⟩ := hback.attempt
          exact ⟨d', hlearned.trans hrun, htells⟩
      | succ delay =>
          obtain ⟨before, x, after, htales, hstage, hasleep⟩ := h.exists_asleep
          have hlearned := LoadDesk.Run.refl.tail (.learn (p := p) htales hstage)
          obtain ⟨hasking, hdue⟩ := LoadTale.learn_of_retry hverdict x d.now
          have hwaits := hasleep _ job hasking (hdue ▸ Nat.lt_add_of_pos_right (Nat.succ_pos delay))
          rw [hdue, h.now] at hwaits
          rw [h.now] at hlearned
          exact ⟨_, hlearned, hwaits⟩

theorem Tells.handle {signal : ClientSignal} (hcontinues : signal.Continues o)
    (h : t.Tells p [o] d) :
    ∃ d', LoadDesk.Run p d (signal.told t) d' ∧ (ClientLine.handle signal t).Tells p [] d' := by
  cases signal with
  | attempt job =>
      obtain rfl := hcontinues
      exact h.attempt
  | attempted job result =>
      obtain rfl := hcontinues
      exact h.attempted result
  | settled job result =>
      obtain rfl := hcontinues
      exact h.settled
  | performed duty result =>
      obtain rfl := hcontinues
      obtain ⟨owners, hemploys⟩ := h.employs
      have hdone : t.Tells p [] d :=
        { h with employs := ⟨owners, hemploys.held, hemploys.present, hemploys.running⟩ }
      exact ⟨d, .refl, hdone.modify (f := fun client =>
        { client with reports := client.reports ++ [duty.report result] }) rfl rfl⟩

end ClientLine

end Beacon
