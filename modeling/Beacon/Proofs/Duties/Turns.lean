import Mathlib
import Beacon.Duties.Timeline
import Beacon.Proofs.Duties.Lookups

set_option autoImplicit false

/-! # No process is lost

Every process that is started on a timeline goes on until it is done, and is done once. To say so,
each process has an owner, to whom all its possible results belong (`Process.Ends`); wherever a
process is, ready, waiting for a time or in line for a fork, its task still belongs to its owner.
The tasks of a timeline are held by a list of owners (`Held`), which a turn changes in one way only:
if it comes to a result, the result belongs to an owner, who is then off the list (`Timeline.Ran`).

Nobody stands in line for ever either: while somebody does, there is a task that has the turn to ask
(`Timeline.Sound`). -/

namespace Beacon

variable {σ κ ω : Type}

/-! ## What processes come to -/

/-- Whatever the answers are, the process ends with such a result. -/
def Process.Ends (P : κ → Prop) : Process κ → Prop
  | .done result => P result
  | .pause next => next.Ends P
  | .sleepUntil _ next => next.Ends P
  | .forkFor _ next => ∀ answer, (next answer).Ends P
  | .ask _ next => ∀ answer, (next answer).Ends P

theorem Process.ends_bind {α : Type} {P : κ → Prop} (p : Process α) {f : α → Process κ}
    (h : ∀ a, (f a).Ends P) : (p.bind f).Ends P := by
  induction p with
  | done a => exact h a
  | pause next ih => exact ih
  | sleepUntil time next ih => exact ih
  | forkFor epoch next ih => exact ih
  | ask call next ih => exact ih

/-- Whatever the answers are, the task ends with such a result. -/
def Task.Ends (P : κ → Prop) : Task κ → Prop
  | .run process => process.Ends P
  | .receive _ next => ∀ answer, (next answer).Ends P
  | .askFork _ _ next => ∀ answer, (next answer).Ends P
  | .receiveFork _ _ next => ∀ answer, (next answer).Ends P

/-- The task has the turn to ask on behalf of a lookup. -/
def Task.Asks (id : Nat) : Task κ → Prop
  | .askFork other _ _ => other = id
  | .receiveFork other _ _ => other = id
  | _ => False

/-! ## Owners -/

variable {R : κ → ω → Prop} {o : ω} {os os' : List ω} {task : Task κ} {ts ts' : List (Task κ)}

/-- These tasks belong to these owners, one each. -/
def Held (R : κ → ω → Prop) : List (Task κ) → List ω → Prop :=
  Relation.Comp (List.Forall₂ fun task o => task.Ends (R · o)) List.Perm

namespace Held

theorem nil (R : κ → ω → Prop) : Held R [] [] := ⟨[], .nil, .nil⟩

theorem eq_nil (h : Held R [] os) : os = [] := by
  obtain ⟨xs, hxs, hperm⟩ := h
  rw [List.forall₂_nil_left_iff.1 hxs] at hperm
  exact hperm.nil_eq.symm

theorem perm (h : Held R ts os) (hperm : ts.Perm ts') : Held R ts' os := by
  obtain ⟨xs, hxs, hos⟩ := h
  obtain ⟨ys, hys, hyx⟩ := List.perm_comp_forall₂ hperm.symm hxs
  exact ⟨ys, hys, hyx.trans hos⟩

theorem perm_owners (h : Held R ts os) (hperm : os.Perm os') : Held R ts os' := by
  obtain ⟨xs, hxs, hos⟩ := h
  exact ⟨xs, hxs, hos.trans hperm⟩

theorem cons (h : Held R ts os) (htask : task.Ends (R · o)) : Held R (task :: ts) (o :: os) := by
  obtain ⟨xs, hxs, hos⟩ := h
  exact ⟨o :: xs, .cons htask hxs, hos.cons o⟩

/-- The first task belongs to one of the owners. -/
theorem exists_of_cons (h : Held R (task :: ts) os) :
    ∃ o rest, os.Perm (o :: rest) ∧ task.Ends (R · o) ∧ Held R ts rest := by
  obtain ⟨xs, hxs, hos⟩ := h
  obtain ⟨o, rest, htask, hrest, rfl⟩ := List.forall₂_cons_left_iff.1 hxs
  exact ⟨o, rest, hos.symm, htask, rest, hrest, .refl _⟩

/-- What is so of whoever one of the tasks may belong to is so of all owners. -/
theorem forall_owners {P : ω → Prop} (h : Held R ts os)
    (htasks : ∀ task ∈ ts, ∀ o, task.Ends (R · o) → P o) : ∀ o ∈ os, P o := by
  induction ts generalizing os with
  | nil => exact h.eq_nil ▸ fun _ ho => absurd ho List.not_mem_nil
  | cons task ts ih =>
      obtain ⟨first, rest, hperm, htask, hrest⟩ := h.exists_of_cons
      intro o ho
      rcases List.mem_cons.1 (hperm.subset ho) with rfl | ho
      · exact htasks task List.mem_cons_self o htask
      · exact ih hrest (fun task hmem => htasks task (List.mem_cons_of_mem _ hmem)) o ho

/-- Tasks may be replaced by others of the same owners. -/
theorem replace {α : Type} {f g : α → Task κ} {xs : List α}
    (hsame : ∀ x o, (f x).Ends (R · o) → (g x).Ends (R · o)) (h : Held R (xs.map f ++ ts) os) :
    Held R (xs.map g ++ ts) os := by
  induction xs generalizing os with
  | nil => exact h
  | cons x xs ih =>
      obtain ⟨o, rest, hperm, htask, hrest⟩ := h.exists_of_cons
      exact ((ih hrest).cons (hsame x o htask)).perm_owners hperm.symm

/-- Tasks whose owners are known may be left out. -/
theorem discharge {α : Type} {f : α → Task κ} {g : α → ω} {xs : List α}
    (howner : ∀ x o, (f x).Ends (R · o) → o = g x) (h : Held R (xs.map f ++ ts) os) :
    ∃ rest, os.Perm (xs.map g ++ rest) ∧ Held R ts rest := by
  induction xs generalizing os with
  | nil => exact ⟨os, .refl os, h⟩
  | cons x xs ih =>
      obtain ⟨o, others, hperm, htask, hothers⟩ := h.exists_of_cons
      obtain ⟨rest, hrest, hheld⟩ := ih hothers
      obtain rfl := howner x o htask
      exact ⟨rest, hperm.trans (hrest.cons _), hheld⟩

/-- Tasks of these owners may be added. -/
theorem engage {α : Type} {f : α → Task κ} {g : α → ω} (h : Held R ts os) (xs : List α)
    (howner : ∀ x, (f x).Ends (R · (g x))) : Held R (xs.map f ++ ts) (xs.map g ++ os) := by
  induction xs with
  | nil => exact h
  | cons x xs ih => exact ih.cons (howner x)

end Held

namespace Timeline

variable {t t' : Timeline σ κ} {hand : Option Nat}

/-- The tasks that are ready or wait for a time. -/
def active (t : Timeline σ κ) : List (Task κ) := t.ready ++ t.timers.map (·.2)

/-- The tasks of all processes that are not done. -/
def tasks (t : Timeline σ κ) : List (Task κ) := t.active ++ t.forks.tickets.map (.askFork 0 0)

/-- For every lookup with somebody in line there is a task that has the turn to ask, or somebody has
    it in hand. -/
structure Sound (t : Timeline σ κ) (hand : Option Nat) : Prop where
  forks : t.forks.Sound
  asked : ∀ i, t.forks.Asking i → hand = some i ∨ ∃ task ∈ t.active, task.Asks i

/-! ## Starting and waiting -/

theorem active_spawn (t : Timeline σ κ) (p : Process κ) :
    (t.spawn p).active.Perm (.run p :: t.active) := by
  rw [active, spawn, active, List.append_assoc]
  exact List.perm_middle

theorem insertTimer_perm (time : Nat) (task : Task κ) (xs : List (Nat × Task κ)) :
    (insertTimer time task xs).Perm ((time, task) :: xs) := by
  induction xs with
  | nil => exact .refl _
  | cons x xs ih =>
      rw [insertTimer]
      split
      · exact .refl _
      · exact (ih.cons x).trans (.swap ..)

theorem active_wait (t : Timeline σ κ) (time : Nat) (task : Task κ) :
    (t.wait time task).active.Perm (task :: t.active) := by
  have htimers := (insertTimer_perm time task t.timers).map fun x => x.2
  exact (htimers.append_left t.ready).trans List.perm_middle

theorem active_moveTo (t : Timeline σ κ) (time : Nat) : (t.moveTo time).active.Perm t.active := by
  have hlater : (t.timers.filter fun x => decide (time < x.1)) =
      t.timers.filter fun x => !decide (x.1 ≤ time) :=
    List.filter_congr fun x _ => by rw [← decide_not, decide_eq_decide, Nat.not_le]
  rw [active, moveTo, wake, active, List.append_assoc, ← List.map_append, hlater]
  exact ((List.filter_append_perm _ t.timers).map _).append_left _

theorem Sound.of_active (h : t.Sound hand) (hforks : t'.forks = t.forks)
    (hactive : t.active ⊆ t'.active) : t'.Sound hand where
  forks := hforks ▸ h.forks
  asked i hi := (h.asked i (hforks ▸ hi)).imp_right fun ⟨task, htask, hasks⟩ =>
    ⟨task, hactive htask, hasks⟩

theorem Sound.spawn (h : t.Sound hand) (p : Process κ) : (t.spawn p).Sound hand :=
  h.of_active rfl fun _ htask => (t.active_spawn p).symm.subset (List.mem_cons_of_mem _ htask)

theorem Sound.wait (h : t.Sound hand) (time : Nat) (task : Task κ) :
    (t.wait time task).Sound hand :=
  h.of_active rfl fun _ hmem => (t.active_wait time task).symm.subset (List.mem_cons_of_mem _ hmem)

/-- Who has the turn to ask may wait for the answer. -/
theorem Sound.wait_asking {id : Nat} (h : t.Sound (some id)) (time : Nat) {task : Task κ}
    (hasks : task.Asks id) : (t.wait time task).Sound none where
  forks := h.forks
  asked i hi := by
    refine .inr ?_
    rcases h.asked i hi with heq | ⟨other, hother, hasks'⟩
    · obtain rfl := Option.some.inj heq
      exact ⟨task, (t.active_wait time task).symm.subset List.mem_cons_self, hasks⟩
    · exact ⟨other, (t.active_wait time task).symm.subset (List.mem_cons_of_mem _ hother), hasks'⟩

theorem Sound.moveTo (h : t.Sound hand) (time : Nat) : (t.moveTo time).Sound hand :=
  h.of_active rfl (t.active_moveTo time).symm.subset

theorem held_spawn (h : Held R t.tasks os) {p : Process κ} (hp : p.Ends (R · o)) :
    Held R (t.spawn p).tasks (o :: os) := by
  have htask : (Task.run p).Ends (R · o) := hp
  exact (h.cons htask).perm ((t.active_spawn p).symm.append_right _)

theorem held_wait (h : Held R t.tasks os) (time : Nat) (htask : task.Ends (R · o)) :
    Held R (t.wait time task).tasks (o :: os) :=
  (h.cons htask).perm ((t.active_wait time task).symm.append_right _)

theorem held_moveTo (h : Held R t.tasks os) (time : Nat) : Held R (t.moveTo time).tasks os :=
  h.perm ((t.active_moveTo time).symm.append_right _)

/-! ## Answers to fork lookups -/

variable (c : Collaborators σ)

/-- An answer on behalf of a lookup makes those ready who leave the line. If it is no answer for
    them, the first of them has the turn to ask. -/
theorem exists_receiveFork (h : t.forks.Sound) (id : Nat) (epoch : Epoch) :
    ∃ (line : List (ForkTicket κ)) (task : ForkTicket κ → Task κ),
      (t.receiveFork c id epoch).2.forks.Sound ∧
      t.forks.tickets.Perm (line ++ (t.receiveFork c id epoch).2.forks.tickets) ∧
      (t.receiveFork c id epoch).2.active.Perm (line.map task ++ t.active) ∧
      (∀ P next, (Task.askFork 0 0 next).Ends P → (task next).Ends P) ∧
      ∀ i, (t.receiveFork c id epoch).2.forks.Asking i →
        (i ≠ id ∧ t.forks.Asking i) ∨ ∃ x ∈ line.map task, x.Asks i := by
  rw [receiveFork, receive]
  generalize c.answer t.world (.api (.forkInfo epoch)) = x
  have hready : ∀ started : List (Task κ), (t.ready ++ started ++ t.timers.map (·.2)).Perm
      (started ++ t.active) := fun started => by
    rw [List.append_assoc]
    exact List.perm_append_comm_assoc _ _ _
  rcases x with ⟨cause | fork, world⟩
  · obtain ⟨hsound, htickets, hasking⟩ := h.failed id
    refine ⟨_, _, hsound, htickets, hready _, fun P next hnext => hnext, fun i hi => ?_⟩
    refine (hasking i hi).symm.imp_right fun ⟨hid, hnext⟩ => ?_
    obtain ⟨next, hnext⟩ := Option.ne_none_iff_exists'.1 hnext
    rw [hnext]
    exact ⟨.askFork id epoch next, List.mem_singleton_self _, hid.symm⟩
  · obtain ⟨hsound, htickets, hasking⟩ := h.answered id fork
    exact ⟨_, _, hsound, htickets, hready _, fun P next hnext => hnext _,
      fun i hi => .inl (hasking i hi)⟩

/-- Whoever takes an answer on behalf of a lookup has the turn to ask no longer. -/
theorem sound_receiveFork {id : Nat} (h : t.Sound (some id)) (epoch : Epoch) :
    (t.receiveFork c id epoch).2.Sound none := by
  obtain ⟨line, task, hsound, -, hactive, -, hasking⟩ := exists_receiveFork c h.forks id epoch
  refine ⟨hsound, fun i hi => .inr ?_⟩
  rcases hasking i hi with ⟨hne, hi⟩ | ⟨x, hx, hasks⟩
  · obtain ⟨x, hx, hasks⟩ := (h.asked i hi).resolve_left fun heq => hne (Option.some.inj heq).symm
    exact ⟨x, hactive.symm.subset (List.mem_append_right _ hx), hasks⟩
  · exact ⟨x, hactive.symm.subset (List.mem_append_left _ hx), hasks⟩

theorem held_receiveFork (hsound : t.Sound hand) (h : Held R t.tasks os) (id : Nat)
    (epoch : Epoch) : Held R (t.receiveFork c id epoch).2.tasks os := by
  obtain ⟨line, task, -, htickets, hactive, hends, -⟩ := exists_receiveFork c hsound.forks id epoch
  have htasks : t.tasks.Perm (line.map (.askFork 0 0) ++ (t.active ++
      (t.receiveFork c id epoch).2.forks.tickets.map (.askFork 0 0))) := by
    refine ((htickets.map _).append_left _).trans ?_
    rw [List.map_append]
    exact List.perm_append_comm_assoc _ _ _
  refine ((h.perm htasks).replace fun next o => hends _ next).perm ?_
  rw [← List.append_assoc]
  exact (hactive.symm.append_right _)

/-! ## Turns -/

/-- What comes of a turn of a process of this owner: he still holds it, or has its result. -/
def Ran (R : κ → ω → Prop) (o : ω) (os : List ω) (x : Option κ × Timeline σ κ) : Prop :=
  x.2.Sound none ∧ match x.1 with
    | none => Held R x.2.tasks (o :: os)
    | some result => R result o ∧ Held R x.2.tasks os

/-- The turn to ask is used, or kept until the answer comes. -/
theorem ran_ask {id : Nat} {epoch : Epoch} {next : ForkTicket κ} (hsound : t.Sound (some id))
    (h : Held R t.tasks os) (hnext : ∀ answer, (next answer).Ends (R · o))
    (hgo : ∀ answer (t : Timeline σ κ), t.Sound none → Held R t.tasks os →
      Ran R o os (advance c (next answer) t)) :
    Ran R o os (
      let (latency, t) := t.call c (.api (.forkInfo epoch))
      if latency = 0 then
        let (answer, t) := t.receiveFork c id epoch
        advance c (next answer) t
      else (none, t.wait (t.now + latency) (.receiveFork id epoch next))) := by
  have hcalled : (t.call c (.api (.forkInfo epoch))).2.Sound (some id) :=
    hsound.of_active rfl (List.Subset.refl _)
  dsimp only
  split
  · exact hgo _ _ (sound_receiveFork c hcalled epoch) (held_receiveFork c hcalled h id epoch)
  · exact ⟨hcalled.wait_asking _ rfl, held_wait h _ hnext⟩

theorem held_of_tickets {forks : Forks (ForkTicket κ)} (h : Held R t.tasks os)
    (htickets : forks.tickets = t.forks.tickets) :
    Held R ({ t with forks } : Timeline σ κ).tasks os :=
  h.perm (.of_eq (congrArg (t.active ++ ·.map (.askFork 0 0)) htickets.symm))

/-- Who enters where nobody is about to ask has the turn to ask. -/
theorem Sound.take {forks : Forks (ForkTicket κ)} {id : Nat} (h : t.Sound none)
    (hforks : forks.Sound) (hasks : ∀ i, forks.Asking i → i = id ∨ t.forks.Asking i) :
    ({ t with forks } : Timeline σ κ).Sound (some id) where
  forks := hforks
  asked i hi := (hasks i hi).imp (fun heq => congrArg some heq.symm) fun hi =>
    (h.asked i hi).resolve_left nofun

theorem ran_advance {p : Process κ} (hsound : t.Sound none) (h : Held R t.tasks os)
    (hp : p.Ends (R · o)) : Ran R o os (advance c p t) := by
  induction p generalizing t with
  | done result => exact ⟨hsound, hp, h⟩
  | pause next ih => exact ⟨hsound.spawn next, held_spawn h hp⟩
  | sleepUntil time next ih =>
      rw [advance]
      split
      · exact ih hsound h hp
      · exact ⟨hsound.wait time _, held_wait h time hp⟩
  | forkFor epoch next ih =>
      have hgo : ∀ answer (t : Timeline σ κ), t.Sound none → Held R t.tasks os →
          Ran R o os (advance c (next answer) t) :=
        fun answer t hsound h => ih answer hsound h (hp answer)
      rw [advance]
      rcases t.forks.enter_cases epoch next with ⟨fork, heq⟩ | ⟨l, hl, hasking, heq⟩ |
        ⟨l, hl, heq⟩ | heq
      · rw [heq]
        exact hgo _ _ hsound h
      · -- The task itself is gone: it is the ticket that now stands in line.
        obtain ⟨hforks, htickets, hasks⟩ := hsound.forks.wait hl hasking next
        rw [heq]
        refine ⟨⟨hforks, fun i hi => hsound.asked i (hasks i hi)⟩, ?_⟩
        have htask : (Task.askFork 0 0 next).Ends (R · o) := hp
        refine (h.cons htask).perm ?_
        exact (((htickets.map _).append_left _).trans List.perm_middle).symm
      · obtain ⟨hforks, htickets, hasks⟩ := hsound.forks.ask hl
        rw [heq]
        exact ran_ask c (hsound.take hforks hasks) (held_of_tickets h htickets) hp hgo
      · obtain ⟨hforks, htickets, hasks⟩ := hsound.forks.begin epoch true
        rw [heq]
        exact ran_ask c (hsound.take hforks hasks) (held_of_tickets h htickets) hp hgo
  | ask call next ih =>
      rw [advance]
      have hcalled : (t.call c call).2.Sound none := hsound.of_active rfl (List.Subset.refl _)
      dsimp only
      split
      · exact ih _ (hcalled.of_active rfl (List.Subset.refl _)) h (hp _)
      · exact ⟨hcalled.wait _ _, held_wait h _ hp⟩

/-- The first ready task leaves the others with the turns to ask that it has not in hand itself. -/
theorem Sound.rest (h : t.Sound none) {rest : List (Task κ)} (hready : t.ready = task :: rest)
    (hhand : ∀ i, task.Asks i → hand = some i) :
    ({ t with ready := rest } : Timeline σ κ).Sound hand where
  forks := h.forks
  asked i hi := by
    obtain ⟨x, hx, hasks⟩ := (h.asked i hi).resolve_left nofun
    rw [active, hready, List.cons_append] at hx
    rcases List.mem_cons.1 hx with rfl | hx
    · exact .inl (hhand i hasks)
    · exact .inr ⟨x, hx, hasks⟩

/-- The first ready task goes on for its owner. -/
theorem ran_perform {ready : List (Task κ)} (hsound : t.Sound none)
    (hready : t.ready = task :: ready)
    (h : Held R ({ t with ready } : Timeline σ κ).tasks os) (htask : task.Ends (R · o)) :
    Ran R o os (({ t with ready } : Timeline σ κ).perform c task) := by
  cases task with
  | run process => exact ran_advance c (hsound.rest hready nofun) h htask
  | receive request next =>
      have hrest : ({ t with ready } : Timeline σ κ).Sound none := hsound.rest hready nofun
      exact ran_advance c (hrest.of_active rfl (List.Subset.refl _)) h (htask _)
  | askFork id epoch next =>
      refine ran_ask c (hsound.rest hready fun i hi => congrArg some hi) h htask ?_
      exact fun answer t hsound h => ran_advance c hsound h (htask answer)
  | receiveFork id epoch next =>
      have hrest : ({ t with ready } : Timeline σ κ).Sound (some id) :=
        hsound.rest hready fun i hi => congrArg some hi
      exact ran_advance c (sound_receiveFork c hrest epoch)
        (held_receiveFork c hrest h id epoch) (htask _)

theorem tasks_of_timers {α : Type} {f : α → Nat × Task κ} {xs : List α}
    {others : List (Nat × Task κ)} (h : t.timers.Perm (xs.map f ++ others)) :
    t.tasks.Perm
      (xs.map (fun y => (f y).2) ++ ({ t with timers := others } : Timeline σ κ).tasks) := by
  have htimers := h.map (·.2)
  rw [List.map_append, List.map_map] at htimers
  rw [tasks, tasks, active, active, List.append_assoc, List.append_assoc]
  refine ((htimers.append_right _).append_left t.ready).trans ?_
  rw [List.append_assoc]
  exact List.perm_append_comm_assoc _ _ _

/-- A turn on a timeline: the first ready task goes on. If some of the timers belong to known owners
    alone, the turn is that of another owner. -/
theorem ran_step_beside {α : Type} {f : α → Nat × Task κ} {g : α → ω} {xs : List α}
    {others : List (Nat × Task κ)} {x : Option κ × Timeline σ κ} (hsound : t.Sound none)
    (htimers : t.timers.Perm (xs.map f ++ others))
    (howner : ∀ y o, (f y).2.Ends (R · o) ↔ o = g y) (h : Held R t.tasks (xs.map g ++ os))
    (hstep : t.step c = some x) :
    ∃ o rest, os.Perm (o :: rest) ∧ Ran R o (xs.map g ++ rest) x := by
  rw [step] at hstep
  split at hstep
  case h_1 => exact nomatch hstep
  case h_2 task ready hready =>
      obtain rfl := Option.some.inj hstep
      -- Without the timers whose owners are known, the first ready task is still the first.
      have hheld := h.perm (tasks_of_timers htimers)
      obtain ⟨os', hos, hothers⟩ := hheld.discharge fun y o => (howner y o).1
      rw [tasks, active, hready, List.cons_append, List.cons_append] at hothers
      obtain ⟨o, rest, hperm, htask, hrest⟩ := hothers.exists_of_cons
      refine ⟨o, rest, ((List.perm_append_left_iff _).1 hos).trans hperm, ?_⟩
      refine ran_perform c hsound hready ?_ htask
      have hback := hrest.engage xs fun y => (howner y _).2 rfl
      exact hback.perm (tasks_of_timers (t := { t with ready }) htimers).symm

/-- A turn on a timeline: the first ready task goes on. -/
theorem ran_step {x : Option κ × Timeline σ κ} (hsound : t.Sound none) (h : Held R t.tasks os)
    (hstep : t.step c = some x) : ∃ o rest, os.Perm (o :: rest) ∧ Ran R o rest x := by
  have hnone : t.timers.Perm (([] : List Empty).map Empty.elim ++ t.timers) := .refl _
  exact ran_step_beside (g := Empty.elim) c hsound hnone nofun h hstep

/-! ## The world -/

section

variable {P : σ → Prop} (hnote : ∀ x now call, P x → P (c.note x now call))
variable (hanswer : ∀ x call, P x → P (c.answer x call).2)

include hanswer in
theorem world_receiveFork (h : P t.world) (id : Nat) (epoch : Epoch) :
    P (t.receiveFork c id epoch).2.world := by
  have hworld := hanswer t.world (.api (.forkInfo epoch)) h
  rw [receiveFork, receive]
  generalize c.answer t.world (.api (.forkInfo epoch)) = x at hworld ⊢
  rcases x with ⟨cause | fork, world⟩
  · exact hworld
  · exact hworld

include hnote hanswer in
/-- Processes change the world by calls alone. -/
theorem world_advance {p : Process κ} (h : P t.world) : P (advance c p t).2.world := by
  induction p generalizing t with
  | done result => exact h
  | pause next ih => exact h
  | sleepUntil time next ih =>
      rw [advance]
      split
      · exact ih h
      · exact h
  | forkFor epoch next ih =>
      have hcalled : P (c.note t.world t.now (.api (.forkInfo epoch))) := hnote _ _ _ h
      rw [advance]
      rcases t.forks.enter epoch next with ⟨fork | id | _, forks⟩
      · exact ih _ h
      · dsimp only
        split
        · exact ih _ (world_receiveFork c hanswer hcalled id epoch)
        · exact hcalled
      · exact h
  | ask call next ih =>
      have hcalled : P (c.note t.world t.now call) := hnote _ _ _ h
      rw [advance]
      dsimp only
      split
      · exact ih _ (hanswer _ _ hcalled)
      · exact hcalled

include hnote hanswer in
theorem world_step {x : Option κ × Timeline σ κ} (h : P t.world) (hstep : t.step c = some x) :
    P x.2.world := by
  rw [step] at hstep
  split at hstep
  case h_1 => exact nomatch hstep
  case h_2 task ready hready =>
      obtain rfl := Option.some.inj hstep
      cases task with
      | run process => exact world_advance c hnote hanswer h
      | receive request next => exact world_advance c hnote hanswer (hanswer _ _ h)
      | askFork id epoch next =>
          have hcalled : P (c.note t.world t.now (.api (.forkInfo epoch))) := hnote _ _ _ h
          rw [perform]
          dsimp only
          split
          · exact world_advance c hnote hanswer (world_receiveFork c hanswer hcalled id epoch)
          · exact hcalled
      | receiveFork id epoch next =>
          exact world_advance c hnote hanswer
            (world_receiveFork (t := { t with ready }) c hanswer h id epoch)

end

/-! ## Timers -/

/-- No time has passed, what waited for a time still does, and what has begun to wait does so for a
    later one. -/
structure Awaits (t t' : Timeline σ κ) : Prop where
  now : t'.now = t.now
  timers : ∃ new, t'.timers.Perm (new ++ t.timers) ∧ ∀ y ∈ new, t.now < y.1

theorem Awaits.of_eq (hnow : t'.now = t.now) (htimers : t'.timers = t.timers) : t.Awaits t' :=
  ⟨hnow, [], .of_eq htimers, nofun⟩

theorem Awaits.trans {t'' : Timeline σ κ} (h : t.Awaits t') (hlater : t'.Awaits t'') :
    t.Awaits t'' := by
  obtain ⟨hnow, new, hperm, hnew⟩ := h
  obtain ⟨hnow', new', hperm', hnew'⟩ := hlater
  refine ⟨hnow'.trans hnow, new' ++ new, ?_, fun y hy => ?_⟩
  · rw [List.append_assoc]
    exact hperm'.trans (hperm.append_left new')
  · rcases List.mem_append.1 hy with hy | hy
    · exact hnow ▸ hnew' y hy
    · exact hnew y hy

theorem awaits_wait {time : Nat} (hlt : t.now < time) (task : Task κ) :
    t.Awaits (t.wait time task) :=
  ⟨rfl, [(time, task)], insertTimer_perm time task t.timers,
    fun _ hy => List.mem_singleton.1 hy ▸ hlt⟩

/-- An answer that takes its time is waited for. -/
theorem awaits_latency {latency : Nat} (hlatency : latency ≠ 0) (task : Task κ) :
    t.Awaits (t.wait (t.now + latency) task) :=
  awaits_wait (Nat.lt_add_of_pos_right (Nat.pos_of_ne_zero hlatency)) task

theorem awaits_receiveFork (t : Timeline σ κ) (id : Nat) (epoch : Epoch) :
    t.Awaits (t.receiveFork c id epoch).2 := by
  rw [receiveFork, receive]
  rcases c.answer t.world (.api (.forkInfo epoch)) with ⟨cause | fork, world⟩
  · exact .of_eq rfl rfl
  · exact .of_eq rfl rfl

/-- Who has the turn to ask waits for the answer at most. -/
theorem awaits_ask {id : Nat} {epoch : Epoch} {next : ForkTicket κ}
    (hgo : ∀ answer (t : Timeline σ κ), t.Awaits (advance c (next answer) t).2) (t : Timeline σ κ) :
    t.Awaits (
      let (latency, t) := t.call c (.api (.forkInfo epoch))
      if latency = 0 then
        let (answer, t) := t.receiveFork c id epoch
        advance c (next answer) t
      else (none, t.wait (t.now + latency) (.receiveFork id epoch next))).2 := by
  have hcalled : t.Awaits (t.call c (.api (.forkInfo epoch))).2 := .of_eq rfl rfl
  dsimp only
  split
  · exact (hcalled.trans (awaits_receiveFork c _ id epoch)).trans (hgo _ _)
  · next hlatency => exact hcalled.trans (awaits_latency hlatency _)

theorem awaits_advance (p : Process κ) (t : Timeline σ κ) : t.Awaits (advance c p t).2 := by
  induction p generalizing t with
  | done result => exact .of_eq rfl rfl
  | pause next ih => exact .of_eq rfl rfl
  | sleepUntil time next ih =>
      rw [advance]
      split
      · exact ih t
      · next hle => exact awaits_wait (Nat.not_le.1 hle) _
  | forkFor epoch next ih =>
      rw [advance]
      rcases t.forks.enter epoch next with ⟨entry, forks⟩
      have hentered : t.Awaits { t with forks } := .of_eq rfl rfl
      cases entry with
      | known fork => exact hentered.trans (ih _ _)
      | ask id => exact hentered.trans (awaits_ask c ih _)
      | wait => exact hentered
  | ask call next ih =>
      have hcalled : t.Awaits (t.call c call).2 := .of_eq rfl rfl
      have hreceived : t.Awaits ((t.call c call).2.receive c call).2 := .of_eq rfl rfl
      rw [advance]
      dsimp only
      split
      · exact hreceived.trans (ih _ _)
      · next hlatency => exact hcalled.trans (awaits_latency hlatency _)

/-- A turn takes no time. -/
theorem awaits_step {x : Option κ × Timeline σ κ} (hstep : t.step c = some x) : t.Awaits x.2 := by
  rw [step] at hstep
  split at hstep
  case h_1 => exact nomatch hstep
  case h_2 task ready hready =>
      obtain rfl := Option.some.inj hstep
      have hrest : t.Awaits { t with ready } := .of_eq rfl rfl
      refine hrest.trans ?_
      cases task with
      | run process => exact awaits_advance c process _
      | receive request next =>
          have hreceived : ({ t with ready } : Timeline σ κ).Awaits
              (({ t with ready } : Timeline σ κ).receive c request).2 := .of_eq rfl rfl
          exact hreceived.trans (awaits_advance c _ _)
      | askFork id epoch next =>
          exact awaits_ask c (fun answer => awaits_advance c (next answer)) _
      | receiveFork id epoch next =>
          exact (awaits_receiveFork c _ id epoch).trans (awaits_advance c _ _)

/-! ## Rest -/

/-- Where nobody has the turn to ask, nobody stands in line. -/
theorem Sound.tickets_eq_nil (h : t.Sound none) (hidle : ∀ task ∈ t.active, ∀ i, ¬ task.Asks i) :
    t.forks.tickets = [] := by
  rw [Forks.tickets, List.flatMap_eq_nil_iff]
  intro l hl
  by_contra hline
  rcases h.asked l.id ⟨l, hl, rfl, h.forks.asking l hl hline⟩ with hhand | ⟨task, htask, hasks⟩
  · exact absurd hhand.symm (Option.some_ne_none _)
  · exact hidle task htask l.id hasks

end Timeline

end Beacon
