import Mathlib
import Beacon.Duties.Execution
import Beacon.Proofs.Duties.Window

set_option autoImplicit false

/-! # A schedule in service

Many are at a schedule at a time: epoch signals and slot signals come, loads end, and what the
schedule has ordered is carried out. What one of them does to the schedule in one go is only this:
an epoch signal moves it on, a slot signal compares its epoch with the current one, lets it begin,
or looks it up, and a load that ends puts in its result; between any two of these, others may do
anything. A `Service` is a schedule with everyone around it, and `Service.Step` what anyone may do
next. -/

namespace Beacon

variable {e : Epoch}

/-! ## Everyone around a schedule -/

/-- The slot, the validator and the kind of a duty. -/
def Duty.label (d : Duty) : Slot × ValidatorIndex × DutyKind := (d.slot, d.validatorIndex, d.kind)

/-- The slot, the validator and the kind of the duty that a report is about. -/
def DutyReport.label (r : DutyReport) : Slot × ValidatorIndex × DutyKind :=
  (r.slot, r.validatorIndex, r.kind)

/-- A schedule with all that is under way around it, and what has happened. Slots come with the
    times at which they started. -/
structure Service where
  schedule : Schedule
  /-- Slot signals that are yet to compare their epochs with the current one. -/
  arriving : List (Slot × Nat) := []
  /-- Slot signals that are about to let their epochs begin. -/
  entering : List (Slot × Nat) := []
  /-- Slot signals that are about to look their epochs up. -/
  serving : List (Slot × Nat) := []
  /-- What has been ordered and not been carried out yet. -/
  orders : List Order := []
  /-- Epochs whose loads are under way. -/
  loads : List Epoch := []
  /-- Duties that are being performed. -/
  duties : List Duty := []
  /-- Slot signals that have come. -/
  signalled : List (Slot × Nat) := []
  /-- Slot signals that have found their epochs in the window, or not. -/
  accepted : List (Slot × Nat) := []
  refused : List (Slot × Nat) := []
  /-- Loads that have ended, with their results. -/
  ends : List (Epoch × Except LoadError DutySet) := []
  /-- Slots whose duties have been dispatched, and from which set. -/
  dispatched : List (DutySet × Slot × Nat) := []
  /-- Slots that waited for a load when it failed. -/
  failed : List (Slot × Nat) := []
  /-- Slots that waited for a load when its epoch left the window. -/
  left : List (Slot × Nat) := []
  reports : List DutyReport := []

namespace Service

variable {w w' : Service} {slotsPerEpoch lookahead : Nat}

/-- Nothing has happened. -/
def create (slotsPerEpoch lookahead : Nat) : Service where
  schedule := { slotsPerEpoch, lookahead }

/-- The epoch of a slot. -/
def epochOf (w : Service) (x : Slot × Nat) : Epoch := x.1 / w.schedule.slotsPerEpoch

/-- The loads that are ordered or under way. -/
def outstanding (w : Service) : List Epoch := w.loads ++ w.orders.filterMap Order.load?

/-! ## What anyone may do -/

/-- An epoch begins, unless it has passed. -/
def advance (w : Service) (e : Epoch) : Service :=
  { w with
    schedule := (w.schedule.onEpoch e).2
    orders := w.orders ++ (w.schedule.onEpoch e).1
    left := w.left ++ w.schedule.leaving e }

/-- A slot signal compares its epoch with the current one. -/
def compare (w : Service) (x : Slot × Nat) : Service :=
  if w.schedule.current.all (· < w.epochOf x) then { w with entering := w.entering ++ [x] }
  else { w with serving := w.serving ++ [x] }

theorem compare_of_later {x : Slot × Nat}
    (h : w.schedule.current.all (· < x.1 / w.schedule.slotsPerEpoch)) :
    w.compare x = { w with entering := w.entering ++ [x] } := if_pos h

theorem compare_of_not_later {x : Slot × Nat}
    (h : ¬ w.schedule.current.all (· < x.1 / w.schedule.slotsPerEpoch)) :
    w.compare x = { w with serving := w.serving ++ [x] } := if_neg h

/-- A slot signal looks its epoch up. -/
def serve (w : Service) (x : Slot × Nat) : Service :=
  { w with
    schedule := (w.schedule.serve x.1 x.2).2
    orders := w.orders ++ (w.schedule.serve x.1 x.2).1
    accepted := w.accepted ++ if w.schedule.inWindow (w.epochOf x) then [x] else []
    refused := w.refused ++ if w.schedule.inWindow (w.epochOf x) then [] else [x] }

/-- A load ends. -/
def finish (w : Service) (e : Epoch) (result : Except LoadError DutySet) : Service :=
  { w with
    schedule := (w.schedule.finish e result).2
    orders := w.orders ++ (w.schedule.finish e result).1
    ends := w.ends ++ [(e, result)]
    failed := w.failed ++ w.schedule.missed e result }

/-- An order is carried out: its load begins, or so do the duties of its slot. -/
def carry (w : Service) : Order → Service
  | .load epoch => { w with loads := w.loads ++ [epoch] }
  | .dispatch set slot started =>
    { w with
      dispatched := w.dispatched ++ [(set, slot, started)]
      duties := w.duties ++ set.dutiesAt slot }
  | .forget _ => w

/-- What anyone may do next. -/
inductive Step : Service → Service → Prop where
  | epoch (w : Service) (e : Epoch) : Step w (w.advance e)
  | slot (w : Service) (x : Slot × Nat) :
      Step w { w with arriving := w.arriving ++ [x], signalled := w.signalled ++ [x] }
  | compare {w : Service} {x : Slot × Nat} {before after : List (Slot × Nat)}
      (h : w.arriving = before ++ x :: after) :
      Step w ({ w with arriving := before ++ after }.compare x)
  | enter {w : Service} {x : Slot × Nat} {before after : List (Slot × Nat)}
      (h : w.entering = before ++ x :: after) :
      Step w ({ w with
        entering := before ++ after
        serving := w.serving ++ [x] }.advance (w.epochOf x))
  | serve {w : Service} {x : Slot × Nat} {before after : List (Slot × Nat)}
      (h : w.serving = before ++ x :: after) :
      Step w ({ w with serving := before ++ after }.serve x)
  | carry {w : Service} {o : Order} {before after : List Order}
      (h : w.orders = before ++ o :: after) : Step w ({ w with orders := before ++ after }.carry o)
  | finish {w : Service} {e : Epoch} {before after : List Epoch}
      (h : w.loads = before ++ e :: after) (result : Except LoadError DutySet) :
      Step w ({ w with loads := before ++ after }.finish e result)
  /-- A duty ends, whatever becomes of the others. -/
  | report {w : Service} {d : Duty} {before after : List Duty}
      (h : w.duties = before ++ d :: after) (result : Attempt ExecutionError Unit) :
      Step w { w with duties := before ++ after, reports := w.reports ++ [d.report result] }

/-- The services that steps lead to from one in which nothing has happened. -/
def Reachable (slotsPerEpoch lookahead : Nat) (w : Service) : Prop :=
  Relation.ReflTransGen Step (create slotsPerEpoch lookahead) w

/-! ## What is kept -/

/-- What is kept of a service: that of its schedule, and that nobody looks an epoch up before the
    first one has begun. -/
structure Kept (w : Service) : Prop where
  schedule : w.schedule.Kept w.outstanding
  begun : w.serving ≠ [] → w.schedule.current ≠ none

theorem kept_create (slotsPerEpoch lookahead : Nat) : (create slotsPerEpoch lookahead).Kept where
  schedule := .create slotsPerEpoch lookahead
  begun h := absurd rfl h

theorem outstanding_advance (w : Service) (e : Epoch) :
    (w.advance e).outstanding
      = w.outstanding ++ (w.schedule.onEpoch e).1.filterMap Order.load? := by
  rw [outstanding, advance, List.filterMap_append, ← List.append_assoc, outstanding]

/-- A load that ends is outstanding no longer. -/
theorem outstanding_finish {before after : List Epoch} (hloads : w.loads = before ++ e :: after)
    (result : Except LoadError DutySet) :
    w.outstanding.Perm
      (e :: ({ w with loads := before ++ after }.finish e result).outstanding) := by
  rw [outstanding, hloads, outstanding, finish, List.filterMap_append, Schedule.loads_finish,
    List.append_nil]
  exact List.perm_middle.append_right _

namespace Kept

theorem advance (h : w.schedule.Kept w.outstanding) (e : Epoch) : (w.advance e).Kept where
  schedule := by
    rw [outstanding_advance]
    exact h.onEpoch e
  begun _ := by
    obtain ⟨c, hcurrent, -⟩ := w.schedule.exists_current_onEpoch e
    exact hcurrent ▸ Option.some_ne_none c

theorem compare (h : w.Kept) (x : Slot × Nat) : (w.compare x).Kept := by
  rw [Service.compare]
  split
  case isTrue => exact { h with }
  case isFalse hlater =>
      refine { h with begun := fun _ hnone => hlater ?_ }
      rw [show w.schedule.current = none from hnone]
      rfl

theorem serve (h : w.schedule.Kept w.outstanding) (hbegun : w.schedule.current ≠ none)
    (x : Slot × Nat) : (w.serve x).Kept where
  schedule := by
    rw [outstanding, Service.serve, List.filterMap_append, ← List.append_assoc]
    exact h.serve hbegun x.1 x.2
  begun _ := by
    rw [Service.serve, Schedule.serve_snd]
    exact hbegun

theorem finish (h : w.Kept) {before after : List Epoch} (hloads : w.loads = before ++ e :: after)
    (result : Except LoadError DutySet) :
    ({ w with loads := before ++ after }.finish e result).Kept := by
  refine ⟨(h.schedule.perm (outstanding_finish hloads result)).finish result, fun hserving => ?_⟩
  rw [Service.finish, Schedule.finish_snd]
  exact h.begun hserving

theorem carry (h : w.Kept) {o : Order} {before after : List Order}
    (horders : w.orders = before ++ o :: after) :
    ({ w with orders := before ++ after }.carry o).Kept := by
  have hsplit : w.outstanding =
      w.loads ++ (before.filterMap Order.load? ++ (o :: after).filterMap Order.load?) := by
    rw [outstanding, horders, List.filterMap_append]
  have hrest : ({ w with orders := before ++ after } : Service).outstanding =
      w.loads ++ (before.filterMap Order.load? ++ after.filterMap Order.load?) := by
    rw [outstanding, List.filterMap_append]
  cases o with
  | load e =>
      refine ⟨h.schedule.perm ?_, h.begun⟩
      rw [hsplit, Service.carry, outstanding, List.filterMap_append, List.append_assoc]
      exact List.perm_middle.append_left _
  | dispatch set slot started =>
      exact ⟨h.schedule.perm (.of_eq (hsplit.trans hrest.symm)), h.begun⟩
  | forget oldest => exact ⟨h.schedule.perm (.of_eq (hsplit.trans hrest.symm)), h.begun⟩

theorem step (h : w.Kept) (hstep : Step w w') : w'.Kept := by
  cases hstep with
  | epoch e => exact advance h.schedule e
  | slot x => exact { h with }
  | @compare x before after harriving =>
      exact compare (w := { w with arriving := before ++ after }) { h with } x
  | @enter x before after hentering =>
      exact advance (w := { w with entering := before ++ after, serving := w.serving ++ [x] })
        h.schedule _
  | @serve x before after hserving =>
      refine serve (w := { w with serving := before ++ after }) h.schedule (h.begun ?_) x
      exact hserving ▸ List.append_ne_nil_of_right_ne_nil _ (List.cons_ne_nil _ _)
  | carry horders => exact h.carry horders
  | finish hloads result => exact h.finish hloads result
  | report hduties result => exact { h with }

end Kept

theorem Reachable.kept (h : Reachable slotsPerEpoch lookahead w) : w.Kept := by
  induction h with
  | refl => exact kept_create slotsPerEpoch lookahead
  | tail _ hstep ih => exact ih.step hstep

/-! ## What becomes of a schedule -/

theorem schedule_compare (w : Service) (x : Slot × Nat) : (w.compare x).schedule = w.schedule := by
  rw [compare]
  split <;> rfl

theorem schedule_carry (w : Service) (o : Order) : (w.carry o).schedule = w.schedule := by
  cases o <;> rfl

/-- What a step may do to the schedule: nothing, or what an epoch signal, a slot signal or the end
    of an outstanding load does. -/
theorem step_schedule (hstep : Step w w') :
    w'.schedule = w.schedule ∨ (∃ e, w'.schedule = (w.schedule.onEpoch e).2) ∨
    (∃ x : Slot × Nat, w'.schedule = (w.schedule.serve x.1 x.2).2) ∨
    (∃ e result, e ∈ w.outstanding ∧ w'.schedule = (w.schedule.finish e result).2) := by
  cases hstep with
  | epoch e => exact .inr (.inl ⟨e, rfl⟩)
  | slot x => exact .inl rfl
  | compare harriving => exact .inl (schedule_compare _ _)
  | @enter x before after hentering => exact .inr (.inl ⟨w.epochOf x, rfl⟩)
  | @serve x before after hserving => exact .inr (.inr (.inl ⟨x, rfl⟩))
  | carry horders => exact .inl (schedule_carry _ _)
  | @finish e before after hloads result =>
      refine .inr (.inr (.inr ⟨e, result, List.mem_append_left _ ?_, rfl⟩))
      exact hloads ▸ List.mem_append_right _ List.mem_cons_self
  | report hduties result => exact .inl rfl

theorem follows_step (h : w.Kept) (hstep : Step w w') : w.schedule.Follows w'.schedule := by
  rcases step_schedule hstep with heq | ⟨e, heq⟩ | ⟨x, heq⟩ | ⟨e, result, he, heq⟩
  · exact heq ▸ .refl w.schedule
  · exact heq ▸ w.schedule.follows_onEpoch e
  · exact heq ▸ w.schedule.follows_serve x.1 x.2
  · exact heq ▸ Schedule.follows_finish (fun set hloaded => h.schedule.not_mem_of_loaded hloaded he)
      result

theorem kept_follows_steps (h : w.Kept) (hsteps : Relation.ReflTransGen Step w w') :
    w'.Kept ∧ w.schedule.Follows w'.schedule := by
  induction hsteps with
  | refl => exact ⟨h, .refl w.schedule⟩
  | @tail v v' _ hstep ih =>
      obtain ⟨hkept, hfirst⟩ := ih
      have hlast := follows_step hkept hstep
      refine ⟨hkept.step hstep, hlast.slotsPerEpoch.trans hfirst.slotsPerEpoch,
        hlast.lookahead.trans hfirst.lookahead, fun c hc => ?_, fun x set hloaded => ?_⟩
      · obtain ⟨b, hb, hcb⟩ := hfirst.current c hc
        obtain ⟨a, ha, hba⟩ := hlast.current b hb
        exact ⟨a, ha, hcb.trans hba⟩
      · rcases hfirst.loaded x set hloaded with hstill | ⟨-, hgone⟩
        · exact hlast.loaded x set hstill
        · have hstays := hlast.exists_lt hgone
          exact .inr ⟨(hkept.step hstep).schedule.duties?_eq_none hstays, hstays⟩

end Service

end Beacon
