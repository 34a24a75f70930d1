import Mathlib
import Beacon.Proofs.Duties.Service

set_option autoImplicit false

/-! # The accounts of slot signals

Where each slot signal is that has found its epoch in the window: its duties have been dispatched,
it waits, or it is among those who missed their duties because a load failed or an epoch left the
window. Each thing that may be done to a schedule moves slots from one of these places to another
(`Schedule.waiting_left`, `Schedule.waiting_serve`, `Schedule.waiting_finish`), so the accounts
balance in every service (`Service.Accounted`). Duties come from the one set that the epoch has been
loaded with. -/

namespace Beacon

variable {e : Epoch} {loads : List Epoch}

namespace Schedule

variable {s : Schedule}

/-! ## Entries and those who wait in them -/

theorem duties?_of_mem (h : s.Sorted) {y : Epoch × EpochDuties} (hy : y ∈ s.epochs) :
    s.duties? y.1 = some y.2 := by
  have hfilter := filter_eq_toList_find? h y.1
  have hmem : y ∈ (s.epochs.find? (·.1 == y.1)).toList :=
    hfilter ▸ List.mem_filter.2 ⟨hy, beq_self_eq_true y.1⟩
  rw [duties?, Option.mem_toList.1 hmem, Option.map_some]

theorem exists_mem_of_duties? {d : EpochDuties} (h : s.duties? e = some d) : (e, d) ∈ s.epochs := by
  obtain ⟨y, hfind, rfl⟩ := Option.map_eq_some_iff.1 h
  have hy := List.find?_some hfind
  obtain rfl : y.1 = e := by simpa using hy
  exact List.mem_of_find?_eq_some hfind

theorem exists_mem_of_mem_pending {x : Slot × Nat} (h : x ∈ s.pending e) :
    ∃ d, (e, d) ∈ s.epochs ∧ x ∈ d.pending := by
  rw [pending] at h
  cases hd : s.duties? e with
  | none =>
      rw [hd] at h
      exact absurd h List.not_mem_nil
  | some d =>
      rw [hd] at h
      exact ⟨d, exists_mem_of_duties? hd, h⟩

theorem duties?_of_pending_ne_nil (h : s.pending e ≠ []) :
    s.duties? e = some (.loading (s.pending e)) := by
  rw [pending] at h ⊢
  generalize s.duties? e = d at h ⊢
  rcases d with _ | pending | set
  · exact absurd rfl h
  · rfl
  · exact absurd rfl h

theorem inWindow_of_entry (h : s.Kept loads) (hentry : s.duties? e ≠ none) : s.inWindow e := by
  obtain ⟨c, hc, hinside⟩ := h.window e hentry
  exact (inWindow_iff hc).2 hinside

/-- Slots wait for the duties of their own epochs. -/
def Placed (s : Schedule) : Prop :=
  ∀ y ∈ s.epochs, ∀ x ∈ y.2.pending, x.1 / s.slotsPerEpoch = y.1

theorem Placed.put (h : s.Placed) {d : EpochDuties}
    (hd : ∀ x ∈ d.pending, x.1 / s.slotsPerEpoch = e) : (s.put e d).Placed := fun y hy => by
  rcases mem_place hy with rfl | hy
  · exact hd
  · exact h y hy

theorem Placed.epoch_eq (h : s.Placed) {x : Slot × Nat} (hx : x ∈ s.pending e) :
    x.1 / s.slotsPerEpoch = e := by
  obtain ⟨d, hd, hpending⟩ := exists_mem_of_mem_pending hx
  exact h (e, d) hd x hpending

theorem Placed.filter (h : s.Placed) (p : Epoch × EpochDuties → Bool) :
    ({ s with epochs := s.epochs.filter p } : Schedule).Placed :=
  fun y hy => h y (List.mem_filter.1 hy).1

theorem Placed.begun (h : s.Placed) (es : List Epoch) : (s.begun es).Placed := by
  induction es generalizing s with
  | nil => exact h
  | cons y ys ih => exact ih (h.put fun _ hx => absurd hx List.not_mem_nil)

theorem Placed.onEpoch (h : s.Placed) (e : Epoch) : (s.onEpoch e).2.Placed := by
  by_cases hpassed : s.current.any (e < ·)
  · rwa [onEpoch_of_passed hpassed]
  · rw [onEpoch_of_not_passed hpassed]
    exact Placed.begun (s := s.moved e) (h.filter _) _

theorem Placed.serve (h : s.Placed) (slot : Slot) (now : Nat) : (s.serve slot now).2.Placed := by
  rcases s.serve_cases slot now with ⟨_, -, heq⟩ | ⟨pending, hloading, heq⟩ | ⟨-, -, heq⟩ |
    ⟨-, -, heq⟩
  · exact heq ▸ h
  · rw [heq]
    refine h.put fun x hx => ?_
    rcases List.mem_append.1 hx with hx | hx
    · exact h _ (exists_mem_of_duties? hloading) x hx
    · rw [List.mem_singleton.1 hx]
  · rw [heq]
    refine h.put fun x hx => ?_
    rw [List.mem_singleton.1 hx]
  · exact heq ▸ h

theorem Placed.finish (h : s.Placed) (hentry : ∀ set, s.duties? e ≠ some (.loaded set))
    (result : Except LoadError DutySet) : (s.finish e result).2.Placed := by
  rcases s.finish_cases e result hentry with ⟨-, heq⟩ | ⟨_, _, -, -, heq⟩ | ⟨_, _, -, -, heq⟩
  · exact heq ▸ h
  · exact heq ▸ h.put fun _ hx => absurd hx List.not_mem_nil
  · exact heq ▸ h.filter _

/-! ## Where slots go -/

theorem dispatches_onEpoch (s : Schedule) (e : Epoch) :
    (s.onEpoch e).1.filterMap Order.dispatch? = [] := by
  by_cases hpassed : s.current.any (e < ·)
  · rw [onEpoch_of_passed hpassed, List.filterMap_nil]
  · rw [onEpoch_of_not_passed hpassed, List.filterMap_cons_none rfl, List.filterMap_map]
    exact List.filterMap_eq_nil_iff.2 fun _ _ => rfl

/-- Epochs leave the window only at its beginning. -/
theorem inWindow_onEpoch (h : s.Kept loads) (hpassed : ¬ s.current.any (e < ·))
    {y : Epoch × EpochDuties} (hy : y ∈ s.epochs) :
    (s.onEpoch e).2.inWindow y.1 = decide (e - 1 ≤ y.1) := by
  have hentry : s.duties? y.1 ≠ none := duties?_of_mem h.sorted hy ▸ Option.some_ne_none _
  obtain ⟨c, hc, -, hahead⟩ := h.window y.1 hentry
  have hnow : (s.onEpoch e).2.current = some e := by
    rw [onEpoch_of_not_passed hpassed, begun_eq]
    rfl
  rw [hc, Option.any_some, decide_eq_true_eq] at hpassed
  have hle := hahead.trans (addSat_le_addSat (Nat.le_of_not_lt hpassed) s.lookahead)
  rw [Bool.eq_iff_iff, inWindow_iff hnow, decide_eq_true_eq, lookahead_onEpoch, and_iff_left hle]

theorem waiting_left (h : s.Kept loads) (e : Epoch) :
    ((s.onEpoch e).2.waiting ++ s.leaving e).Perm s.waiting := by
  by_cases hpassed : s.current.any (e < ·)
  · have hnone : s.leaving e = [] := by
      rw [leaving, onEpoch_of_passed hpassed, List.filter_eq_nil_iff.2, List.flatMap_nil]
      intro y hy
      rw [inWindow_of_entry h (duties?_of_mem h.sorted hy ▸ Option.some_ne_none _)]
      exact Bool.false_ne_true
    rw [hnone, onEpoch_of_passed hpassed, List.append_nil]
  · have hforgotten : s.leaving e = s.forgotten e := by
      rw [leaving, forgotten]
      congr 1
      exact List.filter_congr fun y hy => by rw [inWindow_onEpoch h hpassed hy]
    exact hforgotten ▸ waiting_onEpoch h.sorted hpassed

theorem epoch_lt_of_mem_leaving (h : s.Kept loads) (hplaced : s.Placed) {x : Slot × Nat}
    (hx : x ∈ s.leaving e) :
    ∃ c, (s.onEpoch e).2.current = some c ∧ x.1 / s.slotsPerEpoch < c - 1 := by
  obtain ⟨y, hy, hwaits⟩ := List.mem_flatMap.1 hx
  obtain ⟨hentry, hout⟩ := List.mem_filter.1 hy
  obtain ⟨b, hb, -, hahead⟩ := h.window y.1 (duties?_of_mem h.sorted hentry ▸ Option.some_ne_none _)
  obtain ⟨c, hc, -, hle⟩ := s.exists_current_onEpoch e
  have hinside := hahead.trans (addSat_le_addSat (hle b hb) s.lookahead)
  refine ⟨c, hc, hplaced y hentry x hwaits ▸ Nat.lt_of_not_le fun hkept => ?_⟩
  rw [(inWindow_iff hc).2 ⟨hkept, s.lookahead_onEpoch e ▸ hinside⟩] at hout
  exact Bool.false_ne_true hout

theorem waiting_serve (h : s.Kept loads) (slot : Slot) (now : Nat) :
    ((s.serve slot now).2.waiting ++
      ((s.serve slot now).1.filterMap Order.dispatch?).map (·.2)).Perm
    (s.waiting ++ if s.inWindow (slot / s.slotsPerEpoch) then [(slot, now)] else []) := by
  rcases s.serve_cases slot now with ⟨set, hloaded, heq⟩ | ⟨pending, hloading, heq⟩ |
    ⟨hnone, hwindow, heq⟩ | ⟨-, hwindow, heq⟩
  · rw [heq, if_pos (inWindow_of_entry h (hloaded ▸ Option.some_ne_none _))]
    exact .refl _
  · have hput := waiting_put h.sorted (slot / s.slotsPerEpoch) (.loading (pending ++ [(slot, now)]))
    have hwaited : s.pending (slot / s.slotsPerEpoch) = pending := by
      rw [Schedule.pending, hloading]
      rfl
    rw [heq, if_pos (inWindow_of_entry h (hloading ▸ Option.some_ne_none _)), List.filterMap_nil,
      List.map_nil, List.append_nil]
    rw [hwaited] at hput
    refine (List.perm_append_right_iff pending).1 (hput.trans ?_)
    rw [List.append_assoc]
    exact List.perm_append_comm.append_left _
  · have hput := waiting_put h.sorted (slot / s.slotsPerEpoch) (.loading [(slot, now)])
    have hwaited : s.pending (slot / s.slotsPerEpoch) = [] := by
      rw [Schedule.pending, hnone]
      rfl
    rw [hwaited, List.append_nil] at hput
    rw [heq, if_pos hwindow]
    exact (List.append_nil _).symm ▸ hput
  · rw [heq, if_neg hwindow]
    exact .refl _

/-- Those who have waited for a load are dispatched if it succeeds, and miss their duties if not. -/
theorem waiting_finish (h : s.Kept loads) (he : e ∈ loads) (result : Except LoadError DutySet) :
    ((s.finish e result).2.waiting ++
      ((s.finish e result).1.filterMap Order.dispatch?).map (·.2) ++ s.missed e result).Perm
    s.waiting := by
  rcases s.finish_cases e result fun set hloaded => h.not_mem_of_loaded hloaded he with
    ⟨hnone, heq⟩ | ⟨pending, set, hloading, rfl, heq⟩ | ⟨pending, cause, hloading, rfl, heq⟩
  · have hmissed : s.missed e result = [] := by
      cases result with
      | ok set => rfl
      | error cause => rw [missed, Schedule.pending, hnone]; rfl
    rw [heq, hmissed, List.filterMap_nil, List.map_nil, List.append_nil, List.append_nil]
  · have hput := waiting_put h.sorted e (.loaded set)
    have hwaited : s.pending e = pending := by
      rw [Schedule.pending, hloading]
      rfl
    have hdispatched : ((pending.map fun p => Order.dispatch set p.1 p.2).filterMap
        Order.dispatch?).map (·.2) = pending := by
      rw [List.filterMap_map, List.map_filterMap]
      exact List.filterMap_some
    rw [heq, hdispatched, missed, List.append_nil, ← hwaited]
    exact hput.trans (.of_eq (List.append_nil _))
  · rw [heq, List.filterMap_nil, List.map_nil, List.append_nil, missed]
    exact waiting_erase h.sorted e

/-- What is dispatched when a slot signal looks its epoch up. -/
theorem mem_dispatches_serve {slot : Slot} {now : Nat} {y : DutySet × Slot × Nat}
    (hy : y ∈ (s.serve slot now).1.filterMap Order.dispatch?) :
    y.2 = (slot, now) ∧ s.duties? (slot / s.slotsPerEpoch) = some (.loaded y.1) := by
  rcases s.serve_cases slot now with ⟨set, hloaded, heq⟩ | ⟨_, -, heq⟩ | ⟨-, -, heq⟩ | ⟨-, -, heq⟩
  · rw [heq] at hy
    obtain rfl := List.mem_singleton.1 hy
    exact ⟨rfl, hloaded⟩
  · exact absurd (heq ▸ hy) List.not_mem_nil
  · exact absurd (heq ▸ hy) List.not_mem_nil
  · exact absurd (heq ▸ hy) List.not_mem_nil

/-- What is dispatched when a load ends. -/
theorem mem_dispatches_finish (h : s.Kept loads) (he : e ∈ loads)
    {result : Except LoadError DutySet} {y : DutySet × Slot × Nat}
    (hy : y ∈ (s.finish e result).1.filterMap Order.dispatch?) :
    y.2 ∈ s.pending e ∧ result = .ok y.1 := by
  rcases s.finish_cases e result fun set hloaded => h.not_mem_of_loaded hloaded he with
    ⟨hnone, heq⟩ | ⟨pending, set, hloading, rfl, heq⟩ | ⟨pending, cause, hloading, rfl, heq⟩
  · exact absurd (heq ▸ hy) List.not_mem_nil
  · rw [heq, List.filterMap_map] at hy
    obtain ⟨x, hx, hsome⟩ := List.mem_filterMap.1 hy
    obtain rfl := Option.some.inj hsome
    rw [Schedule.pending, hloading]
    exact ⟨hx, rfl⟩
  · exact absurd (heq ▸ hy) List.not_mem_nil

/-! ## Loads that have succeeded -/

/-- What a schedule with these loads knows of an epoch one of whose loads has succeeded: it has the
    duties until the epoch is forgotten, and does not load them again. -/
def Settled (s : Schedule) (loads : List Epoch) (e : Epoch) (set : DutySet) : Prop :=
  e ∉ loads ∧ (s.duties? e = some (.loaded set) ∨
    (s.duties? e = none ∧ ∃ c, s.current = some c ∧ e < c - 1))

/-- A load is ordered for an epoch of which nothing is known, and that is not before the window. -/
def Unsettled (s : Schedule) (e : Epoch) : Prop :=
  s.duties? e = none ∧ ∀ c, s.current = some c → c - 1 ≤ e

theorem unsettled_onEpoch {x : Epoch} (hx : x ∈ (s.onEpoch e).1.filterMap Order.load?) :
    s.Unsettled x := by
  by_cases hpassed : s.current.any (e < ·)
  · rw [onEpoch_of_passed hpassed] at hx
    exact absurd hx List.not_mem_nil
  · rw [onEpoch_of_not_passed hpassed, List.filterMap_cons_none rfl, List.filterMap_map] at hx
    obtain ⟨y, hy, hsome⟩ := List.mem_filterMap.1 hx
    obtain rfl := Option.some.inj hsome
    obtain ⟨⟨hle, -⟩, hnone⟩ := mem_wanted.1 hy
    refine ⟨hnone, fun c hc => (Nat.sub_le c 1).trans (le_trans ?_ hle)⟩
    rw [hc, Option.any_some, decide_eq_true_eq] at hpassed
    exact Nat.le_of_not_lt hpassed

theorem unsettled_serve {slot : Slot} {now : Nat} {x : Epoch}
    (hx : x ∈ (s.serve slot now).1.filterMap Order.load?) : s.Unsettled x := by
  rcases s.serve_cases slot now with ⟨_, -, heq⟩ | ⟨_, -, heq⟩ | ⟨hnone, hwindow, heq⟩ | ⟨-, -, heq⟩
  · exact absurd (heq ▸ hx) List.not_mem_nil
  · exact absurd (heq ▸ hx) List.not_mem_nil
  · rw [heq] at hx
    obtain rfl := List.mem_singleton.1 hx
    exact ⟨hnone, fun c hc => ((inWindow_iff hc).1 hwindow).1⟩
  · exact absurd (heq ▸ hx) List.not_mem_nil

theorem Settled.not_unsettled {set : DutySet} (h : s.Settled loads e set) : ¬ s.Unsettled e :=
  fun ⟨hnone, hinside⟩ => by
    rcases h.2 with hloaded | ⟨-, c, hc, hlt⟩
    · exact nomatch hnone.symm.trans hloaded
    · exact absurd (hinside c hc) (Nat.not_le_of_lt hlt)

theorem Settled.follows {s' : Schedule} {loads' : List Epoch} {set : DutySet}
    (h : s.Settled loads e set) (hkept : s'.Kept loads') (hfollows : s.Follows s')
    (hnew : ∀ x ∈ loads', x ∈ loads ∨ s.Unsettled x) : s'.Settled loads' e set := by
  refine ⟨fun he => (hnew e he).elim h.1 h.not_unsettled, ?_⟩
  rcases h.2 with hloaded | ⟨-, hgone⟩
  · exact hfollows.loaded e set hloaded
  · have hstays := hfollows.exists_lt hgone
    exact .inr ⟨hkept.duties?_eq_none hstays, hstays⟩

/-! ## Duties that are loaded -/

theorem loaded_onEpoch {x : Epoch} {set : DutySet}
    (h : (s.onEpoch e).2.duties? x = some (.loaded set)) : s.duties? x = some (.loaded set) := by
  by_cases hpassed : s.current.any (e < ·)
  · rwa [onEpoch_of_passed hpassed] at h
  · rw [duties?_onEpoch hpassed] at h
    split at h
    case isTrue => exact nomatch h
    case isFalse =>
        split at h
        case isTrue => exact h
        case isFalse => exact nomatch h

theorem loaded_serve {slot : Slot} {now : Nat} {x : Epoch} {set : DutySet}
    (h : (s.serve slot now).2.duties? x = some (.loaded set)) :
    s.duties? x = some (.loaded set) := by
  rcases s.serve_cases slot now with ⟨_, -, heq⟩ | ⟨_, -, heq⟩ | ⟨-, -, heq⟩ | ⟨-, -, heq⟩
  · rwa [heq] at h
  · rw [heq, duties?_put] at h
    split at h
    case isTrue => exact nomatch h
    case isFalse => exact h
  · rw [heq, duties?_put] at h
    split at h
    case isTrue => exact nomatch h
    case isFalse => exact h
  · rwa [heq] at h

theorem loaded_finish {result : Except LoadError DutySet} {x : Epoch} {set : DutySet}
    (hentry : ∀ set, s.duties? e ≠ some (.loaded set))
    (h : (s.finish e result).2.duties? x = some (.loaded set)) :
    s.duties? x = some (.loaded set) ∨ (x = e ∧ result = .ok set) := by
  rcases s.finish_cases e result hentry with ⟨-, heq⟩ | ⟨_, set', -, hok, heq⟩ | ⟨_, _, -, -, heq⟩
  · rw [heq] at h
    exact .inl h
  · rw [heq, duties?_put] at h
    split at h
    case isTrue hx =>
        obtain rfl := EpochDuties.loaded.inj (Option.some.inj h)
        exact .inr ⟨hx, hok⟩
    case isFalse => exact .inl h
  · rw [heq, duties?_erase] at h
    split at h
    case isTrue => exact nomatch h
    case isFalse => exact .inl h

theorem settled_finish {set : DutySet} (h : s.Kept (e :: loads)) :
    (s.finish e (.ok set)).2.Settled loads e set := by
  refine ⟨(List.nodup_cons.1 h.single).1, ?_⟩
  rcases s.finish_cases e (.ok set) fun set hloaded =>
    h.not_mem_of_loaded hloaded List.mem_cons_self with
    ⟨hnone, heq⟩ | ⟨pending, set', hloading, hok, heq⟩ | ⟨_, cause, -, herror, -⟩
  · rw [heq]
    exact .inr ((h.loads e List.mem_cons_self).resolve_left fun ⟨_, hloading⟩ =>
      nomatch hnone.symm.trans hloading)
  · obtain rfl := Except.ok.inj hok
    rw [heq]
    exact .inl (duties?_put_self s e _)
  · exact nomatch herror

end Schedule

namespace Service

variable {w w' : Service} {slotsPerEpoch lookahead : Nat}

/-- The dispatches that are ordered or have been carried out. -/
def dispatches (w : Service) : List (DutySet × Slot × Nat) :=
  w.dispatched ++ w.orders.filterMap Order.dispatch?

theorem dispatches_advance (w : Service) (e : Epoch) : (w.advance e).dispatches = w.dispatches := by
  rw [dispatches, advance, List.filterMap_append, Schedule.dispatches_onEpoch, List.append_nil,
    dispatches]

theorem dispatches_serve (w : Service) (x : Slot × Nat) :
    (w.serve x).dispatches =
      w.dispatches ++ (w.schedule.serve x.1 x.2).1.filterMap Order.dispatch? := by
  rw [dispatches, serve, List.filterMap_append, ← List.append_assoc, dispatches]

theorem dispatches_finish (w : Service) (e : Epoch) (result : Except LoadError DutySet) :
    (w.finish e result).dispatches =
      w.dispatches ++ (w.schedule.finish e result).1.filterMap Order.dispatch? := by
  rw [dispatches, finish, List.filterMap_append, ← List.append_assoc, dispatches]

theorem epochOf_follows (h : w.schedule.Follows w'.schedule) (x : Slot × Nat) :
    w'.epochOf x = w.epochOf x := by
  rw [epochOf, h.slotsPerEpoch, epochOf]

/-- The accounts balance: everyone who has been accepted is in one place, duties come from the set
    that their epoch has been loaded with, and duties are missed for a reason. -/
structure Accounted (w : Service) : Prop where
  accepted : w.accepted.Perm
    (w.dispatches.map (·.2) ++ w.schedule.waiting ++ w.failed ++ w.left)
  placed : w.schedule.Placed
  sets : ∀ y ∈ w.dispatches, (w.epochOf y.2, .ok y.1) ∈ w.ends
  loaded : ∀ e set, w.schedule.duties? e = some (.loaded set) → (e, .ok set) ∈ w.ends
  settled : ∀ e set, (e, .ok set) ∈ w.ends → w.schedule.Settled w.outstanding e set
  single : ∀ e set set', (e, .ok set) ∈ w.ends → (e, .ok set') ∈ w.ends → set = set'
  failed : ∀ x ∈ w.failed, ∃ cause, (w.epochOf x, .error cause) ∈ w.ends
  left : ∀ x ∈ w.left, ∃ c, w.schedule.current = some c ∧ w.epochOf x < c - 1

theorem accounted_create (slotsPerEpoch lookahead : Nat) :
    (create slotsPerEpoch lookahead).Accounted where
  accepted := .refl _
  placed _ h := absurd h List.not_mem_nil
  sets _ h := absurd h List.not_mem_nil
  loaded _ _ h := nomatch h
  settled _ _ h := absurd h List.not_mem_nil
  single _ _ _ h := absurd h List.not_mem_nil
  failed _ h := absurd h List.not_mem_nil
  left _ h := absurd h List.not_mem_nil

/-- No epoch is loaded with two sets if a load is the first of its epoch to succeed. -/
theorem single_concat {ends : List (Epoch × Except LoadError DutySet)}
    (h : ∀ x set set', (x, .ok set) ∈ ends → (x, .ok set') ∈ ends → set = set')
    (hfirst : ∀ set, (e, .ok set) ∉ ends) (result : Except LoadError DutySet) (x : Epoch)
    (set set' : DutySet) (hset : (x, .ok set) ∈ ends ++ [(e, result)])
    (hset' : (x, .ok set') ∈ ends ++ [(e, result)]) : set = set' := by
  rcases List.mem_append.1 hset with hold | hnew <;>
    rcases List.mem_append.1 hset' with hold' | hnew'
  · exact h x set set' hold hold'
  · obtain ⟨rfl, -⟩ := Prod.mk.inj (List.mem_singleton.1 hnew')
    exact absurd hold (hfirst set)
  · obtain ⟨rfl, -⟩ := Prod.mk.inj (List.mem_singleton.1 hnew)
    exact absurd hold' (hfirst set')
  · have hsame := (List.mem_singleton.1 hnew).trans (List.mem_singleton.1 hnew').symm
    exact Except.ok.inj (Prod.mk.inj hsame).2

namespace Accounted

theorem advance (h : w.Accounted) (hkept : w.schedule.Kept w.outstanding) (e : Epoch) :
    (w.advance e).Accounted := by
  have hfollows : w.schedule.Follows (w.advance e).schedule := w.schedule.follows_onEpoch e
  have hepoch := epochOf_follows hfollows
  refine ⟨?_, h.placed.onEpoch e, ?_, fun x set hx => h.loaded x set (Schedule.loaded_onEpoch hx),
    fun x set hx => ?_, h.single, fun x hx => hepoch x ▸ h.failed x hx, fun x hx => ?_⟩
  · -- Who waits for an epoch that leaves the window is counted among those who have missed it.
    rw [dispatches_advance]
    refine h.accepted.trans (List.perm_iff_count.2 fun a => ?_)
    have hleft := (Schedule.waiting_left hkept e).count_eq a
    simp only [Service.advance, List.count_append] at hleft ⊢
    lia
  · simp only [dispatches_advance, hepoch]
    exact h.sets
  · refine (h.settled x set hx).follows (Kept.advance hkept e).schedule hfollows fun y hy => ?_
    rw [outstanding_advance, List.mem_append] at hy
    exact hy.imp_right Schedule.unsettled_onEpoch
  · rw [hepoch]
    rcases List.mem_append.1 hx with hx | hx
    · exact hfollows.exists_lt (h.left x hx)
    · exact Schedule.epoch_lt_of_mem_leaving hkept h.placed hx

theorem serve (h : w.Accounted) (hkept : w.schedule.Kept w.outstanding)
    (hbegun : w.schedule.current ≠ none) (x : Slot × Nat) : (w.serve x).Accounted := by
  have hfollows : w.schedule.Follows (w.serve x).schedule := w.schedule.follows_serve x.1 x.2
  have hepoch := epochOf_follows hfollows
  refine ⟨?_, h.placed.serve x.1 x.2, fun y hy => ?_,
    fun y set hy => h.loaded y set (Schedule.loaded_serve hy), fun y set hy => ?_, h.single,
    fun y hy => hepoch y ▸ h.failed y hy, fun y hy => ?_⟩
  · -- Who is accepted is dispatched or waits.
    rw [dispatches_serve]
    refine List.perm_iff_count.2 fun a => ?_
    have haccepted := h.accepted.count_eq a
    have hserve := (Schedule.waiting_serve hkept x.1 x.2).count_eq a
    simp only [Service.serve, epochOf, List.map_append, List.count_append] at haccepted hserve ⊢
    lia
  · rw [dispatches_serve] at hy
    rw [hepoch]
    rcases List.mem_append.1 hy with hy | hy
    · exact h.sets y hy
    · obtain ⟨hkey, hloaded⟩ := Schedule.mem_dispatches_serve hy
      rw [epochOf, hkey]
      exact h.loaded _ _ hloaded
  · refine (h.settled y set hy).follows (Kept.serve hkept hbegun x).schedule hfollows fun z hz => ?_
    rw [outstanding, Service.serve, List.filterMap_append, ← List.append_assoc,
      List.mem_append] at hz
    exact hz.imp_right Schedule.unsettled_serve
  · rw [hepoch]
    exact hfollows.exists_lt (h.left y hy)

theorem finish (h : w.Accounted) (hkept : w.Kept) {before after : List Epoch}
    (hloads : w.loads = before ++ e :: after) (result : Except LoadError DutySet) :
    ({ w with loads := before ++ after }.finish e result).Accounted := by
  have houtstanding := outstanding_finish hloads result
  have hbefore := hkept.schedule.perm houtstanding
  have he : e ∈ w.outstanding := houtstanding.symm.subset List.mem_cons_self
  have hentry : ∀ set, w.schedule.duties? e ≠ some (.loaded set) := fun set hloaded =>
    hkept.schedule.not_mem_of_loaded hloaded he
  have hdispatches : ({ w with loads := before ++ after }.finish e result).dispatches =
      w.dispatches ++ (w.schedule.finish e result).1.filterMap Order.dispatch? :=
    dispatches_finish _ e result
  have hfollows : w.schedule.Follows
      ({ w with loads := before ++ after }.finish e result).schedule :=
    Schedule.follows_finish hentry result
  have hepoch := epochOf_follows hfollows
  -- An epoch with a load under way has none that has succeeded.
  have hfirst : ∀ set, (e, .ok set) ∉ w.ends := fun set hset => (h.settled e set hset).1 he
  refine ⟨?_, h.placed.finish hentry result, fun y hy => ?_, fun y set hy => ?_, fun y set hy => ?_,
    single_concat h.single hfirst result, fun y hy => ?_, fun y hy => ?_⟩
  · -- Who has waited for the load is dispatched or has missed his duties.
    rw [hdispatches]
    refine h.accepted.trans (List.perm_iff_count.2 fun a => ?_)
    have hfinish := (Schedule.waiting_finish hkept.schedule he result).count_eq a
    simp only [Service.finish, List.map_append, List.count_append] at hfinish ⊢
    lia
  · rw [hdispatches] at hy
    rw [hepoch]
    rcases List.mem_append.1 hy with hy | hy
    · exact List.mem_append_left _ (h.sets y hy)
    · obtain ⟨hwaited, rfl⟩ := Schedule.mem_dispatches_finish hkept.schedule he hy
      rw [epochOf, h.placed.epoch_eq hwaited]
      exact List.mem_append_right _ (List.mem_singleton_self _)
  · rcases Schedule.loaded_finish hentry hy with hy | ⟨rfl, rfl⟩
    · exact List.mem_append_left _ (h.loaded y set hy)
    · exact List.mem_append_right _ (List.mem_singleton_self _)
  · rcases List.mem_append.1 hy with hy | hy
    · refine (h.settled y set hy).follows (hbefore.finish result) hfollows fun z hz => ?_
      exact .inl (houtstanding.symm.subset (List.mem_cons_of_mem e hz))
    · obtain ⟨rfl, rfl⟩ := Prod.mk.inj (List.mem_singleton.1 hy)
      exact Schedule.settled_finish hbefore
  · rw [hepoch]
    rcases List.mem_append.1 hy with hy | hy
    · obtain ⟨cause, hcause⟩ := h.failed y hy
      exact ⟨cause, List.mem_append_left _ hcause⟩
    · cases result with
      | ok set => exact absurd hy List.not_mem_nil
      | error cause =>
          refine ⟨cause, ?_⟩
          rw [epochOf, h.placed.epoch_eq hy]
          exact List.mem_append_right _ (List.mem_singleton_self _)
  · rw [hepoch]
    exact hfollows.exists_lt (h.left y hy)

/-- An order that is carried out is no longer one that is to be. -/
theorem of_perm (h : w.Accounted) {orders : List Order} {loads : List Epoch} {duties : List Duty}
    {dispatched : List (DutySet × Slot × Nat)}
    (hloads : ({ w with orders, loads, duties, dispatched } : Service).outstanding.Perm
      w.outstanding)
    (hdispatches : ({ w with orders, loads, duties, dispatched } : Service).dispatches.Perm
      w.dispatches) : ({ w with orders, loads, duties, dispatched } : Service).Accounted where
  accepted := h.accepted.trans
    ((((hdispatches.symm.map (·.2)).append_right _).append_right _).append_right _)
  placed := h.placed
  sets y hy := h.sets y (hdispatches.subset hy)
  loaded := h.loaded
  settled y set hy := ⟨fun hload => (h.settled y set hy).1 (hloads.subset hload),
    (h.settled y set hy).2⟩
  single := h.single
  failed := h.failed
  left := h.left

theorem carry (h : w.Accounted) {o : Order} {before after : List Order}
    (horders : w.orders = before ++ o :: after) :
    ({ w with orders := before ++ after }.carry o).Accounted := by
  cases o with
  | load e =>
      have hhead : (.load e :: after).filterMap Order.load? =
          e :: after.filterMap Order.load? := rfl
      refine h.of_perm ?_ (.of_eq ?_)
      · simp only [outstanding, horders, List.filterMap_append, hhead, List.append_assoc,
          List.singleton_append]
        exact List.perm_middle.symm.append_left _
      · simp only [dispatches, horders, List.filterMap_append]
        rfl
  | dispatch set slot started =>
      have hhead : (.dispatch set slot started :: after).filterMap Order.dispatch? =
          (set, slot, started) :: after.filterMap Order.dispatch? := rfl
      refine h.of_perm (.of_eq ?_) ?_
      · simp only [outstanding, horders, List.filterMap_append]
        rfl
      · simp only [dispatches, horders, List.filterMap_append, hhead, List.append_assoc,
          List.singleton_append]
        exact List.perm_middle.symm.append_left _
  | forget oldest =>
      refine h.of_perm (.of_eq ?_) (.of_eq ?_)
      · simp only [outstanding, horders, List.filterMap_append]
        rfl
      · simp only [dispatches, horders, List.filterMap_append]
        rfl

theorem compare (h : w.Accounted) (x : Slot × Nat) : (w.compare x).Accounted := by
  rw [Service.compare]
  split <;> exact { h with }

theorem step (h : w.Accounted) (hkept : w.Kept) (hstep : Step w w') : w'.Accounted := by
  cases hstep with
  | epoch e => exact h.advance hkept.schedule e
  | slot x => exact { h with }
  | @compare x before after harriving =>
      exact compare (w := { w with arriving := before ++ after }) { h with } x
  | @enter x before after hentering =>
      exact advance (w := { w with entering := before ++ after, serving := w.serving ++ [x] })
        { h with } hkept.schedule _
  | @serve x before after hserving =>
      refine serve (w := { w with serving := before ++ after }) { h with } hkept.schedule
        (hkept.begun ?_) x
      exact hserving ▸ List.append_ne_nil_of_right_ne_nil _ (List.cons_ne_nil _ _)
  | carry horders => exact h.carry horders
  | finish hloads result => exact h.finish hkept hloads result
  | report hduties result => exact { h with }

end Accounted

theorem Reachable.accounted (h : Reachable slotsPerEpoch lookahead w) : w.Accounted := by
  induction h with
  | refl => exact accounted_create slotsPerEpoch lookahead
  | tail hsteps hstep ih => exact ih.step (Reachable.kept hsteps) hstep

/-! ## Single slots -/

/-- A slot signal that finds its epoch loaded has its duties dispatched at once. -/
theorem dispatches_serve_loaded {x : Slot × Nat} {set : DutySet}
    (h : w.schedule.duties? (w.epochOf x) = some (.loaded set)) :
    (w.serve x).dispatches = w.dispatches ++ [(set, x)] := by
  rw [epochOf] at h
  rw [dispatches_serve]
  simp only [Schedule.serve, h]
  rfl

/-- One that finds its epoch in the window and not loaded is the last of those who wait for it. -/
theorem queued_serve {x : Slot × Nat} (hwindow : w.schedule.inWindow (w.epochOf x))
    (h : ∀ set, w.schedule.duties? (w.epochOf x) ≠ some (.loaded set)) :
    (w.serve x).dispatches = w.dispatches ∧ (w.serve x).schedule.duties? (w.epochOf x) =
      some (.loading (w.schedule.pending (w.epochOf x) ++ [x])) := by
  rw [dispatches_serve, serve]
  rcases w.schedule.serve_cases x.1 x.2 with ⟨set, hloaded, -⟩ | ⟨pending, hloading, heq⟩ |
    ⟨hnone, -, heq⟩ | ⟨-, hout, -⟩
  · exact absurd hloaded (h set)
  · rw [heq, epochOf, Schedule.pending, hloading]
    exact ⟨List.append_nil _, Schedule.duties?_put_self ..⟩
  · rw [heq, epochOf, Schedule.pending, hnone]
    exact ⟨List.append_nil _, Schedule.duties?_put_self ..⟩
  · exact absurd hwindow hout

/-- Those who wait for a load are dispatched, in their order, when it succeeds. -/
theorem dispatches_finish_loading {pending : List (Slot × Nat)} {set : DutySet}
    (h : w.schedule.duties? e = some (.loading pending)) :
    (w.finish e (.ok set)).dispatches = w.dispatches ++ pending.map (set, ·) := by
  rw [dispatches_finish]
  simp only [Schedule.finish, h, List.filterMap_map]
  exact congrArg _ (congrFun List.filterMap_eq_map pending)

/-- Whoever waits does so for a load of his epoch that is ordered or under way. -/
theorem exists_pending_of_waiting (hkept : w.Kept) (hplaced : w.schedule.Placed) {x : Slot × Nat}
    (hx : x ∈ w.schedule.waiting) : w.epochOf x ∈ w.outstanding ∧
      ∃ pending, w.schedule.duties? (w.epochOf x) = some (.loading pending) ∧ x ∈ pending := by
  obtain ⟨⟨epoch, d⟩, hy, hpending⟩ := List.mem_flatMap.1 hx
  have hentry := Schedule.duties?_of_mem hkept.schedule.sorted hy
  rw [epochOf, hplaced (epoch, d) hy x hpending]
  cases d with
  | loading pending =>
      exact ⟨hkept.schedule.loading epoch pending hentry, pending, hentry, hpending⟩
  | loaded set => exact absurd hpending List.not_mem_nil

/-- Slots miss their duties when the load that they wait for ends in an error, or when their epoch
    leaves the window. -/
theorem exists_missed_step (hkept : w.Kept) (hplaced : w.schedule.Placed) (hstep : Step w w') :
    ∃ missed gone, w'.failed = w.failed ++ missed ∧ w'.left = w.left ++ gone ∧
      (missed ≠ [] → ∃ e cause, e ∈ w.loads ∧ w'.ends = w.ends ++ [(e, .error cause)] ∧
        w.schedule.duties? e = some (.loading missed)) ∧
      ∀ x ∈ gone, w.schedule.inWindow (w.epochOf x) ∧ ¬ w'.schedule.inWindow (w.epochOf x) := by
  have hadvance : ∀ e, ∀ x ∈ w.schedule.leaving e, w.schedule.inWindow (w.epochOf x) ∧
      ¬ (w.schedule.onEpoch e).2.inWindow (w.epochOf x) := fun e x hx => by
    obtain ⟨y, hy, hwaits⟩ := List.mem_flatMap.1 hx
    obtain ⟨hentry, hout⟩ := List.mem_filter.1 hy
    have hfound := Schedule.duties?_of_mem hkept.schedule.sorted hentry
    rw [epochOf, hplaced y hentry x hwaits]
    refine ⟨Schedule.inWindow_of_entry hkept.schedule (hfound ▸ Option.some_ne_none _), ?_⟩
    exact Bool.not_eq_true _ ▸ Bool.not_eq_true' _ ▸ hout
  have hnobody : ∀ v : Service, v.failed = w.failed → v.left = w.left → ∃ missed gone,
      v.failed = w.failed ++ missed ∧ v.left = w.left ++ gone ∧
      (missed ≠ [] → ∃ e cause, e ∈ w.loads ∧ v.ends = w.ends ++ [(e, .error cause)] ∧
        w.schedule.duties? e = some (.loading missed)) ∧
      ∀ x ∈ gone, w.schedule.inWindow (w.epochOf x) ∧ ¬ v.schedule.inWindow (w.epochOf x) :=
    fun v hfailed hleft => ⟨[], [], hfailed ▸ (List.append_nil _).symm,
      hleft ▸ (List.append_nil _).symm, fun hne => absurd rfl hne,
      fun _ hx => absurd hx List.not_mem_nil⟩
  cases hstep with
  | epoch e =>
      exact ⟨[], _, (List.append_nil _).symm, rfl, fun hne => absurd rfl hne, hadvance e⟩
  | slot x => exact hnobody _ rfl rfl
  | compare harriving =>
      rw [compare]
      split <;> exact hnobody _ rfl rfl
  | @enter x before after hentering =>
      exact ⟨[], _, (List.append_nil _).symm, rfl, fun hne => absurd rfl hne, hadvance _⟩
  | serve hserving => exact hnobody _ rfl rfl
  | @carry o before after horders => cases o <;> exact hnobody _ rfl rfl
  | @finish e before after hloads result =>
      refine ⟨_, [], rfl, (List.append_nil _).symm, fun hmissed => ?_,
        fun _ hx => absurd hx List.not_mem_nil⟩
      cases result with
      | ok set => exact absurd rfl hmissed
      | error cause =>
          refine ⟨e, cause, hloads ▸ List.mem_append_right _ List.mem_cons_self, rfl, ?_⟩
          exact Schedule.duties?_of_pending_ne_nil hmissed
  | report hduties result => exact hnobody _ rfl rfl

/-! ## Signals and reports -/

/-- Every slot signal that has come is on its way, or has looked its epoch up once. -/
theorem Reachable.signalled (h : Reachable slotsPerEpoch lookahead w) :
    w.signalled.Perm (w.arriving ++ w.entering ++ w.serving ++ w.refused ++ w.accepted) := by
  induction h with
  | refl => exact .refl _
  | @tail v w _ hstep ih =>
      refine List.perm_iff_count.2 fun a => ?_
      have hbefore := ih.count_eq a
      cases hstep with
      | epoch e => exact hbefore
      | slot x =>
          simp only [List.count_append] at hbefore ⊢
          lia
      | @compare x before after harriving =>
          simp only [harriving, List.count_append, List.count_cons] at hbefore
          rw [compare]
          split <;> simp only [List.count_append, List.count_cons, List.count_nil] <;> lia
      | @enter x before after hentering =>
          simp only [hentering, List.count_append, List.count_cons] at hbefore
          simp only [advance, List.count_append, List.count_cons, List.count_nil]
          lia
      | @serve x before after hserving =>
          simp only [hserving, List.count_append, List.count_cons] at hbefore
          simp only [serve]
          split <;> simp only [List.count_append, List.count_cons, List.count_nil] <;> lia
      | @carry o before after horders => cases o <;> exact hbefore
      | finish hloads result => exact hbefore
      | report hduties result => exact hbefore

theorem label_report (d : Duty) (result : Attempt ExecutionError Unit) :
    (d.report result).label = d.label := rfl

/-- Every duty that has been dispatched is being performed, or has one report. -/
theorem Reachable.reported (h : Reachable slotsPerEpoch lookahead w) :
    ((w.dispatched.flatMap fun y => y.1.dutiesAt y.2.1).map Duty.label).Perm
      (w.reports.map DutyReport.label ++ w.duties.map Duty.label) := by
  induction h with
  | refl => exact .refl _
  | @tail v w _ hstep ih =>
      cases hstep with
      | epoch e => exact ih
      | slot x => exact ih
      | compare harriving =>
          rw [compare]
          split <;> exact ih
      | enter hentering => exact ih
      | serve hserving => exact ih
      | @carry o before after horders =>
          cases o with
          | load e => exact ih
          | dispatch set slot started =>
              simp only [carry, List.flatMap_append, List.map_append, ← List.append_assoc]
              exact ih.append (.of_eq (congrArg _ (List.flatMap_singleton ..)))
          | forget oldest => exact ih
      | finish hloads result => exact ih
      | @report d before after hduties result =>
          refine ih.trans ?_
          simp only [hduties, List.map_append, List.map_cons, List.map_nil, label_report,
            List.append_assoc, List.singleton_append]
          exact List.perm_middle.append_left _

end Service

end Beacon
