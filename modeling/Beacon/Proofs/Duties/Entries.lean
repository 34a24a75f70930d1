import Mathlib
import Beacon.Duties.Schedule

set_option autoImplicit false

/-! # The entries of a schedule

What a schedule knows of each epoch, and which slots wait in it, after each of its changes. A slot
signal is served in two goes, which others may come between: it lets its epoch begin if that is
later than the current one, and it then looks its epoch up (`Schedule.serve`, `Schedule.onSlot_eq`).
What each go does is said once, by `Schedule.serve_cases` and `Schedule.finish_cases`, and for the
beginning of an epoch by `Schedule.duties?_onEpoch` and `Schedule.waiting_onEpoch`. -/

namespace Beacon

variable {e e' : Epoch} {d : EpochDuties} {x : Slot × Nat}

/-- The slots that wait for the duties of an epoch, with their start times. -/
def EpochDuties.pending : EpochDuties → List (Slot × Nat)
  | .loading pending => pending
  | .loaded _ => []

/-- The epoch of a load that is ordered. -/
def Order.load? : Order → Option Epoch
  | .load epoch => some epoch
  | _ => none

/-- A dispatch that is ordered: a duty set, a slot and its start time. -/
def Order.dispatch? : Order → Option (DutySet × Slot × Nat)
  | .dispatch set slot started => some (set, slot, started)
  | _ => none

namespace Schedule

variable {s : Schedule}

/-- The slots that wait, with their start times. -/
def waiting (s : Schedule) : List (Slot × Nat) := s.epochs.flatMap (·.2.pending)

/-- The slots that wait for the duties of an epoch. -/
def pending (s : Schedule) (e : Epoch) : List (Slot × Nat) :=
  ((s.duties? e).map (·.pending)).getD []

/-- Entries are in the order of their epochs. -/
def Sorted (s : Schedule) : Prop := s.epochs.Pairwise (·.1 < ·.1)

/-! ## Single entries -/

theorem find?_place (e : Epoch) (d : EpochDuties) (e' : Epoch) (xs : List (Epoch × EpochDuties)) :
    (place e d xs).find? (·.1 == e') = if e' = e then some (e, d) else xs.find? (·.1 == e') := by
  induction xs with
  | nil => grind [place]
  | cons y ys ih => grind [place]

theorem duties?_put (s : Schedule) (e : Epoch) (d : EpochDuties) (e' : Epoch) :
    (s.put e d).duties? e' = if e' = e then some d else s.duties? e' := by
  rw [duties?, put, find?_place]
  split
  · rfl
  · rw [duties?]

@[simp]
theorem duties?_put_self (s : Schedule) (e : Epoch) (d : EpochDuties) :
    (s.put e d).duties? e = some d := by
  rw [duties?_put, if_pos rfl]

theorem duties?_put_of_ne (s : Schedule) (d : EpochDuties) (h : e' ≠ e) :
    (s.put e d).duties? e' = s.duties? e' := by
  rw [duties?_put, if_neg h]

theorem duties?_filter (s : Schedule) (p : Epoch → Bool) (e : Epoch) :
    ({ s with epochs := s.epochs.filter (p ·.1) } : Schedule).duties? e
      = if p e then s.duties? e else none := by
  rw [duties?, duties?, List.find?_filter]
  split
  case isTrue h =>
      congr 2
      funext y
      grind
  case isFalse h =>
      rw [List.find?_eq_none.2, Option.map_none]
      grind

theorem duties?_erase (s : Schedule) (e e' : Epoch) :
    (s.erase e).duties? e' = if e' = e then none else s.duties? e' := by
  rw [erase, duties?_filter s (decide <| · ≠ e)]
  grind

theorem mem_place {y : Epoch × EpochDuties} {xs : List (Epoch × EpochDuties)}
    (h : y ∈ place e d xs) : y = (e, d) ∨ y ∈ xs := by
  induction xs with
  | nil => grind [place]
  | cons z zs ih => grind [place]

theorem pairwise_place {xs : List (Epoch × EpochDuties)} (h : xs.Pairwise (·.1 < ·.1)) (e : Epoch)
    (d : EpochDuties) : (place e d xs).Pairwise (·.1 < ·.1) := by
  induction xs with
  | nil => exact List.pairwise_singleton _ _
  | cons y ys ih =>
      obtain ⟨hfirst, hrest⟩ := List.pairwise_cons.1 h
      rw [place]
      split
      case isTrue hlt =>
          refine List.pairwise_cons.2 ⟨fun z hz => ?_, h⟩
          rcases List.mem_cons.1 hz with rfl | hz
          · exact hlt
          · exact hlt.trans (hfirst z hz)
      case isFalse hle =>
          split
          case isTrue heq => exact List.pairwise_cons.2 ⟨heq ▸ hfirst, hrest⟩
          case isFalse hne =>
              refine List.pairwise_cons.2 ⟨fun z hz => ?_, ih hrest⟩
              rcases mem_place hz with rfl | hz
              · exact lt_of_le_of_ne (Nat.le_of_not_lt hle) (Ne.symm hne)
              · exact hfirst z hz

theorem Sorted.put (h : s.Sorted) (e : Epoch) (d : EpochDuties) : (s.put e d).Sorted :=
  pairwise_place h e d

theorem Sorted.filter (h : s.Sorted) (p : Epoch × EpochDuties → Bool) :
    ({ s with epochs := s.epochs.filter p } : Schedule).Sorted :=
  List.Pairwise.filter p h

/-- An entry takes the place of the one of its epoch. -/
theorem perm_place {xs : List (Epoch × EpochDuties)} (h : xs.Pairwise (·.1 < ·.1)) (e : Epoch)
    (d : EpochDuties) :
    ((place e d xs).flatMap (·.2.pending) ++
      (((xs.find? (·.1 == e)).map (·.2)).map (·.pending)).getD []).Perm
    (xs.flatMap (·.2.pending) ++ d.pending) := by
  induction xs with
  | nil => simp [place]
  | cons y ys ih =>
      obtain ⟨hfirst, hrest⟩ := List.pairwise_cons.1 h
      rw [place]
      split
      case isTrue hlt =>
          have hnone : (y :: ys).find? (·.1 == e) = none := by
            rw [List.find?_eq_none]
            grind
          rw [hnone]
          exact (List.append_nil _).symm ▸ List.perm_append_comm
      case isFalse hle =>
          split
          case isTrue heq =>
              rw [List.find?_cons_of_pos (by grind)]
              refine List.perm_append_comm.trans ?_
              rw [List.flatMap_cons, List.flatMap_cons, List.append_assoc]
              exact List.perm_append_comm.append_left _
          case isFalse hne =>
              rw [List.find?_cons_of_neg (by grind), List.flatMap_cons, List.flatMap_cons,
                List.append_assoc, List.append_assoc]
              exact (ih hrest).append_left _

/-- Slots that are put to wait for an epoch replace those that waited for it. -/
theorem waiting_put (h : s.Sorted) (e : Epoch) (d : EpochDuties) :
    ((s.put e d).waiting ++ s.pending e).Perm (s.waiting ++ d.pending) :=
  perm_place h e d

theorem waiting_filter (s : Schedule) (p : Epoch × EpochDuties → Bool) :
    (({ s with epochs := s.epochs.filter p } : Schedule).waiting ++
      (s.epochs.filter (!p ·)).flatMap (·.2.pending)).Perm s.waiting := by
  rw [waiting, ← List.flatMap_append]
  exact (List.filter_append_perm p s.epochs).flatMap_right _

theorem filter_eq_toList_find? {xs : List (Epoch × EpochDuties)} (h : xs.Pairwise (·.1 < ·.1))
    (e : Epoch) : xs.filter (·.1 == e) = (xs.find? (·.1 == e)).toList := by
  induction xs with
  | nil => rfl
  | cons y ys ih =>
      obtain ⟨hfirst, hrest⟩ := List.pairwise_cons.1 h
      by_cases heq : y.1 = e
      · have hnone : ys.filter (·.1 == e) = [] := by
          rw [List.filter_eq_nil_iff]
          grind
        simp [heq, hnone]
      · simp [heq, ih hrest]

/-- Slots wait no longer for an epoch that is forgotten. -/
theorem waiting_erase (h : s.Sorted) (e : Epoch) :
    ((s.erase e).waiting ++ s.pending e).Perm s.waiting := by
  have hfilter := s.waiting_filter (·.1 ≠ e)
  have hentry :
      (s.epochs.filter fun y => !decide (y.1 ≠ e)).flatMap (·.2.pending) = s.pending e := by
    have hsame : (s.epochs.filter fun y => !decide (y.1 ≠ e)) = s.epochs.filter (·.1 == e) :=
      List.filter_congr fun y _ => by grind
    rw [hsame, filter_eq_toList_find? h, pending, duties?]
    cases s.epochs.find? (·.1 == e) with
    | none => rfl
    | some y => exact List.flatMap_singleton ..
  rwa [hentry] at hfilter

/-! ## The beginning of an epoch -/

/-- The schedule with a new current epoch and without the epochs that are then forgotten. -/
def moved (s : Schedule) (e : Epoch) : Schedule :=
  { s with current := some e, epochs := s.epochs.filter (e - 1 ≤ ·.1) }

/-- The epochs whose loads the beginning of an epoch orders. -/
def wanted (s : Schedule) (e : Epoch) : List Epoch := (s.moved e).missing ((s.moved e).ahead e)

/-- The slots that have waited for epochs which are forgotten when an epoch begins. -/
def forgotten (s : Schedule) (e : Epoch) : List (Slot × Nat) :=
  (s.epochs.filter fun y => !decide (e - 1 ≤ y.1)).flatMap (·.2.pending)

/-- Those who wait for epochs that leave the window when an epoch begins. -/
def leaving (s : Schedule) (e : Epoch) : List (Slot × Nat) :=
  (s.epochs.filter fun y => !(s.onEpoch e).2.inWindow y.1).flatMap (·.2.pending)

/-- The schedule with loads of these epochs begun. -/
def begun (s : Schedule) (es : List Epoch) : Schedule := es.foldl (·.put · (.loading [])) s

theorem onEpoch_of_passed (h : s.current.any (e < ·)) : s.onEpoch e = ([], s) := if_pos h

theorem onEpoch_of_not_passed (h : ¬ s.current.any (e < ·)) :
    s.onEpoch e = (.forget (e - 1) :: (s.wanted e).map .load, (s.moved e).begun (s.wanted e)) :=
  if_neg h

theorem mem_wanted {x : Epoch} :
    x ∈ s.wanted e ↔ (e ≤ x ∧ x ≤ Word.addSat e s.lookahead) ∧ s.duties? x = none := by
  have hkept : e ≤ x → (s.moved e).duties? x = s.duties? x := fun hle => by
    rw [moved, duties?_filter { s with current := some e } (e - 1 ≤ ·)]
    exact if_pos (decide_eq_true ((Nat.sub_le e 1).trans hle))
  rw [wanted, missing, List.mem_filter, Option.isNone_iff_eq_none, ahead, List.mem_range'_1]
  constructor
  · rintro ⟨⟨hle, hlt⟩, hnone⟩
    refine ⟨⟨hle, ?_⟩, hkept hle ▸ hnone⟩
    simp only [moved] at hlt
    lia
  · rintro ⟨⟨hle, hlt⟩, hnone⟩
    refine ⟨⟨hle, ?_⟩, hkept hle ▸ hnone⟩
    simp only [moved]
    lia

theorem nodup_wanted (s : Schedule) (e : Epoch) : (s.wanted e).Nodup :=
  (List.nodup_range' ..).filter _

theorem duties?_begun (s : Schedule) (es : List Epoch) (x : Epoch) :
    (s.begun es).duties? x = if x ∈ es then some (.loading []) else s.duties? x := by
  induction es generalizing s with
  | nil => rfl
  | cons y ys ih =>
      rw [begun, List.foldl_cons, ← begun, ih, duties?_put]
      grind

theorem Sorted.begun (h : s.Sorted) (es : List Epoch) : (s.begun es).Sorted := by
  induction es generalizing s with
  | nil => exact h
  | cons y ys ih => exact ih (h.put y _)

/-- A load that begins has nobody waiting for it. -/
theorem waiting_begun (h : s.Sorted) {es : List Epoch} (hnew : ∀ y ∈ es, s.pending y = []) :
    (s.begun es).waiting.Perm s.waiting := by
  induction es generalizing s with
  | nil => exact .refl _
  | cons y ys ih =>
      have hput := waiting_put h y (.loading [])
      rw [hnew y List.mem_cons_self, List.append_nil] at hput
      refine (ih (h.put y _) fun z hz => ?_).trans (hput.trans (.of_eq (List.append_nil _)))
      rw [pending, duties?_put]
      split
      · rfl
      · exact hnew z (List.mem_cons_of_mem y hz)

theorem begun_eq (s : Schedule) (es : List Epoch) :
    s.begun es = { s with epochs := (s.begun es).epochs } := by
  induction es generalizing s with
  | nil => rfl
  | cons y ys ih => exact ih (s.put y _)

theorem slotsPerEpoch_onEpoch (s : Schedule) (e : Epoch) :
    (s.onEpoch e).2.slotsPerEpoch = s.slotsPerEpoch := by
  by_cases hpassed : s.current.any (e < ·)
  · rw [onEpoch_of_passed hpassed]
  · rw [onEpoch_of_not_passed hpassed, begun_eq]
    rfl

theorem lookahead_onEpoch (s : Schedule) (e : Epoch) : (s.onEpoch e).2.lookahead = s.lookahead := by
  by_cases hpassed : s.current.any (e < ·)
  · rw [onEpoch_of_passed hpassed]
  · rw [onEpoch_of_not_passed hpassed, begun_eq]
    rfl

theorem Sorted.onEpoch (h : s.Sorted) (e : Epoch) : (s.onEpoch e).2.Sorted := by
  by_cases hpassed : s.current.any (e < ·)
  · rwa [onEpoch_of_passed hpassed]
  · rw [onEpoch_of_not_passed hpassed]
    exact Sorted.begun (s := s.moved e) (List.Pairwise.filter _ h) _

/-- The current epoch never goes back. -/
theorem exists_current_onEpoch (s : Schedule) (e : Epoch) :
    ∃ c, (s.onEpoch e).2.current = some c ∧ e ≤ c ∧ ∀ b, s.current = some b → b ≤ c := by
  by_cases hpassed : s.current.any (e < ·)
  · obtain ⟨c, hcurrent, hlt⟩ := (Option.any_eq_true ..).1 hpassed
    rw [onEpoch_of_passed hpassed]
    exact ⟨c, hcurrent, (of_decide_eq_true hlt).le,
      fun b hb => (Option.some.inj (hb.symm.trans hcurrent)).le⟩
  · rw [onEpoch_of_not_passed hpassed, begun_eq]
    refine ⟨e, rfl, le_rfl, fun b hb => ?_⟩
    rw [hb, Option.any_some, decide_eq_true_eq] at hpassed
    exact Nat.le_of_not_lt hpassed

theorem duties?_onEpoch (h : ¬ s.current.any (e < ·)) (x : Epoch) :
    (s.onEpoch e).2.duties? x =
      if x ∈ s.wanted e then some (.loading []) else if e - 1 ≤ x then s.duties? x else none := by
  rw [onEpoch_of_not_passed h, duties?_begun, moved,
    duties?_filter { s with current := some e } (e - 1 ≤ ·)]
  simp only [decide_eq_true_eq]
  rfl

/-- The beginning of an epoch makes nobody wait. -/
theorem waiting_onEpoch (hsorted : s.Sorted) (h : ¬ s.current.any (e < ·)) :
    ((s.onEpoch e).2.waiting ++ s.forgotten e).Perm s.waiting := by
  have hmoved : (s.moved e).Sorted := List.Pairwise.filter _ hsorted
  rw [onEpoch_of_not_passed h]
  refine ((waiting_begun hmoved fun y hy => ?_).append_right _).trans (s.waiting_filter _)
  have hnone := (List.mem_filter.1 hy).2
  rw [pending, Option.isNone_iff_eq_none.1 hnone]
  rfl

/-! ## The beginning of a slot -/

/-- A slot signal looks its epoch up. -/
def serve (s : Schedule) (slot : Slot) (now : Nat) : List Order × Schedule :=
  let epoch := slot / s.slotsPerEpoch
  match s.duties? epoch with
  | some (.loaded set) => ([.dispatch set slot now], s)
  | some (.loading pending) => ([], s.put epoch (.loading (pending ++ [(slot, now)])))
  | none =>
    if s.inWindow epoch then ([.load epoch], s.put epoch (.loading [(slot, now)])) else ([], s)

/-- A slot signal first lets a later epoch begin, and then looks its epoch up. -/
theorem onSlot_eq (s : Schedule) (slot : Slot) (now : Nat) :
    s.onSlot slot now =
      ((s.enter (slot / s.slotsPerEpoch)).1 ++
        ((s.enter (slot / s.slotsPerEpoch)).2.serve slot now).1,
        ((s.enter (slot / s.slotsPerEpoch)).2.serve slot now).2) := by
  have hslots : (s.enter (slot / s.slotsPerEpoch)).2.slotsPerEpoch = s.slotsPerEpoch := by
    rw [enter]
    split
    · exact s.slotsPerEpoch_onEpoch _
    · rfl
  rw [onSlot, serve, hslots]
  generalize s.enter (slot / s.slotsPerEpoch) = x
  rcases hduties : x.2.duties? (slot / s.slotsPerEpoch) with _ | pending | set
  · by_cases hwindow : x.2.inWindow (slot / s.slotsPerEpoch)
    · simp only [hduties, if_pos hwindow]
    · simp only [hduties, if_neg hwindow, List.append_nil]
  · simp only [hduties, List.append_nil]
  · simp only [hduties]

/-- What may come of a slot signal: its duties are dispatched, it waits for a load that is under
    way, it waits for a load that it orders, or its epoch is not kept. -/
theorem serve_cases (s : Schedule) (slot : Slot) (now : Nat) :
    (∃ set, s.duties? (slot / s.slotsPerEpoch) = some (.loaded set) ∧
      s.serve slot now = ([.dispatch set slot now], s)) ∨
    (∃ pending, s.duties? (slot / s.slotsPerEpoch) = some (.loading pending) ∧
      s.serve slot now =
        ([], s.put (slot / s.slotsPerEpoch) (.loading (pending ++ [(slot, now)])))) ∨
    (s.duties? (slot / s.slotsPerEpoch) = none ∧ s.inWindow (slot / s.slotsPerEpoch) ∧
      s.serve slot now = ([.load (slot / s.slotsPerEpoch)],
        s.put (slot / s.slotsPerEpoch) (.loading [(slot, now)]))) ∨
    (s.duties? (slot / s.slotsPerEpoch) = none ∧ ¬ s.inWindow (slot / s.slotsPerEpoch) ∧
      s.serve slot now = ([], s)) := by
  rcases hduties : s.duties? (slot / s.slotsPerEpoch) with _ | pending | set
  · by_cases hwindow : s.inWindow (slot / s.slotsPerEpoch)
    · exact .inr (.inr (.inl ⟨rfl, hwindow, by simp only [serve, hduties, if_pos hwindow]⟩))
    · exact .inr (.inr (.inr ⟨rfl, hwindow, by simp only [serve, hduties, if_neg hwindow]⟩))
  · exact .inr (.inl ⟨pending, rfl, by simp only [serve, hduties]⟩)
  · exact .inl ⟨set, rfl, by simp only [serve, hduties]⟩

theorem serve_snd (s : Schedule) (slot : Slot) (now : Nat) :
    (s.serve slot now).2 = { s with epochs := (s.serve slot now).2.epochs } := by
  rcases s.serve_cases slot now with ⟨_, -, heq⟩ | ⟨_, -, heq⟩ | ⟨-, -, heq⟩ | ⟨-, -, heq⟩
  all_goals exact heq ▸ rfl

/-! ## The end of a load -/

/-- The slots that miss their duties when the load of their epoch ends with this result. -/
def missed (s : Schedule) (e : Epoch) : Except LoadError DutySet → List (Slot × Nat)
  | .ok _ => []
  | .error _ => s.pending e

/-- What may come of a load that ends: its epoch has been forgotten, the slots that waited for it
    are dispatched, or the epoch is unknown again. -/
theorem finish_cases (s : Schedule) (e : Epoch) (result : Except LoadError DutySet)
    (h : ∀ set, s.duties? e ≠ some (.loaded set)) :
    (s.duties? e = none ∧ s.finish e result = ([], s)) ∨
    (∃ pending set, s.duties? e = some (.loading pending) ∧ result = .ok set ∧
      s.finish e result =
        (pending.map fun p => .dispatch set p.1 p.2, s.put e (.loaded set))) ∨
    (∃ pending cause, s.duties? e = some (.loading pending) ∧ result = .error cause ∧
      s.finish e result = ([], s.erase e)) := by
  rcases hduties : s.duties? e with _ | pending | set
  · exact .inl ⟨rfl, by simp only [finish, hduties]⟩
  · rcases result with cause | set
    · exact .inr (.inr ⟨pending, cause, rfl, rfl, by simp only [finish, hduties]⟩)
    · exact .inr (.inl ⟨pending, set, rfl, rfl, by simp only [finish, hduties]⟩)
  · exact absurd hduties (h set)

theorem finish_snd (s : Schedule) (e : Epoch) (result : Except LoadError DutySet) :
    (s.finish e result).2 = { s with epochs := (s.finish e result).2.epochs } := by
  rw [finish.eq_def]
  split <;> rfl

theorem loads_finish (s : Schedule) (e : Epoch) (result : Except LoadError DutySet) :
    (s.finish e result).1.filterMap Order.load? = [] := by
  rw [finish.eq_def]
  split
  case h_2 set pending _ =>
      rw [List.filterMap_map]
      exact List.filterMap_eq_nil_iff.2 fun _ _ => rfl
  all_goals rfl

end Schedule

end Beacon
