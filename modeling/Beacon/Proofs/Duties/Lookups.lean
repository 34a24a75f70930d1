import Mathlib
import Beacon.Duties.Forks

set_option autoImplicit false

/-! # Nobody leaves a line unserved

Those who need the fork of an epoch are known, by their tickets, to the lookups in whose lines they
stand. Whoever enters either goes on, or stands in one line once; whoever leaves a line has an
answer or the turn to ask; and while somebody stands in a line, somebody has the turn to ask for it
(`Forks.Sound`). -/

namespace Beacon

namespace Forks

variable {τ : Type} {f : Forks τ} {l : ForkLookup τ}

/-- Those who stand in line. -/
def tickets (f : Forks τ) : List τ := f.lookups.flatMap (·.line)

/-- Lookups have different numbers, and somebody asks where somebody stands in line. -/
structure Sound (f : Forks τ) : Prop where
  ids : (f.lookups.map (·.id)).Nodup
  fresh : ∀ l ∈ f.lookups, l.id < f.nextId
  asking : ∀ l ∈ f.lookups, l.line ≠ [] → l.asking

/-- Somebody has the turn to ask on behalf of a lookup. -/
def Asking (f : Forks τ) (id : Nat) : Prop := ∃ l ∈ f.lookups, l.id = id ∧ l.asking

theorem Sound.update (h : f.Sound) (id : Nat) {change : ForkLookup τ → ForkLookup τ}
    (hid : ∀ l, (change l).id = l.id)
    (hasking : ∀ l ∈ f.lookups, l.id = id → (change l).line ≠ [] → (change l).asking) :
    (f.update id change).Sound where
  ids := by
    have hsame : ((f.update id change).lookups.map (·.id)) = f.lookups.map (·.id) := by
      rw [Forks.update, List.map_map]
      refine List.map_congr_left fun l _ => ?_
      rw [Function.comp_apply]
      split
      · exact hid l
      · rfl
    exact hsame ▸ h.ids
  fresh l hl := by
    obtain ⟨x, hx, rfl⟩ := List.mem_map.1 hl
    split
    · exact hid x ▸ h.fresh x hx
    · exact h.fresh x hx
  asking l hl := by
    obtain ⟨x, hx, rfl⟩ := List.mem_map.1 hl
    split
    case isTrue hsame => exact hasking x hx hsame
    case isFalse => exact h.asking x hx

theorem asking_update {id i : Nat} {change : ForkLookup τ → ForkLookup τ}
    (h : (f.update id change).Asking i) (hid : ∀ l, (change l).id = l.id) :
    (i = id ∧ ∃ l ∈ f.lookups, l.id = id ∧ (change l).asking) ∨ (i ≠ id ∧ f.Asking i) := by
  obtain ⟨l, hl, rfl, hasking⟩ := h
  obtain ⟨x, hx, rfl⟩ := List.mem_map.1 hl
  split at hasking
  case isTrue hsame =>
      rw [if_pos hsame]
      exact .inl ⟨(hid x).trans hsame, x, hx, hsame, hasking⟩
  case isFalse hother =>
      rw [if_neg hother]
      exact .inr ⟨hother, x, hx, rfl, hasking⟩

theorem update_of_forall_ne {id : Nat} {change : ForkLookup τ → ForkLookup τ}
    (h : ∀ x ∈ f.lookups, x.id ≠ id) : f.update id change = f := by
  have hsame : (f.lookups.map fun x => if x.id = id then change x else x) = f.lookups :=
    (List.map_congr_left fun x hx => if_neg (h x hx)).trans (List.map_id' _)
  rw [Forks.update, hsame]

/-- A lookup is found by its number. -/
theorem Sound.exists_append (h : f.Sound) (hl : l ∈ f.lookups) :
    ∃ before after, f.lookups = before ++ l :: after ∧
      (∀ x ∈ before, x.id ≠ l.id) ∧ ∀ x ∈ after, x.id ≠ l.id := by
  obtain ⟨before, after, heq⟩ := List.append_of_mem hl
  have hids := h.ids
  rw [heq, List.map_append, List.map_cons, List.nodup_middle, List.nodup_cons, ← List.map_append]
    at hids
  refine ⟨before, after, heq, fun x hx hid => hids.1 ?_, fun x hx hid => hids.1 ?_⟩
  · exact hid ▸ List.mem_map_of_mem (List.mem_append_left _ hx)
  · exact hid ▸ List.mem_map_of_mem (List.mem_append_right _ hx)

theorem Sound.filter_eq (h : f.Sound) (hl : l ∈ f.lookups) :
    f.lookups.filter (·.id = l.id) = [l] := by
  obtain ⟨before, after, heq, hbefore, hafter⟩ := h.exists_append hl
  have hnone : ∀ xs : List (ForkLookup τ), (∀ x ∈ xs, x.id ≠ l.id) → xs.filter (·.id = l.id) = [] :=
    fun xs hxs => List.filter_eq_nil_iff.2 fun x hx => by simpa using hxs x hx
  rw [heq, List.filter_append, hnone before hbefore, List.filter_cons_of_pos (by simp),
    hnone after hafter, List.nil_append]

theorem Sound.find?_eq (h : f.Sound) (hl : l ∈ f.lookups) :
    f.lookups.find? (·.id = l.id) = some l := by
  rw [← List.head?_filter, h.filter_eq hl, List.head?_cons]

theorem Sound.answered_eq (h : f.Sound) (hl : l ∈ f.lookups) (fork : ForkInfo) :
    f.answered l.id fork = (l.line,
      f.update l.id fun l => { l with answer := some fork, asking := false, line := [] }) := by
  rw [Forks.answered, h.filter_eq hl, List.flatMap_singleton]

theorem Sound.failed_eq (h : f.Sound) (hl : l ∈ f.lookups) :
    f.failed l.id = (l.line.head?,
      f.update l.id fun l => { l with asking := !l.line.isEmpty, line := l.line.tail }) := by
  rw [Forks.failed, h.find?_eq hl, Option.bind_some]

/-- A change of one lookup changes its line alone. -/
theorem Sound.exists_tickets (h : f.Sound) (hl : l ∈ f.lookups) :
    ∃ before after, f.tickets = before ++ (l.line ++ after) ∧
      ∀ change, (f.update l.id change).tickets = before ++ ((change l).line ++ after) := by
  obtain ⟨before, after, heq, hbefore, hafter⟩ := h.exists_append hl
  have hsame : ∀ (change : ForkLookup τ → ForkLookup τ) (xs : List (ForkLookup τ)),
      (∀ x ∈ xs, x.id ≠ l.id) → (xs.map fun x => if x.id = l.id then change x else x) = xs :=
    fun change xs hxs => (List.map_congr_left fun x hx => if_neg (hxs x hx)).trans (List.map_id' _)
  refine ⟨before.flatMap (·.line), after.flatMap (·.line), ?_, fun change => ?_⟩
  · rw [tickets, heq, List.flatMap_append, List.flatMap_cons]
  · rw [tickets, Forks.update, heq, List.map_append, List.map_cons, if_pos rfl,
      hsame change before hbefore, hsame change after hafter, List.flatMap_append, List.flatMap_cons]

theorem Sound.eq_of_id (h : f.Sound) {x : ForkLookup τ} (hx : x ∈ f.lookups) (hl : l ∈ f.lookups)
    (hid : x.id = l.id) : x = l :=
  List.inj_on_of_nodup_map h.ids hx hl hid

/-- What may come of somebody who needs a fork: it is known, he stands in line, he has the turn to
    ask on behalf of a lookup, or he begins a lookup. -/
theorem enter_cases (f : Forks τ) (epoch : Epoch) (ticket : τ) :
    (∃ fork, f.enter epoch ticket = (.known fork, f)) ∨
    (∃ l ∈ f.lookups, l.asking ∧ f.enter epoch ticket =
      (.wait, f.update l.id fun l => { l with line := l.line ++ [ticket] })) ∨
    (∃ l ∈ f.lookups, f.enter epoch ticket =
      (.ask l.id, f.update l.id fun l => { l with asking := true })) ∨
    f.enter epoch ticket = (.ask f.nextId,
      { lookups := f.lookups ++ [{ id := f.nextId, epoch, asking := true }]
        nextId := f.nextId + 1 }) := by
  cases hlookup : f.lookup? epoch with
  | none => exact .inr (.inr (.inr (by simp only [enter, hlookup])))
  | some l =>
      have hl : l ∈ f.lookups := List.mem_of_find?_eq_some hlookup
      cases hanswer : l.answer with
      | some fork => exact .inl ⟨fork, by simp only [enter, hlookup, hanswer]⟩
      | none =>
          by_cases hasking : l.asking
          · refine .inr (.inl ⟨l, hl, hasking, ?_⟩)
            simp only [enter, hlookup, hanswer, if_pos hasking]
          · refine .inr (.inr (.inl ⟨l, hl, ?_⟩))
            simp only [enter, hlookup, hanswer, if_neg hasking]

/-- Who stands in line stands there once. -/
theorem Sound.wait (h : f.Sound) (hl : l ∈ f.lookups) (hasking : l.asking) (ticket : τ) :
    (f.update l.id fun l => { l with line := l.line ++ [ticket] }).Sound ∧
    (f.update l.id fun l => { l with line := l.line ++ [ticket] }).tickets.Perm
      (ticket :: f.tickets) ∧
    ∀ i, (f.update l.id fun l => { l with line := l.line ++ [ticket] }).Asking i → f.Asking i := by
  refine ⟨h.update l.id (fun _ => rfl) fun x hx hid _ => ?_, ?_, fun i hi => ?_⟩
  · exact h.eq_of_id hx hl hid ▸ hasking
  · obtain ⟨before, after, heq, hupdate⟩ := h.exists_tickets hl
    rw [hupdate, heq, List.append_assoc, List.singleton_append, ← List.append_assoc,
      ← List.append_assoc]
    exact List.perm_middle
  · rcases asking_update hi fun _ => rfl with ⟨rfl, -⟩ | ⟨-, hi⟩
    · exact ⟨l, hl, rfl, hasking⟩
    · exact hi

/-- Who has the turn to ask does not stand in line. -/
theorem Sound.ask (h : f.Sound) (hl : l ∈ f.lookups) :
    (f.update l.id fun l => { l with asking := true }).Sound ∧
    (f.update l.id fun l => { l with asking := true }).tickets = f.tickets ∧
    ∀ i, (f.update l.id fun l => { l with asking := true }).Asking i → i = l.id ∨ f.Asking i := by
  refine ⟨h.update l.id (fun _ => rfl) fun _ _ _ _ => rfl, ?_, fun i hi => ?_⟩
  · obtain ⟨before, after, heq, hupdate⟩ := h.exists_tickets hl
    rw [hupdate, heq]
  · exact (asking_update hi fun _ => rfl).imp (·.1) (·.2)

theorem Sound.begin (h : f.Sound) (epoch : Epoch) (asking : Bool) :
    ({ lookups := f.lookups ++ [{ id := f.nextId, epoch, asking }]
       nextId := f.nextId + 1 } : Forks τ).Sound ∧
    ({ lookups := f.lookups ++ [{ id := f.nextId, epoch, asking }]
       nextId := f.nextId + 1 } : Forks τ).tickets = f.tickets ∧
    ∀ i, ({ lookups := f.lookups ++ [{ id := f.nextId, epoch, asking }]
            nextId := f.nextId + 1 } : Forks τ).Asking i → i = f.nextId ∨ f.Asking i := by
  refine ⟨⟨?_, fun l hl => ?_, fun l hl hline => ?_⟩, ?_, fun i ⟨l, hl, hid, hasking⟩ => ?_⟩
  · rw [List.map_append, List.map_singleton]
    refine h.ids.append (List.nodup_singleton _) (List.disjoint_singleton.2 fun hmem => ?_)
    obtain ⟨l, hl, hid⟩ := List.mem_map.1 hmem
    exact absurd hid (h.fresh l hl).ne
  · rcases List.mem_append.1 hl with hl | hl
    · exact (h.fresh l hl).trans (Nat.lt_succ_self _)
    · rw [List.mem_singleton.1 hl]
      exact Nat.lt_succ_self _
  · rcases List.mem_append.1 hl with hl | hl
    · exact h.asking l hl hline
    · exact absurd (congrArg ForkLookup.line (List.mem_singleton.1 hl)) hline
  · simp only [tickets, List.flatMap_append, List.flatMap_singleton, List.append_nil]
  · rcases List.mem_append.1 hl with hl | hl
    · exact .inr ⟨l, hl, hid, hasking⟩
    · rw [List.mem_singleton.1 hl] at hid
      exact .inl hid.symm

/-- Those who have their answer leave the line. -/
theorem Sound.answered (h : f.Sound) (id : Nat) (fork : ForkInfo) :
    (f.answered id fork).2.Sound ∧
    f.tickets.Perm ((f.answered id fork).1 ++ (f.answered id fork).2.tickets) ∧
    ∀ i, (f.answered id fork).2.Asking i → i ≠ id ∧ f.Asking i := by
  refine ⟨h.update id (fun _ => rfl) fun _ _ _ hline => absurd rfl hline, ?_, fun i hi => ?_⟩
  · by_cases hid : ∃ l ∈ f.lookups, l.id = id
    · obtain ⟨l, hl, rfl⟩ := hid
      obtain ⟨before, after, heq, hupdate⟩ := h.exists_tickets hl
      rw [h.answered_eq hl, hupdate, heq, List.nil_append]
      exact List.perm_append_comm_assoc _ _ _
    · have hnone : ∀ x ∈ f.lookups, x.id ≠ id := fun x hx hx' => hid ⟨x, hx, hx'⟩
      have hline : f.lookups.filter (·.id = id) = [] :=
        List.filter_eq_nil_iff.2 fun x hx => by simpa using hnone x hx
      rw [Forks.answered, hline, update_of_forall_ne hnone]
      exact .refl _
  · rcases asking_update hi fun _ => rfl with ⟨-, _, -, -, hasking⟩ | hi
    · exact nomatch hasking
    · exact hi

/-- The first in line leaves it, and has the turn to ask. -/
theorem Sound.failed (h : f.Sound) (id : Nat) :
    (f.failed id).2.Sound ∧
    f.tickets.Perm ((f.failed id).1.toList ++ (f.failed id).2.tickets) ∧
    ∀ i, (f.failed id).2.Asking i →
      (i = id ∧ (f.failed id).1 ≠ none) ∨ (i ≠ id ∧ f.Asking i) := by
  by_cases hid : ∃ l ∈ f.lookups, l.id = id
  · obtain ⟨l, hl, rfl⟩ := hid
    have hnext : (f.failed l.id).1 = l.line.head? := congrArg Prod.fst (h.failed_eq hl)
    refine ⟨h.update l.id (fun _ => rfl) fun x _ _ hline => ?_, ?_, fun i hi => ?_⟩
    · cases hx : x.line with
      | nil => exact absurd (congrArg List.tail hx) hline
      | cons y ys => rfl
    · obtain ⟨before, after, heq, hupdate⟩ := h.exists_tickets hl
      rw [hnext, Forks.failed, hupdate, heq]
      cases l.line with
      | nil => exact .refl _
      | cons y ys => exact List.perm_middle
    · rcases asking_update hi fun _ => rfl with ⟨rfl, x, hx, hid, hasking⟩ | hi
      · obtain rfl := h.eq_of_id hx hl hid
        refine .inl ⟨rfl, ?_⟩
        rw [hnext]
        cases hx : x.line with
        | nil => simp [hx] at hasking
        | cons y ys => exact Option.some_ne_none y
      · exact .inr hi
  · have hnone : ∀ x ∈ f.lookups, x.id ≠ id := fun x hx hx' => hid ⟨x, hx, hx'⟩
    have hfind : f.lookups.find? (·.id = id) = none :=
      List.find?_eq_none.2 fun x hx => by simpa using hnone x hx
    rw [Forks.failed, hfind, update_of_forall_ne hnone]
    refine ⟨h, .refl _, fun i hi => .inr ⟨?_, hi⟩⟩
    obtain ⟨l, hl, hl', -⟩ := hi
    exact hl' ▸ hnone l hl

/-- Forgetting epochs leaves the lookups that are under way as they are. -/
theorem Sound.prune (h : f.Sound) (oldest : Epoch) :
    (f.prune oldest).Sound ∧ (f.prune oldest).tickets = f.tickets ∧
    ∀ i, (f.prune oldest).Asking i → f.Asking i := by
  have hsame : ∀ {β : Type} (field : ForkLookup τ → β),
      (∀ l : ForkLookup τ, field { l with listed := false } = field l) →
      (f.prune oldest).lookups.map field = f.lookups.map field := fun field hfield => by
    rw [Forks.prune, List.map_map]
    refine List.map_congr_left fun l _ => ?_
    rw [Function.comp_apply]
    split
    · exact hfield l
    · rfl
  have hlookup : ∀ l ∈ (f.prune oldest).lookups,
      ∃ x ∈ f.lookups, x.id = l.id ∧ x.line = l.line ∧ x.asking = l.asking := fun l hl => by
    obtain ⟨x, hx, rfl⟩ := List.mem_map.1 hl
    refine ⟨x, hx, ?_⟩
    split <;> exact ⟨rfl, rfl, rfl⟩
  refine ⟨⟨?_, fun l hl => ?_, fun l hl hline => ?_⟩, ?_, fun i ⟨l, hl, hid, hasking⟩ => ?_⟩
  · rw [hsame (·.id) fun _ => rfl]
    exact h.ids
  · obtain ⟨x, hx, hid, -, -⟩ := hlookup l hl
    exact hid ▸ h.fresh x hx
  · obtain ⟨x, hx, -, hlines, hasking⟩ := hlookup l hl
    exact hasking ▸ h.asking x hx (hlines ▸ hline)
  · rw [tickets, List.flatMap_def, hsame (·.line) fun _ => rfl, ← List.flatMap_def, tickets]
  · obtain ⟨x, hx, hids, -, hasks⟩ := hlookup l hl
    exact ⟨x, hx, hids.trans hid, hasks ▸ hasking⟩

end Forks

end Beacon
