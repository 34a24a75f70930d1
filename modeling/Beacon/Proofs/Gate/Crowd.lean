import Mathlib
import Beacon.Gate.Basic

set_option autoImplicit false

/-! # Everybody around a gate

A gate is used by many at a time: callers submit requests, the claimed requests are started, run and
end, slots are given back and handles learn how their requests ended. What one of them does to the
gate in one go is only this: it queues a request, it lets the gate claim slots, or it gives a slot
back; between any two of these, others may do anything. A `Crowd` is a gate with everyone around it,
`Crowd.Turn` what anyone may do next, `Crowd.Move` a turn or a further submission. Factories run
outside the gate, so a submission from inside one is a submission like any other.

Whoever has queued a request or given a slot back has a drain ahead of him. What is kept through all
turns (`Crowd.Orderly`) says where each request is, that they are admitted in the order of their
submission, and that, unless a drain is still to come, requests wait only for want of slots. Every
turn brings the crowd closer to rest (`Crowd.turn_weight_lt`), and a crowd in which nobody has a
turn is at rest (`Crowd.Orderly.atRest`): so no request is ever stranded. -/

namespace Beacon

variable {τ β : Type}

/-- One of a list, whatever the order of the others. -/
theorem exists_append_of_cons_perm {x : τ} {xs ys : List τ} (h : (x :: xs).Perm ys) :
    ∃ before after, ys = before ++ x :: after ∧ xs.Perm (before ++ after) := by
  obtain ⟨before, after, rfl⟩ := List.append_of_mem (h.subset List.mem_cons_self)
  exact ⟨before, after, rfl, (h.trans List.perm_middle).cons_inv⟩

/-- A gate with the requests around it, by their tickets, and what they produce. -/
structure Crowd (τ β : Type) where
  gate : Gate τ
  /-- Callers who have queued a request or given a slot back, and are yet to let the gate claim. -/
  drains : Nat := 0
  /-- Requests that have a slot and whose factory is to run or is running. -/
  starting : List τ := []
  running : List τ := []
  /-- Requests that have ended and still have their slot. -/
  leaving : List τ := []
  /-- How requests have ended whose handles do not know yet. -/
  owed : List (τ × Except GateError β) := []
  /-- Requests that have been submitted, in this order. -/
  submitted : List τ := []
  /-- Requests that have claimed a slot, in this order. -/
  admitted : List τ := []
  /-- Requests that have given their slot back, in this order. -/
  settled : List τ := []
  /-- The outputs that requests have produced, in this order. -/
  outputs : List (τ × β) := []
  /-- What handles have resolved with, in this order. -/
  replies : List (τ × Except GateError β) := []

namespace Crowd

variable {m m' : Crowd τ β} {name : String} {limit : Nat} {i : τ}

/-- Nobody is at the gate. -/
def create (name : String) (limit : Nat) : Crowd τ β where
  gate := Gate.create name limit

/-! ## What anyone may do -/

/-- Queue a request. -/
def submit (m : Crowd τ β) (i : τ) : Crowd τ β :=
  { m with
    gate := m.gate.push i
    submitted := m.submitted ++ [i]
    drains := m.drains + 1 }

/-- Let the gate claim slots, for those who are then started. -/
def drain (m : Crowd τ β) : Crowd τ β :=
  { m with
    gate := m.gate.claim.2
    drains := m.drains - 1
    starting := m.starting ++ m.gate.claim.1
    admitted := m.admitted ++ m.gate.claim.1 }

/-- A request has ended: its slot is to be given back, and its handle to be told. -/
def ended (m : Crowd τ β) (i : τ) (ending : Except GateError β) : Crowd τ β :=
  { m with leaving := m.leaving ++ [i], owed := m.owed ++ [(i, ending)] }

/-- What a handle learns of a request that has no output. -/
def abandoned (m : Crowd τ β) : Except GateError β := .error (.abandoned m.gate.name)

/-- What anyone may do next, apart from submitting. -/
inductive Turn : Crowd τ β → Crowd τ β → Prop where
  | drain {m : Crowd τ β} (h : 0 < m.drains) : Turn m m.drain
  /-- The factory of a request returns. -/
  | start {m : Crowd τ β} {i : τ} {before after : List τ} (h : m.starting = before ++ i :: after) :
      Turn m { m with starting := before ++ after, running := m.running ++ [i] }
  /-- The factory of a request stops in the middle. -/
  | breaks {m : Crowd τ β} {i : τ} {before after : List τ}
      (h : m.starting = before ++ i :: after) :
      Turn m ({ m with starting := before ++ after }.ended i m.abandoned)
  /-- A request stops in the middle. -/
  | fails {m : Crowd τ β} {i : τ} {before after : List τ} (h : m.running = before ++ i :: after) :
      Turn m ({ m with running := before ++ after }.ended i m.abandoned)
  /-- A request completes; whether its output is a success is its own affair. -/
  | yields {m : Crowd τ β} {i : τ} {before after : List τ} (h : m.running = before ++ i :: after)
      (b : β) :
      Turn m
        ({ m with running := before ++ after, outputs := m.outputs ++ [(i, b)] }.ended i (.ok b))
  /-- A request that has ended gives its slot back. -/
  | release {m : Crowd τ β} {i : τ} {before after : List τ} (h : m.leaving = before ++ i :: after) :
      Turn m { m with
        gate := m.gate.release
        drains := m.drains + 1
        leaving := before ++ after
        settled := m.settled ++ [i] }
  /-- A handle learns how its request ended; an output is sent only after the slot is given back. -/
  | reply {m : Crowd τ β} {x : τ × Except GateError β}
      {before after : List (τ × Except GateError β)} (h : m.owed = before ++ x :: after)
      (hfree : ∀ b, x.2 = .ok b → x.1 ∈ m.settled) :
      Turn m { m with owed := before ++ after, replies := m.replies ++ [x] }

/-- A turn, or a further submission. -/
inductive Move : Crowd τ β → Crowd τ β → Prop where
  | submit (m : Crowd τ β) (i : τ) : Move m (m.submit i)
  | turn {m m' : Crowd τ β} (h : Turn m m') : Move m m'

/-- The crowds that moves lead to from an idle gate. -/
def Reachable (name : String) (limit : Nat) (m : Crowd τ β) : Prop :=
  Relation.ReflTransGen Move (create name limit) m

/-! ## What is kept -/

section

variable [DecidableEq τ]

/-- Everyone is in one place, and nobody waits without need. -/
structure Orderly (m : Crowd τ β) : Prop where
  inFlight : m.gate.inFlight = m.starting.length + m.running.length + m.leaving.length
  inFlight_le : m.gate.inFlight ≤ m.gate.limit
  queued : m.admitted ++ m.gate.queue = m.submitted
  full : m.drains = 0 → m.gate.queue ≠ [] → m.gate.inFlight = m.gate.limit
  places : ∀ i, m.starting.count i + m.running.count i + m.leaving.count i + m.settled.count i
    = m.admitted.count i
  endings : ∀ i, (m.owed.map (·.1)).count i + (m.replies.map (·.1)).count i
    = m.leaving.count i + m.settled.count i
  outputs : ∀ i b, (i, b) ∈ m.outputs ↔ (i, .ok b) ∈ m.owed ++ m.replies
  causes : ∀ i cause, (i, .error cause) ∈ m.owed ++ m.replies → cause = .abandoned m.gate.name
  freed : ∀ i b, (i, .ok b) ∈ m.replies → i ∈ m.settled

theorem orderly_create (name : String) (limit : Nat) : (create name limit : Crowd τ β).Orderly := by
  refine ⟨rfl, Nat.zero_le _, rfl, fun _ hqueue => absurd rfl hqueue, fun _ => rfl, fun _ => rfl,
    ?_, ?_, ?_⟩
  · exact fun _ _ => iff_of_false List.not_mem_nil List.not_mem_nil
  · exact fun _ _ hmem => absurd hmem List.not_mem_nil
  · exact fun _ _ hmem => absurd hmem List.not_mem_nil

namespace Orderly

theorem submit (h : m.Orderly) (i : τ) : (m.submit i).Orderly where
  inFlight := h.inFlight
  inFlight_le := h.inFlight_le
  queued := by
    rw [Crowd.submit, Gate.push, ← List.append_assoc, h.queued]
  full hdrains := absurd hdrains (Nat.succ_ne_zero _)
  places := h.places
  endings := h.endings
  outputs := h.outputs
  causes := h.causes
  freed := h.freed

/-- Slots are claimed from the head of the queue, and while there are any. -/
theorem drain (h : m.Orderly) : m.drain.Orderly where
  inFlight := by
    simp only [Crowd.drain, Gate.claim, h.inFlight, List.length_append]
    lia
  inFlight_le := Gate.claim_inFlight_le h.inFlight_le
  queued := by
    rw [Crowd.drain, List.append_assoc, Gate.claim_append, h.queued]
  full _ hqueue := Gate.claim_full h.inFlight_le hqueue
  places i := by
    have hplaces := h.places i
    simp only [Crowd.drain, List.count_append]
    lia
  endings := h.endings
  outputs := h.outputs
  causes := h.causes
  freed := h.freed

/-- A request that was starting or running is now leaving, and its handle is to be told. -/
theorem ended (h : m.Orderly) {starting running : List τ} {outputs : List (τ × β)}
    {ending : Except GateError β}
    (hmoved : (i :: (starting ++ running)).Perm (m.starting ++ m.running))
    (houtputs : ∀ j b, (j, b) ∈ outputs ↔ (j, b) ∈ m.outputs ∨ (j, .ok b) = (i, ending))
    (hcause : ∀ cause, ending = .error cause → cause = .abandoned m.gate.name) :
    ({ m with starting, running, outputs }.ended i ending).Orderly where
  inFlight := by
    have hlength := hmoved.length_eq
    simp only [Crowd.ended, h.inFlight, List.length_append, List.length_cons, List.length_nil]
      at hlength ⊢
    lia
  inFlight_le := h.inFlight_le
  queued := h.queued
  full := h.full
  places j := by
    have hcount := hmoved.count_eq j
    have hplaces := h.places j
    simp only [Crowd.ended, List.count_append, List.count_cons, List.count_nil] at hcount ⊢
    lia
  endings j := by
    have hendings := h.endings j
    simp only [Crowd.ended, List.map_append, List.map_cons, List.map_nil, List.count_append] at *
    lia
  outputs j b := by
    have hbefore := h.outputs j b
    simp only [Crowd.ended, houtputs, List.mem_append, List.mem_singleton] at hbefore ⊢
    tauto
  causes j cause hmem := by
    simp only [Crowd.ended, List.mem_append, List.mem_singleton] at hmem
    rcases hmem with (hmem | hmem) | hmem
    · exact h.causes j cause (List.mem_append_left _ hmem)
    · exact hcause cause (Prod.mk.inj hmem).2.symm
    · exact h.causes j cause (List.mem_append_right _ hmem)
  freed := h.freed

/-- A request that stops in the middle, started or not, has no output. -/
theorem gaveUp (h : m.Orderly) {starting running : List τ}
    (hmoved : (i :: (starting ++ running)).Perm (m.starting ++ m.running)) :
    ({ m with starting, running }.ended i m.abandoned).Orderly := by
  refine h.ended hmoved (fun j b => ?_) fun cause hcause => ?_
  · simp [abandoned]
  · exact (Except.error.inj hcause).symm

/-- A slot that is given back was claimed. -/
theorem release (h : m.Orderly) {before after : List τ}
    (hleaving : m.leaving = before ++ i :: after) :
    ({ m with
      gate := m.gate.release
      drains := m.drains + 1
      leaving := before ++ after
      settled := m.settled ++ [i] } : Crowd τ β).Orderly where
  inFlight := by
    have hinFlight := h.inFlight
    simp only [hleaving, Gate.release, List.length_append, List.length_cons] at hinFlight ⊢
    lia
  inFlight_le := (Nat.sub_le ..).trans h.inFlight_le
  queued := h.queued
  full hdrains := absurd hdrains (Nat.succ_ne_zero _)
  places j := by
    have hplaces := h.places j
    simp only [hleaving, List.count_append, List.count_cons, List.count_nil] at hplaces ⊢
    lia
  endings j := by
    have hendings := h.endings j
    simp only [hleaving, List.count_append, List.count_cons, List.count_nil] at hendings ⊢
    lia
  outputs := h.outputs
  causes := h.causes
  freed j b hmem := List.mem_append_left _ (h.freed j b hmem)

/-- What a handle learns is taken from what it is owed. -/
theorem reply (h : m.Orderly) {x : τ × Except GateError β}
    {before after : List (τ × Except GateError β)} (howed : m.owed = before ++ x :: after)
    (hfree : ∀ b, x.2 = .ok b → x.1 ∈ m.settled) :
    ({ m with owed := before ++ after, replies := m.replies ++ [x] } : Crowd τ β).Orderly where
  inFlight := h.inFlight
  inFlight_le := h.inFlight_le
  queued := h.queued
  full := h.full
  places := h.places
  endings j := by
    have hendings := h.endings j
    simp only [howed, List.map_append, List.map_cons, List.map_nil, List.count_append,
      List.count_cons, List.count_nil] at hendings ⊢
    lia
  outputs j b := by
    rw [h.outputs, howed]
    simp only [List.mem_append, List.mem_cons]
    tauto
  causes j cause hmem := by
    refine h.causes j cause ?_
    rw [howed]
    simp only [List.mem_append, List.mem_cons] at hmem ⊢
    tauto
  freed j b hmem := by
    rcases List.mem_append.1 hmem with hmem | hmem
    · exact h.freed j b hmem
    · obtain rfl := List.mem_singleton.1 hmem
      exact hfree b rfl

theorem turn (h : m.Orderly) (hturn : Turn m m') : m'.Orderly := by
  cases hturn with
  | drain hdrains => exact h.drain
  | @start i before after hstarting =>
      refine { h with inFlight := ?_, places := fun j => ?_ }
      · have hinFlight := h.inFlight
        simp only [hstarting, List.length_append, List.length_cons, List.length_nil]
          at hinFlight ⊢
        lia
      · have hplaces := h.places j
        simp only [hstarting, List.count_append, List.count_cons, List.count_nil] at hplaces ⊢
        lia
  | @breaks i before after hstarting =>
      refine h.gaveUp ?_
      rw [hstarting]
      exact List.perm_middle.symm.append_right m.running
  | @fails i before after hrunning =>
      refine h.gaveUp ?_
      rw [hrunning]
      exact List.perm_middle.symm.trans (List.perm_middle.symm.append_left m.starting)
  | @yields i before after hrunning b =>
      refine h.ended ?_ (fun j b' => ?_) fun cause hcause => nomatch hcause
      · rw [hrunning]
        exact List.perm_middle.symm.trans (List.perm_middle.symm.append_left m.starting)
      · rw [List.mem_append, List.mem_singleton, Prod.mk.injEq, Prod.mk.injEq, Except.ok.injEq]
  | release hleaving => exact h.release hleaving
  | reply howed hfree => exact h.reply howed hfree

theorem move (h : m.Orderly) (hmove : Move m m') : m'.Orderly := by
  cases hmove with
  | submit i => exact h.submit i
  | turn hturn => exact h.turn hturn

end Orderly

theorem Reachable.orderly (h : Reachable name limit m) : m.Orderly := by
  induction h with
  | refl => exact orderly_create name limit
  | tail _ hmove ih => exact ih.move hmove

end

/-! ## Rest -/

/-- How many turns the requests submitted so far can take at most. -/
def weight (m : Crowd τ β) : Nat :=
  6 * m.gate.queue.length + 5 * m.starting.length + 4 * m.running.length + 2 * m.leaving.length
    + m.owed.length + m.drains

/-- Every turn uses up part of what has been submitted. -/
theorem turn_weight_lt (hturn : Turn m m') : m'.weight < m.weight := by
  cases hturn with
  | drain hdrains =>
      have hqueue := congrArg List.length m.gate.claim_append
      simp only [weight, drain, List.length_append] at hqueue ⊢
      lia
  | start hstarting =>
      simp only [weight, hstarting, List.length_append, List.length_cons, List.length_nil]
      lia
  | breaks hstarting =>
      simp only [weight, ended, hstarting, List.length_append, List.length_cons, List.length_nil]
      lia
  | fails hrunning =>
      simp only [weight, ended, hrunning, List.length_append, List.length_cons, List.length_nil]
      lia
  | yields hrunning b =>
      simp only [weight, ended, hrunning, List.length_append, List.length_cons, List.length_nil]
      lia
  | release hleaving =>
      simp only [weight, Gate.release, hleaving, List.length_append, List.length_cons]
      lia
  | reply howed hfree =>
      simp only [weight, howed, List.length_append, List.length_cons]
      lia

/-- Nobody is on his way: every admitted request has settled, nobody is about to let the gate claim,
    and every handle knows how its request ended. -/
structure AtRest (m : Crowd τ β) : Prop where
  settled : ∀ i ∈ m.admitted, i ∈ m.settled
  drains : m.drains = 0
  owed : m.owed = []

namespace Orderly

variable [DecidableEq τ]

theorem nodup_admitted (h : m.Orderly) (hdistinct : m.submitted.Nodup) : m.admitted.Nodup := by
  rw [← h.queued] at hdistinct
  exact (List.nodup_append.1 hdistinct).1

/-- The slots that are taken are those of the requests that have been admitted and not settled. -/
theorem inFlight_eq (h : m.Orderly) (hdistinct : m.submitted.Nodup) :
    m.gate.inFlight = (m.admitted.filter fun i => i ∉ m.settled).length := by
  have hperm : (m.starting ++ m.running ++ m.leaving ++ m.settled).Perm m.admitted := by
    refine List.perm_iff_count.2 fun i => ?_
    rw [← h.places i]
    simp only [List.count_append]
  have hdisjoint := List.disjoint_of_nodup_append (hperm.nodup_iff.2 (h.nodup_admitted hdistinct))
  have hfilter := (hperm.filter fun i => decide (i ∉ m.settled)).length_eq
  rw [List.filter_append, List.filter_eq_self.2, List.filter_eq_nil_iff.2, List.append_nil]
    at hfilter
  · rw [← hfilter, h.inFlight, List.length_append, List.length_append]
  · simp
  · exact fun i hi => decide_eq_true fun hsettled => hdisjoint hi hsettled

/-- A handle resolves at most once. -/
theorem count_replies_le (h : m.Orderly) (hdistinct : m.submitted.Nodup) (i : τ) :
    (m.replies.map (·.1)).count i ≤ 1 := by
  have hendings := h.endings i
  have hplaces := h.places i
  have hone := List.nodup_iff_count_le_one.1 (h.nodup_admitted hdistinct) i
  lia

/-- While anything is under way, somebody has a turn. -/
theorem atRest (h : m.Orderly) (hstuck : ∀ m', ¬ Turn m m') : m.AtRest := by
  have hstarting : m.starting = [] := by
    by_contra hne
    obtain ⟨i, rest, hrest⟩ := List.exists_cons_of_ne_nil hne
    exact hstuck _ (@Turn.start _ _ m i [] rest hrest)
  have hrunning : m.running = [] := by
    by_contra hne
    obtain ⟨i, rest, hrest⟩ := List.exists_cons_of_ne_nil hne
    exact hstuck _ (@Turn.fails _ _ m i [] rest hrest)
  have hleaving : m.leaving = [] := by
    by_contra hne
    obtain ⟨i, rest, hrest⟩ := List.exists_cons_of_ne_nil hne
    exact hstuck _ (@Turn.release _ _ m i [] rest hrest)
  have hsettled : ∀ i, m.settled.count i = m.admitted.count i := fun i => by
    have hplaces := h.places i
    rw [hstarting, hrunning, hleaving] at hplaces
    simpa using hplaces
  refine ⟨fun i hi => ?_, ?_, ?_⟩
  · rw [← List.count_pos_iff, hsettled]
    exact List.count_pos_iff.2 hi
  · by_contra hne
    exact hstuck _ (.drain (Nat.pos_of_ne_zero hne))
  · by_contra hne
    obtain ⟨x, rest, hrest⟩ := List.exists_cons_of_ne_nil hne
    -- Whatever is owed, the slot has been given back.
    have hendings := h.endings x.1
    rw [hrest, hleaving, List.map_cons, List.count_cons_self] at hendings
    refine hstuck _ (@Turn.reply _ _ m x [] rest hrest fun _ _ => List.count_pos_iff.1 ?_)
    simp only [List.count_nil] at hendings
    lia

/-- At rest nobody waits for a slot either. -/
theorem queue_eq_nil (h : m.Orderly) (hdistinct : m.submitted.Nodup) (hpos : 0 < m.gate.limit)
    (hrest : m.AtRest) : m.gate.queue = [] := by
  by_contra hqueue
  have hfull := h.full hrest.drains hqueue
  have hnone : m.admitted.filter (fun i => i ∉ m.settled) = [] :=
    List.filter_eq_nil_iff.2 fun i hi => by simpa using hrest.settled i hi
  rw [h.inFlight_eq hdistinct, hnone] at hfull
  exact hpos.ne hfull

/-- At rest each handle has resolved once: with the output of its request if there is one. -/
theorem resolved (h : m.Orderly) (hdistinct : m.submitted.Nodup) (hpos : 0 < m.gate.limit)
    (hrest : m.AtRest) (hi : i ∈ m.submitted) :
    ∃ ending, m.replies.filter (·.1 = i) = [(i, ending)] ∧
      ((∃ b, ending = .ok b ∧ (i, b) ∈ m.outputs) ∨
        (ending = .error (.abandoned m.gate.name) ∧ ∀ b, (i, b) ∉ m.outputs)) := by
  have hadmitted : i ∈ m.admitted := by
    have hqueued := h.queued
    rw [h.queue_eq_nil hdistinct hpos hrest, List.append_nil] at hqueued
    rwa [hqueued]
  have hone : (m.replies.filter (·.1 = i)).length = 1 := by
    have hpositive := List.count_pos_iff.2 (hrest.settled i hadmitted)
    have hendings := h.endings i
    have hle := h.count_replies_le hdistinct i
    rw [hrest.owed, List.map_nil, List.count_nil] at hendings
    have hcount : (m.replies.filter (·.1 = i)).length = (m.replies.map (·.1)).count i := by
      rw [List.count, List.countP_map, ← List.countP_eq_length_filter]
      rfl
    lia
  obtain ⟨⟨j, ending⟩, hsingle⟩ := List.length_eq_one_iff.1 hone
  have hmem : (j, ending) ∈ m.replies.filter (·.1 = i) := by
    rw [hsingle]
    exact List.mem_singleton_self _
  obtain ⟨hreply, hj⟩ := List.mem_filter.1 hmem
  obtain rfl : j = i := by simpa using hj
  have hall : ∀ b, (j, b) ∈ m.outputs ↔ ending = .ok b := fun b => by
    rw [h.outputs, hrest.owed, List.nil_append]
    constructor
    · intro houtput
      have hsame : (j, Except.ok b) ∈ m.replies.filter (·.1 = j) :=
        List.mem_filter.2 ⟨houtput, decide_eq_true rfl⟩
      rw [hsingle, List.mem_singleton] at hsame
      exact (Prod.mk.inj hsame).2.symm
    · rintro rfl
      exact hreply
  refine ⟨ending, hsingle, ?_⟩
  cases ending with
  | ok b => exact Or.inl ⟨b, rfl, (hall b).2 rfl⟩
  | error cause =>
      have hcause := h.causes j cause (List.mem_append_right _ hreply)
      rw [hcause]
      exact Or.inr ⟨rfl, fun b hb => nomatch (hall b).1 hb⟩

end Orderly

/-- Neither the name nor the limit of a gate changes. -/
theorem gate_of_moves (h : Relation.ReflTransGen Move m m') :
    m'.gate.name = m.gate.name ∧ m'.gate.limit = m.gate.limit := by
  induction h with
  | refl => exact ⟨rfl, rfl⟩
  | tail _ hmove ih =>
      cases hmove with
      | submit i => exact ih
      | turn hturn => cases hturn <;> exact ih

end Crowd

end Beacon
