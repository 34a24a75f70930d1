import Mathlib
import Beacon.Gate.Admission
import Beacon.Proofs.Gate.Crowd

set_option autoImplicit false

/-! # Turnstiles are crowds

A `Turnstile` runs the requests around a gate in one particular order, and in goes of several turns
each. Every state it comes to shows a crowd that turns and submissions lead to
(`Turnstile.Reachable.shown`), so what is kept in crowds holds of it: `Turnstile.Reachable.full`
reads this off for its slots, and `gate_safe_fair_lossless` says what crowds and turnstiles have in
common. -/

namespace Beacon

variable {α : Type}

/-- A gate that knows its requests by name. -/
def Gate.names (g : Gate (Request α)) : Gate String where
  name := g.name
  limit := g.limit
  inFlight := g.inFlight
  queue := g.queue.map (·.id)

@[simp]
theorem Gate.names_push (g : Gate (Request α)) (r : Request α) :
    (g.push r).names = g.names.push r.id := by
  simp only [Gate.names, Gate.push, List.map_append, List.map_cons, List.map_nil]

theorem Gate.names_claim (g : Gate (Request α)) :
    g.names.claim = (g.claim.1.map (·.id), g.claim.2.names) := by
  simp only [Gate.names, Gate.claim, Gate.room, List.map_take, List.map_drop, List.length_take,
    List.length_map]

theorem Request.receive_id (r : Request α) (id : String) (a : α) : (r.receive id a).id = r.id := by
  rw [Request.receive]
  split
  · split <;> rfl
  · rfl

/-- The request that an errand is for. -/
def Errand.id : Errand α → String
  | .start r => r.id
  | .enter id _ => id

/-- How a request has ended that settles with this reply. -/
def Reply.ending (gate : String) : Reply α → Except GateError (Reply α)
  | .abandoned => .error (.abandoned gate)
  | reply => .ok reply

namespace Turnstile

variable {t t' : Turnstile α} {m n : Crowd String (Reply α)} {name : String} {limit : Nat}
variable {debts : List (String × Except GateError (Reply α))}

/-- A crowd behind a turnstile, whose handles are owed these endings. -/
structure Shows (t : Turnstile α) (debts : List (String × Except GateError (Reply α)))
    (m : Crowd String (Reply α)) : Prop where
  gate : m.gate = t.gate.names
  drains : m.drains = 0
  starting : (t.agenda.map Errand.id).Perm m.starting
  running : (t.waiting ++ t.ready.map (·.1)).Perm m.running
  leaving : m.leaving = []
  owed : m.owed = debts
  freed : ∀ x ∈ debts, x.1 ∈ m.settled
  replies : m.replies = t.settled.map fun x => (x.1, x.2.ending t.gate.name)

/-- What the gate lets in is to be started. -/
theorem shows_drain (hdrains : m.drains = 1) (h : t.Shows debts { m with drains := 0 }) :
    t.drain.Shows debts m.drain := by
  have hclaim : m.gate.claim = _ := (congrArg Gate.claim h.gate).trans t.gate.names_claim
  refine { h with gate := ?_, drains := ?_, starting := ?_ }
  · rw [Crowd.drain, hclaim, drain]
  · rw [Crowd.drain, hdrains]
  · rw [Crowd.drain, hclaim, drain, List.map_append, List.map_map]
    exact List.perm_append_comm.trans (h.starting.append_right _)

/-- A submission queues a request and lets the gate claim. -/
theorem exists_shows_submit (h : t.Shows debts m) (r : Request α) :
    ∃ m', Relation.ReflTransGen Crowd.Move m m' ∧
      ({ t with gate := t.gate.push r } : Turnstile α).drain.Shows debts m' := by
  have hsubmitted := Relation.ReflTransGen.single (Crowd.Move.submit m r.id)
  refine ⟨_, hsubmitted.tail (.turn (.drain (Nat.succ_pos _))), shows_drain ?_ ?_⟩
  · exact congrArg (· + 1) h.drains
  · refine { h with gate := ?_, drains := rfl }
    rw [Crowd.submit, h.gate, Gate.names_push]

/-- A request that has ended gives its slot back, and its handle is owed the ending. -/
theorem exists_shows_left (h : t.Shows debts m) (id : String) (ending : Except GateError (Reply α)) :
    ∃ m', Relation.ReflTransGen Crowd.Move (m.ended id ending) m' ∧
      ({ t with gate := t.gate.release } : Turnstile α).drain.Shows (debts ++ [(id, ending)]) m' := by
  have hleaving : (m.ended id ending).leaving = [] ++ id :: [] := by
    simp only [Crowd.ended, h.leaving, List.nil_append]
  have hreleased := Relation.ReflTransGen.single (Crowd.Move.turn (.release hleaving))
  refine ⟨_, hreleased.tail (.turn (.drain (Nat.succ_pos _))), shows_drain ?_ ?_⟩
  · exact congrArg (· + 1) h.drains
  · refine { h with gate := ?_, drains := rfl, leaving := rfl, owed := ?_, freed := fun x hx => ?_ }
    · exact congrArg Gate.release h.gate
    · exact congrArg (· ++ [(id, ending)]) h.owed
    · rcases List.mem_append.1 hx with hx | hx
      · exact List.mem_append_left _ (h.freed x hx)
      · rw [List.mem_singleton.1 hx]
        exact List.mem_append_right _ (List.mem_singleton_self id)

/-- The last one who is owed an ending learns it. -/
theorem exists_shows_replied {id : String} {reply : Reply α}
    (h : t.Shows (debts ++ [(id, reply.ending t.gate.name)]) m) :
    ∃ m', Relation.ReflTransGen Crowd.Move m m' ∧
      ({ t with settled := t.settled ++ [(id, reply)] } : Turnstile α).Shows debts m' := by
  have hfreed := h.freed _ (List.mem_append_right debts (List.mem_singleton_self _))
  refine ⟨_, .single (.turn (.reply h.owed fun _ _ => hfreed)),
    { h with owed := ?_, freed := fun x hx => h.freed x (List.mem_append_left _ hx), replies := ?_ }⟩
  · exact List.append_nil debts
  · simp only [h.replies, List.map_append, List.map_cons, List.map_nil]

/-- A request whose factory has returned runs. -/
theorem exists_shows_started {id : String} {rest : List String}
    (h : t.Shows debts { m with starting := rest }) (hstarting : (id :: rest).Perm m.starting)
    (hgate : t'.gate = t.gate) (hagenda : t'.agenda = t.agenda) (hsettled : t'.settled = t.settled)
    (hrunning : (t'.waiting ++ t'.ready.map (·.1)).Perm (t.waiting ++ t.ready.map (·.1) ++ [id])) :
    ∃ m', Relation.ReflTransGen Crowd.Move m m' ∧ t'.Shows debts m' := by
  obtain ⟨before, after, hsplit, hperm⟩ := exists_append_of_cons_perm hstarting
  refine ⟨_, .single (.turn (.start hsplit)),
    { h with gate := ?_, starting := ?_, running := ?_, replies := ?_ }⟩
  · rw [hgate]
    exact h.gate
  · rw [hagenda]
    exact h.starting.trans hperm
  · exact hrunning.trans (h.running.append_right _)
  · rw [hsettled, hgate]
    exact h.replies

/-- The start of a request: its factory runs, and may submit a request or stop in the middle. -/
theorem exists_shows_start {r : Request α} {rest : List String}
    (h : t.Shows debts { m with starting := rest }) (hstarting : (r.id :: rest).Perm m.starting) :
    ∃ m', Relation.ReflTransGen Crowd.Move m m' ∧ (t.start r).Shows debts m' := by
  rcases r with ⟨id, work⟩
  cases work with
  | waits =>
      refine exists_shows_started h hstarting rfl rfl rfl ?_
      simp only [start, List.append_assoc]
      exact List.perm_append_comm.append_left t.waiting
  | yields a =>
      refine exists_shows_started h hstarting rfl rfl rfl (.of_eq ?_)
      simp only [start, List.map_append, List.map_cons, List.map_nil, List.append_assoc]
  | breaksLater =>
      refine exists_shows_started h hstarting rfl rfl rfl (.of_eq ?_)
      simp only [start, List.map_append, List.map_cons, List.map_nil, List.append_assoc]
  | breaks =>
      obtain ⟨before, after, hsplit, hperm⟩ := exists_append_of_cons_perm hstarting
      have hbroken := Relation.ReflTransGen.single (Crowd.Move.turn (.breaks hsplit))
      have hout : t.Shows debts { m with starting := before ++ after } :=
        { h with starting := h.starting.trans hperm }
      have hending : (Reply.abandoned : Reply α).ending t.gate.name = m.abandoned := by
        rw [Crowd.abandoned, show m.gate = t.gate.names from h.gate]
        rfl
      obtain ⟨m₁, hleft, hshows⟩ := exists_shows_left hout id m.abandoned
      rw [← hending] at hshows
      obtain ⟨m₂, hreplied, hshows⟩ := exists_shows_replied hshows
      exact ⟨m₂, (hbroken.trans hleft).trans hreplied, { hshows with }⟩
  | submits child work =>
      have hinside : ({ t with
          agenda := .enter id (.seen t.gate.inFlight) :: t.agenda
          started := t.started ++ [id] } : Turnstile α).Shows debts m :=
        { h with starting := (h.starting.cons id).trans hstarting }
      exact exists_shows_submit hinside ⟨child, work⟩

theorem exists_shows_perform {e : Errand α} {rest : List (Errand α)} (h : t.Shows debts m)
    (hagenda : t.agenda = e :: rest) :
    ∃ m', Relation.ReflTransGen Crowd.Move m m' ∧
      ({ t with agenda := rest }.perform e).Shows debts m' := by
  have hstarting := h.starting
  rw [hagenda, List.map_cons] at hstarting
  have hnext : ({ t with agenda := rest } : Turnstile α).Shows debts
      { m with starting := rest.map Errand.id } := { h with starting := .refl _ }
  cases e with
  | start r => exact exists_shows_start hnext hstarting
  | enter id reply =>
      refine exists_shows_started hnext hstarting rfl rfl rfl (.of_eq ?_)
      simp only [perform, Errand.id, List.map_append, List.map_cons, List.map_nil,
        List.append_assoc]

theorem exists_shows_startAll (h : t.Shows debts m) :
    ∃ m', Relation.ReflTransGen Crowd.Move m m' ∧ t.startAll.Shows debts m' := by
  fun_induction startAll t generalizing m with
  | case1 => exact ⟨m, .refl, h⟩
  | case2 t e rest hagenda ih =>
      obtain ⟨m₁, hmoves, hshows⟩ := exists_shows_perform h hagenda
      obtain ⟨m₂, hrest, hlast⟩ := ih hshows
      exact ⟨m₂, hmoves.trans hrest, hlast⟩

/-- A running request ends, with whatever it is that its handle learns. -/
theorem exists_turn_ended {id : String} {before after : List String}
    (hrunning : m.running = before ++ id :: after) (reply : Reply α) :
    ∃ outputs, Crowd.Turn m ({ m with running := before ++ after, outputs }.ended id
      (reply.ending m.gate.name)) := by
  cases reply with
  | abandoned => exact ⟨m.outputs, .fails hrunning⟩
  | value a => exact ⟨_, .yields hrunning (.value a)⟩
  | seen inFlight => exact ⟨_, .yields hrunning (.seen inFlight)⟩

theorem exists_shows_settle {id : String} {reply : Reply α} {rest : List (String × Reply α)}
    (h : t.Shows debts m) (hready : t.ready = (id, reply) :: rest) :
    ∃ m', Relation.ReflTransGen Crowd.Move m m' ∧
      ({ t with ready := rest }.settle id reply).Shows debts m' := by
  have hrunning := List.perm_middle.symm.trans (hready ▸ h.running)
  obtain ⟨before, after, hsplit, hperm⟩ := exists_append_of_cons_perm hrunning
  obtain ⟨outputs, hturn⟩ := exists_turn_ended hsplit reply
  have hout : ({ t with ready := rest } : Turnstile α).Shows debts
      { m with running := before ++ after, outputs } := { h with running := hperm }
  obtain ⟨m₁, hleft, hshows⟩ := exists_shows_left hout id (reply.ending m.gate.name)
  obtain ⟨m₂, hstarted, hshows⟩ := exists_shows_startAll hshows
  have hname := (Crowd.gate_of_moves (hleft.trans hstarted)).1
  rw [hshows.gate] at hname
  rw [show m.gate.name = _ from hname.symm] at hshows
  obtain ⟨m₃, hreplied, hshows⟩ := exists_shows_replied hshows
  exact ⟨m₃, (((Relation.ReflTransGen.single (.turn hturn)).trans hleft).trans hstarted).trans
    hreplied, hshows⟩

theorem exists_shows_settleReady (h : t.Shows debts m) :
    ∃ m', Relation.ReflTransGen Crowd.Move m m' ∧ t.settleReady.Shows debts m' := by
  fun_induction settleReady t generalizing m with
  | case1 => exact ⟨m, .refl, h⟩
  | case2 t id reply rest hready ih =>
      obtain ⟨m₁, hmoves, hshows⟩ := exists_shows_settle h hready
      obtain ⟨m₂, hrest, hlast⟩ := ih hshows
      exact ⟨m₂, hmoves.trans hrest, hlast⟩

/-- An outcome that arrives is for a request that runs, or for one that is yet to be let in. -/
theorem shows_deliver (h : t.Shows debts m) (id : String) (a : α) :
    (t.deliver id a).Shows debts m := by
  rw [deliver]
  split
  case isTrue hwaiting =>
      refine { h with running := .trans ?_ h.running }
      have herase := List.perm_cons_erase (List.contains_iff_mem.1 hwaiting)
      simp only [List.map_append, List.map_cons, List.map_nil, ← List.append_assoc]
      refine List.perm_append_comm.trans (.trans ?_ (herase.symm.append_right _))
      exact .of_eq (List.singleton_append ..)
  case isFalse =>
      have hqueue : (t.gate.queue.map (·.receive id a)).map (·.id) = t.gate.queue.map (·.id) := by
        rw [List.map_map]
        exact List.map_congr_left fun r _ => r.receive_id id a
      refine { h with gate := ?_ }
      simp only [h.gate, Gate.names, hqueue]

/-! ## Runs -/

/-- What callers may do: submit a request, give one its outcome, or have the ready ones settle. -/
inductive Step : Turnstile α → Turnstile α → Prop where
  | submit (t : Turnstile α) (r : Request α) : Step t (t.submit r)
  | deliver (t : Turnstile α) (id : String) (a : α) : Step t (t.deliver id a)
  | settleReady (t : Turnstile α) : Step t t.settleReady

/-- The turnstiles that callers lead to from an idle one. -/
def Reachable (name : String) (limit : Nat) (t : Turnstile α) : Prop :=
  Relation.ReflTransGen Step (create name limit) t

theorem exists_shows_step (h : t.Shows debts m) (hstep : Step t t') :
    ∃ m', Relation.ReflTransGen Crowd.Move m m' ∧ t'.Shows debts m' := by
  cases hstep with
  | submit r =>
      obtain ⟨m₁, hmoves, hshows⟩ := exists_shows_submit h r
      obtain ⟨m₂, hstarted, hshows⟩ := exists_shows_startAll hshows
      exact ⟨m₂, hmoves.trans hstarted, hshows⟩
  | deliver id a => exact ⟨m, .refl, shows_deliver h id a⟩
  | settleReady => exact exists_shows_settleReady h

/-- Whatever callers have done, there is a crowd behind the turnstile that is owed nothing. -/
theorem Reachable.shown (h : Reachable name limit t) :
    ∃ m, Crowd.Reachable name limit m ∧ t.Shows [] m := by
  induction h with
  | refl =>
      refine ⟨Crowd.create name limit, .refl, rfl, rfl, .refl _, .refl _, rfl, rfl, ?_, rfl⟩
      exact fun _ hx => absurd hx List.not_mem_nil
  | tail _ hstep ih =>
      obtain ⟨m, hreachable, hshows⟩ := ih
      obtain ⟨m', hmoves, hshows'⟩ := exists_shows_step hshows hstep
      exact ⟨m', hreachable.trans hmoves, hshows'⟩

/-- The slots that are taken are within the limit, and requests wait only while all are taken. -/
theorem Reachable.full (h : Reachable name limit t) :
    t.gate.inFlight = t.agenda.length + t.waiting.length + t.ready.length ∧
    t.gate.inFlight ≤ max limit 1 ∧
    (t.gate.queue ≠ [] → t.gate.inFlight = max limit 1) := by
  obtain ⟨m, hreachable, hshows⟩ := h.shown
  have horderly := hreachable.orderly
  have hlimit : m.gate.limit = max limit 1 := (Crowd.gate_of_moves hreachable).2
  have hinFlight : m.gate.inFlight = t.gate.inFlight := congrArg Gate.inFlight hshows.gate
  rw [← hinFlight, ← hlimit]
  refine ⟨?_, horderly.inFlight_le, fun hqueue => horderly.full hshows.drains ?_⟩
  · have hstarting := hshows.starting.length_eq
    have hrunning := hshows.running.length_eq
    rw [horderly.inFlight, hshows.leaving, ← hstarting, ← hrunning, List.length_append,
      List.length_map, List.length_map, List.length_nil]
    lia
  · rw [hshows.gate]
    exact fun hnil => hqueue (List.map_eq_nil_iff.1 hnil)

end Turnstile

/-! ## A nested submission -/

/-- Two requests of which the second is submitted by the factory of the first and has a factory that
    stops in the middle. -/
theorem exists_nested : ∃ m : Crowd Nat Nat, Crowd.Reachable "nested" 0 m ∧ m.AtRest ∧
    m.submitted = [0, 1] ∧ m.replies = [(0, .ok 5), (1, .error (.abandoned "nested"))] := by
  let m₁ : Crowd Nat Nat := (((Crowd.create "nested" 0).submit 0).drain.submit 1).drain
  have h₁ : Crowd.Reachable "nested" 0 m₁ :=
    (((Relation.ReflTransGen.single (.submit _ 0)).tail (.turn (.drain (by decide)))).tail
      (.submit _ 1)).tail (.turn (.drain (by decide)))
  have h₂ := (h₁.tail (.turn (@Crowd.Turn.start _ _ _ 0 [] [] rfl))).tail
    (.turn (@Crowd.Turn.yields _ _ _ 0 [] [] rfl 5))
  have h₃ := (h₂.tail (.turn (@Crowd.Turn.release _ _ _ 0 [] [] rfl))).tail
    (.turn (.drain (by decide)))
  have h₄ := (h₃.tail (.turn (@Crowd.Turn.reply _ _ _ (0, .ok 5) [] [] rfl fun _ _ => by
    decide))).tail (.turn (@Crowd.Turn.breaks _ _ _ 1 [] [] rfl))
  have h₅ := (h₄.tail (.turn (@Crowd.Turn.release _ _ _ 1 [] [] rfl))).tail
    (.turn (.drain (by decide)))
  exact ⟨_, h₅.tail (.turn (@Crowd.Turn.reply _ _ _ (1, .error (.abandoned "nested")) [] [] rfl
    fun _ _ => by decide)), ⟨by decide, rfl, rfl⟩, rfl, rfl⟩

/-! ## The theorem -/

/-- **A gate is safe, fair and lossless.** Around a gate with this limit, a limit of zero counting
    as one, whatever callers, factories, requests and handles have done, in whatever order: the
    slots that are taken are those of the requests that have been admitted and not settled, and they
    are within the limit; requests have been admitted in the order of their submission, each once;
    unless somebody is still to let the gate claim, requests wait only while every slot is taken; a
    handle that has an output learnt it after the slot had been given back; no handle resolves
    twice, and at rest every handle has resolved, with the output of its request if it produced one,
    and as abandoned if not. Rest comes: until then somebody has a turn, and every turn leaves fewer
    to come. Behind every turnstile that callers have used there is such a crowd. -/
theorem gate_safe_fair_lossless {τ β : Type} [DecidableEq τ] (name : String) (limit : Nat)
    (m : Crowd τ β) (h : Crowd.Reachable name limit m) (hdistinct : m.submitted.Nodup)
    (t : Turnstile α) (hturnstile : Turnstile.Reachable name limit t) :
    (m.gate.inFlight = (m.admitted.filter fun i => i ∉ m.settled).length ∧
      m.gate.inFlight ≤ max limit 1) ∧
    (m.admitted <+: m.submitted ∧
      (m.drains = 0 → m.gate.queue ≠ [] → m.gate.inFlight = max limit 1)) ∧
    ((∀ i b, (i, .ok b) ∈ m.replies → i ∈ m.settled) ∧
      (∀ i, (m.replies.map (·.1)).count i ≤ 1) ∧
      (m.AtRest → ∀ i ∈ m.submitted, ∃ ending, m.replies.filter (·.1 = i) = [(i, ending)] ∧
        ((∃ b, ending = .ok b ∧ (i, b) ∈ m.outputs) ∨
          (ending = .error (.abandoned name) ∧ ∀ b, (i, b) ∉ m.outputs)))) ∧
    ((m.AtRest ∨ ∃ m', Crowd.Turn m m') ∧ ∀ m', Crowd.Turn m m' → m'.weight < m.weight) ∧
    ∃ n : Crowd String (Reply α), Crowd.Reachable name limit n ∧ t.Shows [] n := by
  obtain ⟨hname, hlimit⟩ : m.gate.name = name ∧ m.gate.limit = max limit 1 :=
    Crowd.gate_of_moves h
  have horderly := h.orderly
  have hpos : 0 < m.gate.limit := by
    rw [hlimit]
    exact lt_max_of_lt_right Nat.zero_lt_one
  refine ⟨⟨horderly.inFlight_eq hdistinct, hlimit ▸ horderly.inFlight_le⟩,
    ⟨⟨_, horderly.queued⟩, hlimit ▸ horderly.full⟩,
    ⟨horderly.freed, horderly.count_replies_le hdistinct, fun hrest i hi => ?_⟩,
    ⟨?_, fun _ => Crowd.turn_weight_lt⟩, hturnstile.shown⟩
  · rw [← hname]
    exact horderly.resolved hdistinct hpos hrest hi
  · by_cases hstuck : ∀ m', ¬ Crowd.Turn m m'
    · exact Or.inl (horderly.atRest hstuck)
    · exact Or.inr (not_forall_not.1 hstuck)

/-- Both have their endings, though a limit of zero lets them run one at a time. -/
theorem gate_safe_fair_lossless_nested :
    (∃ m : Crowd Nat Nat, Crowd.Reachable "nested" 0 m ∧ m.submitted = [0, 1] ∧
      m.gate.inFlight ≤ 1 ∧ m.admitted <+: [0, 1] ∧
      ∀ i ∈ [0, 1], ∃ ending, m.replies.filter (·.1 = i) = [(i, ending)] ∧
        ((∃ b, ending = .ok b ∧ (i, b) ∈ m.outputs) ∨
          (ending = .error (.abandoned "nested") ∧ ∀ b, (i, b) ∉ m.outputs))) ∧
    ∃ n : Crowd String (Reply Nat), Crowd.Reachable "nested" 0 n ∧
      ((Turnstile.create "nested" 0).submit ⟨"outer", .submits "inner" .breaks⟩).Shows [] n := by
  obtain ⟨m, hreachable, hrest, hsubmitted, -⟩ := exists_nested
  have hdistinct : m.submitted.Nodup := by
    rw [hsubmitted]
    decide
  have hturnstile : Turnstile.Reachable "nested" 0
      ((Turnstile.create "nested" 0 : Turnstile Nat).submit
        ⟨"outer", .submits "inner" .breaks⟩) :=
    .single (.submit _ _)
  obtain ⟨⟨-, hsafe⟩, ⟨hfair, -⟩, ⟨-, -, hlossless⟩, -, hcrowd⟩ :=
    gate_safe_fair_lossless "nested" 0 m hreachable hdistinct _ hturnstile
  rw [hsubmitted] at hfair hlossless
  exact ⟨⟨m, hreachable, hsubmitted, hsafe, hfair, hlossless hrest⟩, hcrowd⟩

end Beacon
