import Mathlib
import Beacon.Events.Bus

set_option autoImplicit false

/-! # Nothing is lost uncounted

Those who listen to a bus are its audience. Each of them receives one thing at a time: the next event
that is retained for him, or, if he has fallen behind what is retained, how many he has missed
(`Subscription.take?`). Between two receptions anybody may subscribe, publish, receive or leave
(`Audience.Step`), so that a receiver may be overtaken in the middle of a run of events that he has
not asked for. A reception that nobody interrupts until there is an answer is
`Subscription.receive` (`Audience.exists_receive`).

What a listener has been given, has passed over, has been told to have missed, and is still to come
add up to what has been published since he subscribed (`Listener.Sound.count`): whoever is not behind
what is retained, as nobody is right after a reception, finds the rest retained for him
(`no_event_lost`). -/

namespace Beacon

/-! ## Receptions -/

/-- What a listener is told at a time. -/
inductive Reception where
  /-- So many events are no longer retained for him. -/
  | missed (count : Nat)
  | event (e : ChainEvent)
  deriving DecidableEq

namespace Subscription

/-- The next reception, unless there is nothing to receive. -/
def take? (s : Subscription) (b : EventBus) : Option (Reception × Subscription) :=
  if s.next < b.oldest then some (.missed (b.oldest - s.next), s.catchUp b)
  else (s.pending b).head?.map fun e => (.event e, { s with next := s.next + 1 })

variable {s s' : Subscription} {b : EventBus} {r : Reception} {e : ChainEvent}

theorem catchUp_of_lt (h : s.next < b.oldest) : s.catchUp b =
    { s with next := b.oldest, lagged := Word.addSat s.lagged (b.oldest - s.next) } :=
  if_pos h

theorem catchUp_of_le (h : b.oldest ≤ s.next) : s.catchUp b = s := if_neg (Nat.not_lt.2 h)

theorem oldest_le_catchUp (s : Subscription) (b : EventBus) : b.oldest ≤ (s.catchUp b).next := by
  by_cases h : s.next < b.oldest
  · rw [catchUp_of_lt h]
  · rw [catchUp_of_le (Nat.not_lt.1 h)]
    exact Nat.not_lt.1 h

/-- A reception either catches up or takes the first of the events that are retained. -/
theorem take?_cases (h : s.take? b = some (r, s')) :
    (s.next < b.oldest ∧ r = .missed (b.oldest - s.next) ∧ s' = s.catchUp b) ∨
    ∃ e es, b.oldest ≤ s.next ∧ s.pending b = e :: es ∧ r = .event e ∧
      s' = { s with next := s.next + 1 } := by
  unfold take? at h
  split at h
  · next hlt =>
      obtain ⟨rfl, rfl⟩ := Prod.mk.inj (Option.some.inj h)
      exact Or.inl ⟨hlt, rfl, rfl⟩
  · next hle =>
      obtain ⟨e, hhead, heq⟩ := Option.map_eq_some_iff.1 h
      obtain ⟨rfl, rfl⟩ := Prod.mk.inj heq
      obtain ⟨es, hpending⟩ := List.head?_eq_some_iff.1 hhead
      exact Or.inr ⟨e, es, Nat.not_lt.1 hle, hpending, rfl, rfl⟩

theorem take?_of_lt (h : s.next < b.oldest) :
    s.take? b = some (.missed (b.oldest - s.next), s.catchUp b) :=
  if_pos h

theorem take?_of_pending {es : List ChainEvent} (hle : b.oldest ≤ s.next)
    (hpending : s.pending b = e :: es) :
    s.take? b = some (.event e, { s with next := s.next + 1 }) := by
  unfold take?
  rw [if_neg (Nat.not_lt.2 hle), hpending]
  rfl

/-- Who takes an event finds the others after it. -/
theorem pending_succ {es : List ChainEvent} (hle : b.oldest ≤ s.next)
    (hpending : s.pending b = e :: es) :
    ({ s with next := s.next + 1 } : Subscription).pending b = es := by
  have htail : (s.pending b).tail = es := by rw [hpending, List.tail_cons]
  rw [← htail, pending, pending, List.tail_drop, Nat.sub_add_comm hle]

end Subscription

/-! ## Those who listen -/

/-- A subscription with what has become of it. -/
structure Listener where
  subscription : Subscription
  /-- What has been published since he subscribed. -/
  sent : List ChainEvent := []
  /-- What he has been given. -/
  returned : List ChainEvent := []
  /-- What he has received without having asked for it. -/
  ignored : List ChainEvent := []
  /-- How many events he has been told to have missed. -/
  skipped : Nat := 0
  /-- How many events have ever been ahead of him at most. -/
  furthest : Nat := 0

namespace Listener

/-- An event has been published. -/
def offer (l : Listener) (b : EventBus) (e : ChainEvent) : Listener :=
  { l with
    sent := l.sent ++ [e]
    furthest := max l.furthest (b.next - l.subscription.next) }

/-- Receive something, and be left with a subscription. -/
def hear (l : Listener) (s : Subscription) : Reception → Listener
  | .missed count => { l with subscription := s, skipped := l.skipped + count }
  | .event e =>
    if s.filter.accepts e then { l with subscription := s, returned := l.returned ++ [e] }
    else { l with subscription := s, ignored := l.ignored ++ [e] }

@[simp] theorem subscription_hear (l : Listener) (s : Subscription) (r : Reception) :
    (l.hear s r).subscription = s := by
  cases r with
  | missed count => rfl
  | event e =>
      simp only [hear]
      split <;> rfl

end Listener

/-- A bus with those who listen to it. -/
structure Audience where
  bus : EventBus
  listeners : List Listener := []

/-- Something that happens at a bus. -/
inductive BusEvent where
  | subscribed
  | published (e : ChainEvent)
  /-- The listener at a place receives something. -/
  | received (place : Nat) (r : Reception)
  | left (place : Nat)

namespace Audience

/-- What may happen next. -/
inductive Step : Audience → BusEvent → Audience → Prop where
  | subscribe (x : Audience) (filter : EventFilter) :
      Step x .subscribed
        { bus := (x.bus.subscribe filter).1
          listeners := x.listeners ++ [{ subscription := (x.bus.subscribe filter).2 }] }
  | publish (x : Audience) (e : ChainEvent) :
      Step x (.published e)
        { bus := x.bus.publish e, listeners := x.listeners.map (·.offer (x.bus.publish e) e) }
  | receive {x : Audience} {place : Nat} {l : Listener} {r : Reception} {s : Subscription}
      (hl : x.listeners[place]? = some l) (htake : l.subscription.take? x.bus = some (r, s)) :
      Step x (.received place r) { x with listeners := x.listeners.set place (l.hear s r) }
  | leave {x : Audience} {place : Nat} (hplace : place < x.listeners.length) :
      Step x (.left place)
        { bus := x.bus.unsubscribe, listeners := x.listeners.eraseIdx place }

/-- What may become of an audience. -/
def Reaches : Audience → Audience → Prop := Relation.ReflTransGen fun x y => ∃ h, Step x h y

end Audience

/-! ## The books of a listener -/

variable {numbered : List ChainEvent} {capacity : Nat}

/-- Of all events that have been numbered: those who listen are owed the last of them, and what has
    become of these is in the books. -/
structure Listener.Sound (numbered : List ChainEvent) (capacity : Nat) (l : Listener) : Prop where
  next_le : l.subscription.next ≤ numbered.length
  sent : l.sent <:+ numbered
  count : l.returned.length + l.ignored.length + l.skipped
    + (numbered.length - l.subscription.next) = l.sent.length
  /-- What is given is taken from what lies behind him. -/
  returned : l.returned.Sublist
    (l.sent.take (l.sent.length - (numbered.length - l.subscription.next)))
  accepted : ∀ e ∈ l.returned, l.subscription.filter.accepts e = true
  lagged : l.subscription.lagged = min l.skipped Word.max
  ahead_le : numbered.length - l.subscription.next ≤ l.furthest
  missed : l.skipped = 0 ∨ capacity < l.furthest

/-- The bus retains the last of the numbered events, as many as it has room for. -/
structure Audience.Sound (x : Audience) (numbered : List ChainEvent) : Prop where
  next : x.bus.next = numbered.length
  retained : x.bus.retained = numbered.drop (numbered.length - x.bus.capacity)
  subscribers : x.bus.subscribers = x.listeners.length
  listeners : ∀ l ∈ x.listeners, l.Sound numbered x.bus.capacity

namespace Listener.Sound

variable {l : Listener} {s : Subscription} {e : ChainEvent}

/-- What is still to come is the end of what has been sent. -/
theorem drop_sent (h : l.Sound numbered capacity) :
    l.sent.drop (l.sent.length - (numbered.length - l.subscription.next))
      = numbered.drop l.subscription.next := by
  obtain ⟨before, hbefore⟩ := h.sent
  have hlength : numbered.length = before.length + l.sent.length := by
    rw [← hbefore, List.length_append]
  have hcount := h.count
  have hnext := h.next_le
  have hplace : l.sent.length - (numbered.length - l.subscription.next)
      = l.subscription.next - before.length := by omega
  have hbehind : before.drop l.subscription.next = [] := List.drop_of_length_le (by omega)
  rw [hplace, ← hbefore, List.drop_append, hbehind, List.nil_append]

/-- Somebody subscribes. -/
theorem subscribed (filter : EventFilter) :
    ({ subscription := { filter, next := numbered.length } } : Listener).Sound numbered capacity where
  next_le := le_rfl
  sent := List.nil_suffix
  count := by simp
  returned := List.nil_sublist _
  accepted e he := by cases he
  lagged := rfl
  ahead_le := by simp
  missed := Or.inl rfl

/-- An event is published. -/
theorem offer (h : l.Sound numbered capacity) {b : EventBus} (hb : b.next = numbered.length + 1)
    (e : ChainEvent) : (l.offer b e).Sound (numbered ++ [e]) capacity := by
  have hcount := h.count
  have hnext := h.next_le
  have hlength : (numbered ++ [e]).length = numbered.length + 1 := by simp
  refine ⟨?_, ?_, ?_, ?_, h.accepted, h.lagged, ?_, ?_⟩
  · rw [hlength]
    exact Nat.le_succ_of_le hnext
  · obtain ⟨before, hbefore⟩ := h.sent
    exact ⟨before, by rw [Listener.offer, ← List.append_assoc, hbefore]⟩
  · simp only [Listener.offer, List.length_append, List.length_singleton]
    omega
  · have hplace : (l.sent ++ [e]).length - (numbered.length + 1 - l.subscription.next)
        = l.sent.length - (numbered.length - l.subscription.next) := by
      simp only [List.length_append, List.length_singleton]
      omega
    rw [hlength]
    simp only [Listener.offer, hplace]
    rw [List.take_append_of_le_length (Nat.sub_le ..)]
    exact h.returned
  · rw [hlength, ← hb]
    exact le_max_right ..
  · exact h.missed.imp id fun hlt => lt_max_of_lt_left hlt

/-- He is told what he has missed. -/
theorem hear_missed (h : l.Sound numbered capacity) {b : EventBus}
    (hb : b.oldest = numbered.length - capacity) (hlt : l.subscription.next < b.oldest) :
    (l.hear (l.subscription.catchUp b) (.missed (b.oldest - l.subscription.next))).Sound numbered
      capacity := by
  have hcount := h.count
  have hahead := h.ahead_le
  rw [Subscription.catchUp_of_lt hlt, Listener.hear]
  refine ⟨?_, h.sent, ?_, ?_, h.accepted, ?_, ?_, Or.inr ?_⟩
  · simp only [hb]
    exact Nat.sub_le ..
  · simp only
    omega
  · have hmore : l.sent.length - (numbered.length - l.subscription.next)
        ≤ l.sent.length - (numbered.length - b.oldest) := by omega
    exact h.returned.trans (List.take_sublist_take_left hmore)
  · simp only [h.lagged, Word.addSat]
    omega
  · simp only
    omega
  · simp only
    omega

/-- He receives an event. -/
theorem hear_event (h : l.Sound numbered capacity) {es : List ChainEvent}
    (hcome : numbered.drop l.subscription.next = e :: es) :
    (l.hear { l.subscription with next := l.subscription.next + 1 } (.event e)).Sound numbered
      capacity := by
  have hcount := h.count
  have hahead := h.ahead_le
  have hlt : l.subscription.next < numbered.length := by
    by_contra hge
    rw [List.drop_of_length_le (Nat.not_lt.1 hge)] at hcome
    cases hcome
  -- The event stands right behind what he has gone through.
  have htake : l.sent.take (l.sent.length - (numbered.length - (l.subscription.next + 1)))
      = l.sent.take (l.sent.length - (numbered.length - l.subscription.next)) ++ [e] := by
    have hplace : l.sent.length - (numbered.length - (l.subscription.next + 1))
        = l.sent.length - (numbered.length - l.subscription.next) + 1 := by omega
    rw [hplace, List.take_add_one, ← List.head?_drop, h.drop_sent, hcome]
    rfl
  by_cases haccepts : l.subscription.filter.accepts e = true
  · rw [Listener.hear, if_pos haccepts]
    refine ⟨hlt, h.sent, ?_, ?_, ?_, h.lagged, ?_, h.missed⟩
    · simp only [List.length_append, List.length_singleton]
      omega
    · rw [htake]
      exact h.returned.append_right _
    · intro a ha
      rcases List.mem_append.1 ha with ha | ha
      · exact h.accepted a ha
      · exact List.mem_singleton.1 ha ▸ haccepts
    · simp only
      omega
  · rw [Listener.hear, if_neg haccepts]
    refine ⟨hlt, h.sent, ?_, ?_, h.accepted, h.lagged, ?_, h.missed⟩
    · simp only [List.length_append, List.length_singleton]
      omega
    · rw [htake]
      exact h.returned.trans (List.sublist_append_left ..)
    · simp only
      omega

end Listener.Sound

/-! ## The books of an audience -/

namespace Audience

variable {x y : Audience} {happening : BusEvent}

namespace Sound

theorem length_retained (h : x.Sound numbered) :
    x.bus.retained.length = min x.bus.capacity numbered.length := by
  rw [h.retained, List.length_drop]
  omega

theorem oldest (h : x.Sound numbered) : x.bus.oldest = numbered.length - x.bus.capacity := by
  rw [EventBus.oldest, h.length_retained, h.next]
  omega

/-- What is retained for a subscription that is not behind. -/
theorem pending (h : x.Sound numbered) {s : Subscription} (hle : x.bus.oldest ≤ s.next) :
    s.pending x.bus = numbered.drop s.next := by
  rw [h.oldest] at hle
  rw [Subscription.pending, h.oldest, h.retained, List.drop_drop, Nat.add_sub_cancel' hle]

theorem subscribe (h : x.Sound numbered) (filter : EventFilter) :
    ({ bus := (x.bus.subscribe filter).1
       listeners := x.listeners ++ [{ subscription := (x.bus.subscribe filter).2 }] } :
      Audience).Sound numbered where
  next := h.next
  retained := h.retained
  subscribers := by
    rw [List.length_append, List.length_singleton, ← h.subscribers]
    rfl
  listeners l hl := by
    rcases List.mem_append.1 hl with hl | hl
    · exact h.listeners l hl
    · rw [List.mem_singleton.1 hl, EventBus.subscribe, h.next]
      exact .subscribed filter

/-- Without listeners an event is not numbered. -/
theorem publish (h : x.Sound numbered) (e : ChainEvent) :
    ∃ numbered', ({ bus := x.bus.publish e
                    listeners := x.listeners.map (·.offer (x.bus.publish e) e) } :
      Audience).Sound numbered' := by
  by_cases hnone : x.bus.subscribers = 0
  · have hempty : x.listeners = [] := List.eq_nil_of_length_eq_zero (h.subscribers ▸ hnone)
    refine ⟨numbered, ?_, ?_, ?_, ?_⟩
    · rw [EventBus.publish, if_pos hnone]
      exact h.next
    · rw [EventBus.publish, if_pos hnone]
      exact h.retained
    · rw [EventBus.publish, if_pos hnone, List.length_map]
      exact h.subscribers
    · rw [hempty]
      intro l hl
      cases hl
  · have hcapacity : (x.bus.publish e).capacity = x.bus.capacity := by
      rw [EventBus.publish, if_neg hnone]
    have hnext : (x.bus.publish e).next = numbered.length + 1 := by
      rw [EventBus.publish, if_neg hnone, ← h.next]
    refine ⟨numbered ++ [e], ?_, ?_, ?_, ?_⟩
    · rw [hnext, List.length_append, List.length_singleton]
    · have hretained : (x.bus.publish e).retained = (x.bus.retained ++ [e]).drop
          ((x.bus.retained ++ [e]).length - x.bus.capacity) := by
        rw [EventBus.publish, if_neg hnone]
      have hplace : numbered.length - x.bus.capacity
          + (min x.bus.capacity numbered.length + 1 - x.bus.capacity)
            = numbered.length + 1 - x.bus.capacity := by omega
      rw [hretained, hcapacity, List.length_append, List.length_append, List.length_singleton,
        h.length_retained, h.retained, ← List.drop_append_of_le_length (Nat.sub_le ..),
        List.drop_drop, hplace]
    · rw [EventBus.publish, if_neg hnone, List.length_map]
      exact h.subscribers
    · intro l hl
      obtain ⟨l, hmem, rfl⟩ := List.mem_map.1 hl
      rw [hcapacity]
      exact (h.listeners l hmem).offer hnext e

theorem receive (h : x.Sound numbered) {place : Nat} {l : Listener} {r : Reception}
    {s : Subscription} (hl : x.listeners[place]? = some l)
    (htake : l.subscription.take? x.bus = some (r, s)) :
    ({ x with listeners := x.listeners.set place (l.hear s r) } : Audience).Sound numbered where
  next := h.next
  retained := h.retained
  subscribers := by
    rw [List.length_set]
    exact h.subscribers
  listeners a ha := by
    have hsound := h.listeners l (List.mem_of_getElem? hl)
    rcases List.mem_or_eq_of_mem_set ha with ha | rfl
    · exact h.listeners a ha
    · rcases Subscription.take?_cases htake with ⟨hlt, rfl, rfl⟩ | ⟨e, es, hle, hpending, rfl, rfl⟩
      · exact hsound.hear_missed h.oldest hlt
      · exact hsound.hear_event (h.pending hle ▸ hpending)

theorem leave (h : x.Sound numbered) {place : Nat} (hplace : place < x.listeners.length) :
    ({ bus := x.bus.unsubscribe, listeners := x.listeners.eraseIdx place } :
      Audience).Sound numbered where
  next := h.next
  retained := h.retained
  subscribers := by
    rw [List.length_eraseIdx_of_lt hplace, ← h.subscribers]
    rfl
  listeners l hl := h.listeners l (List.eraseIdx_subset hl)

/-- Whatever happens, the books stay right. -/
theorem step (h : x.Sound numbered) (hstep : Step x happening y) :
    ∃ numbered', y.Sound numbered' := by
  cases hstep with
  | subscribe filter => exact ⟨numbered, h.subscribe filter⟩
  | publish e => exact h.publish e
  | receive hl htake => exact ⟨numbered, h.receive hl htake⟩
  | leave hplace => exact ⟨numbered, h.leave hplace⟩

theorem reaches (h : x.Sound numbered) (hreach : Reaches x y) : ∃ numbered', y.Sound numbered' := by
  induction hreach with
  | refl => exact ⟨numbered, h⟩
  | tail _ hstep ih =>
      obtain ⟨numbered', hsound⟩ := ih
      obtain ⟨happening, hstep⟩ := hstep
      exact hsound.step hstep

end Sound

theorem capacity_step (hstep : Step x happening y) : y.bus.capacity = x.bus.capacity := by
  cases hstep with
  | subscribe filter => rfl
  | publish e =>
      unfold EventBus.publish
      split <;> rfl
  | receive hl htake => rfl
  | leave hplace => rfl

theorem capacity_reaches (hreach : Reaches x y) : y.bus.capacity = x.bus.capacity := by
  induction hreach with
  | refl => rfl
  | tail _ hstep ih =>
      obtain ⟨happening, hstep⟩ := hstep
      exact (capacity_step hstep).trans ih

/-- Right after a reception nobody is behind what is retained. -/
theorem Step.oldest_le {place : Nat} {r : Reception} {l : Listener}
    (hstep : Step x (.received place r) y) (hl : y.listeners[place]? = some l) :
    y.bus.oldest ≤ l.subscription.next := by
  cases hstep with
  | receive hbefore htake =>
      have hplace := (List.getElem?_eq_some_iff.1 hbefore).1
      rw [List.getElem?_set_self hplace] at hl
      obtain rfl := Option.some.inj hl
      rw [Listener.subscription_hear]
      rcases Subscription.take?_cases htake with ⟨-, -, rfl⟩ | ⟨e, es, hle, -, -, rfl⟩
      · exact Subscription.oldest_le_catchUp ..
      · exact Nat.le_succ_of_le hle

/-! ## A reception that nobody interrupts -/

/-- Who is not behind takes one event after the other, up to the first that he has asked for. -/
theorem exists_receive_pending {es : List ChainEvent} :
    ∀ {x : Audience} {place : Nat} {l : Listener}, x.listeners[place]? = some l →
      x.bus.oldest ≤ l.subscription.next → l.subscription.pending x.bus = es →
      ∃ l', Reaches x { x with listeners := x.listeners.set place l' } ∧
        l'.subscription = { l.subscription with next := l.subscription.next
          + (Subscription.firstAccepted l.subscription.filter es).2 } ∧
        l'.returned
          = l.returned ++ (Subscription.firstAccepted l.subscription.filter es).1.toList := by
  induction es with
  | nil =>
      intro x place l hl hle hpending
      refine ⟨l, ?_, rfl, (List.append_nil _).symm⟩
      obtain ⟨hplace, rfl⟩ := List.getElem?_eq_some_iff.1 hl
      rw [List.set_getElem_self]
      exact .refl
  | cons e es ih =>
      intro x place l hl hle hpending
      have hstep := Step.receive hl (Subscription.take?_of_pending hle hpending)
      have hplace : place < x.listeners.length := (List.getElem?_eq_some_iff.1 hl).1
      by_cases haccepts : l.subscription.filter.accepts e = true
      · refine ⟨_, .single ⟨_, hstep⟩, ?_, ?_⟩
        · simp only [Listener.hear, Subscription.firstAccepted, if_pos haccepts]
        · simp only [Listener.hear, Subscription.firstAccepted, if_pos haccepts,
            Option.toList_some]
      · -- The event is passed over, and the rest is received from there.
        rw [Listener.hear, if_neg haccepts] at hstep
        let passed : Listener :=
          { l with
            subscription := { l.subscription with next := l.subscription.next + 1 }
            ignored := l.ignored ++ [e] }
        have hpassed : (x.listeners.set place passed)[place]? = some passed :=
          List.getElem?_set_self hplace
        obtain ⟨l', hreach, hsubscription, hreturned⟩ :=
          ih (x := { x with listeners := x.listeners.set place passed }) hpassed
            (Nat.le_succ_of_le hle) (Subscription.pending_succ hle hpending)
        rw [List.set_set] at hreach
        refine ⟨l', .head ⟨_, hstep⟩ hreach, ?_, ?_⟩
        · rw [hsubscription]
          simp only [Subscription.firstAccepted, if_neg haccepts]
          rw [Nat.add_assoc, Nat.add_comm 1]
        · rw [hreturned]
          simp only [Subscription.firstAccepted, if_neg haccepts]
          rfl

/-- A listener may receive as `Subscription.receive` says, if nobody interrupts him. -/
theorem exists_receive {place : Nat} {l : Listener} (hl : x.listeners[place]? = some l) :
    ∃ l', Reaches x { x with listeners := x.listeners.set place l' } ∧
      l'.subscription = (l.subscription.receive x.bus).2 ∧
      l'.returned = l.returned ++ (l.subscription.receive x.bus).1.toList := by
  have hplace : place < x.listeners.length := (List.getElem?_eq_some_iff.1 hl).1
  by_cases hlt : l.subscription.next < x.bus.oldest
  · have hstep := Step.receive hl (Subscription.take?_of_lt hlt)
    let caughtUp : Listener :=
      { l with
        subscription := l.subscription.catchUp x.bus
        skipped := l.skipped + (x.bus.oldest - l.subscription.next) }
    have hcaughtUp : (x.listeners.set place caughtUp)[place]? = some caughtUp :=
      List.getElem?_set_self hplace
    obtain ⟨l', hreach, hsubscription, hreturned⟩ :=
      exists_receive_pending (x := { x with listeners := x.listeners.set place caughtUp })
        hcaughtUp (l.subscription.oldest_le_catchUp x.bus) rfl
    rw [List.set_set] at hreach
    exact ⟨l', .head ⟨_, hstep⟩ hreach, hsubscription, hreturned⟩
  · have hle := Nat.not_lt.1 hlt
    obtain ⟨l', hreach, hsubscription, hreturned⟩ := exists_receive_pending hl hle rfl
    refine ⟨l', hreach, ?_, ?_⟩
    · rw [hsubscription, Subscription.receive, Subscription.catchUp_of_le hle]
    · rw [hreturned, Subscription.receive, Subscription.catchUp_of_le hle]

end Audience

/-! ## The theorem -/

theorem le_nextPowerOfTwo (n : Nat) : n ≤ nextPowerOfTwo n := by
  unfold nextPowerOfTwo
  split
  · assumption
  · have hlt : n - 1 < 2 ^ (Nat.log2 (n - 1) + 1) := Nat.lt_log2_self
    exact Nat.le_of_pred_lt hlt

theorem EventBus.create_eq_ok {capacity : Nat} {b : EventBus}
    (h : EventBus.create capacity = .ok b) : b = { capacity := nextPowerOfTwo capacity } := by
  unfold EventBus.create at h
  split at h
  · exact (Except.ok.inj h).symm
  · cases h

theorem Audience.sound_create {b : EventBus} (h : EventBus.create capacity = .ok b) :
    ({ bus := b } : Audience).Sound [] := by
  rw [EventBus.create_eq_ok h]
  refine ⟨rfl, List.drop_nil.symm, rfl, ?_⟩
  intro l hl
  cases hl

/-- **No event is lost uncounted.** On every bus, whatever has happened: what a listener has been
    given is what he has asked for, and stands in this order, each event once, among those that have
    been published since he subscribed. Right after a reception, what he has been given, what he has
    passed over, what he has missed and what is retained for him are as many as have been published
    since he subscribed, where he counts what he has missed as far as a word goes. He has missed
    nothing unless more events than the bus was made for have been ahead of him. And a reception that
    nobody interrupts is `Subscription.receive`. -/
theorem no_event_lost {b : EventBus} (hcreate : EventBus.create capacity = .ok b) {x : Audience}
    (hreach : Audience.Reaches { bus := b } x) {place : Nat} {l : Listener}
    (hl : x.listeners[place]? = some l) :
    (∀ e ∈ l.returned, l.subscription.filter.accepts e = true) ∧
    l.returned.Sublist l.sent ∧
    (∀ w r, Audience.Reaches { bus := b } w → Audience.Step w (.received place r) x →
      l.returned.length + l.ignored.length + l.skipped + (l.subscription.pending x.bus).length
        = l.sent.length ∧
      l.subscription.lagged = min l.skipped Word.max ∧
      (l.sent.length < Word.limit →
        l.returned.length + l.ignored.length + l.subscription.lagged
          + (l.subscription.pending x.bus).length = l.sent.length)) ∧
    (l.furthest ≤ capacity → l.subscription.lagged = 0) ∧
    ∃ l', Audience.Reaches x { x with listeners := x.listeners.set place l' } ∧
      l'.subscription = (l.subscription.receive x.bus).2 ∧
      l'.returned = l.returned ++ (l.subscription.receive x.bus).1.toList := by
  obtain ⟨numbered, hsound⟩ := (Audience.sound_create hcreate).reaches hreach
  have hbooks := hsound.listeners l (List.mem_of_getElem? hl)
  refine ⟨hbooks.accepted, hbooks.returned.trans (List.take_sublist ..), ?_, ?_,
    Audience.exists_receive hl⟩
  · intro w r hbefore hstep
    have hnot : x.bus.oldest ≤ l.subscription.next := hstep.oldest_le hl
    have hrest : (l.subscription.pending x.bus).length
        = numbered.length - l.subscription.next := by
      rw [hsound.pending hnot, List.length_drop]
    have hcount := hbooks.count
    have hlagged := hbooks.lagged
    refine ⟨by omega, hlagged, fun hword => ?_⟩
    have hexact : l.subscription.lagged = l.skipped := by
      rw [hlagged, Nat.min_eq_left]
      unfold Word.max
      omega
    omega
  · intro hwithin
    have hroom : capacity ≤ x.bus.capacity := by
      rw [Audience.capacity_reaches hreach, EventBus.create_eq_ok hcreate]
      exact le_nextPowerOfTwo capacity
    have hnone : l.skipped = 0 := hbooks.missed.resolve_right (by omega)
    rw [hbooks.lagged, hnone]
    rfl

/-- A bus for two events, with a listener to the clock who has received nothing yet. -/
def Audience.overtaken : Audience where
  bus :=
    { capacity := 2
      published := 4
      next := 4
      retained := [.checkpointFinalized {}, .slotStarted 3]
      subscribers := 1 }
  listeners :=
    [{ subscription := { filter := { topics := [.clock] }, next := 0 }
       sent := [.slotStarted 1, .slotStarted 2, .checkpointFinalized {}, .slotStarted 3]
       furthest := 4 }]

theorem Audience.reaches_overtaken : Audience.Reaches { bus := { capacity := 2 } } .overtaken := by
  have hsubscribe := Step.subscribe { bus := { capacity := 2 } } { topics := [.clock] }
  have hsent : Reaches { bus := { capacity := 2 } } _ := .single ⟨_, hsubscribe⟩
  have hsent := hsent.tail ⟨_, .publish _ (.slotStarted 1)⟩
  have hsent := hsent.tail ⟨_, .publish _ (.slotStarted 2)⟩
  have hsent := hsent.tail ⟨_, .publish _ (.checkpointFinalized {})⟩
  exact hsent.tail ⟨_, .publish _ (.slotStarted 3)⟩

/-- The listener has missed two slots, passes over a checkpoint and is given the third slot. -/
theorem no_event_lost_overtaken :
    ∃ b w x l, EventBus.create 2 = .ok b ∧ Audience.Reaches { bus := b } w ∧
      Audience.Step w (.received 0 (.event (.slotStarted 3))) x ∧ x.listeners[0]? = some l ∧
      l.returned = [.slotStarted 3] ∧ l.ignored = [.checkpointFinalized {}] ∧
      l.subscription.lagged = 2 ∧ l.sent.length < Word.limit ∧
      l.returned.length + l.ignored.length + l.subscription.lagged
        + (l.subscription.pending x.bus).length = l.sent.length := by
  have hcreate : EventBus.create 2 = .ok { capacity := 2 } := rfl
  have hmissed := Audience.reaches_overtaken.tail ⟨.received 0 (.missed 2), .receive rfl rfl⟩
  have hbefore := hmissed.tail ⟨.received 0 (.event (.checkpointFinalized {})), .receive rfl rfl⟩
  have hafter := hbefore.tail ⟨.received 0 (.event (.slotStarted 3)), .receive rfl rfl⟩
  refine ⟨_, _, _, _, hcreate, hbefore, .receive rfl rfl, rfl, rfl, rfl, rfl, by decide, ?_⟩
  exact ((no_event_lost hcreate hafter rfl).2.2.1 _ _ hbefore (.receive rfl rfl)).2.2 (by decide)

end Beacon
