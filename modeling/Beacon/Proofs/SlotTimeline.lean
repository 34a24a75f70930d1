import Mathlib
import Beacon.Clock
import Beacon.Proofs.Attempts

set_option autoImplicit false

/-! # A faithful timeline

A running clock waits for the next slot, and hears signals while it waits (`ClockRun.Step`). Whatever
it hears, each slot is announced when it starts, one after the other, and each epoch right before its
first announced slot: `ClockRun.Faithful` says so of what has been announced so far, and is kept by
every step. A signal not to stop leaves no trace, so that a run announces what the undisturbed
`RunningClock.timeline` does (`ClockRun.Reaches.timeline`), and goes on for as long as there are slots
that can be waited for (`ClockRun.exists_announced`). -/

namespace Beacon

/-- The slot that an event says has started. -/
def ChainEvent.startedSlot? : ChainEvent → Option Slot
  | .slotStarted slot => some slot
  | _ => none

theorem ChainEvent.mem_startedSlot {events : List ChainEvent} {slot : Slot} :
    slot ∈ events.filterMap startedSlot? ↔ .slotStarted slot ∈ events := by
  simp only [List.mem_filterMap]
  constructor
  · rintro ⟨e, he, hslot⟩
    cases e with
    | slotStarted s =>
        obtain rfl := Option.some.inj hslot
        exact he
    | epochStarted epoch => cases hslot
    | blockImported s root proposer => cases hslot
    | checkpointFinalized checkpoint => cases hslot
  · exact fun he => ⟨_, he, rfl⟩

/-! ## Slots and their starts -/

namespace SlotClock

variable {c : SlotClock} {slot slot' : Slot} {time : Nat}

/-- The slot that is announced first. -/
def firstSlot (c : SlotClock) (now : Nat) : Slot := (c.slotAt? now).getD 0

theorem create_secondsPerSlot_pos (genesisTime secondsPerSlot slotsPerEpoch : Nat) :
    0 < (create genesisTime secondsPerSlot slotsPerEpoch).secondsPerSlot :=
  Nat.lt_of_lt_of_le Nat.zero_lt_one (le_max_right ..)

/-- Where no time saturates, a slot starts after as many slots as its number says. -/
theorem slotStart_eq (h : c.genesisTime + slot * c.secondsPerSlot < Word.limit) :
    c.slotStart slot = c.genesisTime + slot * c.secondsPerSlot := by
  unfold slotStart Word.addSat Word.mulSat Word.max
  omega

theorem slotStart_mono (h : slot ≤ slot') : c.slotStart slot ≤ c.slotStart slot' := by
  have hmul : slot * c.secondsPerSlot ≤ slot' * c.secondsPerSlot := Nat.mul_le_mul_right _ h
  unfold slotStart Word.addSat Word.mulSat
  lia

theorem epochOf_mono (h : slot ≤ slot') : c.epochOf slot ≤ c.epochOf slot' := Nat.div_le_div_right h

/-- A slot is in progress from its start up to the start of the next one. -/
theorem slotAt?_eq_some_iff (hpos : 0 < c.secondsPerSlot)
    (hexact : c.genesisTime + (slot + 1) * c.secondsPerSlot < Word.limit) :
    c.slotAt? time = some slot ↔ c.slotStart slot ≤ time ∧ time < c.slotStart (slot + 1) := by
  have hstep : (slot + 1) * c.secondsPerSlot = slot * c.secondsPerSlot + c.secondsPerSlot :=
    Nat.succ_mul ..
  rw [slotStart_eq (by lia), slotStart_eq hexact]
  unfold slotAt?
  by_cases hbefore : time < c.genesisTime
  · rw [if_pos hbefore]
    constructor
    · intro h
      cases h
    · intro h
      omega
  · rw [if_neg hbefore, Option.some_inj, Nat.div_eq_iff hpos]
    lia

end SlotClock

/-! ## Runs -/

/-- Something that happens to a running clock. -/
inductive ClockEvent where
  | due
  | heard (time : Nat) (signal : StopSignal)

namespace ClockRun

/-- What may happen next: the wait for the next slot ends, or something is heard before. A clock that
    cannot wait for its next slot has broken down. -/
inductive Step : ClockRun → ClockEvent → ClockRun → Prop where
  | due {x : ClockRun} (hrunning : x.running = true) (hwait : x.clock.wait < SlotClock.horizon) :
      Step x .due x.announce
  | hear {x : ClockRun} {time : Nat} {signal : StopSignal} (hrunning : x.running = true)
      (hwait : x.clock.wait < SlotClock.horizon) (hfrom : x.time ≤ time)
      (hupTo : time ≤ max x.time x.clock.due) : Step x (.heard time signal) (x.hear time signal)

/-- What may become of a run. -/
def Reaches : ClockRun → ClockRun → Prop := Relation.ReflTransGen fun x y => ∃ h, Step x h y

/-- The announced events. -/
def events (x : ClockRun) : List ChainEvent := x.announced.map (·.2)

/-- The announced slots. -/
def slots (x : ClockRun) : List Slot := x.events.filterMap ChainEvent.startedSlot?

end ClockRun

/-! ## Epochs among slots -/

/-- Each epoch of a slot is announced once, right before its first slot, and no other epoch is. -/
structure EpochsAnnounced (c : SlotClock) (events : List ChainEvent) : Prop where
  once : ∀ epoch, events.count (.epochStarted epoch) ≤ 1
  iff : ∀ epoch, .epochStarted epoch ∈ events ↔
    ∃ slot, .slotStarted slot ∈ events ∧ c.epochOf slot = epoch
  first : ∀ i epoch, events[i]? = some (.epochStarted epoch) →
    ∃ slot, events[i + 1]? = some (.slotStarted slot) ∧ c.epochOf slot = epoch ∧
      ∀ j earlier, j < i → events[j]? = some (.slotStarted earlier) → c.epochOf earlier < epoch

namespace EpochsAnnounced

variable {c : SlotClock} {events : List ChainEvent} {slot : Slot}

theorem nil (c : SlotClock) : EpochsAnnounced c [] := by
  refine ⟨?_, ?_, ?_⟩
  · intro epoch
    simp
  · intro epoch
    simp
  · intro i epoch h
    simp at h

/-- What is announced stays in its place. -/
theorem first_append (h : EpochsAnnounced c events) (more : List ChainEvent) {i : Nat}
    {epoch : Epoch} (hi : i < events.length)
    (hget : (events ++ more)[i]? = some (.epochStarted epoch)) :
    ∃ slot, (events ++ more)[i + 1]? = some (.slotStarted slot) ∧ c.epochOf slot = epoch ∧
      ∀ j earlier, j < i → (events ++ more)[j]? = some (.slotStarted earlier) →
        c.epochOf earlier < epoch := by
  rw [List.getElem?_append_left hi] at hget
  obtain ⟨slot, hnext, hepoch, hearlier⟩ := h.first i epoch hget
  have hbound : i + 1 < events.length := (List.getElem?_eq_some_iff.1 hnext).1
  refine ⟨slot, ?_, hepoch, ?_⟩
  · rw [List.getElem?_append_left hbound]
    exact hnext
  · intro j earlier hj hslot
    rw [List.getElem?_append_left (hj.trans hi)] at hslot
    exact hearlier j earlier hj hslot

/-- Another slot of an epoch that has been announced. -/
theorem another (h : EpochsAnnounced c events)
    (hknown : ∃ known, .slotStarted known ∈ events ∧ c.epochOf known = c.epochOf slot) :
    EpochsAnnounced c (events ++ [.slotStarted slot]) := by
  refine ⟨?_, ?_, ?_⟩
  · intro epoch
    simpa using h.once epoch
  · intro epoch
    simp only [List.mem_append, List.mem_singleton, reduceCtorEq, or_false,
      ChainEvent.slotStarted.injEq]
    rw [h.iff]
    constructor
    · rintro ⟨known, hmem, hepoch⟩
      exact ⟨known, Or.inl hmem, hepoch⟩
    · rintro ⟨known, hmem | rfl, hepoch⟩
      · exact ⟨known, hmem, hepoch⟩
      · exact hepoch ▸ hknown
  · intro i epoch hget
    have hi : i < events.length := by
      have hbound := (List.getElem?_eq_some_iff.1 hget).1
      rw [List.length_append, List.length_singleton] at hbound
      refine (Nat.lt_succ_iff.1 hbound).lt_of_ne ?_
      rintro rfl
      simp at hget
    exact h.first_append _ hi hget

/-- The first slot of the next epoch, after the epoch itself. -/
theorem enter (h : EpochsAnnounced c events)
    (hlater : ∀ known, .slotStarted known ∈ events → c.epochOf known < c.epochOf slot) :
    EpochsAnnounced c (events ++ [.epochStarted (c.epochOf slot), .slotStarted slot]) := by
  have hnew : .epochStarted (c.epochOf slot) ∉ events := by
    rw [h.iff]
    rintro ⟨known, hmem, hepoch⟩
    exact absurd hepoch (hlater known hmem).ne
  refine ⟨?_, ?_, ?_⟩
  · intro epoch
    by_cases hsame : epoch = c.epochOf slot
    · subst hsame
      simp [List.count_eq_zero.2 hnew]
    · have hother : (ChainEvent.epochStarted (c.epochOf slot) == .epochStarted epoch) = false := by
        simpa using Ne.symm hsame
      simpa [List.count_cons, hother] using h.once epoch
  · intro epoch
    simp only [List.mem_append, List.mem_cons, List.not_mem_nil, or_false, reduceCtorEq, false_or,
      ChainEvent.slotStarted.injEq, ChainEvent.epochStarted.injEq]
    rw [h.iff]
    constructor
    · rintro (⟨known, hmem, hepoch⟩ | rfl)
      · exact ⟨known, Or.inl hmem, hepoch⟩
      · exact ⟨slot, Or.inr rfl, rfl⟩
    · rintro ⟨known, hmem | rfl, hepoch⟩
      · exact Or.inl ⟨known, hmem, hepoch⟩
      · exact Or.inr hepoch.symm
  · intro i epoch hget
    rcases Nat.lt_or_ge i events.length with hi | hi
    · exact h.first_append _ hi hget
    · -- Only the first of the two new events is an epoch.
      rw [List.getElem?_append_right hi] at hget
      obtain hplace | hplace : i - events.length = 0 ∨ i - events.length = 1 := by
        have hbound := (List.getElem?_eq_some_iff.1 hget).1
        simp only [List.length_cons, List.length_nil] at hbound
        omega
      · rw [hplace] at hget
        obtain rfl : c.epochOf slot = epoch := by simpa using hget
        obtain rfl : i = events.length := by omega
        refine ⟨slot, ?_, rfl, ?_⟩
        · simp
        · intro j earlier hj hslot
          rw [List.getElem?_append_left hj] at hslot
          exact hlater earlier (List.mem_of_getElem? hslot)
      · rw [hplace] at hget
        simp at hget

end EpochsAnnounced

/-! ## What a run has announced -/

namespace RunningClock

variable {r r' : RunningClock}

theorem advance_eq_ok (h : r.advance = .ok r') : r.next + 1 < Word.limit ∧ r' = { r with
    next := r.next + 1
    announced := if r.entersEpoch then some (r.clock.epochOf r.next) else r.announced } := by
  unfold advance at h
  rw [Attempt.bind_eq_ok] at h
  obtain ⟨next, hnext, h⟩ := h
  obtain ⟨rfl, hword⟩ := Word.add_eq_ok.1 hnext
  exact ⟨hword, (Attempt.pure_eq_ok.1 h).symm⟩

theorem exists_advance (h : r.next + 1 < Word.limit) : ∃ r', r.advance = .ok r' := by
  unfold advance
  rw [Word.add_eq_ok.2 ⟨rfl, h⟩]
  exact ⟨_, rfl⟩

theorem slotStarted_mem_events (r : RunningClock) : .slotStarted r.next ∈ r.events := by
  unfold events
  exact List.mem_append_right _ (List.mem_singleton_self _)

theorem mem_events {e : ChainEvent} (h : e ∈ r.events) :
    e = .slotStarted r.next ∨ e = .epochStarted (r.clock.epochOf r.next) := by
  unfold events at h
  rw [List.mem_append, List.mem_singleton] at h
  rcases h with h | h
  · split at h
    · exact Or.inr (List.mem_singleton.1 h)
    · cases h
  · exact Or.inl h

theorem startedSlot_events (r : RunningClock) :
    r.events.filterMap ChainEvent.startedSlot? = [r.next] := by
  unfold events
  split <;> rfl

end RunningClock

namespace ClockRun

variable {c : SlotClock} {now time : Nat} {x y : ClockRun} {happening : ClockEvent}
  {signal : StopSignal} {slot : Slot}

/-- What has been announced up to now: the slots from the first one on, each at its start, and their
    epochs. A clock that runs has not missed the start of the next slot. -/
structure Faithful (c : SlotClock) (now : Nat) (x : ClockRun) : Prop where
  clock : x.clock.clock = c
  startedAt : x.clock.startedAt = now
  slots : ∃ count, x.slots = List.range' (c.firstSlot now) count ∧
    (x.running = true → x.clock.next = c.firstSlot now + count)
  times : ∀ time e, (time, e) ∈ x.announced → ∃ slot, time = (c.slotStart slot - now) * 1000 ∧
    (e = .slotStarted slot ∨ e = .epochStarted (c.epochOf slot))
  epochs : EpochsAnnounced c x.events
  time_le : x.running = true → x.time ≤ x.clock.due
  latest : x.running = true → (x.clock.announced = none ∧ x.events = []) ∨
    ∃ epoch, x.clock.announced = some epoch ∧
      (∃ slot, .slotStarted slot ∈ x.events ∧ c.epochOf slot = epoch) ∧
      ∀ slot, .slotStarted slot ∈ x.events → c.epochOf slot ≤ epoch

theorem faithful_start (c : SlotClock) (now : Nat) : (start c now).Faithful c now := by
  refine ⟨rfl, rfl, ⟨0, rfl, fun _ => rfl⟩, ?_, .nil c, fun _ => Nat.zero_le _,
    fun _ => Or.inl ⟨rfl, rfl⟩⟩
  intro time e he
  cases he

namespace Faithful

theorem due_eq (h : x.Faithful c now) : x.clock.due = (c.slotStart x.clock.next - now) * 1000 := by
  rw [RunningClock.due, RunningClock.wait, h.clock, h.startedAt]

/-- The slots before the next one have been announced. -/
theorem lt_next (h : x.Faithful c now) (hrunning : x.running = true)
    (hslot : .slotStarted slot ∈ x.events) : slot < x.clock.next := by
  obtain ⟨count, hslots, hnext⟩ := h.slots
  have hmem : slot ∈ x.slots := ChainEvent.mem_startedSlot.2 hslot
  rw [hslots, List.mem_range'_1] at hmem
  rw [hnext hrunning]
  exact hmem.2

/-- The epoch of the next slot is either later than those of all before, or known. -/
theorem epochs_events (h : x.Faithful c now) (hrunning : x.running = true) :
    EpochsAnnounced c (x.events ++ x.clock.events) ∧
      ((x.clock.entersEpoch = false ∧ ∃ epoch, x.clock.announced = some epoch ∧
          c.epochOf x.clock.next = epoch) ∨
        (x.clock.entersEpoch = true ∧ ∀ known, .slotStarted known ∈ x.events →
          c.epochOf known < c.epochOf x.clock.next)) := by
  have hclock := h.clock
  rcases h.latest hrunning with ⟨hnone, hempty⟩ | ⟨epoch, hsome, ⟨known, hmem, hknown⟩, hlatest⟩
  · have henters : x.clock.entersEpoch = true := by
      unfold RunningClock.entersEpoch
      rw [hnone]
    have hlater : ∀ known, .slotStarted known ∈ x.events →
        c.epochOf known < c.epochOf x.clock.next := by
      intro known hmem
      rw [hempty] at hmem
      cases hmem
    refine ⟨?_, Or.inr ⟨henters, hlater⟩⟩
    simp only [RunningClock.events, henters, if_true, hclock, List.singleton_append]
    exact h.epochs.enter hlater
  · by_cases hlt : epoch < c.epochOf x.clock.next
    · have henters : x.clock.entersEpoch = true := by
        unfold RunningClock.entersEpoch
        rw [hsome, hclock]
        exact decide_eq_true hlt
      have hlater : ∀ known, .slotStarted known ∈ x.events →
          c.epochOf known < c.epochOf x.clock.next := fun known hmem =>
        (hlatest known hmem).trans_lt hlt
      refine ⟨?_, Or.inr ⟨henters, hlater⟩⟩
      simp only [RunningClock.events, henters, if_true, hclock, List.singleton_append]
      exact h.epochs.enter hlater
    · have hstays : x.clock.entersEpoch = false := by
        unfold RunningClock.entersEpoch
        rw [hsome, hclock]
        exact decide_eq_false hlt
      -- The latest epoch is that of a slot before, hence not later than that of the next one.
      have hsame : c.epochOf x.clock.next = epoch := by
        have hmono := SlotClock.epochOf_mono (c := c) (h.lt_next hrunning hmem).le
        rw [hknown] at hmono
        exact Nat.le_antisymm (Nat.not_lt.1 hlt) hmono
      refine ⟨?_, Or.inl ⟨hstays, epoch, hsome, hsame⟩⟩
      simp only [RunningClock.events, hstays, if_false, Bool.false_eq_true, List.nil_append]
      exact h.epochs.another ⟨known, hmem, hknown.trans hsame.symm⟩

/-- The next slot is announced, and the clock waits for the one after it unless there is none. -/
theorem announce_cases (h : x.Faithful c now) (hrunning : x.running = true) :
    x.announce.announced = x.announced ++ x.clock.events.map (x.clock.due, ·) ∧
      x.announce.time = x.clock.due ∧ x.announce.clock.clock = c ∧
      x.announce.clock.startedAt = now ∧
      (x.announce.running = true → x.clock.advance = .ok x.announce.clock) := by
  have htime : max x.time x.clock.due = x.clock.due := max_eq_right (h.time_le hrunning)
  unfold ClockRun.announce
  rw [htime]
  cases hadvance : x.clock.advance with
  | ok r =>
      obtain ⟨-, rfl⟩ := RunningClock.advance_eq_ok hadvance
      exact ⟨rfl, rfl, h.clock, h.startedAt, fun _ => rfl⟩
  | error f =>
      refine ⟨rfl, rfl, h.clock, h.startedAt, fun hfalse => ?_⟩
      cases hfalse

theorem events_announce (h : x.Faithful c now) (hrunning : x.running = true) :
    x.announce.events = x.events ++ x.clock.events := by
  rw [events, (h.announce_cases hrunning).1, List.map_append, List.map_map]
  simp only [Function.comp_def, List.map_id', events]

theorem slots_announce (h : x.Faithful c now) (hrunning : x.running = true) :
    x.announce.slots = x.slots ++ [x.clock.next] := by
  rw [ClockRun.slots, h.events_announce hrunning, List.filterMap_append,
    RunningClock.startedSlot_events, ClockRun.slots]

theorem announce (h : x.Faithful c now) (hrunning : x.running = true) :
    x.announce.Faithful c now := by
  obtain ⟨hannounced, htime, hclock, hstartedAt, hadvance⟩ := h.announce_cases hrunning
  have hevents := h.events_announce hrunning
  obtain ⟨hepochs, hentering⟩ := h.epochs_events hrunning
  refine ⟨hclock, hstartedAt, ?_, ?_, ?_, ?_, ?_⟩
  · obtain ⟨count, hslots, hnext⟩ := h.slots
    refine ⟨count + 1, ?_, ?_⟩
    · rw [h.slots_announce hrunning, hslots, hnext hrunning, List.range'_concat, Nat.one_mul]
    · intro hon
      rw [(RunningClock.advance_eq_ok (hadvance hon)).2]
      exact congrArg (· + 1) (hnext hrunning)
  · intro time e he
    rw [hannounced, List.mem_append, List.mem_map] at he
    rcases he with he | ⟨e', he', heq⟩
    · exact h.times time e he
    · obtain ⟨rfl, rfl⟩ := Prod.mk.inj heq
      exact ⟨x.clock.next, h.due_eq, h.clock ▸ RunningClock.mem_events he'⟩
  · rw [hevents]
    exact hepochs
  · intro hon
    have hnext : x.announce.clock.next = x.clock.next + 1 := by
      rw [(RunningClock.advance_eq_ok (hadvance hon)).2]
    have hmono := SlotClock.slotStart_mono (c := c) (Nat.le_succ x.clock.next)
    rw [htime, h.due_eq, RunningClock.due, RunningClock.wait, hclock, hstartedAt, hnext]
    exact Nat.mul_le_mul_right _ (Nat.sub_le_sub_right hmono _)
  · intro hon
    refine Or.inr ⟨c.epochOf x.clock.next, ?_, ⟨x.clock.next, ?_, rfl⟩, ?_⟩
    · rw [(RunningClock.advance_eq_ok (hadvance hon)).2]
      rcases hentering with ⟨hstays, epoch, hsome, hsame⟩ | ⟨henters, -⟩
      · simp only [hstays, Bool.false_eq_true, if_false, hsome, hsame]
      · simp only [henters, if_true, h.clock]
    · rw [hevents]
      exact List.mem_append_right _ x.clock.slotStarted_mem_events
    · intro slot hslot
      rw [hevents, List.mem_append] at hslot
      rcases hslot with hslot | hslot
      · exact SlotClock.epochOf_mono (h.lt_next hrunning hslot).le
      · rcases RunningClock.mem_events hslot with heq | heq
        · rw [ChainEvent.slotStarted.inj heq]
        · cases heq

theorem hear (h : x.Faithful c now) (hrunning : x.running = true)
    (hupTo : time ≤ max x.time x.clock.due) (signal : StopSignal) :
    (x.hear time signal).Faithful c now := by
  obtain ⟨count, hslots, hnext⟩ := h.slots
  refine ⟨h.clock, h.startedAt, ⟨count, hslots, fun _ => hnext hrunning⟩, h.times, h.epochs, ?_,
    fun _ => h.latest hrunning⟩
  intro _
  rw [max_eq_right (h.time_le hrunning)] at hupTo
  exact hupTo

theorem step (h : x.Faithful c now) (hstep : Step x happening y) : y.Faithful c now := by
  cases hstep with
  | due hrunning => exact h.announce hrunning
  | hear hrunning _ _ hupTo => exact h.hear hrunning hupTo _

theorem reaches (h : x.Faithful c now) (hreach : Reaches x y) : y.Faithful c now := by
  induction hreach with
  | refl => exact h
  | tail _ hstep ih =>
      obtain ⟨happening, hstep⟩ := hstep
      exact ih.step hstep

/-- Nothing that has been due is missing. -/
theorem mem_slots (h : x.Faithful c now) (hrunning : x.running = true)
    (hfrom : c.firstSlot now ≤ slot) (hdue : (c.slotStart slot - now) * 1000 < x.time) :
    slot ∈ x.slots := by
  obtain ⟨count, hslots, hnext⟩ := h.slots
  rw [hslots, List.mem_range'_1, ← hnext hrunning]
  refine ⟨hfrom, Nat.lt_of_not_le fun hlater => ?_⟩
  have hmono := SlotClock.slotStart_mono (c := c) hlater
  have htime := h.time_le hrunning
  rw [h.due_eq] at htime
  omega

end Faithful

/-! ## Runs and the undisturbed timeline -/

theorem Reaches.eq_of_stopped (hreach : Reaches x y) (hstopped : x.running = false) : y = x := by
  induction hreach with
  | refl => rfl
  | tail _ hstep ih =>
      subst ih
      obtain ⟨happening, hstep⟩ := hstep
      cases hstep with
      | due hrunning => exact absurd hrunning (by simp [hstopped])
      | hear hrunning => exact absurd hrunning (by simp [hstopped])

/-- Whatever is heard, the announcements go on as those of a clock that hears nothing. -/
theorem Reaches.timeline (hreach : Reaches x y) (h : x.Faithful c now) :
    ∃ count, y.announced = x.announced ++ x.clock.timeline count := by
  induction hreach using Relation.ReflTransGen.head_induction_on with
  | refl => exact ⟨0, (List.append_nil _).symm⟩
  | @head x x' hstep hrest ih =>
      obtain ⟨happening, hstep⟩ := hstep
      have ih := ih (h.step hstep)
      cases hstep with
      | hear => exact ih
      | due hrunning hwait =>
          obtain ⟨hannounced, -, -, -, hadvance⟩ := h.announce_cases hrunning
          by_cases hon : x.announce.running = true
          · obtain ⟨count, ih⟩ := ih
            refine ⟨count + 1, ?_⟩
            rw [ih, hannounced, RunningClock.timeline, if_neg (Nat.not_le.2 hwait), hadvance hon,
              List.append_assoc]
          · -- That was the last slot of all.
            have hstopped := Bool.eq_false_of_not_eq_true hon
            refine ⟨1, ?_⟩
            rw [Reaches.eq_of_stopped hrest hstopped, hannounced, RunningClock.timeline,
              if_neg (Nat.not_le.2 hwait)]
            cases x.clock.advance <;> simp [RunningClock.timeline]

/-- Unless the next slot is the last of all, the clock waits for the one after it. -/
theorem announce_eq (hword : x.clock.next + 1 < Word.limit) :
    x.announce.running = x.running ∧ x.announce.clock.next = x.clock.next + 1 := by
  obtain ⟨r, hadvance⟩ := RunningClock.exists_advance hword
  obtain ⟨-, hr⟩ := RunningClock.advance_eq_ok hadvance
  unfold announce
  rw [hadvance, hr]
  exact ⟨rfl, rfl⟩

/-- A clock that runs comes to every slot that can be waited for. -/
theorem exists_announced {x : ClockRun} (h : x.Faithful c now) (hrunning : x.running = true)
    (hnext : x.clock.next ≤ slot) (hword : slot < Word.limit)
    (hwait : c.slotStart slot - now < SlotClock.horizon) : ∃ y, Reaches x y ∧ slot ∈ y.slots := by
  have hstep : Step x .due x.announce := by
    refine .due hrunning ?_
    have hmono := SlotClock.slotStart_mono (c := c) hnext
    rw [RunningClock.wait, h.clock, h.startedAt]
    exact (Nat.sub_le_sub_right hmono _).trans_lt hwait
  have hannounce := h.announce hrunning
  obtain hlt | rfl := Nat.lt_or_eq_of_le hnext
  · obtain ⟨hon, hsucc⟩ := announce_eq (x := x) (Nat.lt_of_le_of_lt hlt hword)
    rw [hrunning] at hon
    obtain ⟨y, hreach, hmem⟩ := exists_announced hannounce hon (hsucc.trans_le hlt) hword hwait
    exact ⟨y, .head ⟨_, hstep⟩ hreach, hmem⟩
  · refine ⟨x.announce, .single ⟨_, hstep⟩, ?_⟩
    rw [h.slots_announce hrunning]
    exact List.mem_append_right _ (List.mem_singleton_self _)
termination_by slot - x.clock.next
decreasing_by
  rw [hsucc]
  lia

end ClockRun

/-! ## The theorem -/

/-- **A clock announces a faithful timeline.** Whatever a clock hears while it runs, the slots that it
    has announced are consecutive, from the one in progress at its start, or slot zero before genesis;
    each has been announced at its start, or at once if it had started already; and each epoch of
    theirs has been announced once, right before its first slot. A signal not to stop changes nothing
    but the time: the announcements are those of a clock that hears nothing. As long as the clock runs
    no slot that was due is missing, and every slot that can be waited for will come. And a slot
    is in progress from its start up to the start of the next one. -/
theorem faithful_timeline {genesisTime secondsPerSlot slotsPerEpoch now : Nat} {c : SlotClock}
    (hcreate : SlotClock.create genesisTime secondsPerSlot slotsPerEpoch = c) {x : ClockRun}
    (hreach : ClockRun.Reaches (.start c now) x) :
    (∃ count, x.slots = List.range' ((c.slotAt? now).getD 0) count) ∧
    (∀ time slot, (time, .slotStarted slot) ∈ x.announced →
      time = (c.slotStart slot - now) * 1000 ∧ c.slotStart slot * 1000 ≤ now * 1000 + time) ∧
    EpochsAnnounced c x.events ∧
    (∀ time, x.hear time (.flag false) = { x with time }) ∧
    (∃ count, x.announced = (RunningClock.start c now).timeline count) ∧
    (x.running = true → ∀ slot, (c.slotAt? now).getD 0 ≤ slot →
      ((c.slotStart slot - now) * 1000 < x.time → slot ∈ x.slots) ∧
      (slot < Word.limit → c.slotStart slot - now < SlotClock.horizon →
        ∃ y, ClockRun.Reaches x y ∧ slot ∈ y.slots)) ∧
    (∀ slot, c.genesisTime + (slot + 1) * c.secondsPerSlot < Word.limit →
      c.slotStart slot = c.genesisTime + slot * c.secondsPerSlot ∧
      ∀ time, c.slotAt? time = some slot ↔
        c.slotStart slot ≤ time ∧ time < c.slotStart (slot + 1)) := by
  have hstart := ClockRun.faithful_start c now
  have hfaithful := hstart.reaches hreach
  obtain ⟨count, hslots, hnext⟩ := hfaithful.slots
  refine ⟨⟨count, hslots⟩, ?_, hfaithful.epochs, ?_, hreach.timeline hstart, ?_, ?_⟩
  · intro time slot hmem
    obtain ⟨slot', htime, heq | heq⟩ := hfaithful.times _ _ hmem
    · obtain rfl := ChainEvent.slotStarted.inj heq
      refine ⟨htime, ?_⟩
      omega
    · cases heq
  · intro time
    unfold ClockRun.hear
    simp [StopSignal.stops]
  · intro hrunning slot hfrom
    refine ⟨hfaithful.mem_slots hrunning hfrom, fun hword hwait => ?_⟩
    by_cases hpast : slot < x.clock.next
    · refine ⟨x, .refl, ?_⟩
      rw [hslots, List.mem_range'_1, ← hnext hrunning]
      exact ⟨hfrom, hpast⟩
    · exact ClockRun.exists_announced hfaithful hrunning (Nat.not_lt.1 hpast) hword hwait
  · intro slot hexact
    refine ⟨SlotClock.slotStart_eq (by lia), fun time => ?_⟩
    refine SlotClock.slotAt?_eq_some_iff ?_ hexact
    rw [← hcreate]
    exact SlotClock.create_secondsPerSlot_pos ..

/-- A clock that is started in the middle of an epoch and is told not to stop announces the epoch with
    the slot in progress, and the next slot five seconds later. -/
theorem faithful_timeline_mid_epoch :
    ∃ x, ClockRun.Reaches (.start (SlotClock.create 0 6 8) 79) x ∧
      x.announced = [(0, .epochStarted 1), (0, .slotStarted 13), (5000, .slotStarted 14)] ∧
      EpochsAnnounced (SlotClock.create 0 6 8) x.events ∧
      (∃ count, x.announced
        = (RunningClock.start (SlotClock.create 0 6 8) 79).timeline count) ∧
      ∀ time, (SlotClock.create 0 6 8).slotAt? time = some 13 ↔ 78 ≤ time ∧ time < 84 := by
  have hfirst : ClockRun.Reaches (.start (SlotClock.create 0 6 8) 79) _ :=
    .single ⟨_, .due rfl (by decide)⟩
  have hheard := hfirst.tail ⟨.heard 2000 (.flag false), .hear rfl (by decide) (by decide)
    (by decide)⟩
  have hsecond := hheard.tail ⟨_, .due rfl (by decide)⟩
  obtain ⟨-, -, hepochs, -, htimeline, -, hprogress⟩ := faithful_timeline rfl hsecond
  exact ⟨_, hsecond, by decide, hepochs, htimeline, (hprogress 13 (by decide)).2⟩

end Beacon
