import Mathlib
import Beacon.Node.BeaconNode
import Beacon.Proofs.DepositChain.Window

set_option autoImplicit false

/-! # Watching the deposit chain

A follower asks one question after the other, each through the gate, while deposits are logged,
blocks are mined and the chain goes offline or comes back. A `Watch` is a follower with its requests
under way; `Watch.Step` is what may happen next. Each question is answered from the chain as it is
when the request ends; a synchronization waits for the head, then asks for all that is missing behind
it, and keeps it once everything has been answered. The first refusal ends it, and what it had asked
for is answered to nobody.

Where nothing else happens, the requests pass the gate one after the other and everything comes out
as if it had been asked at once (`Watch.AtRest.exists_synced`), whatever the limit of the gate. -/

namespace Beacon

/-! ## What may happen -/

/-- A request: which synchronization it belongs to, and what it asks. -/
structure DepositTicket where
  sync : Nat
  question : DepositQuestion
  deriving DecidableEq

/-- How far a synchronization has come. -/
inductive SyncStage where
  | idle
  /-- It waits for the head of the chain. -/
  | heading
  /-- It waits for the blocks that are missing behind a head. -/
  | fetching (head : DepositBlock) (numbers : List Nat)

/-- A follower of a chain with its requests under way. -/
structure Watch where
  log : DepositLog
  chain : DevDepositChain
  /-- The blocks of the chain, each with the log it was mined over. -/
  mined : List SealedBlock
  tracker : DepositTracker
  gate : Gate DepositTicket
  /-- Requests that have been admitted and have not ended, oldest first. -/
  running : List DepositTicket := []
  /-- How many synchronizations have begun. -/
  syncs : Nat := 0
  stage : SyncStage := .idle
  /-- What the present synchronization has been answered so far. -/
  answers : Endpoint := .silent
  /-- The questions that these are the answers to. -/
  answered : List DepositQuestion := []

/-- Something that happens to a watch. -/
inductive WatchEvent where
  | record (d : DepositData)
  | mine
  | setOffline (offline : Bool)
  /-- A synchronization begins. -/
  | begin
  /-- A request ends. -/
  | answer (ticket : DepositTicket)
  /-- The head is known. -/
  | proceed
  /-- A synchronization ends well, with the head it has followed. -/
  | synced (head : DepositBlock)
  | failed

/-- An endpoint refuses to answer a question about a contract. -/
def Endpoint.Refuses (e : Endpoint) (contract : Address) : DepositQuestion → Prop
  | .latest => ∃ f, e.latestBlock = .error f
  | .block number => ∃ f, e.blockByNumber number = .error f
  | .contract c number => ∃ f, e.call contract c.encode number = .error f

namespace Watch

/-- A follower that has not begun, of a chain of one block, behind a gate. -/
def create (contract : Address) (log : DepositLog) (timestamp seconds : Nat)
    (config : DepositConfig) (requests : Nat) : Watch :=
  let chain := DevDepositChain.create contract log timestamp seconds
  { log
    chain
    mined := [⟨chain.genesis.block, log⟩]
    tracker := { config }
    gate := .create BeaconNode.gateName requests }

/-- Let the gate claim slots, for requests that then run. -/
def drain (w : Watch) : Watch :=
  { w with gate := w.gate.claim.2, running := w.running ++ w.gate.claim.1 }

/-- Submit a question of the present synchronization. -/
def submit (w : Watch) (q : DepositQuestion) : Watch :=
  { w with gate := w.gate.push ⟨w.syncs, q⟩ }.drain

/-- A request ends and gives its slot back. -/
def leave (w : Watch) (ticket : DepositTicket) : Watch :=
  { w with running := w.running.erase ticket, gate := w.gate.release }.drain

/-- Hear what the chain answers, if the synchronization that has asked goes on. -/
def hear (w : Watch) (ticket : DepositTicket) : Watch :=
  if ticket.sync = w.syncs ∧ ticket.question ∉ w.answered then
    { w with
      answers := w.answers.take (w.chain.endpoint w.log) ticket.question
      answered := ticket.question :: w.answered }
  else w

/-- A request is answered; its slot is given back before. -/
def answer (w : Watch) (ticket : DepositTicket) : Watch := (w.leave ticket).hear ticket

/-- What may happen next. -/
inductive Step : Watch → WatchEvent → Watch → Prop where
  | record (w : Watch) (d : DepositData) : Step w (.record d) { w with log := w.log.record d }
  | mine {w : Watch} {chain : DevDepositChain} (hmine : w.chain.mine w.log = .ok chain) :
      Step w .mine
        { w with chain, mined := w.mined ++ [⟨chain.latest.block, w.log⟩] }
  | setOffline (w : Watch) (offline : Bool) :
      Step w (.setOffline offline) { w with chain := { w.chain with offline } }
  | begin {w : Watch} (hidle : w.stage = .idle) :
      Step w .begin ({ w with
        syncs := w.syncs + 1
        stage := .heading
        answers := .silent
        answered := [] }.submit .latest)
  | answer {w : Watch} {ticket : DepositTicket} (hrunning : ticket ∈ w.running) :
      Step w (.answer ticket) (w.answer ticket)
  | proceed {w : Watch} {head : DepositBlock} {numbers : List Nat} (hstage : w.stage = .heading)
      (hanswered : .latest ∈ w.answered) (hhead : w.answers.latestBlock = .ok head)
      (hmissing : w.tracker.missing head.number = .ok numbers) :
      Step w .proceed ((numbers.flatMap DepositQuestion.about).foldl submit
        { w with stage := .fetching head numbers })
  /-- There is no head, or it is out of range. -/
  | stray {w : Watch} (hstage : w.stage = .heading) (hanswered : .latest ∈ w.answered)
      (hnone : ∀ head numbers, w.answers.latestBlock = .ok head →
        w.tracker.missing head.number ≠ .ok numbers) :
      Step w .failed { w with stage := .idle }
  | refused {w : Watch} {head : DepositBlock} {numbers : List Nat} {q : DepositQuestion}
      (hstage : w.stage = .fetching head numbers) (hanswered : q ∈ w.answered)
      (hrefuses : w.answers.Refuses w.tracker.config.depositContract q) :
      Step w .failed { w with stage := .idle }
  /-- What has been answered is not what a contract answers. -/
  | garbled {w : Watch} {head : DepositBlock} {numbers : List Nat} {number : Nat}
      (hstage : w.stage = .fetching head numbers)
      (hanswered : ∀ q ∈ DepositQuestion.about number, q ∈ w.answered)
      (hgarbled : ∀ b, w.tracker.fetch w.answers number ≠ .ok b) :
      Step w .failed { w with stage := .idle }
  | finish {w : Watch} {head : DepositBlock} {numbers : List Nat} {fetched : List TrackedBlock}
      (hstage : w.stage = .fetching head numbers)
      (hanswered : ∀ q ∈ numbers.flatMap DepositQuestion.about, q ∈ w.answered)
      (hfetched : numbers.mapM (w.tracker.fetch w.answers) = .ok fetched) :
      Step w (.synced head)
        { w with stage := .idle, tracker := fetched.foldl DepositTracker.insert w.tracker }

/-- What a watch may become. -/
def Reaches (w w' : Watch) : Prop :=
  Relation.ReflTransGen (fun w w' => ∃ event, Step w event w') w w'

end Watch

/-! ## Everything at once -/

namespace Gate

variable {τ : Type} {g : Gate τ}

/-- Requests that settle one after the other let the queue through as it is. -/
theorem settleAll_eq {running : List τ} (hinFlight : g.inFlight = running.length)
    (hpos : 0 < g.limit) (hle : g.inFlight ≤ g.limit)
    (hfull : g.queue ≠ [] → g.inFlight = g.limit) :
    g.settleAll running = (running ++ g.queue, { g with inFlight := 0, queue := [] }) := by
  fun_induction settleAll g running with
  | case1 g =>
      have hempty : g.queue = [] := by
        by_contra hne
        have hlimit := hfull hne
        simp only [List.length_nil] at hinFlight
        omega
      rw [hempty, List.append_nil]
      cases g
      simp_all
  | case2 g t rest order last hrest ih =>
      have hless : g.release.inFlight ≤ g.release.limit := (Nat.sub_le _ 1).trans hle
      have hlength : g.release.claim.2.inFlight = (rest ++ g.release.claim.1).length := by
        rw [List.length_append, ← Nat.add_sub_cancel rest.length 1, ← List.length_cons, ← hinFlight]
        rfl
      have hsettled := ih hlength hpos (claim_inFlight_le hless) (claim_full hless)
      rw [hrest, List.append_assoc, claim_append] at hsettled
      obtain ⟨rfl, rfl⟩ := Prod.mk.inj hsettled
      rfl

/-- A gate at rest serves a batch in its order, and is at rest again. -/
theorem serve_eq (hinFlight : g.inFlight = 0) (hqueue : g.queue = []) (hpos : 0 < g.limit)
    (tickets : List τ) : g.serve tickets = (tickets, g) := by
  let pushed : Gate τ := { g with queue := g.queue ++ tickets }
  have hless : pushed.inFlight ≤ pushed.limit := hinFlight ▸ Nat.zero_le _
  have hlength : pushed.claim.2.inFlight = pushed.claim.1.length := by
    simp [pushed, claim, hinFlight]
  calc
    g.serve tickets = pushed.claim.2.settleAll pushed.claim.1 := rfl
    _ = (pushed.claim.1 ++ pushed.claim.2.queue,
          { pushed.claim.2 with inFlight := 0, queue := [] }) :=
        settleAll_eq hlength hpos (claim_inFlight_le hless) (claim_full hless)
    _ = (tickets, g) := by
        rw [claim_append]
        cases g with
        | mk name limit inFlight queue =>
            obtain rfl : inFlight = 0 := hinFlight
            obtain rfl : queue = [] := hqueue
            rfl

end Gate

/-- Behind a gate at rest a synchronization asks for the head, then for what is missing, and keeps
    it. -/
theorem DepositTracker.sync_eq_ok {t t' : DepositTracker} {e : Endpoint} {gate gate' : Gate Nat}
    {count : Nat} (hinFlight : gate.inFlight = 0) (hqueue : gate.queue = [])
    (hpos : 0 < gate.limit) :
    t.sync e gate = .ok (count, t', gate') ↔ ∃ head numbers fetched,
      e.latestBlock = .ok head ∧ t.missing head.number = .ok numbers ∧
        numbers.mapM (t.fetch e) = .ok fetched ∧
          fetched.length = count ∧ fetched.foldl DepositTracker.insert t = t' ∧ gate = gate' := by
  simp only [DepositTracker.sync, request, Gate.serve_eq hinFlight hqueue hpos,
    Attempt.bind_eq_ok, Attempt.liftM_eq_ok, Attempt.pure_eq_ok, Prod.mk.injEq]
  constructor
  · rintro ⟨_, ⟨head, hhead, numbers, hnumbers, fetched, hfetched, rfl⟩, rfl, rfl, rfl⟩
    exact ⟨head, numbers, fetched, hhead, hnumbers, hfetched, rfl, rfl, rfl⟩
  · rintro ⟨head, numbers, fetched, hhead, hnumbers, hfetched, rfl, rfl, rfl⟩
    exact ⟨_, ⟨head, hhead, numbers, hnumbers, fetched, hfetched, rfl⟩, rfl, rfl, rfl⟩

/-! ## Nothing else happens -/

/-- An answer is the one that an endpoint gives. -/
def Endpoint.Agrees (a e : Endpoint) (contract : Address) : DepositQuestion → Prop
  | .latest => a.latestBlock = e.latestBlock
  | .block number => a.blockByNumber number = e.blockByNumber number
  | .contract c number => a.call contract c.encode number = e.call contract c.encode number

namespace Endpoint

variable {a e : Endpoint} {contract : Address}

/-- What is taken over agrees, and what agrees goes on to. -/
theorem agrees_take {q asked : DepositQuestion}
    (h : q = asked ∨ a.Agrees e contract q) : (a.take e asked).Agrees e contract q := by
  rcases h with rfl | h
  · cases q <;> simp [Agrees, take]
  · cases asked <;> cases q <;> simp only [Agrees, take] at h ⊢
    -- Where the questions are of one kind, the answer is either taken over or kept.
    case block.block => split <;> simp [h]
    case contract.contract => split <;> simp [h]
    all_goals first | rfl | exact h

/-- A block is fetched from what its questions are answered. -/
theorem fetch_congr {t : DepositTracker} {number : Nat}
    (h : ∀ q ∈ DepositQuestion.about number, a.Agrees e t.config.depositContract q) :
    t.fetch a number = t.fetch e number := by
  have hblock := h (.block number) (by simp [DepositQuestion.about])
  have hroot := h (.contract .depositRoot number) (by simp [DepositQuestion.about])
  have hcount := h (.contract .depositCount number) (by simp [DepositQuestion.about])
  simp only [Agrees] at hblock hroot hcount
  simp only [DepositTracker.fetch, hblock, hroot, hcount]

end Endpoint

namespace Watch

variable {w w' : Watch} {asked : List DepositQuestion} {q : DepositQuestion}
  {ticket : DepositTicket}

/-- Requests wait for nothing but a slot. -/
structure Flows (w : Watch) : Prop where
  inFlight : w.gate.inFlight = w.running.length
  inFlight_le : w.gate.inFlight ≤ w.gate.limit
  limit_pos : 0 < w.gate.limit
  full : w.gate.queue ≠ [] → w.gate.inFlight = w.gate.limit

/-- Requests that have not ended, in the order in which they come to run. -/
def outstanding (w : Watch) : List DepositTicket := w.running ++ w.gate.queue

/-- Each of the questions has been answered, as the chain would answer it now, or is on its way. -/
structure Attends (w : Watch) (asked : List DepositQuestion) : Prop where
  flows : w.Flows
  asked : ∀ q ∈ asked, q ∈ w.answered ∨ ⟨w.syncs, q⟩ ∈ w.outstanding
  agrees : ∀ q ∈ w.answered,
    w.answers.Agrees (w.chain.endpoint w.log) w.tracker.config.depositContract q

/-- Requests change nothing but the gate and the answers. -/
structure SameFollower (w w' : Watch) : Prop where
  log : w'.log = w.log
  chain : w'.chain = w.chain
  mined : w'.mined = w.mined
  tracker : w'.tracker = w.tracker
  syncs : w'.syncs = w.syncs
  stage : w'.stage = w.stage

theorem SameFollower.trans {w'' : Watch} (h : w.SameFollower w') (h' : w'.SameFollower w'') :
    w.SameFollower w'' :=
  ⟨h'.log.trans h.log, h'.chain.trans h.chain, h'.mined.trans h.mined, h'.tracker.trans h.tracker,
    h'.syncs.trans h.syncs, h'.stage.trans h.stage⟩

/-- What is asked changes nothing but the gate and who runs. -/
theorem exists_submitAll (w : Watch) (questions : List DepositQuestion) :
    ∃ gate running, questions.foldl submit w = { w with gate, running } := by
  induction questions generalizing w with
  | nil => exact ⟨w.gate, w.running, rfl⟩
  | cons q questions ih =>
      obtain ⟨gate, running, heq⟩ := ih (w.submit q)
      exact ⟨gate, running, heq⟩

theorem sameFollower_submitAll (w : Watch) (questions : List DepositQuestion) :
    w.SameFollower (questions.foldl submit w) := by
  obtain ⟨gate, running, heq⟩ := w.exists_submitAll questions
  rw [heq]
  exact ⟨rfl, rfl, rfl, rfl, rfl, rfl⟩

theorem sameFollower_answer (w : Watch) (ticket : DepositTicket) :
    w.SameFollower (w.answer ticket) := by
  unfold answer hear
  split <;> exact ⟨rfl, rfl, rfl, rfl, rfl, rfl⟩

/-- Admission moves requests from the queue to the running ones, in their order. -/
theorem outstanding_drain (w : Watch) : w.drain.outstanding = w.outstanding := by
  simp only [outstanding, drain, List.append_assoc, w.gate.claim_append]

/-- As many requests are admitted as there are slots. -/
theorem Flows.drain (hinFlight : w.gate.inFlight = w.running.length)
    (hle : w.gate.inFlight ≤ w.gate.limit) (hpos : 0 < w.gate.limit) : w.drain.Flows := by
  refine ⟨?_, Gate.claim_inFlight_le hle, hpos, Gate.claim_full hle⟩
  rw [Watch.drain, List.length_append, ← hinFlight]
  rfl

theorem outstanding_submit (w : Watch) (q : DepositQuestion) :
    (w.submit q).outstanding = w.outstanding ++ [⟨w.syncs, q⟩] := by
  rw [submit, outstanding_drain]
  simp [outstanding, Gate.push]

theorem Attends.submit (h : w.Attends asked) (q : DepositQuestion) :
    (w.submit q).Attends (asked ++ [q]) := by
  refine ⟨.drain h.flows.inFlight h.flows.inFlight_le h.flows.limit_pos, fun q' hq' => ?_, h.agrees⟩
  rw [outstanding_submit, List.mem_append]
  rcases List.mem_append.1 hq' with hq' | hq'
  · exact (h.asked q' hq').imp_right Or.inl
  · exact Or.inr (Or.inr (by rw [List.mem_singleton.1 hq']; exact List.mem_singleton_self _))

theorem Attends.submitAll (h : w.Attends asked) (questions : List DepositQuestion) :
    (questions.foldl Watch.submit w).Attends (asked ++ questions) := by
  induction questions generalizing w asked with
  | nil => simpa using h
  | cons q questions ih =>
      rw [List.foldl_cons, List.append_cons]
      exact ih (h.submit q)

/-- When the first request ends, the next one has its slot. -/
theorem Flows.leave {rest : List DepositTicket} (h : w.Flows) (hrunning : w.running = ticket :: rest) :
    (w.leave ticket).Flows ∧ w.outstanding = ticket :: (w.leave ticket).outstanding := by
  have herase : w.running.erase ticket = rest := by rw [hrunning, List.erase_cons_head]
  refine ⟨.drain ?_ ((Nat.sub_le _ 1).trans h.inFlight_le) h.limit_pos, ?_⟩
  · have hcount := h.inFlight
    rw [hrunning] at hcount
    simp [Gate.release, herase, hcount]
  · rw [Watch.leave, outstanding_drain, outstanding, outstanding, hrunning, List.erase_cons_head]
    rfl

/-- A request that ends is heard, and all others are still on their way. -/
theorem Attends.answer {rest : List DepositTicket} (h : w.Attends asked)
    (hrunning : w.running = ticket :: rest) :
    (w.answer ticket).Attends asked ∧ w.outstanding = ticket :: (w.answer ticket).outstanding := by
  obtain ⟨hflows, hfirst⟩ := h.flows.leave hrunning
  have hasked : ∀ q ∈ asked, q ∈ w.answered ∨
      ⟨w.syncs, q⟩ = ticket ∨ ⟨w.syncs, q⟩ ∈ (w.leave ticket).outstanding := by
    intro q hq
    have hmem := h.asked q hq
    rwa [hfirst, List.mem_cons] at hmem
  unfold Watch.answer hear
  split
  · refine ⟨⟨⟨hflows.inFlight, hflows.inFlight_le, hflows.limit_pos, hflows.full⟩,
      fun q hq => ?_, fun q hq => ?_⟩, hfirst⟩
    · rcases hasked q hq with hold | rfl | hmem
      · exact Or.inl (List.mem_cons_of_mem _ hold)
      · exact Or.inl (List.mem_cons_self ..)
      · exact Or.inr hmem
    · exact Endpoint.agrees_take ((List.mem_cons.1 hq).imp_right (h.agrees q))
  · next hdeaf =>
      refine ⟨⟨hflows, fun q hq => ?_, h.agrees⟩, hfirst⟩
      rcases hasked q hq with hold | rfl | hmem
      · exact Or.inl hold
      · exact Or.inl (by simpa [Watch.leave, drain] using hdeaf)
      · exact Or.inr hmem

theorem Reaches.step {event : WatchEvent} (h : Step w event w') : w.Reaches w' :=
  Relation.ReflTransGen.single ⟨event, h⟩

/-- One after the other, all requests end. -/
theorem Attends.exists_answered (h : w.Attends asked) :
    ∃ w', w.Reaches w' ∧ w.SameFollower w' ∧ w'.Attends asked ∧ w'.outstanding = [] := by
  induction houtstanding : w.outstanding generalizing w with
  | nil => exact ⟨w, .refl, ⟨rfl, rfl, rfl, rfl, rfl, rfl⟩, h, houtstanding⟩
  | cons ticket rest ih =>
      cases hrunning : w.running with
      | nil =>
          -- Nothing would run although the gate has room.
          have hqueue : w.gate.queue ≠ [] := by
            intro hempty
            simp [outstanding, hrunning, hempty] at houtstanding
          have hfull := h.flows.full hqueue
          have hnone := h.flows.inFlight
          have hpos := h.flows.limit_pos
          simp only [hrunning, List.length_nil] at hnone
          omega
      | cons first others =>
          obtain ⟨hattends, hfirst⟩ := h.answer hrunning
          obtain ⟨-, hrest⟩ := List.cons.inj (houtstanding.symm.trans hfirst)
          obtain ⟨w', hreach, hsame, hw', hdone⟩ := ih hattends hrest.symm
          have hstep : w.Reaches (w.answer first) :=
            .step (.answer (by rw [hrunning]; exact List.mem_cons_self ..))
          exact ⟨w', hstep.trans hreach, (w.sameFollower_answer first).trans hsame, hw', hdone⟩

/-- One after the other, all questions are answered. -/
theorem Attends.exists_submitAll_answered (h : w.Attends asked) (questions : List DepositQuestion) :
    ∃ w', (questions.foldl Watch.submit w).Reaches w' ∧ w.SameFollower w' ∧
      w'.Attends (asked ++ questions) ∧ w'.outstanding = [] := by
  obtain ⟨w', hreach, hsame, hattends, hdone⟩ := (h.submitAll questions).exists_answered
  exact ⟨w', hreach, (sameFollower_submitAll ..).trans hsame, hattends, hdone⟩

/-- Nobody has asked anything. -/
structure AtRest (w : Watch) : Prop where
  stage : w.stage = .idle
  outstanding : w.outstanding = []
  inFlight : w.gate.inFlight = 0
  limit_pos : 0 < w.gate.limit

theorem attends_nil (hdone : w.outstanding = []) (hinFlight : w.gate.inFlight = 0)
    (hpos : 0 < w.gate.limit) (hnew : w.answered = []) : w.Attends [] := by
  obtain ⟨hrunning, hqueue⟩ := List.append_eq_nil_iff.1 hdone
  refine ⟨⟨?_, ?_, hpos, fun hne => absurd hqueue hne⟩, fun q hq => ?_, fun q hq => ?_⟩
  · rw [hinFlight, hrunning]
    rfl
  · rw [hinFlight]
    exact Nat.zero_le _
  · cases hq
  · rw [hnew] at hq
    cases hq

/-- When nothing is on its way, every question has been answered. -/
theorem Attends.answered (h : w.Attends asked) (hdone : w.outstanding = []) {q : DepositQuestion}
    (hq : q ∈ asked) : q ∈ w.answered ∧
      w.answers.Agrees (w.chain.endpoint w.log) w.tracker.config.depositContract q := by
  have hmem : q ∈ w.answered := by
    have := h.asked q hq
    simpa [hdone] using this
  exact ⟨hmem, h.agrees q hmem⟩

/-- A synchronization begins, and the chain says what its newest block is. -/
theorem AtRest.exists_heading (h : w.AtRest) : ∃ v, w.Reaches v ∧
    ({ w with syncs := w.syncs + 1, stage := .heading } : Watch).SameFollower v ∧
    v.Attends [.latest] ∧ v.outstanding = [] := by
  have hbegun : ({ w with
      syncs := w.syncs + 1
      stage := .heading
      answers := .silent
      answered := [] } : Watch).Attends [] :=
    attends_nil h.outstanding h.inFlight h.limit_pos rfl
  obtain ⟨v, hv, hsame, hattends, hdone⟩ := hbegun.exists_submitAll_answered [.latest]
  exact ⟨v, (Reaches.step (.begin h.stage)).trans hv, { hsame with }, hattends, hdone⟩

/-- Where nothing else happens, a synchronization passes the gate as if there was none: it keeps what
    the chain answers at once, and the gate is at rest again. -/
theorem AtRest.exists_synced {head : DepositBlock} {numbers : List Nat}
    {fetched : List TrackedBlock} (h : w.AtRest)
    (hhead : (w.chain.endpoint w.log).latestBlock = .ok head)
    (hmissing : w.tracker.missing head.number = .ok numbers)
    (hfetched : numbers.mapM (w.tracker.fetch (w.chain.endpoint w.log)) = .ok fetched) :
    ∃ w₁ w₂, w.Reaches w₁ ∧ Step w₁ (.synced head) w₂ ∧ w₂.AtRest ∧ w₂.log = w.log ∧
      w₂.chain = w.chain ∧ w₂.mined = w.mined ∧
      w₂.tracker = fetched.foldl DepositTracker.insert w.tracker := by
  -- The head is asked for and answered.
  obtain ⟨v, hv, hsame, hattends, hdone⟩ := h.exists_heading
  obtain ⟨hanswered, hlatest⟩ := hattends.answered hdone (List.mem_singleton_self _)
  rw [Endpoint.Agrees, hsame.chain, hsame.log] at hlatest
  have htracker : v.tracker = w.tracker := hsame.tracker
  have hproceed : Step v .proceed ((numbers.flatMap DepositQuestion.about).foldl submit
      { v with stage := .fetching head numbers }) :=
    .proceed hsame.stage hanswered (hlatest.trans hhead) (htracker ▸ hmissing)
  -- Then all blocks are, and all answers are those of the chain.
  have hnext : ({ v with stage := .fetching head numbers } : Watch).Attends [.latest] :=
    ⟨{ hattends.flows with }, hattends.asked, hattends.agrees⟩
  obtain ⟨u, hu, hall, hattends', hdone'⟩ :=
    hnext.exists_submitAll_answered (numbers.flatMap DepositQuestion.about)
  have hchain : u.chain = w.chain := hall.chain.trans hsame.chain
  have hlog : u.log = w.log := hall.log.trans hsame.log
  have htracker' : u.tracker = w.tracker := hall.tracker.trans htracker
  have hquestion (q : DepositQuestion) (hq : q ∈ numbers.flatMap DepositQuestion.about) :
      q ∈ u.answered ∧
        u.answers.Agrees (w.chain.endpoint w.log) w.tracker.config.depositContract q := by
    rw [← hchain, ← hlog, ← htracker']
    exact hattends'.answered hdone' (List.mem_append_right _ hq)
  have hsamefetch : numbers.mapM (u.tracker.fetch u.answers) = .ok fetched := by
    rw [← hfetched, htracker']
    refine Attempt.mapM_congr fun number hnumber => Endpoint.fetch_congr fun q hq => ?_
    exact (hquestion q (List.mem_flatMap.2 ⟨number, hnumber, hq⟩)).2
  have hfinish := Step.finish hall.stage (fun q hq => (hquestion q hq).1) hsamefetch
  refine ⟨u, _, hv.trans ((Reaches.step hproceed).trans hu), hfinish,
    ⟨rfl, hdone', ?_, hattends'.flows.limit_pos⟩, hlog, hchain, hall.mined.trans hsame.mined,
    by rw [htracker']⟩
  have hcount := hattends'.flows.inFlight
  rw [(List.append_eq_nil_iff.1 hdone').1] at hcount
  exact hcount

end Watch

end Beacon
