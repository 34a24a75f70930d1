import Mathlib
import Beacon.Proofs.DepositChain.Watch

set_option autoImplicit false

/-! # What a follower keeps

Whatever happens between a question and its answer, what a follower keeps is a window on the chain
(`Watch.Tracks`): the latest of its first `kept` blocks. The head that it has followed last, number
`since`, is what makes the next window come later: whatever is answered as the newest block from then
on is not older. No step but the good end of a synchronization changes what is kept (`Tracks.step`),
and this one moves the window behind its head (`Tracks.finish`). -/

namespace Beacon

namespace Watch

variable {w w' : Watch} {config : DepositConfig} {since kept : Nat} {event : WatchEvent}
  {head : DepositBlock}

/-! ## What is kept through all steps -/

/-- The latest of the first `kept` blocks are kept, and a synchronization under way follows a block
    of the chain that is not older than block number `since`. -/
structure Tracks (w : Watch) (config : DepositConfig) (since kept : Nat) : Prop where
  seals : w.chain.Seals w.log w.mined
  config_eq : w.tracker.config = config
  keeps : w.tracker.Keeps w.mined kept
  kept_le : kept ≤ since + 1 - config.followDistance
  since_lt : since < w.mined.length
  trueTo : w.stage ≠ .idle → w.answers.TrueTo w.mined since
  headed : ∀ head numbers, w.stage = .fetching head numbers → .latest ∈ w.answered ∧
    w.answers.latestBlock = .ok head ∧ w.tracker.missing head.number = .ok numbers

theorem tracks_create (contract : Address) (log : DepositLog) (timestamp seconds : Nat)
    (config : DepositConfig) (requests : Nat) :
    (create contract log timestamp seconds config requests).Tracks config 0 0 where
  seals := DevDepositChain.seals_create ..
  config_eq := rfl
  keeps := by simp [create, DepositTracker.Keeps, DepositTracker.latest]
  kept_le := Nat.zero_le _
  since_lt := Nat.zero_lt_one
  trueTo := fun hbusy => absurd rfl hbusy
  headed := fun _ _ hstage => by cases hstage

theorem Tracks.kept_le_length (h : w.Tracks config since kept) : kept ≤ w.mined.length := by
  have hkept := h.kept_le
  have hsince := h.since_lt
  omega

/-- No block counts more deposits than have been logged. -/
theorem Tracks.sizes (h : w.Tracks config since kept) (hsize : w.log.size < Word.limit) :
    ∀ x ∈ w.mined, x.log.size < Word.limit := by
  intro x hx
  have hle := (h.seals.grown x hx).length_le
  rw [DepositLog.length_toList, DepositLog.length_toList] at hle
  exact hle.trans_lt hsize

/-- One more block. -/
theorem Tracks.mine {chain : DevDepositChain} (h : w.Tracks config since kept)
    (hmine : w.chain.mine w.log = .ok chain) :
    ({ w with chain, mined := w.mined ++ [⟨chain.latest.block, w.log⟩] } : Watch).Tracks config
      since kept where
  seals := h.seals.mine hmine
  config_eq := h.config_eq
  keeps := h.keeps.append h.kept_le_length _
  kept_le := h.kept_le
  since_lt := by
    rw [List.length_append]
    exact Nat.lt_add_right _ h.since_lt
  trueTo := fun hbusy => (h.trueTo hbusy).mono (List.prefix_append ..)
  headed := h.headed

/-- One more answer. -/
theorem Tracks.answer (h : w.Tracks config since kept) (ticket : DepositTicket) :
    (w.answer ticket).Tracks config since kept := by
  unfold Watch.answer hear
  split
  · next hheard =>
      refine { h with
        trueTo := fun hbusy => (h.trueTo hbusy).take (h.seals.trueTo h.since_lt) _
        headed := fun head numbers hstage => ?_ }
      obtain ⟨hanswered, hhead, hmissing⟩ := h.headed head numbers hstage
      -- The head has been answered, so this is not a second answer to that question.
      have hne : ticket.question ≠ .latest := fun heq => hheard.2 (heq ▸ hanswered)
      exact ⟨List.mem_cons_of_mem _ hanswered, (Endpoint.take_latestBlock hne).trans hhead, hmissing⟩
  · exact { h with }

/-- A synchronization that is over leaves what is kept. -/
theorem Tracks.idle (h : w.Tracks config since kept) :
    ({ w with stage := .idle } : Watch).Tracks config since kept :=
  { h with
    trueTo := fun hbusy => absurd rfl hbusy
    headed := fun _ _ hstage => by cases hstage }

/-- Whatever happens, as long as no synchronization ends well, the same blocks are kept. -/
theorem Tracks.step (h : w.Tracks config since kept) (hstep : Step w event w')
    (hother : ∀ head, event ≠ .synced head) :
    w'.Tracks config since kept ∧ w'.tracker = w.tracker := by
  cases hstep with
  | record d => exact ⟨{ h with seals := h.seals.record d }, rfl⟩
  | mine hmine => exact ⟨h.mine hmine, rfl⟩
  | setOffline offline => exact ⟨{ h with seals := h.seals.setOffline offline }, rfl⟩
  | begin hidle =>
      exact ⟨{ h with
        trueTo := fun _ => .silent ..
        headed := fun _ _ hstage => by cases hstage }, rfl⟩
  | @answer ticket hrunning => exact ⟨h.answer ticket, (w.sameFollower_answer ticket).tracker⟩
  | @proceed head numbers hstage hanswered hhead hmissing =>
      obtain ⟨gate, running, heq⟩ := exists_submitAll
        { w with stage := .fetching head numbers } (numbers.flatMap DepositQuestion.about)
      have hbusy : w.stage ≠ .idle := by simp [hstage]
      rw [heq]
      refine ⟨{ h with trueTo := fun _ => h.trueTo hbusy, headed := ?_ }, rfl⟩
      rintro _ _ ⟨⟩
      exact ⟨hanswered, hhead, hmissing⟩
  | stray => exact ⟨h.idle, rfl⟩
  | refused => exact ⟨h.idle, rfl⟩
  | garbled => exact ⟨h.idle, rfl⟩
  | finish => exact absurd rfl (hother _)

/-! ## The end of a synchronization -/

/-- A synchronization that ends well has followed a block of the chain, and its answers have been
    those on which it would have ended well at once. -/
theorem Tracks.exists_fetched (h : w.Tracks config since kept) (hstep : Step w (.synced head) w') :
    w.answers.TrueTo w.mined since ∧ w.answers.latestBlock = .ok head ∧ ∃ numbers fetched,
      w.tracker.missing head.number = .ok numbers ∧
        numbers.mapM (w.tracker.fetch w.answers) = .ok fetched ∧
        w' = { w with stage := .idle, tracker := fetched.foldl DepositTracker.insert w.tracker } := by
  cases hstep with
  | @finish _ numbers fetched hstage hanswered hfetched =>
      obtain ⟨-, hhead, hmissing⟩ := h.headed head numbers hstage
      have hbusy : w.stage ≠ .idle := by simp [hstage]
      exact ⟨h.trueTo hbusy, hhead, numbers, fetched, hmissing, hfetched, rfl⟩

/-- On a chain that is too short yet, nothing is kept anew. -/
theorem Tracks.finish_near (h : w.Tracks config since kept) (hstep : Step w (.synced head) w')
    (hnear : head.number < config.followDistance) :
    w'.Tracks config since kept ∧ w'.tracker = w.tracker := by
  obtain ⟨-, -, numbers, fetched, hmissing, hfetched, rfl⟩ := h.exists_fetched hstep
  have hnone : numbers = [] := by
    rw [DepositTracker.missing, h.config_eq, if_pos hnear] at hmissing
    exact (Attempt.pure_eq_ok.1 hmissing).symm
  subst hnone
  obtain rfl : fetched = [] := (Attempt.pure_eq_ok.1 hfetched).symm
  exact ⟨h.idle, rfl⟩

/-- Otherwise the window moves behind the head. -/
theorem Tracks.finish (h : w.Tracks config since kept) (hstep : Step w (.synced head) w')
    (hroom : 0 < config.maxTrackedBlocks) (hsize : w.log.size < Word.limit)
    (hfar : config.followDistance ≤ head.number) :
    w'.Tracks config head.number (head.number - config.followDistance + 1) := by
  obtain ⟨htrue, hlatest, numbers, fetched, hmissing, hfetched, rfl⟩ := h.exists_fetched hstep
  obtain ⟨hsince, x, hx, -⟩ := htrue.latest head hlatest
  have hhead := (List.getElem?_eq_some_iff.1 hx).1
  have hkept := h.kept_le
  have hconfig : (fetched.foldl DepositTracker.insert w.tracker).config = config :=
    (w.tracker.config_foldl_insert fetched).trans h.config_eq
  refine ⟨h.seals, hconfig, ?_, ?_, hhead, fun hbusy => absurd rfl hbusy,
    fun _ _ hstage => by cases hstage⟩
  · rw [← h.config_eq] at hroom hfar hkept ⊢
    exact h.keeps.foldl_fetched h.seals.numbered hroom hfar (by omega) hhead hmissing htrue
      (h.sizes hsize) hfetched
  · omega

/-- After each step there is a window. -/
theorem Tracks.after (h : w.Tracks config since kept) (hstep : Step w event w')
    (hroom : 0 < config.maxTrackedBlocks) (hsize : w.log.size < Word.limit) :
    ∃ since' kept', w'.Tracks config since' kept' := by
  by_cases hsynced : ∃ head, event = .synced head
  · obtain ⟨head, rfl⟩ := hsynced
    by_cases hfar : config.followDistance ≤ head.number
    · exact ⟨_, _, h.finish hstep hroom hsize hfar⟩
    · exact ⟨_, _, (h.finish_near hstep (Nat.lt_of_not_le hfar)).1⟩
  · exact ⟨_, _, (h.step hstep fun head heq => hsynced ⟨head, heq⟩).1⟩

/-! ## Runs -/

theorem Step.log_le (hstep : Step w event w') : w.log.size ≤ w'.log.size := by
  cases hstep with
  | record d =>
      rw [DepositLog.size_record]
      exact Nat.le_succ _
  | @answer ticket hrunning => rw [(w.sameFollower_answer ticket).log]
  | proceed => rw [(sameFollower_submitAll ..).log]
  | _ => exact Nat.le_refl _

/-- A follower keeps a window at all times. -/
theorem Reaches.exists_tracks {first : Watch} (hreach : first.Reaches w)
    (h : first.Tracks config since kept) (hroom : 0 < config.maxTrackedBlocks)
    (hsize : w.log.size < Word.limit) : ∃ since' kept', w.Tracks config since' kept' := by
  induction hreach with
  | refl => exact ⟨since, kept, h⟩
  | tail _ hstep ih =>
      obtain ⟨event, hstep⟩ := hstep
      have hbefore := hstep.log_le.trans_lt hsize
      obtain ⟨since', kept', h'⟩ := ih hbefore
      exact h'.after hstep hroom hbefore

/-- A chain that is online is followed, whatever the limit of the gate, where nothing else happens. -/
theorem AtRest.exists_synced_latest (hrest : w.AtRest) (h : w.Tracks config since kept)
    (hroom : 0 < config.maxTrackedBlocks) (honline : w.chain.offline = false)
    (hcontract : config.depositContract = w.chain.contract) (hsize : w.log.size < Word.limit)
    (hmany : w.mined.length < Word.limit) :
    ∃ w₁ w₂, w.Reaches w₁ ∧ Step w₁ (.synced w.chain.latest.block) w₂ ∧ w₂.AtRest ∧
      w₂.log = w.log ∧ w₂.chain = w.chain ∧ w₂.mined = w.mined := by
  rw [← h.config_eq] at hroom hcontract
  have hhead := DevDepositChain.latestBlock_eq honline w.log
  obtain ⟨numbers, hmissing, hle⟩ := h.keeps.exists_missing h.seals.numbered h.kept_le_length hroom
    hmany w.chain.latest.block.number
  have hlatest := h.seals.latest_number
  have hfetch (number : Nat) (hnumber : number ∈ numbers) :
      ∃ b, w.tracker.fetch (w.chain.endpoint w.log) number = .ok b := by
    have hlt : number < w.mined.length := by
      have := hle number hnumber
      omega
    exact ⟨_, h.seals.fetch_eq honline hcontract (List.getElem?_eq_getElem hlt)
      (h.sizes hsize _ (List.getElem_mem hlt))⟩
  obtain ⟨fetched, hfetched⟩ := Attempt.exists_mapM hfetch
  obtain ⟨w₁, w₂, hreach, hstep, hrest', hlog, hchain, hmined, -⟩ :=
    hrest.exists_synced hhead hmissing hfetched
  exact ⟨w₁, w₂, hreach, hstep, hrest', hlog, hchain, hmined⟩

/-- At all times the blocks that a follower keeps are blocks of the chain, with the root over the
    deposits that had been logged when they were mined. A synchronization that ends well is the one
    that its answers give at once, and behind a head that is far enough exactly the latest blocks up
    to the follow distance are kept afterwards; nothing else changes what is kept. -/
theorem cache_is_window {contract : Address} {log : DepositLog} {timestamp seconds requests : Nat}
    (hroom : 0 < config.maxTrackedBlocks)
    (hreach : (create contract log timestamp seconds config requests).Reaches w)
    (hsize : w.log.size < Word.limit) :
    (∀ b ∈ w.tracker.blocks, ∃ x, w.mined[b.block.number]? = some x ∧
      w.chain.block? b.block.number = some x.mined ∧ b.block = x.block ∧
      b.record =
        { depositRoot := hashRoot (w.log.toList.take x.log.size)
          depositCount := x.log.size
          blockHash := x.block.hash }) ∧
    ∀ event w', Step w event w' →
      ((∀ head, event = .synced head → head.number < config.followDistance) →
        w'.tracker = w.tracker) ∧
      ∀ head, event = .synced head →
        (∃ x, w.mined[head.number]? = some x ∧ x.block = head) ∧
        (∀ gate : Gate Nat, gate.inFlight = 0 → gate.queue = [] → 0 < gate.limit →
          ∃ count, w.tracker.sync w.answers gate = .ok (count, w'.tracker, gate)) ∧
        (config.followDistance ≤ head.number →
          let target := head.number - config.followDistance
          let first := target + 1 - config.maxTrackedBlocks
          w'.tracker.blocks.map (·.block.number) = List.range' first (target + 1 - first)) := by
  obtain ⟨since, kept, h⟩ :=
    hreach.exists_tracks (tracks_create contract log timestamp seconds config requests) hroom hsize
  refine ⟨fun b hb => ?_, fun event w' hstep => ⟨fun hnear => ?_, ?_⟩⟩
  · obtain ⟨x, hx, rfl⟩ := h.keeps.exists_tracked h.seals.numbered hb
    have hgrown := List.prefix_iff_eq_take.1 (h.seals.grown x (List.mem_of_getElem? hx))
    rw [DepositLog.length_toList] at hgrown
    refine ⟨x, hx, ?_, rfl, ?_⟩
    · rw [h.seals.block?_eq, hx, Option.map_some]
    · rw [← hgrown]
      rfl
  · by_cases hsynced : ∃ head, event = .synced head
    · obtain ⟨head, rfl⟩ := hsynced
      exact (h.finish_near hstep (hnear head rfl)).2
    · exact (h.step hstep fun head heq => hsynced ⟨head, heq⟩).2
  · rintro head rfl
    obtain ⟨htrue, hlatest, numbers, fetched, hmissing, hfetched, hnew⟩ := h.exists_fetched hstep
    refine ⟨(htrue.latest head hlatest).2, fun gate hinFlight hqueue hpos => ?_, fun hfar => ?_⟩
    · exact ⟨_, (DepositTracker.sync_eq_ok hinFlight hqueue hpos).2
        ⟨head, numbers, fetched, hlatest, hmissing, hfetched, rfl, by rw [hnew], rfl⟩⟩
    · have hnext := h.finish hstep hroom hsize hfar
      have hnumbers := hnext.keeps.map_number hnext.seals.numbered hnext.kept_le_length
      rw [hnumbers, hnext.config_eq]
      intro target first
      congr 1
      omega

/-- Follow one block behind the head, and keep one block. -/
def oneBehind : DepositConfig := { followDistance := 1, maxTrackedBlocks := 1 }

/-- Two deposits are logged, and a block is mined over each. -/
theorem exists_twoBlocks : ∃ w : Watch,
    (create (Bytes.zero 20) {} 0 14 oneBehind 1).Reaches w ∧ w.AtRest ∧ w.chain.offline = false ∧
    w.chain.contract = Bytes.zero 20 ∧ w.chain.latest.block.number = 2 ∧ w.log.size = 2 ∧
    w.mined.length = 3 ∧ ∀ x, w.mined[1]? = some x → x.log.size = 1 := by
  refine ⟨_, (Reaches.step (.record _ {})).trans <| (Reaches.step (.mine rfl)).trans <|
    (Reaches.step (.record _ {})).trans (Reaches.step (.mine rfl)), ⟨rfl, rfl, rfl, Nat.zero_lt_one⟩,
    rfl, rfl, rfl, rfl, rfl, ?_⟩
  rintro x ⟨⟩
  rfl

/-- The record of the first of these blocks is kept, and counts one deposit. -/
theorem cache_is_window_oneBehind : ∃ (w w' : Watch) (head : DepositBlock),
    (create (Bytes.zero 20) {} 0 14 oneBehind 1).Reaches w ∧ Step w (.synced head) w' ∧
    w'.log.size = 2 ∧ w'.tracker.blocks.map (·.block.number) = [1] ∧
    ∃ b ∈ w'.tracker.blocks, b.block.number = 1 ∧ b.record.depositCount = 1 := by
  obtain ⟨w, hreach, hrest, honline, hcontract, hlatest, hlog, hmined, hcount⟩ := exists_twoBlocks
  have hroom : 0 < oneBehind.maxTrackedBlocks := Nat.zero_lt_one
  have hsmall : 3 < Word.limit := by decide
  obtain ⟨since, kept, h⟩ := hreach.exists_tracks (tracks_create ..) hroom (by omega)
  obtain ⟨v, v', hv, hstep, -, hlog', -, hmined'⟩ :=
    hrest.exists_synced_latest h hroom honline hcontract.symm (by omega) (by omega)
  have hsize' : v'.log.size < Word.limit := by
    rw [hlog']
    omega
  have hreach' := hreach.trans hv
  -- Behind the second block the window is the first one.
  have hnumbers : v'.tracker.blocks.map (·.block.number) = [1] := by
    obtain ⟨-, hend⟩ :=
      (cache_is_window hroom hreach' (hstep.log_le.trans_lt hsize')).2 _ _ hstep
    have hwindow := (hend _ rfl).2.2
    rw [hlatest] at hwindow
    exact hwindow one_le_two
  obtain ⟨b, hb, hnumber⟩ : ∃ b ∈ v'.tracker.blocks, b.block.number = 1 := by
    rw [← List.mem_map, hnumbers]
    exact List.mem_singleton_self 1
  obtain ⟨x, hx, -, -, hrecord⟩ :=
    (cache_is_window hroom (hreach'.tail ⟨_, hstep⟩) hsize').1 b hb
  refine ⟨v, v', _, hreach', hstep, by rw [hlog', hlog], hnumbers, b, hb, hnumber, ?_⟩
  rw [hrecord]
  exact hcount x (by rw [← hmined', ← hnumber]; exact hx)

end Watch

end Beacon
