import Mathlib
import Beacon.Proofs.Duties.Desk

set_option autoImplicit false

/-! # One request at a time

As long as an epoch is not forgotten all calls for its fork are sent to one lookup. So at most one
request for it is under way, and none is made after the first success (`ForkDesk.Story`); what a call
returns has been answered to a request for its epoch, a failure to a request of its own
(`ForkDesk.Recorded`). Both are told from the log of all that has happened at a desk. -/

namespace Beacon

namespace ForkEvent

/-- A request for an epoch is made. -/
def requests (e : Epoch) : ForkEvent → Bool
  | .requested _ epoch => epoch == e
  | _ => false

/-- A request for an epoch is answered. -/
def answers (e : Epoch) : ForkEvent → Bool
  | .answered _ epoch _ => epoch == e
  | _ => false

/-- A request for an epoch succeeds. -/
def succeeds (e : Epoch) : ForkEvent → Bool
  | .answered _ epoch (.ok _) => epoch == e
  | _ => false

/-- A request for an epoch fails. -/
def fails (e : Epoch) : ForkEvent → Bool
  | .answered _ epoch (.error _) => epoch == e
  | _ => false

variable {e : Epoch} {h : ForkEvent}

theorem requests_eq_true : h.requests e = true ↔ ∃ place, h = .requested place e := by
  cases h <;> simp [requests]

theorem answers_eq_true : h.answers e = true ↔ ∃ place answer, h = .answered place e answer := by
  cases h <;> simp [answers]

theorem succeeds_eq_true :
    h.succeeds e = true ↔ ∃ place fork, h = .answered place e (.ok fork) := by
  cases h with
  | answered place epoch answer => cases answer <;> simp [succeeds]
  | _ => simp [succeeds]

end ForkEvent

namespace ForkDesk

/-! ## What has happened -/

variable {log : List ForkEvent} {x y : ForkDesk} {happening : ForkEvent} {e : Epoch}
  {place id : Nat} {stage : ForkStage} {fork : ForkInfo}

/-- Where the answers come from that are known or have been returned. -/
structure Recorded (log : List ForkEvent) (x : ForkDesk) : Prop where
  asked : ∀ place epoch id, x.calls[place]? = some ⟨epoch, .asking id⟩ →
    .requested place epoch ∈ log
  known : ∀ l ∈ x.forks.lookups, ∀ fork, l.answer = some fork →
    ∃ asker, .answered asker l.epoch (.ok fork) ∈ log
  returned : ∀ place epoch answer, x.calls[place]? = some ⟨epoch, .returned answer⟩ →
    (∃ asker fork, answer = .ok fork ∧ .answered asker epoch (.ok fork) ∈ log) ∨
    ∃ cause, answer = Attempt.widen (ForkLookupError.mk epoch) (.error cause) ∧
      .requested place epoch ∈ log ∧ .answered place epoch (.error cause) ∈ log

theorem Recorded.step (hrecorded : Recorded log x) (h : x.Sound) (hstep : Step x happening y) :
    Recorded (log ++ [happening]) y := by
  have hlast : happening ∈ log ++ [happening] := List.mem_append_right _ (List.mem_singleton_self _)
  refine ⟨?_, ?_, ?_⟩
  · intro place epoch id hcall
    cases hstep.origin h hcall with
    | same hcall => exact List.mem_append_left _ (hrecorded.asked place epoch id hcall)
    | asked _ hevent => exact hevent ▸ hlast
  · intro l hl fork hfork
    rcases hstep.answer_cases h hl hfork with ⟨l', hl', hepoch, hfork'⟩ | ⟨asker, rfl⟩
    · obtain ⟨asker, hmem⟩ := hrecorded.known l' hl' fork hfork'
      exact ⟨asker, List.mem_append_left _ (hepoch ▸ hmem)⟩
    · exact ⟨asker, hlast⟩
  · intro place epoch answer hcall
    cases hstep.origin h hcall with
    | same hcall =>
        rcases hrecorded.returned place epoch answer hcall with
          ⟨asker, fork, hok, hmem⟩ | ⟨cause, herror, hrequested, hmem⟩
        · exact Or.inl ⟨asker, fork, hok, List.mem_append_left _ hmem⟩
        · exact Or.inr ⟨cause, herror, List.mem_append_left _ hrequested,
            List.mem_append_left _ hmem⟩
    | @known l fork hl hepoch hfork =>
        obtain ⟨asker, hmem⟩ := hrecorded.known l hl fork hfork
        exact Or.inl ⟨asker, fork, rfl, List.mem_append_left _ (hepoch ▸ hmem)⟩
    | @given asker fork hevent => exact Or.inl ⟨asker, fork, rfl, hevent ▸ hlast⟩
    | failed hevent hasked =>
        exact Or.inr ⟨_, rfl, List.mem_append_left _ (hrecorded.asked place epoch _ hasked),
          hevent ▸ hlast⟩

theorem Run.recorded (hrun : Run log x) : Recorded log x := by
  induction hrun with
  | nil =>
      refine ⟨?_, ?_, ?_⟩
      · intro place epoch id hcall
        simp at hcall
      · intro l hl
        cases hl
      · intro place epoch answer hcall
        simp at hcall
  | snoc hrun hstep ih => exact ih.step hrun.sound hstep

theorem Run.single (hrun : Run log x) (hkeeps : ∀ oldest, .pruned oldest ∈ log → oldest ≤ e) :
    x.forks.Single e := by
  induction hrun with
  | nil =>
      refine ⟨?_, ?_⟩
      · intro l hl
        cases hl
      · intro l hl
        cases hl
  | snoc hrun hstep ih =>
      refine hstep.single hrun.sound ?_ (ih fun oldest hmem => ?_)
      · rintro oldest rfl
        exact hkeeps oldest (List.mem_append_right _ (List.mem_singleton_self _))
      · exact hkeeps oldest (List.mem_append_left _ hmem)

/-! ## An epoch that is not forgotten -/

/-- A request for an epoch is under way. -/
def Outstanding (x : ForkDesk) (e : Epoch) : Prop :=
  ∃ place id : Nat, x.calls[place]? = some (⟨e, .asking id⟩ : ForkCall)

/-- Who has the turn to ask for an epoch is alone, and asks for what is not known. -/
theorem Sound.alone (h : x.Sound) (hsingle : x.forks.Single e)
    (hcall : x.calls[place]? = some ⟨e, stage⟩) (hstage : stage = .turn id ∨ stage = .asking id) :
    (∀ l ∈ x.forks.lookups, l.epoch = e → l.answer = none) ∧
    ∀ other id', x.calls[other]? = some ⟨e, .asking id'⟩ → other = place := by
  have hid : stage.lookup? = some id := by
    obtain rfl | rfl := hstage <;> rfl
  obtain ⟨l, hl, rfl, hepoch⟩ := h.sent _ _ _ hcall hid
  have hturn : x.calls.HasTurn l.id place := by
    unfold ForkCalls.HasTurn
    rw [ForkCalls.stage?_of_call hcall]
    exact hstage.imp (congrArg some) (congrArg some)
  refine ⟨?_, ?_⟩
  · intro l' hl' hepoch'
    rw [hsingle.one l' hl' l hl hepoch' hepoch]
    exact (h.serves l hl).answer_eq_none hturn
  · intro other id' hother
    obtain ⟨l', hl', rfl, hepoch'⟩ := h.sent _ _ _ hother rfl
    rw [hsingle.one l' hl' l hl hepoch' hepoch] at hother
    exact (h.serves l hl).single other place (Or.inr (ForkCalls.stage?_of_call hother)) hturn

/-- Nothing is asked or answered for an epoch whose fork is known. -/
theorem Step.unknown (hstep : Step x happening y) (h : x.Sound) (hsingle : x.forks.Single e)
    (hconcerned : happening.requests e = true ∨ happening.answers e = true) :
    ∀ l ∈ x.forks.lookups, l.epoch = e → l.answer = none := by
  rcases hconcerned with hrequests | hanswers
  · obtain ⟨place, rfl⟩ := ForkEvent.requests_eq_true.1 hrequests
    cases hstep with
    | request hcall => exact (h.alone hsingle hcall (Or.inl rfl)).1
  · obtain ⟨place, answer, rfl⟩ := ForkEvent.answers_eq_true.1 hanswers
    cases hstep with
    | answer hcall => exact (h.alone hsingle hcall (Or.inr rfl)).1

/-- What has been answered is known. -/
theorem Step.answered (hstep : Step x (.answered place e (.ok fork)) y) (h : x.Sound) :
    ∃ l ∈ y.forks.lookups, l.epoch = e ∧ l.answer = some fork := by
  cases hstep with
  | answer hcall =>
      obtain ⟨l, hl, rfl, hepoch⟩ := h.sent _ _ _ hcall rfl
      rw [h.answer_ok hl]
      refine ⟨_, List.mem_map_of_mem hl, ?_⟩
      rw [if_pos rfl]
      exact ⟨hepoch, rfl⟩

/-- For an epoch that is not forgotten: what has been answered is known, nothing is asked or answered
    after a success, and each request but the one under way has been answered. -/
structure Story (e : Epoch) (log : List ForkEvent) (x : ForkDesk) : Prop where
  known : ∀ asker fork, .answered asker e (.ok fork) ∈ log →
    ∃ l ∈ x.forks.lookups, l.epoch = e ∧ l.answer = some fork
  ended : log.Pairwise fun h h' => h.succeeds e = true → h'.requests e = false ∧ h'.answers e = false
  outstanding : (x.Outstanding e ∧
      log.countP (·.requests e) = log.countP (·.answers e) + 1) ∨
    (¬ x.Outstanding e ∧ log.countP (·.requests e) = log.countP (·.answers e))

theorem Story.known_step (hstory : Story e log x) (h : x.Sound) (hstep : Step x happening y) :
    ∀ asker fork, .answered asker e (.ok fork) ∈ log ++ [happening] →
      ∃ l ∈ y.forks.lookups, l.epoch = e ∧ l.answer = some fork := by
  intro asker fork hmem
  rcases List.mem_append.1 hmem with hmem | hmem
  · obtain ⟨l, hl, rfl, hfork⟩ := hstory.known asker fork hmem
    obtain ⟨l', hl', -, hepoch, hanswer⟩ := hstep.grows h l hl
    exact ⟨l', hl', hepoch, hanswer fork hfork⟩
  · obtain rfl := List.mem_singleton.1 hmem
    exact hstep.answered h

theorem Story.ended_step (hstory : Story e log x) (h : x.Sound) (hsingle : x.forks.Single e)
    (hstep : Step x happening y) : (log ++ [happening]).Pairwise fun h h' =>
      h.succeeds e = true → h'.requests e = false ∧ h'.answers e = false := by
  refine List.pairwise_append.2 ⟨hstory.ended, List.pairwise_singleton .., ?_⟩
  intro before hbefore after hafter hsucceeds
  obtain rfl := List.mem_singleton.1 hafter
  obtain ⟨asker, fork, rfl⟩ := ForkEvent.succeeds_eq_true.1 hsucceeds
  obtain ⟨l, hl, hepoch, hfork⟩ := hstory.known asker fork hbefore
  have hquiet : ¬ (after.requests e = true ∨ after.answers e = true) := by
    intro hconcerned
    rw [hstep.unknown h hsingle hconcerned l hl hepoch] at hfork
    cases hfork
  simpa using hquiet

theorem Story.outstanding_step (hstory : Story e log x) (h : x.Sound) (hsingle : x.forks.Single e)
    (hstep : Step x happening y) :
    (y.Outstanding e ∧ (log ++ [happening]).countP (·.requests e) =
      (log ++ [happening]).countP (·.answers e) + 1) ∨
    (¬ y.Outstanding e ∧ (log ++ [happening]).countP (·.requests e) =
      (log ++ [happening]).countP (·.answers e)) := by
  rw [List.countP_append, List.countP_append, List.countP_singleton, List.countP_singleton]
  by_cases hrequests : happening.requests e = true
  · obtain ⟨place, rfl⟩ := ForkEvent.requests_eq_true.1 hrequests
    cases hstep with
    | @request _ id _ hcall =>
        have hquiet : ¬ x.Outstanding e := by
          rintro ⟨other, id', hother⟩
          obtain rfl := (h.alone hsingle hcall (Or.inl rfl)).2 other id' hother
          cases hcall.symm.trans hother
        refine Or.inl ⟨⟨place, id, ?_⟩, ?_⟩
        · rw [ForkCalls.getElem?_move, hcall, Option.map_some, if_pos (List.mem_singleton_self _)]
        · have hanswers : ¬ (ForkEvent.requested place e).answers e = true := Bool.false_ne_true
          rw [if_pos hrequests, if_neg hanswers,
            (hstory.outstanding.resolve_left fun h => hquiet h.1).2]
  · by_cases hanswers : happening.answers e = true
    · obtain ⟨place, answer, rfl⟩ := ForkEvent.answers_eq_true.1 hanswers
      have hreturned := hstep.returned h
      cases hstep with
      | @answer _ id _ hcall =>
          have hquiet : ¬ (x.answer place id e answer).Outstanding e := by
            rintro ⟨other, id', hother⟩
            cases (Step.answer hcall answer).origin h hother with
            | same hbefore =>
                obtain rfl := (h.alone hsingle hcall (Or.inr rfl)).2 other id' hbefore
                cases hreturned.symm.trans hother
            | asked _ hevent => cases hevent
          have hbefore : x.Outstanding e := ⟨place, id, hcall⟩
          refine Or.inr ⟨hquiet, ?_⟩
          rw [if_neg hrequests, if_pos hanswers,
            (hstory.outstanding.resolve_right fun h => h.1 hbefore).2]
    · have hsame : y.Outstanding e ↔ x.Outstanding e := by
        constructor
        · rintro ⟨place, id, hcall⟩
          cases hstep.origin h hcall with
          | same hbefore => exact ⟨place, id, hbefore⟩
          | asked _ hevent => exact absurd (ForkEvent.requests_eq_true.2 ⟨place, hevent⟩) hrequests
        · rintro ⟨place, id, hcall⟩
          rcases hstep.asking_cases h hcall with hafter | ⟨answer, hevent⟩
          · exact ⟨place, id, hafter⟩
          · exact absurd (ForkEvent.answers_eq_true.2 ⟨place, answer, hevent⟩) hanswers
      rw [hsame, if_neg hrequests, if_neg hanswers]
      exact hstory.outstanding

theorem Run.story (hrun : Run log x) (hkeeps : ∀ oldest, .pruned oldest ∈ log → oldest ≤ e) :
    Story e log x := by
  induction hrun with
  | nil =>
      refine ⟨?_, .nil, Or.inr ⟨?_, rfl⟩⟩
      · intro asker fork hmem
        cases hmem
      · rintro ⟨place, id, hcall⟩
        simp at hcall
  | @snoc log _ _ _ hrun hstep ih =>
      have hbefore : ∀ oldest, .pruned oldest ∈ log → oldest ≤ e := fun oldest hmem =>
        hkeeps oldest (List.mem_append_left _ hmem)
      have hstory := ih hbefore
      have hsingle := hrun.single hbefore
      exact ⟨hstory.known_step hrun.sound hstep, hstory.ended_step hrun.sound hsingle hstep,
        hstory.outstanding_step hrun.sound hsingle hstep⟩

theorem countP_answers (e : Epoch) (log : List ForkEvent) :
    log.countP (·.answers e) = log.countP (·.fails e) + log.countP (·.succeeds e) := by
  induction log with
  | nil => rfl
  | cons h log ih =>
      rw [List.countP_cons, List.countP_cons, List.countP_cons, ih]
      cases h with
      | answered place epoch answer =>
          cases answer <;> simp only [ForkEvent.answers, ForkEvent.fails, ForkEvent.succeeds] <;> lia
      | _ => simp [ForkEvent.answers, ForkEvent.fails, ForkEvent.succeeds]

namespace Story

theorem countP_succeeds_le_one (hstory : Story e log x) : log.countP (·.succeeds e) ≤ 1 := by
  have hended := hstory.ended
  clear hstory
  induction hended with
  | nil => exact Nat.zero_le _
  | @cons h log hlater _ ih =>
      rw [List.countP_cons]
      by_cases hsucceeds : h.succeeds e = true
      · have hnone : log.countP (·.succeeds e) = 0 := by
          refine List.countP_eq_zero.2 fun h' hmem hagain => ?_
          obtain ⟨asker, fork, rfl⟩ := ForkEvent.succeeds_eq_true.1 hagain
          have hanswers := (hlater _ hmem hsucceeds).2
          simp [ForkEvent.answers] at hanswers
        rw [hnone, if_pos hsucceeds]
      · rw [if_neg hsucceeds]
        exact ih

/-- Whoever asks again does so after a failure. -/
theorem countP_requests_le (hstory : Story e log x) (h : x.Sound) (hsingle : x.forks.Single e) :
    log.countP (·.requests e) ≤ log.countP (·.fails e) + 1 := by
  have hanswers := countP_answers e log
  have hone := hstory.countP_succeeds_le_one
  rcases hstory.outstanding with ⟨⟨place, id, hcall⟩, hcount⟩ | ⟨-, hcount⟩
  · -- While a request is under way there has been no success.
    have hnone : log.countP (·.succeeds e) = 0 := by
      refine List.countP_eq_zero.2 fun h' hmem hsucceeds => ?_
      obtain ⟨asker, fork, rfl⟩ := ForkEvent.succeeds_eq_true.1 hsucceeds
      obtain ⟨l, hl, hepoch, hfork⟩ := hstory.known asker fork hmem
      rw [(h.alone hsingle hcall (Or.inr rfl)).1 l hl hepoch] at hfork
      cases hfork
    omega
  · omega

/-- Nothing is asked or answered after a success. -/
theorem after_success (hstory : Story e log x) {before after : List ForkEvent} {asker : Nat}
    (hlog : log = before ++ .answered asker e (.ok fork) :: after) :
    ∀ h ∈ after, h.requests e = false ∧ h.answers e = false := by
  have hended := hstory.ended
  rw [hlog] at hended
  intro h hmem
  refine (List.pairwise_cons.1 (List.pairwise_append.1 hended).2.1).1 h hmem ?_
  exact ForkEvent.succeeds_eq_true.2 ⟨asker, fork, rfl⟩

/-- After a success nobody waits or asks: whoever has not returned is about to. -/
theorem stage_cases (hstory : Story e log x) (h : x.Sound) (hsingle : x.forks.Single e)
    {asker : Nat} (hmem : .answered asker e (.ok fork) ∈ log)
    (hcall : x.calls[place]? = some ⟨e, stage⟩) :
    (∃ answer, stage = .returned answer) ∨
    ∃ id, stage = .sent id ∧ (x.join place id).calls[place]? = some ⟨e, .returned (.ok fork)⟩ := by
  obtain ⟨l, hl, hepoch, hfork⟩ := hstory.known asker fork hmem
  cases stage with
  | sent id =>
      obtain ⟨l', hl', rfl, hepoch'⟩ := h.sent _ _ _ hcall rfl
      obtain rfl := hsingle.one l' hl' l hl hepoch' hepoch
      refine Or.inr ⟨l'.id, rfl, ?_⟩
      unfold ForkDesk.join
      rw [ForkCalls.getElem?_move, hcall, Option.map_some, if_pos (List.mem_singleton_self _)]
      rcases h.forks.join_cases hl place with ⟨fork', hfork', heq⟩ | ⟨hnone, -⟩ | ⟨hnone, -⟩
      · obtain rfl := Option.some.inj (hfork'.symm.trans hfork)
        rw [heq]
        rfl
      · cases hnone.symm.trans hfork
      · cases hnone.symm.trans hfork
  | waiting id =>
      obtain ⟨l', hl', rfl, hepoch'⟩ := h.sent _ _ _ hcall rfl
      obtain rfl := hsingle.one l' hl' l hl hepoch' hepoch
      have hline := ((h.serves l' hl).line place).2 (ForkCalls.stage?_of_call hcall)
      have hasking := h.forks.asking l' hl (List.ne_nil_of_mem hline)
      rw [(h.serves l' hl).answer fork hfork] at hasking
      cases hasking
  | turn id => cases ((h.alone hsingle hcall (Or.inl rfl)).1 l hl hepoch).symm.trans hfork
  | asking id => cases ((h.alone hsingle hcall (Or.inr rfl)).1 l hl hepoch).symm.trans hfork
  | returned answer => exact Or.inl ⟨answer, rfl⟩

/-- All successes are one. -/
theorem success_unique (hstory : Story e log x) (hsingle : x.forks.Single e) {asker asker' : Nat}
    {fork' : ForkInfo} (hmem : .answered asker e (.ok fork) ∈ log)
    (hmem' : .answered asker' e (.ok fork') ∈ log) : fork' = fork := by
  obtain ⟨l, hl, hepoch, hfork⟩ := hstory.known asker fork hmem
  obtain ⟨l', hl', hepoch', hfork'⟩ := hstory.known asker' fork' hmem'
  rw [hsingle.one l' hl' l hl hepoch' hepoch] at hfork'
  exact Option.some.inj (hfork'.symm.trans hfork)

end Story

end ForkDesk

/-! ## The theorem -/

/-- **Lookups are single-flight, and failures are not kept.** Whoever calls, whenever requests are
    answered, and whatever is forgotten, for an epoch that is not forgotten: at most one request is
    under way; the others have all been answered. There is at most one request more than failures.
    After a success no request is made; whoever had not returned by then returns its fork, or will do
    so as soon as he takes part in the lookup. And whoever fails does so with the failure of a request
    of his own. To be sent to a lookup and to take part in it at once is to enter. -/
theorem single_flight {log : List ForkEvent} {x : ForkDesk} {e : Epoch} (hrun : ForkDesk.Run log x)
    (hkeeps : ∀ oldest, .pruned oldest ∈ log → oldest ≤ e) :
    (∀ i j id id' : Nat, x.calls[i]? = some (⟨e, .asking id⟩ : ForkCall) →
      x.calls[j]? = some (⟨e, .asking id'⟩ : ForkCall) → i = j) ∧
    ((x.Outstanding e ∧ log.countP (·.requests e) = log.countP (·.answers e) + 1) ∨
      (¬ x.Outstanding e ∧ log.countP (·.requests e) = log.countP (·.answers e))) ∧
    log.countP (·.requests e) ≤ log.countP (·.fails e) + 1 ∧
    (∀ before after asker fork, log = before ++ .answered asker e (.ok fork) :: after →
      (∀ h ∈ after, h.requests e = false ∧ h.answers e = false) ∧
      ∀ (place : Nat) (stage : ForkStage), x.calls[place]? = some ⟨e, stage⟩ →
        stage = .returned (.ok fork) ∨
        (∃ cause, stage = .returned (Attempt.widen (ForkLookupError.mk e) (.error cause)) ∧
          .answered place e (.error cause) ∈ before) ∨
        ∃ id, stage = .sent id ∧
          (x.join place id).calls[place]? = some ⟨e, .returned (.ok fork)⟩) ∧
    (∀ (place : Nat) answer, x.calls[place]? = some (⟨e, .returned answer⟩ : ForkCall) →
      (∃ asker fork, answer = .ok fork ∧ .answered asker e (.ok fork) ∈ log) ∨
      ∃ cause, answer = Attempt.widen (ForkLookupError.mk e) (.error cause) ∧
        .requested place e ∈ log ∧ .answered place e (.error cause) ∈ log) ∧
    (∀ epoch ticket, x.forks.enter epoch ticket =
      (x.forks.fetch epoch).2.join (x.forks.fetch epoch).1 ticket) := by
  have h := hrun.sound
  have hsingle := hrun.single hkeeps
  have hstory := hrun.story hkeeps
  have hrecorded := hrun.recorded
  refine ⟨?_, hstory.outstanding, hstory.countP_requests_le h hsingle, ?_,
    fun place => hrecorded.returned place e, h.forks.enter_eq⟩
  · intro i j id id' hi hj
    exact (h.alone hsingle hj (Or.inr rfl)).2 i id hi
  · intro before after asker fork hlog
    have hafter := hstory.after_success hlog
    have hmem : .answered asker e (.ok fork) ∈ log := by
      rw [hlog]
      exact List.mem_append_right _ List.mem_cons_self
    refine ⟨hafter, fun place stage hcall => ?_⟩
    rcases hstory.stage_cases h hsingle hmem hcall with ⟨answer, rfl⟩ | hsent
    · rcases hrecorded.returned place e answer hcall with
        ⟨asker', fork', rfl, hmem'⟩ | ⟨cause, rfl, -, hfailed⟩
      · rw [hstory.success_unique hsingle hmem hmem']
        exact Or.inl rfl
      · refine Or.inr (Or.inl ⟨cause, rfl, ?_⟩)
        rw [hlog, List.mem_append, List.mem_cons] at hfailed
        rcases hfailed with hbefore | heq | hlater
        · exact hbefore
        · cases heq
        · have hanswers := (hafter _ hlater).2
          simp [ForkEvent.answers] at hanswers
    · exact Or.inr (Or.inr hsent)

/-- Two call for the fork of an epoch, of which the first asks and fails; the second is next to ask,
    and is answered while a third waits and epochs before are forgotten. -/
theorem single_flight_second_attempt :
    ∃ log x, ForkDesk.Run log x ∧ log.countP (·.requests 1) = 2 ∧
      log.countP (·.requests 1) ≤ log.countP (·.fails 1) + 1 ∧
      x.calls[0]? = some ⟨1, .returned (Attempt.reject ⟨1, .unavailable "busy"⟩)⟩ ∧
      x.calls[1]? = some ⟨1, .returned (.ok {})⟩ ∧ x.calls[2]? = some ⟨1, .returned (.ok {})⟩ ∧
      ¬ x.Outstanding 1 := by
  have hrun := ForkDesk.Run.nil.snoc (.call _ 1)
  have hrun := hrun.snoc (.callFor _ ⟨8, 0, 0⟩ 15)
  have hrun := hrun.snoc (@ForkDesk.Step.join _ 0 0 1 rfl)
  have hrun := hrun.snoc (@ForkDesk.Step.join _ 1 0 1 rfl)
  have hrun := hrun.snoc (@ForkDesk.Step.request _ 0 0 1 rfl)
  have hrun := hrun.snoc (@ForkDesk.Step.answer _ 0 0 1 rfl (Attempt.reject (.unavailable "busy")))
  have hrun := hrun.snoc (@ForkDesk.Step.request _ 1 0 1 rfl)
  have hrun := hrun.snoc (.call _ 1)
  have hrun := hrun.snoc (.prune _ 1)
  have hrun := hrun.snoc (@ForkDesk.Step.join _ 2 0 1 rfl)
  have hrun := hrun.snoc (@ForkDesk.Step.answer _ 1 0 1 rfl (.ok {}))
  obtain ⟨-, houtstanding, hrequests, -⟩ := single_flight (e := 1) hrun fun oldest hmem => by
    simp at hmem
    exact hmem.le
  refine ⟨_, _, hrun, rfl, hrequests, rfl, rfl, rfl, ?_⟩
  exact (houtstanding.resolve_left fun h => absurd h.2 (by decide)).1

end Beacon
