import Mathlib
import Beacon.Duties.Execution
import Beacon.Proofs.Duties.Callers

set_option autoImplicit false

/-! # A desk for lookups

Many call for the forks of epochs. Between any two steps of a call the others may do anything, and
epochs may be forgotten (`ForkDesk.Step`). Whatever happens, every call is concerned with a lookup of
its epoch, and every lookup serves its calls (`ForkDesk.Sound`).

What one step does is said once: to the calls in `Step.origin`, to the lookups in
`Step.forks_cases`. -/

namespace Beacon

/-! ## A desk for lookups -/

/-- The lookups of all epochs with all calls. -/
structure ForkDesk where
  forks : Forks Nat := {}
  calls : ForkCalls := []

/-- Something that happens at a desk. -/
inductive ForkEvent where
  | called (epoch : Epoch)
  | joined (place : Nat)
  | requested (place : Nat) (epoch : Epoch)
  | answered (place : Nat) (epoch : Epoch) (answer : Attempt ApiError ForkInfo)
  | pruned (oldest : Epoch)

namespace ForkDesk

/-- A call for the fork of an epoch. -/
def call (x : ForkDesk) (epoch : Epoch) : ForkDesk where
  forks := (x.forks.fetch epoch).2
  calls := x.calls ++ [⟨epoch, .sent (x.forks.fetch epoch).1⟩]

/-- The call at a place takes part in a lookup. -/
def join (x : ForkDesk) (place id : Nat) : ForkDesk where
  forks := (x.forks.join id place).2
  calls := x.calls.move [place] ((x.forks.join id place).1.stage id)

/-- The request of the call at a place is answered. The call returns the answer; those in line return
    the fork with it, or the first of them has the turn to ask. -/
def answer (x : ForkDesk) (place id : Nat) (epoch : Epoch) : Attempt ApiError ForkInfo → ForkDesk
  | .ok fork =>
    let (line, forks) := x.forks.answered id fork
    { forks, calls := x.calls.move (place :: line) (.returned (.ok fork)) }
  | .error cause =>
    let (next, forks) := x.forks.failed id
    { forks
      calls := (x.calls.move [place]
        (.returned (Attempt.widen (ForkLookupError.mk epoch) (.error cause)))).move
          next.toList (.turn id) }

/-- What may happen next: somebody calls for the fork of an epoch, or of a slot; a call goes on; a
    request is answered; or epochs are forgotten. No call is given up. -/
inductive Step : ForkDesk → ForkEvent → ForkDesk → Prop where
  | call (x : ForkDesk) (epoch : Epoch) : Step x (.called epoch) (x.call epoch)
  | callFor (x : ForkDesk) (c : ExecutionSettings) (slot : Slot) :
      Step x (.called (c.epochOf slot)) (x.call (c.epochOf slot))
  | join {x : ForkDesk} {place id : Nat} {epoch : Epoch}
      (hcall : x.calls[place]? = some ⟨epoch, .sent id⟩) : Step x (.joined place) (x.join place id)
  | request {x : ForkDesk} {place id : Nat} {epoch : Epoch}
      (hcall : x.calls[place]? = some ⟨epoch, .turn id⟩) :
      Step x (.requested place epoch) { x with calls := x.calls.move [place] (.asking id) }
  | answer {x : ForkDesk} {place id : Nat} {epoch : Epoch}
      (hcall : x.calls[place]? = some ⟨epoch, .asking id⟩) (answer : Attempt ApiError ForkInfo) :
      Step x (.answered place epoch answer) (x.answer place id epoch answer)
  | prune (x : ForkDesk) (oldest : Epoch) :
      Step x (.pruned oldest) { x with forks := x.forks.prune oldest }

/-- What may become of an empty desk, with all that has happened. -/
inductive Run : List ForkEvent → ForkDesk → Prop where
  | nil : Run [] {}
  | snoc {log : List ForkEvent} {x y : ForkDesk} {happening : ForkEvent} (hrun : Run log x)
      (hstep : Step x happening y) : Run (log ++ [happening]) y

variable {x y : ForkDesk} {places : List Nat} {stage : ForkStage} {place id : Nat} {c : ForkCall}
  {epoch e : Epoch} {l : ForkLookup Nat} {f g : Forks Nat} {calls : ForkCalls}

/-- Every call is concerned with a lookup of its epoch. -/
def Sent (calls : ForkCalls) (f : Forks Nat) : Prop :=
  ∀ (place : Nat) (c : ForkCall) (id : Nat), calls[place]? = some c → c.stage.lookup? = some id →
    ∃ l ∈ f.lookups, l.id = id ∧ l.epoch = c.epoch

theorem Sent.grows (h : Sent calls f) (hgrows : f.Grows g) : Sent calls g := by
  intro place c id hcall hid
  obtain ⟨l, hl, rfl, hepoch⟩ := h place c id hcall hid
  obtain ⟨l', hl', hid', hepoch', -⟩ := hgrows l hl
  exact ⟨l', hl', hid', hepoch'.trans hepoch⟩

/-- Calls that get on to another stage are concerned with the same lookup, or with none. -/
theorem Sent.move (h : Sent calls f) (hmoved : ∀ place ∈ places, ∀ s, calls.stage? place = some s →
    ∀ id, stage.lookup? = some id → s.lookup? = some id) : Sent (calls.move places stage) f := by
  intro place c id hcall hid
  rcases ForkCalls.move_cases hcall with ⟨-, hcall⟩ | ⟨hmem, rfl, before, hcall⟩
  · exact h place c id hcall hid
  · exact h place ⟨c.epoch, before⟩ id hcall
      (hmoved place hmem before (ForkCalls.stage?_of_call hcall) id hid)

/-- Every lookup but one serves its calls. -/
structure ServesOthers (calls : ForkCalls) (f : Forks Nat) (id : Nat) : Prop where
  sent : Sent calls f
  serves : ∀ l ∈ f.lookups, l.id ≠ id → calls.Serves l

/-- Calls that are concerned with the one lookup get on: the others are served as before. -/
theorem ServesOthers.move (h : ServesOthers calls f id)
    (hplaces : ∀ place ∈ places, ∀ s, calls.stage? place = some s → s.lookup? = some id)
    (hstage : ∀ other, stage.lookup? = some other → other = id) :
    ServesOthers (calls.move places stage) f id := by
  refine ⟨h.sent.move ?_, fun l hl hother => (h.serves l hl hother).move ?_ ?_⟩
  · intro place hmem s hs other hid
    rw [hstage other hid]
    exact hplaces place hmem s hs
  · intro place hmem s hs hid
    rw [hplaces place hmem s hs] at hid
    exact absurd (Option.some.inj hid).symm hother
  · intro hid
    exact hother (hstage l.id hid)

/-- Every lookup serves its calls. -/
structure Sound (x : ForkDesk) : Prop where
  forks : x.forks.Sound
  sent : Sent x.calls x.forks
  serves : ∀ l ∈ x.forks.lookups, x.calls.Serves l

theorem sound_empty : ({} : ForkDesk).Sound := by
  refine ⟨⟨List.nodup_nil, ?_, ?_⟩, ?_, ?_⟩
  · intro l hl
    cases hl
  · intro l hl
    cases hl
  · intro place c id hcall
    simp at hcall
  · intro l hl
    cases hl

namespace Sound

theorem servesOthers (h : x.Sound) (id : Nat) : ServesOthers x.calls x.forks id :=
  ⟨h.sent, fun l hl _ => h.serves l hl⟩

/-- A lookup changes, and serves its calls: so does every lookup. -/
theorem update (h : x.Sound) (hl : l ∈ x.forks.lookups) (hothers : ServesOthers calls x.forks l.id)
    {change : ForkLookup Nat → ForkLookup Nat}
    (hchange : (change l).id = l.id ∧ (change l).epoch = l.epoch ∧
      ∀ fork, l.answer = some fork → (change l).answer = some fork)
    (hforks : (x.forks.update l.id change).Sound) (hself : calls.Serves (change l)) :
    ({ forks := x.forks.update l.id change, calls } : ForkDesk).Sound := by
  refine ⟨hforks, hothers.sent.grows (Forks.grows_update fun before hbefore hid => ?_), ?_⟩
  · rw [h.forks.eq_of_id hbefore hl hid]
    exact hchange
  · intro l' hl'
    obtain ⟨before, hbefore, rfl⟩ := List.mem_map.1 hl'
    by_cases hid : before.id = l.id
    · rw [if_pos hid, h.forks.eq_of_id hbefore hl hid]
      exact hself
    · rw [if_neg hid]
      exact hothers.serves before hbefore hid

theorem call (h : x.Sound) (epoch : Epoch) : (x.call epoch).Sound := by
  refine ⟨h.forks.fetch epoch, ?_, ?_⟩
  · intro place c id hcall hid
    rcases ForkCalls.concat_cases hcall with hcall | rfl
    · exact h.sent.grows (x.forks.grows_fetch epoch) place c id hcall hid
    · obtain rfl := Option.some.inj hid
      exact x.forks.exists_fetch epoch
  · -- The new call does not yet take part in a lookup.
    have hserves : ∀ l, x.calls.Serves l → (x.call epoch).calls.Serves l := by
      intro l hl
      refine hl.congr fun place s hid hsent => ForkCalls.stage?_concat_eq_some ?_
      rintro rfl
      exact hsent (congrArg ForkStage.sent (Option.some.inj hid))
    intro l hl
    rcases x.forks.fetch_cases epoch with ⟨found, -, heq⟩ | ⟨-, heq⟩
    · unfold ForkDesk.call at hl
      rw [heq] at hl
      exact hserves l (h.serves l hl)
    · unfold ForkDesk.call at hl
      rw [heq] at hl
      rcases List.mem_append.1 hl with hl | hl
      · exact hserves l (h.serves l hl)
      · obtain rfl := List.mem_singleton.1 hl
        refine ForkCalls.serves_of_idle rfl rfl fun place s hs hid => ?_
        by_contra hsent
        unfold ForkDesk.call at hs
        rw [heq] at hs
        obtain ⟨epoch', hcall⟩ :=
          ForkCalls.exists_call ((ForkCalls.stage?_concat_eq_some hsent).1 hs)
        obtain ⟨l, hl, hnew, -⟩ := h.sent _ _ _ hcall hid
        exact absurd hnew (h.forks.fresh l hl).ne

/-- The call at a place gets on: lookups that it is not concerned with are served as before. -/
theorem servesOthers_move (h : x.Sound) {before : ForkStage}
    (hplace : x.calls.stage? place = some before) (hbefore : before.lookup? = some id)
    (hstage : ∀ other, stage.lookup? = some other → other = id) :
    ServesOthers (x.calls.move [place] stage) x.forks id := by
  refine (h.servesOthers id).move ?_ hstage
  intro i hi s hs
  rw [ForkCalls.stage_of_mem_singleton hplace i hi s hs]
  exact hbefore

theorem join (h : x.Sound) (hcall : x.calls[place]? = some ⟨epoch, .sent id⟩) :
    (x.join place id).Sound := by
  obtain ⟨l, hl, rfl, -⟩ := h.sent _ _ _ hcall rfl
  have hplace : x.calls.stage? place = some (.sent l.id) := ForkCalls.stage?_of_call hcall
  unfold ForkDesk.join
  rcases h.forks.join_cases hl place with
    ⟨fork, -, heq⟩ | ⟨-, hasking, heq⟩ | ⟨hanswer, hasking, heq⟩
  · rw [heq]
    have hplaces := ForkCalls.stage_of_mem_singleton hplace
    refine ⟨h.forks, h.sent.move ?_, fun l' hl' => (h.serves l' hl').move ?_ ?_⟩
    · intro i hi s hs id hid
      cases hid
    · intro i hi s hs hid
      rw [hplaces i hi s hs] at hid ⊢
      exact congrArg ForkStage.sent (Option.some.inj hid)
    · intro hid
      cases hid
  · rw [heq]
    have hothers : ServesOthers (x.calls.move [place] (.waiting l.id)) x.forks l.id :=
      h.servesOthers_move hplace rfl fun other hid => (Option.some.inj hid).symm
    exact h.update hl hothers ⟨rfl, rfl, fun _ h => h⟩ (h.forks.wait hl hasking place).1
      ((h.serves l hl).wait hplace)
  · rw [heq]
    have hothers : ServesOthers (x.calls.move [place] (.turn l.id)) x.forks l.id :=
      h.servesOthers_move hplace rfl fun other hid => (Option.some.inj hid).symm
    exact h.update hl hothers ⟨rfl, rfl, fun _ h => h⟩ (h.forks.ask hl).1
      ((h.serves l hl).ask hplace hanswer hasking)

theorem request (h : x.Sound) (hcall : x.calls[place]? = some ⟨epoch, .turn id⟩) :
    ({ x with calls := x.calls.move [place] (.asking id) } : ForkDesk).Sound := by
  obtain ⟨l, hl, rfl, -⟩ := h.sent _ _ _ hcall rfl
  have hplace : x.calls.stage? place = some (.turn l.id) := ForkCalls.stage?_of_call hcall
  have hothers : ServesOthers (x.calls.move [place] (.asking l.id)) x.forks l.id :=
    h.servesOthers_move hplace rfl fun other hid => (Option.some.inj hid).symm
  refine ⟨h.forks, hothers.sent, fun l' hl' => ?_⟩
  by_cases hid : l'.id = l.id
  · rw [h.forks.eq_of_id hl' hl hid]
    exact (h.serves l hl).request hplace
  · exact hothers.serves l' hl' hid

theorem answer_ok (h : x.Sound) (hl : l ∈ x.forks.lookups) (fork : ForkInfo) :
    x.answer place l.id epoch (.ok fork) =
      { forks := x.forks.update l.id fun l =>
          { l with answer := some fork, asking := false, line := [] }
        calls := x.calls.move (place :: l.line) (.returned (.ok fork)) } := by
  rw [ForkDesk.answer, h.forks.answered_eq hl]

theorem answer_error (h : x.Sound) (hl : l ∈ x.forks.lookups) (cause : Failure ApiError) :
    x.answer place l.id epoch (.error cause) =
      { forks := x.forks.update l.id fun l =>
          { l with asking := !l.line.isEmpty, line := l.line.tail }
        calls := (x.calls.move [place]
          (.returned (Attempt.widen (ForkLookupError.mk epoch) (.error cause)))).move
            l.line.head?.toList (.turn l.id) } := by
  rw [ForkDesk.answer, h.forks.failed_eq hl]

/-- The asker and those in line return the fork. -/
theorem success (h : x.Sound) (hl : l ∈ x.forks.lookups)
    (hcall : x.calls[place]? = some ⟨epoch, .asking l.id⟩) (fork : ForkInfo) :
    (x.answer place l.id epoch (.ok fork)).Sound := by
  have hplace : x.calls.stage? place = some (.asking l.id) := ForkCalls.stage?_of_call hcall
  have hserves := h.serves l hl
  have hforks := (h.forks.answered l.id fork).1
  rw [h.forks.answered_eq hl] at hforks
  rw [h.answer_ok hl]
  refine h.update hl ((h.servesOthers l.id).move ?_ ?_) ⟨rfl, rfl, ?_⟩ hforks
    (hserves.answered hplace fork)
  · intro i hi s hs
    obtain rfl | hi := List.mem_cons.1 hi
    · rw [hplace] at hs
      obtain rfl := Option.some.inj hs
      rfl
    · rw [hserves.line, hs] at hi
      obtain rfl := Option.some.inj hi
      rfl
  · intro other hid
    cases hid
  · intro fork' hfork'
    rw [hserves.answer_eq_none (Or.inr hplace)] at hfork'
    cases hfork'

/-- The asker returns, and the next in line has the turn to ask. -/
theorem failure (h : x.Sound) (hl : l ∈ x.forks.lookups)
    (hcall : x.calls[place]? = some ⟨epoch, .asking l.id⟩) (cause : Failure ApiError) :
    (x.answer place l.id epoch (.error cause)).Sound := by
  have hplace : x.calls.stage? place = some (.asking l.id) := ForkCalls.stage?_of_call hcall
  have hserves := h.serves l hl
  have hforks := (h.forks.failed l.id).1
  rw [h.forks.failed_eq hl] at hforks
  have hreturned : ∀ answer, ServesOthers (x.calls.move [place] (.returned answer)) x.forks l.id := by
    intro answer
    refine h.servesOthers_move hplace rfl fun other hid => ?_
    cases hid
  rw [h.answer_error hl]
  refine h.update hl ((hreturned _).move ?_ ?_) ⟨rfl, rfl, fun _ h => h⟩ hforks
    (hserves.failed hplace _)
  · -- The next in line waited for the same lookup.
    intro i hi s hs
    have hwaiting := (hserves.line i).1 (List.mem_of_mem_head? (Option.mem_toList.1 hi))
    have hother : i ∉ [place] := fun hi => by
      cases ForkCalls.stage_of_mem_singleton hplace i hi _ hwaiting
    rw [ForkCalls.stage?_move, if_neg hother, hwaiting] at hs
    obtain rfl := Option.some.inj hs
    rfl
  · intro other hid
    exact (Option.some.inj hid).symm

theorem answer (h : x.Sound) (hcall : x.calls[place]? = some ⟨epoch, .asking id⟩)
    (answer : Attempt ApiError ForkInfo) : (x.answer place id epoch answer).Sound := by
  obtain ⟨l, hl, rfl, -⟩ := h.sent _ _ _ hcall rfl
  cases answer with
  | ok fork => exact h.success hl hcall fork
  | error cause => exact h.failure hl hcall cause

theorem prune (h : x.Sound) (oldest : Epoch) :
    ({ x with forks := x.forks.prune oldest } : ForkDesk).Sound := by
  refine ⟨(h.forks.prune oldest).1, h.sent.grows (Forks.grows_map x.forks.nextId ?_), ?_⟩
  · intro l hl
    split <;> exact ⟨rfl, rfl, fun _ h => h⟩
  · intro l' hl'
    obtain ⟨l, hl, rfl⟩ := List.mem_map.1 hl'
    obtain ⟨hnodup, hline, hsingle, hasking, hanswer⟩ := h.serves l hl
    split <;> exact ⟨hnodup, hline, hsingle, hasking, hanswer⟩

theorem step (h : x.Sound) {happening : ForkEvent} (hstep : Step x happening y) : y.Sound := by
  cases hstep with
  | call epoch => exact h.call epoch
  | callFor c slot => exact h.call (c.epochOf slot)
  | join hcall => exact h.join hcall
  | request hcall => exact h.request hcall
  | answer hcall answer => exact h.answer hcall answer
  | prune oldest => exact h.prune oldest

end Sound

theorem Run.sound {log : List ForkEvent} (h : Run log x) : x.Sound := by
  induction h with
  | nil => exact sound_empty
  | snoc _ hstep ih => exact ih.step hstep

/-! ## What one step does -/

variable {happening : ForkEvent} {fork : ForkInfo}

/-- The calls that are concerned with one lookup are those of its epoch. -/
theorem Sound.epoch_eq (h : x.Sound) (hl : l ∈ x.forks.lookups)
    (hcall : x.calls[place]? = some ⟨epoch, stage⟩) (hid : stage.lookup? = some l.id) :
    l.epoch = epoch := by
  obtain ⟨l', hl', hsame, hepoch⟩ := h.sent _ _ _ hcall hid
  rw [h.forks.eq_of_id hl' hl hsame] at hepoch
  exact hepoch

theorem Sound.epoch_of_line (h : x.Sound) (hl : l ∈ x.forks.lookups) (hline : place ∈ l.line)
    (hcall : x.calls[place]? = some ⟨epoch, stage⟩) : l.epoch = epoch := by
  have hwaiting := ((h.serves l hl).line place).1 hline
  rw [ForkCalls.stage?_of_call hcall] at hwaiting
  obtain rfl := Option.some.inj hwaiting
  exact h.epoch_eq hl hcall rfl

/-- How the call at a place may have come to a stage. It asks when it makes a request; it returns what
    its lookup knows, what somebody has been answered for its epoch, or the failure that it has been
    answered itself. -/
inductive Origin (x : ForkDesk) (happening : ForkEvent) (place : Nat) (epoch : Epoch) :
    ForkStage → Prop where
  | same {stage : ForkStage} (hcall : x.calls[place]? = some ⟨epoch, stage⟩) :
      Origin x happening place epoch stage
  | sent (id : Nat) : Origin x happening place epoch (.sent id)
  | waiting (id : Nat) : Origin x happening place epoch (.waiting id)
  | turn (id : Nat) : Origin x happening place epoch (.turn id)
  | asked (id : Nat) (hevent : happening = .requested place epoch) :
      Origin x happening place epoch (.asking id)
  | known {l : ForkLookup Nat} {fork : ForkInfo} (hl : l ∈ x.forks.lookups) (hepoch : l.epoch = epoch)
      (hfork : l.answer = some fork) : Origin x happening place epoch (.returned (.ok fork))
  | given {asker : Nat} {fork : ForkInfo} (hevent : happening = .answered asker epoch (.ok fork)) :
      Origin x happening place epoch (.returned (.ok fork))
  | failed {cause : Failure ApiError} {id : Nat}
      (hevent : happening = .answered place epoch (.error cause))
      (hcall : x.calls[place]? = some ⟨epoch, .asking id⟩) :
      Origin x happening place epoch
        (.returned (Attempt.widen (ForkLookupError.mk epoch) (.error cause)))

/-- A call that is moved alone comes to its stage as the step says. -/
theorem origin_move {before : ForkStage} (hbefore : x.calls[place]? = some ⟨epoch, before⟩)
    (horigin : x.Origin happening place epoch stage) {other : Nat} {epoch' : Epoch}
    {stage' : ForkStage} (hcall : (x.calls.move [place] stage)[other]? = some ⟨epoch', stage'⟩) :
    x.Origin happening other epoch' stage' := by
  rcases ForkCalls.move_cases hcall with ⟨-, hcall⟩ | ⟨hmem, rfl, stage, hsame⟩
  · exact .same hcall
  · obtain rfl := List.mem_singleton.1 hmem
    obtain ⟨rfl, rfl⟩ := ForkCall.mk.inj (Option.some.inj (hsame.symm.trans hbefore))
    exact horigin

theorem origin_concat {id : Nat} {other : Nat} {epoch' : Epoch}
    (hcall : (x.calls ++ [⟨epoch, .sent id⟩])[other]? = some ⟨epoch', stage⟩) :
    x.Origin happening other epoch' stage := by
  rcases ForkCalls.concat_cases hcall with hcall | heq
  · exact .same hcall
  · obtain ⟨rfl, rfl⟩ := ForkCall.mk.inj heq
    exact .sent id

/-- What a step makes of the calls. -/
theorem Step.origin (hstep : Step x happening y) (h : x.Sound)
    (hcall : y.calls[place]? = some ⟨epoch, stage⟩) : x.Origin happening place epoch stage := by
  cases hstep with
  | call epoch' => exact origin_concat hcall
  | callFor c slot => exact origin_concat hcall
  | @join asker id epoch' hasker =>
      obtain ⟨l, hl, rfl, -⟩ := h.sent _ _ _ hasker rfl
      refine origin_move hasker ?_ hcall
      rcases h.forks.join_cases hl asker with ⟨fork, hfork, heq⟩ | ⟨-, -, heq⟩ | ⟨-, -, heq⟩
      · rw [heq]
        exact .known hl (h.epoch_eq hl hasker rfl) hfork
      · rw [heq]
        exact .waiting l.id
      · rw [heq]
        exact .turn l.id
  | @request asker id epoch' hasker => exact origin_move hasker (.asked id rfl) hcall
  | @answer asker id epoch' hasker answer =>
      obtain ⟨l, hl, rfl, -⟩ := h.sent _ _ _ hasker rfl
      cases answer with
      | ok fork =>
          rw [h.answer_ok hl] at hcall
          rcases ForkCalls.move_cases hcall with ⟨-, hcall⟩ | ⟨hmem, rfl, before, hbefore⟩
          · exact .same hcall
          · -- Those in line need the fork of the same epoch.
            have hepoch : epoch' = epoch := by
              obtain rfl | hline := List.mem_cons.1 hmem
              · exact (ForkCall.mk.inj (Option.some.inj (hasker.symm.trans hbefore))).1
              · exact (h.epoch_eq hl hasker rfl).symm.trans (h.epoch_of_line hl hline hbefore)
            exact .given (congrArg (ForkEvent.answered asker · (.ok fork)) hepoch)
      | error cause =>
          rw [h.answer_error hl] at hcall
          rcases ForkCalls.move_cases hcall with ⟨-, hcall⟩ | ⟨-, rfl, -⟩
          · exact origin_move hasker (.failed rfl hasker) hcall
          · exact .turn l.id
  | prune oldest => exact .same hcall

/-- A request stays under way until it is answered. -/
theorem Step.asking_cases (hstep : Step x happening y) (h : x.Sound)
    (hcall : x.calls[place]? = some ⟨epoch, .asking id⟩) :
    y.calls[place]? = some ⟨epoch, .asking id⟩ ∨
      ∃ answer, happening = .answered place epoch answer := by
  have hother : ∀ {i : Nat} {c : ForkCall}, x.calls[i]? = some c → c.stage ≠ .asking id →
      place ∉ [i] := by
    intro i c hi hstage hmem
    rw [List.mem_singleton.1 hmem, hi] at hcall
    exact hstage (congrArg ForkCall.stage (Option.some.inj hcall))
  cases hstep with
  | call epoch' => exact Or.inl (ForkCalls.getElem?_concat hcall _)
  | callFor c slot => exact Or.inl (ForkCalls.getElem?_concat hcall _)
  | join hasker =>
      refine Or.inl ?_
      unfold ForkDesk.join
      rw [ForkCalls.getElem?_move_of_not_mem _ _ (hother hasker (by simp))]
      exact hcall
  | request hasker =>
      refine Or.inl ?_
      rw [ForkCalls.getElem?_move_of_not_mem _ _ (hother hasker (by simp))]
      exact hcall
  | @answer asker id' epoch' hasker answer =>
      by_cases hsame : place = asker
      · subst hsame
        obtain ⟨rfl, -⟩ := ForkCall.mk.inj (Option.some.inj (hcall.symm.trans hasker))
        exact Or.inr ⟨answer, rfl⟩
      · -- Those who wait have not asked.
        obtain ⟨l, hl, rfl, -⟩ := h.sent _ _ _ hasker rfl
        obtain ⟨hline, hnext⟩ := (h.serves l hl).not_mem_line (ForkCalls.stage?_of_call hcall)
        refine Or.inl ?_
        cases answer with
        | ok fork =>
            rw [h.answer_ok hl, ForkCalls.getElem?_move_of_not_mem _ _ (by simp [hsame, hline])]
            exact hcall
        | error cause =>
            rw [h.answer_error hl, ForkCalls.getElem?_move_of_not_mem _ _ hnext,
              ForkCalls.getElem?_move_of_not_mem _ _ (by simp [hsame])]
            exact hcall
  | prune oldest => exact Or.inl hcall

/-- Who asked returns the answer. -/
theorem Step.returned {answer : Attempt ApiError ForkInfo}
    (hstep : Step x (.answered place epoch answer) y) (h : x.Sound) :
    y.calls[place]? = some ⟨epoch, .returned (answer.widen (ForkLookupError.mk epoch))⟩ := by
  cases hstep with
  | answer hcall =>
      obtain ⟨l, hl, rfl, -⟩ := h.sent _ _ _ hcall rfl
      cases answer with
      | ok fork =>
          rw [h.answer_ok hl, ForkCalls.getElem?_move, hcall, Option.map_some,
            if_pos List.mem_cons_self]
          rfl
      | error cause =>
          have hnext := ((h.serves l hl).not_mem_line (ForkCalls.stage?_of_call hcall)).2
          rw [h.answer_error hl, ForkCalls.getElem?_move_of_not_mem _ _ hnext,
            ForkCalls.getElem?_move, hcall, Option.map_some, if_pos (List.mem_singleton_self _)]

/-- What a step makes of a lookup. -/
structure Follows (happening : ForkEvent) (l l' : ForkLookup Nat) : Prop where
  id : l'.id = l.id
  epoch : l'.epoch = l.epoch
  listed : l'.listed = l.listed ∨ ∃ oldest, happening = .pruned oldest ∧ l.epoch < oldest
  answer : l'.answer = l.answer ∨
    (l.answer = none ∧ ∃ asker fork, happening = .answered asker l.epoch (.ok fork) ∧
      l'.answer = some fork)

theorem Follows.refl (happening : ForkEvent) (l : ForkLookup Nat) : Follows happening l l :=
  ⟨rfl, rfl, Or.inl rfl, Or.inl rfl⟩

theorem Sound.follows_update (h : x.Sound) (hl : l ∈ x.forks.lookups)
    {change : ForkLookup Nat → ForkLookup Nat} (hchange : Follows happening l (change l)) :
    ∀ l' ∈ x.forks.lookups, Follows happening l' (if l'.id = l.id then change l' else l') := by
  intro l' hl'
  by_cases hid : l'.id = l.id
  · rw [if_pos hid, h.forks.eq_of_id hl' hl hid]
    exact hchange
  · rw [if_neg hid]
    exact .refl happening l'

/-- A step begins a lookup at most, or makes something of those that there are. -/
theorem Step.forks_cases (hstep : Step x happening y) (h : x.Sound) :
    (∃ epoch, y.forks = (x.forks.fetch epoch).2) ∨
    ∃ g nextId, y.forks = { lookups := x.forks.lookups.map g, nextId } ∧
      ∀ l ∈ x.forks.lookups, Follows happening l (g l) := by
  cases hstep with
  | call epoch => exact Or.inl ⟨epoch, rfl⟩
  | callFor c slot => exact Or.inl ⟨c.epochOf slot, rfl⟩
  | @join place id epoch hasker =>
      obtain ⟨l, hl, rfl, -⟩ := h.sent _ _ _ hasker rfl
      refine Or.inr ?_
      unfold ForkDesk.join
      rcases h.forks.join_cases hl place with ⟨fork, -, heq⟩ | ⟨-, -, heq⟩ | ⟨-, -, heq⟩
      · rw [heq]
        refine ⟨fun l => l, x.forks.nextId, ?_, fun l _ => .refl _ l⟩
        rw [List.map_id']
      · rw [heq]
        exact ⟨_, _, rfl, h.follows_update hl ⟨rfl, rfl, Or.inl rfl, Or.inl rfl⟩⟩
      · rw [heq]
        exact ⟨_, _, rfl, h.follows_update hl ⟨rfl, rfl, Or.inl rfl, Or.inl rfl⟩⟩
  | request hasker =>
      refine Or.inr ⟨fun l => l, x.forks.nextId, ?_, fun l _ => .refl _ l⟩
      rw [List.map_id']
  | @answer asker id epoch hasker answer =>
      obtain ⟨l, hl, rfl, -⟩ := h.sent _ _ _ hasker rfl
      have hunknown := (h.serves l hl).answer_eq_none (Or.inr (ForkCalls.stage?_of_call hasker))
      refine Or.inr ?_
      cases answer with
      | ok fork =>
          rw [h.answer_ok hl]
          refine ⟨_, _, rfl, h.follows_update hl ⟨rfl, rfl, Or.inl rfl, Or.inr ?_⟩⟩
          exact ⟨hunknown, asker, fork, by rw [h.epoch_eq hl hasker rfl], rfl⟩
      | error cause =>
          rw [h.answer_error hl]
          exact ⟨_, _, rfl, h.follows_update hl ⟨rfl, rfl, Or.inl rfl, Or.inl rfl⟩⟩
  | prune oldest =>
      refine Or.inr ⟨_, _, rfl, fun l hl => ?_⟩
      by_cases hlt : l.epoch < oldest
      · rw [if_pos hlt]
        exact ⟨rfl, rfl, Or.inr ⟨oldest, rfl, hlt⟩, Or.inl rfl⟩
      · rw [if_neg hlt]
        exact .refl _ l

/-- Lookups keep their answers. -/
theorem Step.grows (hstep : Step x happening y) (h : x.Sound) : x.forks.Grows y.forks := by
  rcases hstep.forks_cases h with ⟨epoch, heq⟩ | ⟨g, nextId, heq, hfollows⟩
  · rw [heq]
    exact x.forks.grows_fetch epoch
  · rw [heq]
    refine Forks.grows_map nextId fun l hl => ⟨(hfollows l hl).id, (hfollows l hl).epoch, ?_⟩
    intro fork hfork
    rcases (hfollows l hl).answer with hsame | ⟨hnone, -⟩
    · exact hsame.trans hfork
    · rw [hnone] at hfork
      cases hfork

/-- A lookup that has an answer had it before, or gets it now. -/
theorem Step.answer_cases (hstep : Step x happening y) (h : x.Sound) (hl : l ∈ y.forks.lookups)
    (hfork : l.answer = some fork) :
    (∃ l' ∈ x.forks.lookups, l'.epoch = l.epoch ∧ l'.answer = some fork) ∨
      ∃ asker, happening = .answered asker l.epoch (.ok fork) := by
  rcases hstep.forks_cases h with ⟨epoch, heq⟩ | ⟨g, nextId, heq, hfollows⟩
  · rw [heq] at hl
    rcases x.forks.mem_fetch hl with hl | hnew
    · exact Or.inl ⟨l, hl, rfl, hfork⟩
    · rw [hnew] at hfork
      cases hfork
  · rw [heq] at hl
    obtain ⟨before, hbefore, rfl⟩ := List.mem_map.1 hl
    have hfollows := hfollows before hbefore
    rcases hfollows.answer with hsame | ⟨-, asker, fork', hevent, hfork'⟩
    · exact Or.inl ⟨before, hbefore, hfollows.epoch.symm, hsame.symm.trans hfork⟩
    · obtain rfl := Option.some.inj (hfork'.symm.trans hfork)
      exact Or.inr ⟨asker, hfollows.epoch ▸ hevent⟩

/-- An epoch that is not forgotten keeps its lookup. -/
theorem Step.single (hstep : Step x happening y) (h : x.Sound)
    (hkeeps : ∀ oldest, happening = .pruned oldest → oldest ≤ e) (hsingle : x.forks.Single e) :
    y.forks.Single e := by
  rcases hstep.forks_cases h with ⟨epoch, heq⟩ | ⟨g, nextId, heq, hfollows⟩
  · rw [heq]
    exact hsingle.fetch epoch
  · rw [heq]
    refine hsingle.map nextId fun l hl => ⟨(hfollows l hl).epoch, ?_⟩
    rintro rfl
    rcases (hfollows l hl).listed with hsame | ⟨oldest, hpruned, hlt⟩
    · exact hsame
    · exact absurd hlt (Nat.not_lt.2 (hkeeps oldest hpruned))

end ForkDesk

end Beacon
