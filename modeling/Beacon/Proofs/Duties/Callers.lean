import Mathlib
import Beacon.Proofs.Duties.Lookups

set_option autoImplicit false

/-! # Calls for forks

Whoever calls for the fork of an epoch is sent to a lookup, and only later takes part in it:
`Forks.enter` in two parts, `Forks.fetch` and `Forks.join` (`Forks.Sound.enter_eq`). He then knows the
fork, waits in line, or has the turn to ask, and his request may take any time (`ForkStage`).

A lookup serves its calls (`ForkCalls.Serves`): those who wait for it stand in its line, one of them at
most has the turn to ask, and nobody once there is an answer. It goes on to do so when one more waits
(`Serves.wait`), is given the turn (`Serves.ask`) or asks (`Serves.request`), after a success
(`Serves.answered`) and after a failure (`Serves.failed`). -/

namespace Beacon

/-! ## Taking part in a lookup -/

namespace Forks

variable {τ : Type} {f : Forks τ} {l : ForkLookup τ} {id : Nat} {epoch : Epoch}

/-- Somebody needs the fork of an epoch: the lookup he is sent to, which begins if there is none. -/
def fetch (f : Forks τ) (epoch : Epoch) : Nat × Forks τ :=
  match f.lookup? epoch with
  | some l => (l.id, f)
  | none =>
    (f.nextId, { lookups := f.lookups ++ [{ id := f.nextId, epoch }], nextId := f.nextId + 1 })

/-- Take part in a lookup; whoever has to wait goes to the end of the line. -/
def join (f : Forks τ) (id : Nat) (ticket : τ) : ForkEntry × Forks τ :=
  match f.lookups.find? (·.id = id) with
  | none => (.wait, f)
  | some l =>
    match l.answer with
    | some fork => (.known fork, f)
    | none =>
      if l.asking then (.wait, f.update id fun l => { l with line := l.line ++ [ticket] })
      else (.ask id, f.update id fun l => { l with asking := true })

theorem lookup?_eq_some (h : f.lookup? epoch = some l) :
    l ∈ f.lookups ∧ l.listed = true ∧ l.epoch = epoch := by
  have hfound := List.find?_some h
  simp only [Bool.and_eq_true, beq_iff_eq] at hfound
  exact ⟨List.mem_of_find?_eq_some h, hfound⟩

/-- The lookup that somebody is sent to is one of his epoch; either there are no new lookups, or it is
    the only new one. -/
theorem fetch_cases (f : Forks τ) (epoch : Epoch) :
    (∃ l, f.lookup? epoch = some l ∧ f.fetch epoch = (l.id, f)) ∨
    (f.lookup? epoch = none ∧ f.fetch epoch = (f.nextId,
      { lookups := f.lookups ++ [{ id := f.nextId, epoch }], nextId := f.nextId + 1 })) := by
  unfold fetch
  cases hlookup : f.lookup? epoch with
  | none => exact Or.inr ⟨rfl, rfl⟩
  | some l => exact Or.inl ⟨l, rfl, rfl⟩

theorem Sound.fetch (h : f.Sound) (epoch : Epoch) : (f.fetch epoch).2.Sound := by
  rcases f.fetch_cases epoch with ⟨l, -, heq⟩ | ⟨-, heq⟩
  · rw [heq]
    exact h
  · rw [heq]
    exact (h.begin epoch false).1

theorem exists_fetch (f : Forks τ) (epoch : Epoch) :
    ∃ l ∈ (f.fetch epoch).2.lookups, l.id = (f.fetch epoch).1 ∧ l.epoch = epoch := by
  rcases f.fetch_cases epoch with ⟨l, hlookup, heq⟩ | ⟨-, heq⟩
  · obtain ⟨hl, -, hepoch⟩ := lookup?_eq_some hlookup
    rw [heq]
    exact ⟨l, hl, rfl, hepoch⟩
  · rw [heq]
    exact ⟨_, List.mem_append_right _ (List.mem_singleton_self _), rfl, rfl⟩

theorem mem_fetch (f : Forks τ) (h : l ∈ (f.fetch epoch).2.lookups) :
    l ∈ f.lookups ∨ l = { id := f.nextId, epoch } := by
  rcases f.fetch_cases epoch with ⟨found, -, heq⟩ | ⟨-, heq⟩
  · rw [heq] at h
    exact Or.inl h
  · rw [heq] at h
    exact (List.mem_append.1 h).imp id List.mem_singleton.1

/-- Whoever takes part in a lookup is given its answer, if there is one; else he has the turn to ask
    unless somebody else has it. -/
theorem Sound.join_cases (h : f.Sound) (hl : l ∈ f.lookups) (ticket : τ) :
    (∃ fork, l.answer = some fork ∧ f.join l.id ticket = (.known fork, f)) ∨
    (l.answer = none ∧ l.asking = true ∧ f.join l.id ticket =
      (.wait, f.update l.id fun l => { l with line := l.line ++ [ticket] })) ∨
    (l.answer = none ∧ l.asking = false ∧ f.join l.id ticket =
      (.ask l.id, f.update l.id fun l => { l with asking := true })) := by
  unfold join
  rw [h.find?_eq hl]
  cases hanswer : l.answer with
  | some fork => exact Or.inl ⟨fork, rfl, by simp only [hanswer]⟩
  | none =>
      cases hasking : l.asking with
      | true => exact Or.inr (Or.inl ⟨rfl, rfl, by simp only [hanswer, hasking, if_true]⟩)
      | false =>
          refine Or.inr (Or.inr ⟨rfl, rfl, ?_⟩)
          simp only [hanswer, hasking, Bool.false_eq_true, if_false]

/-- Whoever takes part in the lookup that he is sent to at once enters. -/
theorem Sound.enter_eq (h : f.Sound) (epoch : Epoch) (ticket : τ) :
    f.enter epoch ticket = (f.fetch epoch).2.join (f.fetch epoch).1 ticket := by
  rcases f.fetch_cases epoch with ⟨l, hlookup, heq⟩ | ⟨hlookup, heq⟩
  · rw [heq]
    rcases h.join_cases (lookup?_eq_some hlookup).1 ticket with
      ⟨fork, hanswer, hjoin⟩ | ⟨hanswer, hasking, hjoin⟩ | ⟨hanswer, hasking, hjoin⟩
    · simp only [hjoin, enter, hlookup, hanswer]
    · simp only [hjoin, enter, hlookup, hanswer, hasking, if_true]
    · simp only [hjoin, enter, hlookup, hanswer, hasking, Bool.false_eq_true, if_false]
  · -- Nobody has the turn to ask for a lookup that has just begun.
    have hsound := (h.begin epoch false).1
    have hnew : ({ id := f.nextId, epoch } : ForkLookup τ) ∈
        f.lookups ++ [{ id := f.nextId, epoch }] := List.mem_append_right _ (List.mem_singleton_self _)
    have hothers : (f.lookups.map fun x =>
        if x.id = f.nextId then { x with asking := true } else x) = f.lookups :=
      congrArg Forks.lookups (update_of_forall_ne fun x hx => (h.fresh x hx).ne)
    rw [heq, enter, hlookup, join, hsound.find?_eq hnew]
    simp only [Bool.false_eq_true, if_false, Forks.update, List.map_append, hothers,
      List.map_singleton, if_true]

/-- Lookups keep their numbers, their epochs and their answers. -/
def Grows (f g : Forks τ) : Prop :=
  ∀ l ∈ f.lookups, ∃ l' ∈ g.lookups, l'.id = l.id ∧ l'.epoch = l.epoch ∧
    ∀ fork, l.answer = some fork → l'.answer = some fork

theorem Grows.refl (f : Forks τ) : f.Grows f := fun l hl => ⟨l, hl, rfl, rfl, fun _ h => h⟩

theorem grows_fetch (f : Forks τ) (epoch : Epoch) : f.Grows (f.fetch epoch).2 := by
  rcases f.fetch_cases epoch with ⟨l, -, heq⟩ | ⟨-, heq⟩
  · rw [heq]
    exact .refl f
  · rw [heq]
    exact fun l hl => ⟨l, List.mem_append_left _ hl, rfl, rfl, fun _ h => h⟩

theorem grows_map {g : ForkLookup τ → ForkLookup τ} (nextId : Nat)
    (hg : ∀ l ∈ f.lookups, (g l).id = l.id ∧ (g l).epoch = l.epoch ∧
      ∀ fork, l.answer = some fork → (g l).answer = some fork) :
    f.Grows { lookups := f.lookups.map g, nextId } :=
  fun l hl => ⟨g l, List.mem_map_of_mem hl, hg l hl⟩

theorem grows_update {change : ForkLookup τ → ForkLookup τ}
    (hchange : ∀ l ∈ f.lookups, l.id = id → (change l).id = l.id ∧ (change l).epoch = l.epoch ∧
      ∀ fork, l.answer = some fork → (change l).answer = some fork) :
    f.Grows (f.update id change) := by
  refine grows_map f.nextId fun l hl => ?_
  by_cases hid : l.id = id
  · rw [if_pos hid]
    exact hchange l hl hid
  · rw [if_neg hid]
    exact ⟨rfl, rfl, fun _ h => h⟩

/-- There is one lookup for an epoch at most, and newcomers are sent there. -/
structure Single (e : Epoch) (f : Forks τ) : Prop where
  listed : ∀ l ∈ f.lookups, l.epoch = e → l.listed = true
  one : ∀ l ∈ f.lookups, ∀ l' ∈ f.lookups, l.epoch = e → l'.epoch = e → l = l'

theorem Single.fetch {e : Epoch} (h : f.Single e) (epoch : Epoch) : (f.fetch epoch).2.Single e := by
  rcases f.fetch_cases epoch with ⟨l, -, heq⟩ | ⟨hnone, heq⟩
  · rw [heq]
    exact h
  · rw [heq]
    -- A lookup begins only where there is none.
    have hfirst : ∀ l ∈ f.lookups, l.epoch = e → epoch ≠ e := by
      rintro l hl hepoch rfl
      have hnot := List.find?_eq_none.1 hnone l hl
      simp [h.listed l hl hepoch, hepoch] at hnot
    refine ⟨?_, ?_⟩
    · intro l hl hepoch
      rcases List.mem_append.1 hl with hl | hl
      · exact h.listed l hl hepoch
      · rw [List.mem_singleton.1 hl]
    · intro l hl l' hl' hepoch hepoch'
      rcases List.mem_append.1 hl with hl | hl <;> rcases List.mem_append.1 hl' with hl' | hl'
      · exact h.one l hl l' hl' hepoch hepoch'
      · rw [List.mem_singleton.1 hl'] at hepoch'
        exact absurd hepoch' (hfirst l hl hepoch)
      · rw [List.mem_singleton.1 hl] at hepoch
        exact absurd hepoch (hfirst l' hl' hepoch')
      · rw [List.mem_singleton.1 hl, List.mem_singleton.1 hl']

theorem Single.map {e : Epoch} (h : f.Single e) {g : ForkLookup τ → ForkLookup τ} (nextId : Nat)
    (hg : ∀ l ∈ f.lookups, (g l).epoch = l.epoch ∧ (l.epoch = e → (g l).listed = l.listed)) :
    ({ lookups := f.lookups.map g, nextId } : Forks τ).Single e := by
  refine ⟨?_, ?_⟩
  · intro l' hl' hepoch
    obtain ⟨l, hl, rfl⟩ := List.mem_map.1 hl'
    rw [(hg l hl).1] at hepoch
    rw [(hg l hl).2 hepoch]
    exact h.listed l hl hepoch
  · intro l₁ hl₁ l₂ hl₂ hepoch₁ hepoch₂
    obtain ⟨l, hl, rfl⟩ := List.mem_map.1 hl₁
    obtain ⟨l', hl', rfl⟩ := List.mem_map.1 hl₂
    rw [(hg l hl).1] at hepoch₁
    rw [(hg l' hl').1] at hepoch₂
    rw [h.one l hl l' hl' hepoch₁ hepoch₂]

end Forks

/-! ## Calls -/

/-- Where a call is. -/
inductive ForkStage where
  /-- It has been sent to a lookup. -/
  | sent (id : Nat)
  | waiting (id : Nat)
  /-- It has the turn to ask. -/
  | turn (id : Nat)
  /-- It has asked, and there is no answer yet. -/
  | asking (id : Nat)
  | returned (answer : Attempt ForkLookupError ForkInfo)

/-- The lookup that a call is concerned with. -/
def ForkStage.lookup? : ForkStage → Option Nat
  | .sent id | .waiting id | .turn id | .asking id => some id
  | .returned _ => none

/-- Where a call is after it has taken part in a lookup. -/
def ForkEntry.stage (id : Nat) : ForkEntry → ForkStage
  | .known fork => .returned (.ok fork)
  | .ask _ => .turn id
  | .wait => .waiting id

/-- A call for the fork of an epoch. -/
structure ForkCall where
  epoch : Epoch
  stage : ForkStage

/-- All calls; each is known by its place. -/
abbrev ForkCalls : Type := List ForkCall

namespace ForkCalls

/-- The calls at some places get on to a stage. -/
def move (calls : ForkCalls) (places : List Nat) (stage : ForkStage) : ForkCalls :=
  calls.mapIdx fun place c => if place ∈ places then { c with stage } else c

/-- The stage of the call at a place. -/
def stage? (calls : ForkCalls) (place : Nat) : Option ForkStage := calls[place]?.map (·.stage)

/-- The call at a place has the turn to ask on behalf of a lookup, or has asked. -/
def HasTurn (calls : ForkCalls) (id place : Nat) : Prop :=
  calls.stage? place = some (.turn id) ∨ calls.stage? place = some (.asking id)

variable {calls : ForkCalls} {places : List Nat} {stage : ForkStage} {place id : Nat} {c : ForkCall}
  {epoch : Epoch}

theorem getElem?_move (calls : ForkCalls) (places : List Nat) (stage : ForkStage) (place : Nat) :
    (calls.move places stage)[place]? =
      calls[place]?.map fun c => if place ∈ places then { c with stage } else c := by
  unfold move
  rw [List.getElem?_mapIdx]

theorem getElem?_move_of_not_mem (calls : ForkCalls) (stage : ForkStage) (h : place ∉ places) :
    (calls.move places stage)[place]? = calls[place]? := by
  rw [getElem?_move]
  simp [h]

theorem move_nil (calls : ForkCalls) (stage : ForkStage) : calls.move [] stage = calls := by
  refine List.ext_getElem? fun place => ?_
  rw [getElem?_move]
  simp

/-- A call that is not moved stays as it is, and one that is moved keeps its epoch. -/
theorem move_cases (h : (calls.move places stage)[place]? = some c) :
    (place ∉ places ∧ calls[place]? = some c) ∨
    (place ∈ places ∧ c.stage = stage ∧ ∃ before, calls[place]? = some ⟨c.epoch, before⟩) := by
  rw [getElem?_move] at h
  obtain ⟨before, hbefore, heq⟩ := Option.map_eq_some_iff.1 h
  by_cases hmoved : place ∈ places
  · rw [if_pos hmoved] at heq
    subst heq
    exact Or.inr ⟨hmoved, rfl, before.stage, hbefore⟩
  · rw [if_neg hmoved] at heq
    subst heq
    exact Or.inl ⟨hmoved, hbefore⟩

theorem concat_cases (h : (calls ++ [⟨epoch, stage⟩])[place]? = some c) :
    calls[place]? = some c ∨ c = ⟨epoch, stage⟩ := by
  rcases Nat.lt_or_ge place calls.length with hlt | hge
  · rw [List.getElem?_append_left hlt] at h
    exact Or.inl h
  · rw [List.getElem?_append_right hge] at h
    exact Or.inr (List.mem_singleton.1 (List.mem_of_getElem? h))

theorem getElem?_concat (h : calls[place]? = some c) (d : ForkCall) :
    (calls ++ [d])[place]? = some c := by
  rw [List.getElem?_append_left (List.getElem?_eq_some_iff.1 h).1]
  exact h

theorem stage?_of_call (h : calls[place]? = some c) : calls.stage? place = some c.stage := by
  unfold stage?
  rw [h]
  rfl

theorem stage_of_mem_singleton (h : calls.stage? place = some stage) :
    ∀ i ∈ [place], ∀ s, calls.stage? i = some s → s = stage := by
  intro i hi s hs
  rw [List.mem_singleton.1 hi, h] at hs
  exact (Option.some.inj hs).symm

theorem exists_call (h : calls.stage? place = some stage) :
    ∃ epoch, calls[place]? = some ⟨epoch, stage⟩ := by
  obtain ⟨c, hcall, rfl⟩ := Option.map_eq_some_iff.1 h
  exact ⟨c.epoch, hcall⟩

theorem stage?_move (calls : ForkCalls) (places : List Nat) (stage : ForkStage) (place : Nat) :
    (calls.move places stage).stage? place =
      if place ∈ places then (calls.stage? place).map fun _ => stage else calls.stage? place := by
  unfold stage?
  rw [getElem?_move]
  split <;> cases calls[place]? <;> rfl

theorem stage?_concat_eq_some {s : ForkStage} (hs : s ≠ stage) :
    (calls ++ [⟨epoch, stage⟩] : ForkCalls).stage? place = some s ↔ calls.stage? place = some s := by
  constructor
  · intro h
    obtain ⟨epoch', hcall⟩ := exists_call h
    rcases concat_cases hcall with hcall | heq
    · exact stage?_of_call hcall
    · exact absurd (congrArg ForkCall.stage heq) hs
  · intro h
    obtain ⟨epoch', hcall⟩ := exists_call h
    exact stage?_of_call (getElem?_concat hcall _)

/-! ## A lookup and its calls -/

/-- Those who wait for a lookup stand in its line, one of its calls at most has the turn to ask, and
    none when there is an answer. -/
structure Serves (calls : ForkCalls) (l : ForkLookup Nat) : Prop where
  nodup : l.line.Nodup
  line : ∀ place, place ∈ l.line ↔ calls.stage? place = some (.waiting l.id)
  single : ∀ i j, calls.HasTurn l.id i → calls.HasTurn l.id j → i = j
  asking : l.asking = true ↔ ∃ place, calls.HasTurn l.id place
  answer : ∀ fork, l.answer = some fork → l.asking = false

variable {l l' : ForkLookup Nat}

/-- Nobody has the turn to ask for what is known. -/
theorem Serves.answer_eq_none (h : calls.Serves l) (hturn : calls.HasTurn l.id place) :
    l.answer = none := by
  cases hfork : l.answer with
  | none => rfl
  | some fork =>
      have hasking := h.asking.2 ⟨place, hturn⟩
      rw [h.answer fork hfork] at hasking
      cases hasking

/-- Who has asked does not stand in a line. -/
theorem Serves.not_mem_line (h : calls.Serves l) (hplace : calls.stage? place = some (.asking id)) :
    place ∉ l.line ∧ place ∉ l.line.head?.toList := by
  have hline : place ∉ l.line := by
    rw [h.line, hplace]
    simp
  exact ⟨hline, fun hnext => hline (List.mem_of_mem_head? (Option.mem_toList.1 hnext))⟩

/-- It makes no difference which calls have just been sent to a lookup. -/
theorem Serves.congr {calls' : ForkCalls} (h : calls.Serves l)
    (hsame : ∀ place stage, stage.lookup? = some l.id → stage ≠ .sent l.id →
      (calls'.stage? place = some stage ↔ calls.stage? place = some stage)) : calls'.Serves l := by
  have hturn : ∀ place, calls'.HasTurn l.id place ↔ calls.HasTurn l.id place := fun place =>
    or_congr (hsame place (.turn l.id) rfl (by simp)) (hsame place (.asking l.id) rfl (by simp))
  refine ⟨h.nodup, ?_, ?_, ?_, h.answer⟩
  · intro place
    rw [h.line, hsame place (.waiting l.id) rfl (by simp)]
  · intro i j hi hj
    rw [hturn] at hi hj
    exact h.single i j hi hj
  · simp only [h.asking, hturn]

/-- Other lookups are served as before. -/
theorem Serves.move (h : calls.Serves l) (hbefore : ∀ place ∈ places, ∀ s,
      calls.stage? place = some s → s.lookup? = some l.id → s = .sent l.id)
    (hafter : stage.lookup? ≠ some l.id) : (calls.move places stage).Serves l := by
  refine h.congr fun place s hs hsent => ?_
  rw [stage?_move]
  by_cases hmoved : place ∈ places
  · rw [if_pos hmoved]
    constructor
    · intro heq
      obtain ⟨-, -, rfl⟩ := Option.map_eq_some_iff.1 heq
      exact absurd hs hafter
    · intro heq
      exact absurd (hbefore place hmoved s heq hs) hsent
  · rw [if_neg hmoved]

/-- Nobody takes part in the lookup. -/
theorem serves_of_idle (hline : l.line = []) (hasking : l.asking = false)
    (hidle : ∀ place s, calls.stage? place = some s → s.lookup? = some l.id → s = .sent l.id) :
    calls.Serves l := by
  have hturn : ∀ place, ¬ calls.HasTurn l.id place := by
    rintro place (hplace | hplace)
    · cases hidle place _ hplace rfl
    · cases hidle place _ hplace rfl
  refine ⟨?_, ?_, ?_, ?_, fun _ _ => hasking⟩
  · rw [hline]
    exact List.nodup_nil
  · intro place
    rw [hline]
    constructor
    · intro hplace
      cases hplace
    · intro hplace
      cases hidle place _ hplace rfl
  · intro i j hi
    exact absurd hi (hturn i)
  · rw [hasking]
    constructor
    · intro hfalse
      cases hfalse
    · rintro ⟨place, hplace⟩
      exact absurd hplace (hturn place)

theorem hasTurn_move {i : Nat} : (calls.move places stage).HasTurn id i ↔
    if i ∈ places then (stage = .turn id ∨ stage = .asking id) ∧ calls.stage? i ≠ none
    else calls.HasTurn id i := by
  unfold HasTurn
  rw [stage?_move]
  split
  · cases calls.stage? i <;> simp
  · exact Iff.rfl

theorem not_hasTurn (h : calls.stage? place = some stage)
    (hstage : stage ≠ .turn id ∧ stage ≠ .asking id) : ¬ calls.HasTurn id place := by
  rintro (hturn | hturn)
  · exact hstage.1 (Option.some.inj (h.symm.trans hturn))
  · exact hstage.2 (Option.some.inj (h.symm.trans hturn))

/-- One more waits. -/
theorem Serves.wait (h : calls.Serves l) (hplace : calls.stage? place = some (.sent l.id)) :
    (calls.move [place] (.waiting l.id)).Serves { l with line := l.line ++ [place] } := by
  have hturn : ∀ i, (calls.move [place] (.waiting l.id)).HasTurn l.id i ↔
      calls.HasTurn l.id i := by
    intro i
    rw [hasTurn_move]
    by_cases hi : i = place
    · subst hi
      simp [not_hasTurn hplace]
    · simp [hi]
  refine ⟨?_, ?_, ?_, ?_, h.answer⟩
  · refine h.nodup.append (List.nodup_singleton _) (List.disjoint_singleton.2 fun hmem => ?_)
    rw [h.line, hplace] at hmem
    cases hmem
  · intro i
    rw [List.mem_append, List.mem_singleton, h.line, stage?_move]
    by_cases hi : i = place
    · subst hi
      simp [hplace]
    · simp [hi]
  · intro i j hi hj
    exact h.single i j ((hturn i).1 hi) ((hturn j).1 hj)
  · simp only [h.asking, hturn]

/-- Where nobody has the turn to ask somebody may be given it. -/
theorem Serves.hasTurn_iff (h : calls.Serves l) (hasking : l.asking = false)
    (hplace : calls.stage? place = some stage) (i : Nat) :
    (calls.move [place] (.turn l.id)).HasTurn l.id i ↔ i = place := by
  rw [hasTurn_move]
  by_cases hi : i = place
  · subst hi
    simp [hplace]
  · have hnobody : ¬ calls.HasTurn l.id i := fun hi => by
      simp [h.asking.2 ⟨i, hi⟩] at hasking
    simp [hi, hnobody]

/-- A call has the turn to ask that nobody else has. -/
theorem Serves.ask (h : calls.Serves l) (hplace : calls.stage? place = some (.sent l.id))
    (hanswer : l.answer = none) (hasking : l.asking = false) :
    (calls.move [place] (.turn l.id)).Serves { l with asking := true } := by
  have hturn := h.hasTurn_iff hasking hplace
  refine ⟨h.nodup, ?_, ?_, ?_, ?_⟩
  · intro i
    rw [h.line, stage?_move]
    by_cases hi : i = place
    · subst hi
      simp [hplace]
    · simp [hi]
  · intro i j hi hj
    rw [(hturn i).1 hi, (hturn j).1 hj]
  · simp only [hturn, exists_eq]
  · intro fork hfork
    rw [hanswer] at hfork
    cases hfork

/-- Who has the turn to ask keeps it while his request is under way. -/
theorem Serves.request (h : calls.Serves l) (hplace : calls.stage? place = some (.turn l.id)) :
    (calls.move [place] (.asking l.id)).Serves l := by
  have hturn : ∀ i, (calls.move [place] (.asking l.id)).HasTurn l.id i ↔ calls.HasTurn l.id i := by
    intro i
    rw [hasTurn_move]
    by_cases hi : i = place
    · subst hi
      simp [hplace, HasTurn]
    · simp [hi]
  refine ⟨h.nodup, ?_, ?_, ?_, h.answer⟩
  · intro i
    rw [h.line, stage?_move]
    by_cases hi : i = place
    · subst hi
      simp [hplace]
    · simp [hi]
  · intro i j hi hj
    exact h.single i j ((hturn i).1 hi) ((hturn j).1 hj)
  · simp only [h.asking, hturn]

/-- After a success everybody has been served. -/
theorem Serves.answered (h : calls.Serves l) (hplace : calls.stage? place = some (.asking l.id))
    (fork : ForkInfo) : (calls.move (place :: l.line) (.returned (.ok fork))).Serves
      { l with answer := some fork, asking := false, line := [] } := by
  refine serves_of_idle rfl rfl fun i s hs hlookup => ?_
  rw [stage?_move] at hs
  split at hs
  · obtain ⟨-, -, rfl⟩ := Option.map_eq_some_iff.1 hs
    cases hlookup
  · next hnot =>
      rw [List.mem_cons, not_or] at hnot
      have hothers : ∀ j, calls.HasTurn l.id j → j = place := fun j hj =>
        h.single j place hj (Or.inr hplace)
      cases s with
      | sent id => exact congrArg ForkStage.sent (Option.some.inj hlookup)
      | waiting id =>
          obtain rfl := Option.some.inj hlookup
          exact absurd ((h.line i).2 hs) hnot.2
      | turn id =>
          obtain rfl := Option.some.inj hlookup
          exact absurd (hothers i (Or.inl hs)) hnot.1
      | asking id =>
          obtain rfl := Option.some.inj hlookup
          exact absurd (hothers i (Or.inr hs)) hnot.1
      | returned answer => cases hlookup

/-- Who has failed returns without the turn to ask. -/
theorem Serves.leave (h : calls.Serves l) (hplace : calls.stage? place = some (.asking l.id))
    (answer : Attempt ForkLookupError ForkInfo) :
    (calls.move [place] (.returned answer)).Serves { l with asking := false } := by
  have hturn : ∀ i, ¬ (calls.move [place] (.returned answer)).HasTurn l.id i := by
    intro i
    rw [hasTurn_move]
    by_cases hi : i = place
    · simp [hi]
    · have hother : ¬ calls.HasTurn l.id i := fun hhas => hi (h.single i place hhas (Or.inr hplace))
      simp [hi, hother]
  refine ⟨h.nodup, ?_, ?_, ?_, fun _ _ => rfl⟩
  · intro i
    rw [h.line, stage?_move]
    by_cases hi : i = place
    · subst hi
      simp [hplace]
    · simp [hi]
  · intro i j hi
    exact absurd hi (hturn i)
  · simp [hturn]

/-- The next in line has the turn to ask that nobody else has. -/
theorem Serves.next {next : Nat} {rest : List Nat} (h : calls.Serves l)
    (hline : l.line = next :: rest) (hanswer : l.answer = none) (hasking : l.asking = false) :
    (calls.move [next] (.turn l.id)).Serves { l with asking := true, line := rest } := by
  have hwaiting : calls.stage? next = some (.waiting l.id) := by
    rw [← h.line, hline]
    exact List.mem_cons_self
  have hturn := h.hasTurn_iff hasking hwaiting
  have hnodup := h.nodup
  rw [hline, List.nodup_cons] at hnodup
  refine ⟨hnodup.2, ?_, ?_, ?_, ?_⟩
  · intro i
    rw [stage?_move]
    by_cases hi : i = next
    · subst hi
      simp [hnodup.1, hwaiting]
    · have hmem : i ∈ rest ↔ i ∈ l.line := by simp [hline, hi]
      simp [hi, hmem, h.line]
  · intro i j hi hj
    rw [(hturn i).1 hi, (hturn j).1 hj]
  · simp only [hturn, exists_eq]
  · intro fork hfork
    rw [hanswer] at hfork
    cases hfork

/-- After a failure the next in line has the turn to ask. -/
theorem Serves.failed (h : calls.Serves l) (hplace : calls.stage? place = some (.asking l.id))
    (answer : Attempt ForkLookupError ForkInfo) :
    ((calls.move [place] (.returned answer)).move l.line.head?.toList (.turn l.id)).Serves
      { l with asking := !l.line.isEmpty, line := l.line.tail } := by
  have hleft := h.leave hplace answer
  have hanswer := h.answer_eq_none (Or.inr hplace)
  cases hline : l.line with
  | nil =>
      rw [hline] at hleft
      exact (move_nil ..).symm ▸ hleft
  | cons next rest => exact hleft.next hline hanswer rfl

end ForkCalls

end Beacon
