import Mathlib
import Beacon.Proofs.Duties.Replies

set_option autoImplicit false

/-! # Loaded duties are those that the assignments imply

What a load is told when it succeeds is a fork, the assignments and, for each assignment whose
attestation falls into the epoch, the signature of its slot; who is elected by that signature has
subscribed to the committee (`loadReplies`). The duties are those that these replies imply, kind by
kind and in the order of the assignments (`implied`): one assignment after the other brings them
(`of_dutiesOf_runs`), and sorting them by slot, kind and validator is stable, so that it keeps that
order among equals (`filter_mergeSort`). -/

namespace Beacon

variable {c : LoadSettings} {fork : ForkInfo} {epoch : Epoch} {log : List Exchange}
  {assignments : List ValidatorDuties} {seats : List (ValidatorDuties × Signature)}
  {duties : List Duty} {set : DutySet}

/-! ## What assignments imply -/

namespace LoadSettings

/-- The assignments whose attestation falls into the epoch. -/
def seated (c : LoadSettings) (epoch : Epoch) (assignments : List ValidatorDuties) :
    List ValidatorDuties :=
  assignments.filter fun a => a.attestationSlot / max c.slotsPerEpoch 1 = epoch

/-- Whether the signature of its slot elects a committee member. -/
def elects (c : LoadSettings) (seat : ValidatorDuties × Signature) : Bool :=
  isAggregator seat.2 seat.1.committeeSize c.targetAggregators

/-- The duties of a kind that assignments imply: each proposal slot in the epoch, each seat, and
    each seat whose member is elected by the signature of its slot. -/
def implied (c : LoadSettings) (epoch : Epoch) (assignments : List ValidatorDuties)
    (seats : List (ValidatorDuties × Signature)) : DutyKind → List Duty
  | .proposal => assignments.flatMap fun a =>
      (a.proposalSlots.filter fun slot => slot / max c.slotsPerEpoch 1 = epoch).map fun slot =>
        { slot, validatorIndex := a.validatorIndex, pubkey := a.pubkey, task := .propose }
  | .attestation => (c.seated epoch assignments).map fun a =>
      { slot := a.attestationSlot
        validatorIndex := a.validatorIndex
        pubkey := a.pubkey
        task := .attest ⟨a.committeeIndex, a.committeePosition, a.committeeSize⟩ }
  | .aggregation => (seats.filter c.elects).map fun seat =>
      { slot := seat.1.attestationSlot
        validatorIndex := seat.1.validatorIndex
        pubkey := seat.1.pubkey
        task := .aggregate
          ⟨seat.1.committeeIndex, seat.1.committeePosition, seat.1.committeeSize⟩ seat.2 }

/-- What a load is told about a seat: its slot is signed, and if its member is elected, it has
    subscribed to the committee. -/
def seatReplies (c : LoadSettings) (fork : ForkInfo) (seat : ValidatorDuties × Signature) :
    List Exchange :=
  .call (.sign seat.1.pubkey (.slot seat.1.attestationSlot) fork) (.ok seat.2) ::
    if c.elects seat then
      [.call (.api (.subscribe seat.1.attestationSlot seat.1.committeeIndex)) (.ok ())]
    else []

/-- What a load is told that succeeds. -/
def loadReplies (c : LoadSettings) (epoch : Epoch) (fork : ForkInfo)
    (assignments : List ValidatorDuties) (seats : List (ValidatorDuties × Signature)) :
    List Exchange :=
  .fork epoch (.ok fork) :: .call (.api (.duties epoch c.keys)) (.ok assignments) ::
    seats.flatMap (c.seatReplies fork)

end LoadSettings

/-! ## One assignment after the other -/

/-- The duties that a seat brings: the attestation and, if its member is elected, the
    aggregation. -/
def LoadSettings.seatDuties (c : LoadSettings) (seat : ValidatorDuties × Signature) : List Duty :=
  seat.1.duty seat.1.attestationSlot (.attest seat.1.place) ::
    if c.elects seat then [seat.1.duty seat.1.attestationSlot (.aggregate seat.1.place seat.2)]
    else []

theorem committeeDuties_runs {a : ValidatorDuties} :
    (a.committeeDuties c fork).Runs log (.ok duties) ↔
      ∃ proof, log = c.seatReplies fork (a, proof) ∧ duties = c.seatDuties (a, proof) := by
  simp only [ValidatorDuties.committeeDuties, Procedure.runs_bind_ok, Procedure.runs_sign]
  constructor
  · rintro ⟨_, after, proof, rfl, ⟨answer, rfl, hanswer⟩, hafter⟩
    obtain rfl := Attempt.widen_eq_ok.1 hanswer.symm
    refine ⟨proof, ?_⟩
    by_cases helected : isAggregator proof a.committeeSize c.targetAggregators = true
    · rw [if_pos helected, Procedure.runs_bind_ok] at hafter
      obtain ⟨_, _, u, rfl, hask, hpure⟩ := hafter
      obtain ⟨answer, rfl, hanswer⟩ := Procedure.runs_ask.1 hask
      obtain rfl := Attempt.widen_eq_ok.1 hanswer.symm
      obtain ⟨rfl, hduties⟩ := Procedure.runs_pure.1 hpure
      obtain rfl := Except.ok.inj hduties
      rw [LoadSettings.seatReplies, LoadSettings.seatDuties, LoadSettings.elects, if_pos helected,
        if_pos helected]
      exact ⟨rfl, rfl⟩
    · rw [if_neg helected] at hafter
      obtain ⟨rfl, hduties⟩ := Procedure.runs_pure.1 hafter
      obtain rfl := Except.ok.inj hduties
      rw [LoadSettings.seatReplies, LoadSettings.seatDuties, LoadSettings.elects, if_neg helected,
        if_neg helected]
      exact ⟨rfl, rfl⟩
  · rintro ⟨proof, rfl, rfl⟩
    refine ⟨_, _, proof, List.singleton_append.symm, ⟨.ok proof, rfl, rfl⟩, ?_⟩
    by_cases helected : isAggregator proof a.committeeSize c.targetAggregators = true
    · rw [if_pos helected, Procedure.runs_bind_ok, LoadSettings.seatDuties, LoadSettings.elects,
        if_pos helected, if_pos helected]
      exact ⟨_, _, (), (List.append_nil _).symm, Procedure.runs_ask.2 ⟨.ok (), rfl, rfl⟩,
        Procedure.runs_pure.2 ⟨rfl, rfl⟩⟩
    · rw [if_neg helected, LoadSettings.seatDuties, LoadSettings.elects, if_neg helected,
        if_neg helected]
      exact Procedure.runs_pure.2 ⟨rfl, rfl⟩

theorem inEpoch_iff {slot : Slot} :
    c.inEpoch epoch slot = true ↔ slot / max c.slotsPerEpoch 1 = epoch :=
  beq_iff_eq

/-- An assignment first brings its proposals. -/
theorem filter_kind_proposals (a : ValidatorDuties) (kind : DutyKind) :
    (a.proposals c epoch).filter (·.kind = kind)
      = if kind = .proposal then a.proposals c epoch else [] := by
  have hkind (d : Duty) (hd : d ∈ a.proposals c epoch) : d.kind = .proposal := by
    obtain ⟨slot, -, rfl⟩ := List.mem_map.1 hd
    rfl
  split
  · next heq => exact List.filter_eq_self.2 fun d hd => decide_eq_true ((hkind d hd).trans heq.symm)
  · next hne =>
      refine List.filter_eq_nil_iff.2 fun d hd hof => hne ?_
      exact (of_decide_eq_true hof).symm.trans (hkind d hd)

/-- Then the seat brings one attestation and at most one aggregation. -/
theorem filter_kind_seatDuties (seat : ValidatorDuties × Signature) (kind : DutyKind) :
    (c.seatDuties seat).filter (·.kind = kind) =
      match kind with
      | .proposal => []
      | .attestation => [seat.1.duty seat.1.attestationSlot (.attest seat.1.place)]
      | .aggregation => if c.elects seat then
          [seat.1.duty seat.1.attestationSlot (.aggregate seat.1.place seat.2)] else [] := by
  unfold LoadSettings.seatDuties
  split <;> split <;> rfl

theorem seated_cons_of_in {a : ValidatorDuties}
    (hin : a.attestationSlot / max c.slotsPerEpoch 1 = epoch) :
    c.seated epoch (a :: assignments) = a :: c.seated epoch assignments :=
  List.filter_cons_of_pos (decide_eq_true hin)

theorem seated_cons_of_out {a : ValidatorDuties}
    (hout : a.attestationSlot / max c.slotsPerEpoch 1 ≠ epoch) :
    c.seated epoch (a :: assignments) = c.seated epoch assignments :=
  List.filter_cons_of_neg (by rwa [decide_eq_true_eq])

/-- What a seated assignment implies goes before what the others imply. -/
theorem implied_cons_of_in {a : ValidatorDuties} {proof : Signature}
    (hin : a.attestationSlot / max c.slotsPerEpoch 1 = epoch) (kind : DutyKind) :
    c.implied epoch (a :: assignments) ((a, proof) :: seats) kind
      = (a.proposals c epoch ++ c.seatDuties (a, proof)).filter (·.kind = kind)
        ++ c.implied epoch assignments seats kind := by
  rw [List.filter_append, filter_kind_proposals, filter_kind_seatDuties]
  cases kind with
  | proposal =>
      rw [if_pos rfl, List.append_nil]
      rfl
  | attestation =>
      rw [if_neg (by decide), LoadSettings.implied, seated_cons_of_in hin]
      rfl
  | aggregation =>
      rw [if_neg (by decide), LoadSettings.implied, List.filter_cons]
      split <;> rfl

/-- Any other assignment implies proposals only. -/
theorem implied_cons_of_out {a : ValidatorDuties}
    (hout : a.attestationSlot / max c.slotsPerEpoch 1 ≠ epoch) (kind : DutyKind) :
    c.implied epoch (a :: assignments) seats kind
      = (a.proposals c epoch).filter (·.kind = kind) ++ c.implied epoch assignments seats kind := by
  rw [filter_kind_proposals]
  cases kind with
  | proposal =>
      rw [if_pos rfl]
      rfl
  | attestation =>
      rw [if_neg (by decide), LoadSettings.implied, seated_cons_of_out hout]
      rfl
  | aggregation =>
      rw [if_neg (by decide)]
      rfl

/-- The duties that a seated assignment brings. -/
theorem duties_runs_of_in {a : ValidatorDuties}
    (hin : a.attestationSlot / max c.slotsPerEpoch 1 = epoch) :
    (a.duties c fork epoch).Runs log (.ok duties) ↔
      ∃ proof, log = c.seatReplies fork (a, proof) ∧
        duties = a.proposals c epoch ++ c.seatDuties (a, proof) := by
  rw [ValidatorDuties.duties, if_pos (inEpoch_iff.2 hin), Procedure.runs_bind_ok]
  constructor
  · rintro ⟨_, _, more, rfl, hmore, hpure⟩
    obtain ⟨rfl, hduties⟩ := Procedure.runs_pure.1 hpure
    obtain ⟨proof, rfl, rfl⟩ := committeeDuties_runs.1 hmore
    exact ⟨proof, List.append_nil _, Except.ok.inj hduties⟩
  · rintro ⟨proof, rfl, rfl⟩
    exact ⟨_, [], _, (List.append_nil _).symm, committeeDuties_runs.2 ⟨proof, rfl, rfl⟩,
      Procedure.runs_pure.2 ⟨rfl, rfl⟩⟩

theorem duties_runs_of_out {a : ValidatorDuties}
    (hout : a.attestationSlot / max c.slotsPerEpoch 1 ≠ epoch) :
    (a.duties c fork epoch).Runs log (.ok duties) ↔ log = [] ∧ duties = a.proposals c epoch := by
  rw [ValidatorDuties.duties, if_neg (mt inEpoch_iff.1 hout), Procedure.runs_pure,
    Except.ok.injEq]

/-- All assignments, one after the other. -/
theorem of_dutiesOf_runs (hruns : (dutiesOf c fork epoch assignments).Runs log (.ok duties)) :
    ∃ seats, seats.map (·.1) = c.seated epoch assignments ∧
      log = seats.flatMap (c.seatReplies fork) ∧
      ∀ kind, duties.filter (·.kind = kind) = c.implied epoch assignments seats kind := by
  induction assignments generalizing log duties with
  | nil =>
      rw [dutiesOf, Procedure.runs_pure, Except.ok.injEq] at hruns
      obtain ⟨rfl, rfl⟩ := hruns
      refine ⟨[], rfl, rfl, fun kind => ?_⟩
      cases kind <;> rfl
  | cons a rest ih =>
      rw [dutiesOf, Procedure.runs_bind_ok] at hruns
      obtain ⟨before, _, mine, rfl, hmine, hrest⟩ := hruns
      obtain ⟨after, _, more, rfl, hmore, hpure⟩ := Procedure.runs_bind_ok.1 hrest
      obtain ⟨rfl, hduties⟩ := Procedure.runs_pure.1 hpure
      obtain rfl := Except.ok.inj hduties
      obtain ⟨seats, hseats, rfl, hkinds⟩ := ih hmore
      by_cases hin : a.attestationSlot / max c.slotsPerEpoch 1 = epoch
      · obtain ⟨proof, rfl, rfl⟩ := (duties_runs_of_in hin).1 hmine
        refine ⟨(a, proof) :: seats, ?_, ?_, fun kind => ?_⟩
        · rw [seated_cons_of_in hin, List.map_cons, hseats]
        · rw [List.append_nil, List.flatMap_cons]
        · rw [List.filter_append, hkinds, implied_cons_of_in hin]
      · obtain ⟨rfl, rfl⟩ := (duties_runs_of_out hin).1 hmine
        refine ⟨seats, ?_, List.append_nil _, fun kind => ?_⟩
        · rw [seated_cons_of_out hin, hseats]
        · rw [List.filter_append, hkinds, implied_cons_of_out hin]

/-- Whatever the signatures are, the assignments bring duties. -/
theorem exists_dutiesOf_runs (hseats : seats.map (·.1) = c.seated epoch assignments) :
    ∃ duties, (dutiesOf c fork epoch assignments).Runs (seats.flatMap (c.seatReplies fork))
      (.ok duties) := by
  induction assignments generalizing seats with
  | nil =>
      obtain rfl := List.map_eq_nil_iff.1 hseats
      exact ⟨[], Procedure.runs_pure.2 ⟨rfl, rfl⟩⟩
  | cons a rest ih =>
      simp only [dutiesOf, Procedure.runs_bind_ok]
      by_cases hin : a.attestationSlot / max c.slotsPerEpoch 1 = epoch
      · rw [seated_cons_of_in hin, List.map_eq_cons_iff] at hseats
        obtain ⟨⟨_, proof⟩, others, rfl, rfl, hothers⟩ := hseats
        obtain ⟨more, hmore⟩ := ih hothers
        exact ⟨_, _, _, _, rfl, (duties_runs_of_in hin).2 ⟨proof, rfl, rfl⟩, _, _, more,
          (List.append_nil _).symm, hmore, Procedure.runs_pure.2 ⟨rfl, rfl⟩⟩
      · rw [seated_cons_of_out hin] at hseats
        obtain ⟨more, hmore⟩ := ih hseats
        exact ⟨_, [], _, _, rfl, (duties_runs_of_out hin).2 ⟨rfl, rfl⟩, _, _, more,
          (List.append_nil _).symm, hmore, Procedure.runs_pure.2 ⟨rfl, rfl⟩⟩

/-! ## Duties in order -/

theorem comesBefore_iff {d d' : Duty} :
    d.comesBefore d' = true ↔ d.slot < d'.slot ∨ d.slot = d'.slot ∧
      (d.kind.rank < d'.kind.rank ∨
        d.kind.rank = d'.kind.rank ∧ d.validatorIndex ≤ d'.validatorIndex) := by
  simp [Duty.comesBefore]

theorem comesBefore_trans (d₁ d₂ d₃ : Duty) (h₁ : d₁.comesBefore d₂ = true)
    (h₂ : d₂.comesBefore d₃ = true) : d₁.comesBefore d₃ = true := by
  simp only [comesBefore_iff, Slot, ValidatorIndex] at *
  omega

theorem comesBefore_total (d d' : Duty) : (d.comesBefore d' || d'.comesBefore d) = true := by
  simp only [Bool.or_eq_true, comesBefore_iff, Slot, ValidatorIndex]
  omega

theorem DutyKind.rank_inj {kind kind' : DutyKind} (h : kind.rank = kind'.rank) : kind = kind' := by
  cases kind <;> cases kind' <;> first | rfl | cases h

/-- Sorting is stable: elements of which each may stand before the others stay as they came. -/
theorem filter_mergeSort {α : Type} {le : α → α → Bool}
    (trans : ∀ x y z, le x y = true → le y z = true → le x z = true)
    (total : ∀ x y, (le x y || le y x) = true) {p : α → Bool}
    (hequal : ∀ x y, p x = true → p y = true → le x y = true) (xs : List α) :
    (xs.mergeSort le).filter p = xs.filter p := by
  have hsorted : (xs.filter p).Pairwise fun x y => le x y = true :=
    List.pairwise_of_forall_mem_list fun x hx y hy =>
      hequal x y (List.mem_filter.1 hx).2 (List.mem_filter.1 hy).2
  have hsub : (xs.filter p).Sublist (xs.mergeSort le) :=
    List.sublist_mergeSort trans total hsorted List.filter_sublist
  have hfiltered : (xs.filter p).Sublist ((xs.mergeSort le).filter p) := by
    simpa using hsub.filter p
  exact (hfiltered.eq_of_length ((List.mergeSort_perm xs le).filter p).length_eq.symm).symm

/-- A duty set is what assignments imply for an epoch. It has their duties of each kind; they lie in
    the epoch; those of a slot stand in the order of their kinds and validators, proposals first,
    and among those of one kind and validator in the order of the assignments. -/
structure DutySet.IsImplied (c : LoadSettings) (epoch : Epoch) (fork : ForkInfo)
    (assignments : List ValidatorDuties) (seats : List (ValidatorDuties × Signature))
    (set : DutySet) : Prop where
  epoch_eq : set.epoch = epoch
  fork_eq : set.fork = fork
  duties : ∀ kind,
    (set.duties.filter (·.kind = kind)).Perm (c.implied epoch assignments seats kind)
  within : ∀ d ∈ set.duties, d.slot / max c.slotsPerEpoch 1 = epoch
  sorted : ∀ slot, (set.dutiesAt slot).Pairwise fun d d' =>
    d.kind.rank < d'.kind.rank ∨ d.kind = d'.kind ∧ d.validatorIndex ≤ d'.validatorIndex
  stable : ∀ slot kind validator,
    (set.dutiesAt slot).filter (fun d => d.kind = kind ∧ d.validatorIndex = validator)
      = (c.implied epoch assignments seats kind).filter fun d =>
          d.slot = slot ∧ d.validatorIndex = validator

/-- No implied duty lies outside the epoch. -/
theorem implied_within (hseats : seats.map (·.1) = c.seated epoch assignments) {kind : DutyKind}
    {d : Duty} (hd : d ∈ c.implied epoch assignments seats kind) :
    d.slot / max c.slotsPerEpoch 1 = epoch := by
  have hseated {a : ValidatorDuties} (ha : a ∈ c.seated epoch assignments) :
      a.attestationSlot / max c.slotsPerEpoch 1 = epoch :=
    of_decide_eq_true (List.mem_filter.1 ha).2
  cases kind with
  | proposal =>
      obtain ⟨a, -, hd⟩ := List.mem_flatMap.1 hd
      obtain ⟨slot, hslot, rfl⟩ := List.mem_map.1 hd
      exact of_decide_eq_true (List.mem_filter.1 hslot).2
  | attestation =>
      obtain ⟨a, ha, rfl⟩ := List.mem_map.1 hd
      exact hseated ha
  | aggregation =>
      obtain ⟨seat, hseat, rfl⟩ := List.mem_map.1 hd
      refine hseated ?_
      rw [← hseats]
      exact List.mem_map_of_mem (List.mem_of_mem_filter hseat)

/-- Put in order, implied duties are an implied set. -/
theorem isImplied_create (hseats : seats.map (·.1) = c.seated epoch assignments)
    (hduties : ∀ kind, duties.filter (·.kind = kind) = c.implied epoch assignments seats kind) :
    (DutySet.create epoch fork duties).IsImplied c epoch fork assignments seats where
  epoch_eq := rfl
  fork_eq := rfl
  duties kind := hduties kind ▸ (List.mergeSort_perm duties Duty.comesBefore).filter _
  within d hd := by
    have hmem : d ∈ c.implied epoch assignments seats d.kind := by
      rw [← hduties]
      exact List.mem_filter.2 ⟨List.mem_mergeSort.1 hd, decide_eq_true rfl⟩
    exact implied_within hseats hmem
  sorted slot := by
    have hsorted := List.pairwise_mergeSort comesBefore_trans comesBefore_total duties
    refine (hsorted.filter _).imp_of_mem fun {d d'} hd hd' hle => ?_
    have hslot : d.slot = slot := of_decide_eq_true (List.mem_filter.1 hd).2
    have hslot' : d'.slot = slot := of_decide_eq_true (List.mem_filter.1 hd').2
    rcases comesBefore_iff.1 hle with hlt | ⟨-, hlt | ⟨hrank, hindex⟩⟩
    · rw [hslot, hslot'] at hlt
      exact absurd hlt (lt_irrefl slot)
    · exact .inl hlt
    · exact .inr ⟨DutyKind.rank_inj hrank, hindex⟩
  stable slot kind validator := by
    have hclass : (duties.mergeSort Duty.comesBefore).filter
          (fun d => d.slot = slot ∧ d.kind = kind ∧ d.validatorIndex = validator)
        = duties.filter fun d => d.slot = slot ∧ d.kind = kind ∧ d.validatorIndex = validator := by
      refine filter_mergeSort comesBefore_trans comesBefore_total (fun d d' hd hd' => ?_) duties
      obtain ⟨hslot, hkind, hindex⟩ := of_decide_eq_true hd
      obtain ⟨hslot', hkind', hindex'⟩ := of_decide_eq_true hd'
      exact comesBefore_iff.2 (.inr ⟨hslot.trans hslot'.symm,
        .inr ⟨by rw [hkind, hkind'], (hindex.trans hindex'.symm).le⟩⟩)
    rw [← hduties, DutySet.dutiesAt, List.filter_filter, List.filter_filter]
    refine Eq.trans ?_ (hclass.trans ?_)
    · refine List.filter_congr fun d _ => ?_
      rw [← Bool.decide_and]
      exact decide_eq_decide.2 (by tauto)
    · refine List.filter_congr fun d _ => ?_
      rw [← Bool.decide_and]
      exact decide_eq_decide.2 (by tauto)

/-! ## Subscriptions -/

/-- The committee that was subscribed to, if that is what was asked for. -/
def Exchange.subscribed? : Exchange → Option (Slot × CommitteeIndex)
  | .call (.api (.subscribe slot index)) _ => some (slot, index)
  | _ => none

/-- The committee whose attestations a duty aggregates. -/
def Duty.aggregated? (d : Duty) : Option (Slot × CommitteeIndex) :=
  match d.task with
  | .aggregate place _ => some (d.slot, place.index)
  | _ => none

theorem filterMap_subscribed_loadReplies :
    (c.loadReplies epoch fork assignments seats).filterMap Exchange.subscribed?
      = (seats.filter c.elects).map fun seat =>
          (seat.1.attestationSlot, seat.1.committeeIndex) := by
  rw [LoadSettings.loadReplies, List.filterMap_cons_none rfl, List.filterMap_cons_none rfl]
  induction seats with
  | nil => rfl
  | cons seat rest ih =>
      rw [List.flatMap_cons, List.filterMap_append, ih, LoadSettings.seatReplies,
        List.filterMap_cons_none rfl, List.filter_cons]
      split <;> rfl

theorem filterMap_aggregated (duties : List Duty) :
    duties.filterMap Duty.aggregated?
      = (duties.filter (·.kind = .aggregation)).filterMap Duty.aggregated? := by
  induction duties with
  | nil => rfl
  | cons d rest ih =>
      obtain ⟨slot, validator, key, task⟩ := d
      cases task with
      | propose => exact ih
      | attest place => exact ih
      | aggregate place proof => exact congrArg ((slot, place.index) :: ·) ih

/-- There is a subscription for each aggregation and for nothing else. -/
theorem DutySet.IsImplied.subscribed (h : set.IsImplied c epoch fork assignments seats) :
    (set.duties.filterMap Duty.aggregated?).Perm
      ((c.loadReplies epoch fork assignments seats).filterMap Exchange.subscribed?) := by
  rw [filterMap_subscribed_loadReplies, filterMap_aggregated]
  refine ((h.duties .aggregation).filterMap _).trans (.of_eq ?_)
  rw [LoadSettings.implied, List.filterMap_map]
  exact congrFun List.filterMap_eq_map _

/-! ## The load -/

theorem loadDuties_runs : (loadDuties c epoch).Runs log (.ok set) ↔
    ∃ fork assignments duties rest, set = .create epoch fork duties ∧
      log = .fork epoch (.ok fork) ::
        .call (.api (.duties epoch c.keys)) (.ok assignments) :: rest ∧
      (dutiesOf c fork epoch assignments).Runs rest (.ok duties) := by
  simp only [loadDuties, Procedure.runs_bind_ok, Procedure.runs_forkFor, Procedure.runs_pure]
  constructor
  · rintro ⟨_, _, fork, rfl, ⟨answer, rfl, hfork⟩, _, _, assignments, rfl, hask, rest, _, duties,
      rfl, hduties, rfl, hset⟩
    obtain rfl := Attempt.widen_eq_ok.1 hfork.symm
    obtain ⟨answer, rfl, hassignments⟩ := Procedure.runs_ask.1 hask
    obtain rfl := Attempt.widen_eq_ok.1 hassignments.symm
    rw [List.append_nil]
    exact ⟨fork, assignments, duties, rest, Except.ok.inj hset, rfl, hduties⟩
  · rintro ⟨fork, assignments, duties, rest, rfl, rfl, hduties⟩
    exact ⟨_, _, fork, List.singleton_append.symm, ⟨.ok fork, rfl, rfl⟩, _, _, assignments,
      List.singleton_append.symm, Procedure.runs_ask.2 ⟨.ok assignments, rfl, rfl⟩, rest, [],
      duties, (List.append_nil rest).symm, hduties, rfl, rfl⟩

theorem committeeDuties_forthright (a : ValidatorDuties) :
    (a.committeeDuties c fork).Forthright := by
  refine .bind (.sign a.pubkey (.slot a.attestationSlot) fork) fun proof => ?_
  split
  · exact .bind (.ask (.subscribe a.attestationSlot a.committeeIndex)) fun _ => .pure _
  · exact .pure _

theorem dutiesOf_forthright (assignments : List ValidatorDuties) :
    (dutiesOf c fork epoch assignments).Forthright := by
  induction assignments with
  | nil => exact .pure []
  | cons a rest ih =>
      have hmine : (a.duties c fork epoch).Forthright := by
        unfold ValidatorDuties.duties
        split
        · exact (committeeDuties_forthright a).bind fun _ => .pure _
        · exact .pure _
      exact .bind hmine fun _ => .bind ih fun _ => .pure _

theorem loadDuties_forthright (c : LoadSettings) (epoch : Epoch) :
    (loadDuties c epoch).Forthright :=
  .bind (.forkFor epoch) fun _ => .bind (.ask (.duties epoch c.keys)) fun assignments =>
    .bind (dutiesOf_forthright assignments) fun _ => .pure _

/-- **A loaded duty set is exactly what the assignments imply.** A load that succeeds has been told
    the fork, the assignments, the signature of the slot of each assignment whose attestation falls
    into the epoch, and of a subscription for each member whom its signature elects; its set is
    implied by these, and there has been a subscription for each of its aggregations and for nothing
    else. Whatever the assignments and the signatures are, a load that is told of them succeeds. A
    load that is told of a failure fails with it, and it fails with no other. -/
theorem loaded_duties_exact (c : LoadSettings) (epoch : Epoch) :
    (∀ log set, (loadDuties c epoch).Runs log (.ok set) → ∃ fork assignments seats,
      seats.map (·.1) = c.seated epoch assignments ∧
      log = c.loadReplies epoch fork assignments seats ∧
      set.IsImplied c epoch fork assignments seats ∧
      (set.duties.filterMap Duty.aggregated?).Perm (log.filterMap Exchange.subscribed?)) ∧
    (∀ fork assignments seats, seats.map (·.1) = c.seated epoch assignments →
      ∃ set, (loadDuties c epoch).Runs (c.loadReplies epoch fork assignments seats) (.ok set)) ∧
    (∀ log outcome, (loadDuties c epoch).Runs log outcome →
      ∀ exchange ∈ log, ∀ failure, exchange.failure? = some failure → outcome = .error failure) ∧
    (∀ log failure, (loadDuties c epoch).Runs log (.error failure) →
      ∃ exchange ∈ log, exchange.failure? = some failure) := by
  refine ⟨fun log set hruns => ?_, fun fork assignments seats hseats => ?_,
    fun log outcome hruns exchange hexchange failure hfailure => ?_, fun log failure hruns => ?_⟩
  · obtain ⟨fork, assignments, duties, rest, rfl, rfl, hduties⟩ := loadDuties_runs.1 hruns
    obtain ⟨seats, hseats, rfl, hkinds⟩ := of_dutiesOf_runs hduties
    have himplied : (DutySet.create epoch fork duties).IsImplied c epoch fork assignments seats :=
      isImplied_create hseats hkinds
    exact ⟨fork, assignments, seats, hseats, rfl, himplied, himplied.subscribed⟩
  · obtain ⟨duties, hduties⟩ : ∃ duties, (dutiesOf c fork epoch assignments).Runs
        (seats.flatMap (c.seatReplies fork)) (.ok duties) := exists_dutiesOf_runs hseats
    exact ⟨_, loadDuties_runs.2 ⟨fork, assignments, duties, _, rfl, rfl, hduties⟩⟩
  · have hforthright := loadDuties_forthright c epoch log outcome hruns
    cases outcome with
    | ok set => exact absurd ((hforthright exchange hexchange).symm.trans hfailure) (by simp)
    | error cause =>
        obtain ⟨before, last, rfl, hbefore, hlast⟩ := hforthright
        rcases List.mem_append.1 hexchange with hexchange | hexchange
        · exact absurd ((hbefore exchange hexchange).symm.trans hfailure) (by simp)
        · rw [List.mem_singleton.1 hexchange, hlast] at hfailure
          rw [Option.some.inj hfailure]
  · obtain ⟨before, last, rfl, -, hlast⟩ := loadDuties_forthright c epoch log _ hruns
    exact ⟨last, List.mem_append_right before (List.mem_singleton.2 rfl), hlast⟩

/-- In a committee of less than twice as many members as should aggregate everyone is elected. -/
theorem isAggregator_of_small (proof : Signature) {size target : Nat}
    (h : size / max target 1 ≤ 1) : isAggregator proof size target = true := by
  rw [isAggregator, max_eq_right h, Nat.mod_one]
  rfl

/-- Slots of a usual chain, sixteen aggregators to a committee, and one key. -/
def LoadSettings.sixteen : LoadSettings where
  slotsPerEpoch := 32
  targetAggregators := 16
  keys := [Bytes.zero 48]

/-- An assignment to propose in this epoch and the next, and to attest alone in a committee. -/
def ValidatorDuties.alone : ValidatorDuties where
  validatorIndex := 7
  attestationSlot := 40
  committeeIndex := 3
  committeeSize := 1
  proposalSlots := [33, 70]

/-- Such an assignment brings one proposal and, as whoever is alone is elected, one subscription. -/
theorem loaded_duties_exact_alone :
    ∃ set, (loadDuties .sixteen 1).Runs
        (LoadSettings.sixteen.loadReplies 1 {} [.alone] [(.alone, Bytes.zero 96)]) (.ok set) ∧
      (set.duties.filter (·.kind = .proposal)).Perm
        [{ slot := 33, validatorIndex := 7, pubkey := Bytes.zero 48, task := .propose }] ∧
      (set.duties.filterMap Duty.aggregated?).Perm [(40, 3)] := by
  obtain ⟨hexact, hloads, -, -⟩ := loaded_duties_exact .sixteen 1
  obtain ⟨set, hset⟩ := hloads {} [.alone] [(.alone, Bytes.zero 96)] rfl
  obtain ⟨fork, assignments, seats, -, hlog, himplied, hsubscribed⟩ := hexact _ set hset
  have hassignments : [ValidatorDuties.alone] = assignments := by
    rw [LoadSettings.loadReplies, LoadSettings.loadReplies] at hlog
    simpa using (List.cons.inj (List.cons.inj hlog).2).1
  have helects : LoadSettings.sixteen.elects (.alone, Bytes.zero 96) = true :=
    isAggregator_of_small _ (by decide)
  refine ⟨set, hset, ?_, ?_⟩
  · have hproposals := himplied.duties .proposal
    rw [← hassignments] at hproposals
    exact hproposals
  · rw [filterMap_subscribed_loadReplies, List.filter_cons_of_pos helects] at hsubscribed
    exact hsubscribed

end Beacon
