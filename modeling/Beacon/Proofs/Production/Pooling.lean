import Mathlib
import Beacon.Production.Pools
import Beacon.Proofs.LoneVoter

set_option autoImplicit false

/-! # The attestation pool loses no vote

An attestation leaves the pool for three reasons: a wider one takes its place, it is too old, or a
block has carried a wider one. Being wider is a preorder (`Attestation.Includes`), so however often
a vote is replaced, what stands in its place still speaks for it (`AttestationPool.HoldsFor`). What
may be included on a state is not too old at its slot, and neither is anything with the same data;
so a pooled attestation that speaks for it is offered and may be included as well.

No two pooled attestations include each other, since a newcomer is turned away by those that include
it and turns out those that it includes (`AttestationPool.IsAntichain`). -/

namespace Beacon

variable {c : Constants} {s : ChainState} {committees : EpochCommittees}
  {a b wider narrower : Attestation} {p : AttestationPool} {slot : Slot}

/-! ## Wider attestations -/

/-- The same vote by the same committee, with every bit that is set in the narrower attestation. -/
structure Attestation.Includes (wider narrower : Attestation) : Prop where
  data : wider.data = narrower.data
  length : wider.bits.length = narrower.bits.length
  bits : ∀ i : Nat, narrower.bits[i]? = some true → wider.bits[i]? = some true

namespace Attestation

theorem covers_iff : wider.covers narrower = true ↔ wider.Includes narrower := by
  simp only [covers, Bool.and_eq_true, beq_iff_eq, List.all_eq_true, Bool.or_eq_true,
    Bool.not_eq_true']
  constructor
  · rintro ⟨⟨hdata, hlength⟩, hbits⟩
    refine ⟨hdata, hlength, fun i hi => ?_⟩
    have hlt : i < wider.bits.length := by
      rw [hlength]
      exact (List.getElem?_eq_some_iff.1 hi).1
    have hpair : (wider.bits[i], true) ∈ wider.bits.zip narrower.bits :=
      List.mem_of_getElem? (List.getElem?_zip_eq_some.2 ⟨List.getElem?_eq_getElem hlt, hi⟩)
    have hset : wider.bits[i] = true := (hbits _ hpair).resolve_right Bool.noConfusion
    rw [List.getElem?_eq_getElem hlt, hset]
  · rintro ⟨hdata, hlength, hbits⟩
    refine ⟨⟨hdata, hlength⟩, fun x hx => ?_⟩
    obtain ⟨i, hi⟩ := List.getElem?_of_mem hx
    obtain ⟨hwider, hnarrower⟩ := List.getElem?_zip_eq_some.1 hi
    cases hset : x.2 with
    | false => exact Or.inr rfl
    | true =>
        rw [hset] at hnarrower
        exact Or.inl (Option.some.inj (hwider.symm.trans (hbits i hnarrower)))

@[refl] theorem Includes.refl (a : Attestation) : a.Includes a := ⟨rfl, rfl, fun _ hi => hi⟩

theorem Includes.trans (hab : wider.Includes a) (hbc : a.Includes narrower) :
    wider.Includes narrower :=
  ⟨hab.data.trans hbc.data, hab.length.trans hbc.length, fun i hi => hab.bits i (hbc.bits i hi)⟩

theorem Includes.participants_ne_zero (h : wider.Includes narrower)
    (hpos : narrower.participants ≠ 0) : wider.participants ≠ 0 := by
  simp only [participants, ne_eq, List.count_eq_zero, not_not] at *
  obtain ⟨i, hi⟩ := List.getElem?_of_mem hpos
  exact List.mem_of_getElem? (h.bits i hi)

end Attestation

/-- A state judges attestations by their data, the number of their bits, and whether any is set. -/
theorem MayInclude.of_includes (hmay : MayInclude c s narrower committees)
    (h : wider.Includes narrower) : MayInclude c s wider committees where
  epoch := h.data ▸ hmay.epoch
  slot := h.data ▸ hmay.slot
  early_lt := h.data ▸ hmay.early_lt
  early := h.data ▸ hmay.early
  late_lt := h.data ▸ hmay.late_lt
  late := h.data ▸ hmay.late
  committees_eq := h.data ▸ hmay.committees_eq
  index := h.data ▸ hmay.index
  bits := h.data ▸ h.length.trans hmay.bits
  participants := h.participants_ne_zero hmay.participants
  source := h.data ▸ hmay.source

/-! ## What happens to a pool -/

/-- A change of an attestation pool. -/
inductive PoolEvent where
  | add (a : Attestation)
  | prune (slot : Slot)
  /-- The chain has imported a block. -/
  | imported (b : CandidateBlock)

namespace AttestationPool

/-- The pool after an event. -/
def after (p : AttestationPool) : PoolEvent → AttestationPool
  | .add a => p.add a
  | .prune slot => p.prune slot
  | .imported b => p.dropIncluded b.body.attestations

/-- The pool of a chain after some events, the first one first. -/
def run (c : Constants) (events : List PoolEvent) : AttestationPool := events.foldl after (empty c)

theorem slotsPerEpoch_after (p : AttestationPool) (event : PoolEvent) :
    (p.after event).slotsPerEpoch = p.slotsPerEpoch := by
  cases event with
  | add a =>
      simp only [after, add]
      split <;> rfl
  | prune slot => rfl
  | imported b => rfl

theorem minInclusionDelay_after (p : AttestationPool) (event : PoolEvent) :
    (p.after event).minInclusionDelay = p.minInclusionDelay := by
  cases event with
  | add a =>
      simp only [after, add]
      split <;> rfl
  | prune slot => rfl
  | imported b => rfl

/-- No event changes the window of a pool. -/
theorem window_run (c : Constants) (events : List PoolEvent) :
    (run c events).slotsPerEpoch = c.slotsPerEpoch ∧
      (run c events).minInclusionDelay = c.minAttestationInclusionDelay := by
  induction events using List.reverseRecOn with
  | nil => exact ⟨rfl, rfl⟩
  | append_singleton events event ih =>
      simp only [run, List.foldl_append, List.foldl_cons, List.foldl_nil] at ih ⊢
      exact ⟨(slotsPerEpoch_after _ event).trans ih.1, (minInclusionDelay_after _ event).trans ih.2⟩

/-! ## No two include each other -/

/-- No pooled attestation includes another one. -/
def IsAntichain (p : AttestationPool) : Prop :=
  p.attestations.Pairwise fun x y => ¬ x.Includes y ∧ ¬ y.Includes x

theorem IsAntichain.add (h : p.IsAntichain) (a : Attestation) : (p.add a).IsAntichain := by
  unfold AttestationPool.add
  split
  · exact h
  · next hfresh =>
      refine List.pairwise_append.2 ⟨h.filter _, List.pairwise_singleton .., fun x hx y hy => ?_⟩
      obtain ⟨hpooled, hkept⟩ := List.mem_filter.1 hx
      rw [List.mem_singleton.1 hy]
      refine ⟨fun hincludes => hfresh ?_, fun hincludes => ?_⟩
      · exact List.any_eq_true.2 ⟨x, hpooled, Attestation.covers_iff.2 hincludes⟩
      · rw [Attestation.covers_iff.2 hincludes] at hkept
        cases hkept

theorem IsAntichain.after (h : p.IsAntichain) (event : PoolEvent) : (p.after event).IsAntichain := by
  cases event with
  | add a => exact h.add a
  | prune slot => exact h.filter _
  | imported b => exact h.filter _

theorem isAntichain_run (c : Constants) (events : List PoolEvent) : (run c events).IsAntichain := by
  induction events using List.reverseRecOn with
  | nil => exact List.Pairwise.nil
  | append_singleton events event ih =>
      rw [run, List.foldl_append]
      exact ih.after event

/-! ## What stands for an attestation -/

/-- A pooled attestation speaks for everyone for whom `a` does. -/
def HoldsFor (p : AttestationPool) (a : Attestation) : Prop := ∃ x ∈ p.attestations, x.Includes a

theorem holdsFor_add (p : AttestationPool) (a : Attestation) : (p.add a).HoldsFor a := by
  unfold add
  split
  · next hredundant =>
      obtain ⟨x, hx, hcovers⟩ := List.any_eq_true.1 hredundant
      exact ⟨x, hx, Attestation.covers_iff.1 hcovers⟩
  · exact ⟨a, List.mem_append_right _ (List.mem_singleton_self a), .refl a⟩

/-- A newcomer turns out only what it includes itself. -/
theorem HoldsFor.add (h : p.HoldsFor a) (b : Attestation) : (p.add b).HoldsFor a := by
  obtain ⟨x, hx, hincludes⟩ := h
  unfold AttestationPool.add
  split
  · exact ⟨x, hx, hincludes⟩
  · by_cases hcovers : b.covers x = true
    · exact ⟨b, List.mem_append_right _ (List.mem_singleton_self b),
        (Attestation.covers_iff.1 hcovers).trans hincludes⟩
    · exact ⟨x, List.mem_append_left _ (List.mem_filter.2 ⟨hx, by simpa using hcovers⟩), hincludes⟩

/-- What has the data of an attestation that is young enough is young enough itself. -/
theorem HoldsFor.prune (h : p.HoldsFor a)
    (hyoung : slot ≤ Word.addSat a.data.slot p.slotsPerEpoch) : (p.prune slot).HoldsFor a := by
  obtain ⟨x, hx, hincludes⟩ := h
  refine ⟨x, List.mem_filter.2 ⟨hx, ?_⟩, hincludes⟩
  rw [hincludes.data]
  exact decide_eq_true hyoung

/-- What an imported block turns out, one of the attestations of the block includes. -/
theorem HoldsFor.dropIncluded (h : p.HoldsFor a) (included : List Attestation) :
    (p.dropIncluded included).HoldsFor a ∨ ∃ x ∈ included, x.Includes a := by
  obtain ⟨x, hx, hincludes⟩ := h
  by_cases hany : included.any (·.covers x) = true
  · obtain ⟨y, hy, hcovers⟩ := List.any_eq_true.1 hany
    exact Or.inr ⟨y, hy, (Attestation.covers_iff.1 hcovers).trans hincludes⟩
  · exact Or.inl ⟨x, List.mem_filter.2 ⟨hx, by simpa using hany⟩, hincludes⟩

/-- Some block among the events has carried an attestation that includes `a`. -/
def Carried (events : List PoolEvent) (a : Attestation) : Prop :=
  ∃ b, .imported b ∈ events ∧ ∃ x ∈ b.body.attestations, x.Includes a

/-- Events under which an attestation does not grow too old leave it in the pool, or a block has
    carried it. -/
theorem HoldsFor.foldl_after {events : List PoolEvent} (h : p.HoldsFor a)
    (hyoung : ∀ slot, .prune slot ∈ events → slot ≤ Word.addSat a.data.slot p.slotsPerEpoch) :
    (events.foldl after p).HoldsFor a ∨ Carried events a := by
  induction events generalizing p with
  | nil => exact Or.inl h
  | cons event events ih =>
      have hnext : (p.after event).HoldsFor a ∨ Carried (event :: events) a := by
        cases event with
        | add b => exact Or.inl (h.add b)
        | prune slot => exact Or.inl (h.prune (hyoung slot (List.mem_cons_self ..)))
        | imported b =>
            exact (h.dropIncluded b.body.attestations).imp_right fun hcarried =>
              ⟨b, List.mem_cons_self .., hcarried⟩
      rcases hnext with hnext | hcarried
      · refine (ih hnext fun slot hslot => ?_).imp_right fun ⟨b, hb, hcarried⟩ =>
          ⟨b, List.mem_cons_of_mem _ hb, hcarried⟩
        rw [slotsPerEpoch_after]
        exact hyoung slot (List.mem_cons_of_mem _ hslot)
      · exact Or.inr hcarried

/-- Whatever was added before or after, what has been added and is not too old is held or has been
    carried. -/
theorem holdsFor_run {events : List PoolEvent} (hadded : .add a ∈ events)
    (hyoung : ∀ slot, .prune slot ∈ events → slot ≤ Word.addSat a.data.slot c.slotsPerEpoch) :
    (run c events).HoldsFor a ∨ Carried events a := by
  obtain ⟨before, later, rfl⟩ := List.append_of_mem hadded
  rw [run, List.foldl_append, List.foldl_cons]
  refine ((holdsFor_add _ a).foldl_after fun slot hslot => ?_).imp_right fun ⟨b, hb, hcarried⟩ =>
    ⟨b, List.mem_append_right _ (List.mem_cons_of_mem _ hb), hcarried⟩
  have hwindow : ((run c before).after (.add a)).slotsPerEpoch = c.slotsPerEpoch :=
    (slotsPerEpoch_after _ _).trans (window_run c before).1
  exact (hyoung slot (List.mem_append_right _ (List.mem_cons_of_mem _ hslot))).trans_eq
    (congrArg _ hwindow.symm)

/-- A pooled attestation that may be included on a state is offered for its slot. -/
theorem mem_select {events : List PoolEvent} (hpooled : a ∈ (run c events).attestations)
    (hmay : MayInclude c s a committees) : a ∈ (run c events).select s.slot := by
  obtain ⟨hslots, hdelay⟩ := window_run c events
  refine List.mem_mergeSort.2 (List.mem_filter.2 ⟨hpooled, ?_⟩)
  rw [inWindow, hslots, hdelay, Word.addSat_of_lt hmay.early_lt, Word.addSat_of_lt hmay.late_lt]
  simp only [Bool.and_eq_true, decide_eq_true_iff]
  exact ⟨hmay.early, hmay.late⟩

end AttestationPool

/-! ## The theorem -/

/-- **The pool loses no vote that may be included.** However attestations have been added, old ones
    dropped and blocks imported, no pooled attestation includes another one at any time. And when
    the pool has been pruned for no slot after that of a state, what has been added and may be
    included on that state is included by an attestation that the pool offers for its slot and that
    may be included as well, or by one that an imported block has carried. -/
theorem no_includable_vote_lost (c : Constants) (events : List PoolEvent) :
    (∀ done, done <+: events →
      (AttestationPool.run c done).attestations.Pairwise fun x y =>
        ¬ x.Includes y ∧ ¬ y.Includes x) ∧
    ∀ (a : Attestation) (s : ChainState), .add a ∈ events →
      (∀ slot, .prune slot ∈ events → slot ≤ s.slot) → checkAttestation c s a = .ok () →
      (∃ x ∈ (AttestationPool.run c events).select s.slot,
        x.Includes a ∧ checkAttestation c s x = .ok ()) ∨
      ∃ b, .imported b ∈ events ∧ ∃ x ∈ b.body.attestations, x.Includes a := by
  refine ⟨fun done _ => AttestationPool.isAntichain_run c done, fun a s hadded hpruned hcheck => ?_⟩
  obtain ⟨committees, hmay⟩ := checkAttestation_eq_ok.1 hcheck
  have hyoung : ∀ slot, .prune slot ∈ events →
      slot ≤ Word.addSat a.data.slot c.slotsPerEpoch := fun slot hslot => by
    rw [Word.addSat_of_lt hmay.late_lt]
    exact (hpruned slot hslot).trans hmay.late
  refine (AttestationPool.holdsFor_run hadded hyoung).imp_left ?_
  rintro ⟨x, hpooled, hincludes⟩
  have hmay' := hmay.of_includes hincludes
  exact ⟨x, AttestationPool.mem_select hpooled hmay', hincludes,
    checkAttestation_eq_ok.2 ⟨committees, hmay'⟩⟩

/-- The lone validator's vote is added, pruning spares it, and a block comes without it. -/
theorem no_includable_vote_lost_lone : ∃ (a : Attestation) (s : ChainState),
    s.slot = 1 ∧ checkAttestation Constants.lone s a = .ok () ∧
    ∃ x ∈ (AttestationPool.run Constants.lone
        [.add a, .add { a with bits := [] }, .prune 1,
          .imported (CandidateBlock.genesis (Bytes.zero 32)), .add a]).select s.slot,
      x.Includes a ∧ checkAttestation Constants.lone s x = .ok () := by
  obtain ⟨h, s, hlone⟩ := exists_loneAt_one
  have hcheck := hlone.lone.isSole.checkAttestation_soleVote Constants.brief_lone
    (hlone.slot.trans_le (by decide)) (hlone.slot.symm ▸ Nat.zero_lt_one)
  refine ⟨s.soleVote, s, hlone.slot, hcheck, ?_⟩
  refine ((no_includable_vote_lost _ _).2 s.soleVote s (List.mem_cons_self ..) (fun slot hslot => ?_)
    hcheck).resolve_right ?_
  · have hone : slot = 1 := by simpa using hslot
    rw [hone, hlone.slot]
  · rintro ⟨b, hb, x, hx, -⟩
    have hgenesis : b = CandidateBlock.genesis (Bytes.zero 32) := by simpa using hb
    subst hgenesis
    exact absurd hx List.not_mem_nil

end Beacon
