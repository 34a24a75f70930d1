import Mathlib
import Beacon.Proofs.Serving.Assigned

set_option autoImplicit false

/-! # Served votes are includable and count

A head that is asked for the vote of a committee answers from one state. Later states judge an
attestation with this vote: the block that includes it by its source and its committee, the
boundaries that settle its epoch by its roots and its committee as well. `Serves` says what the
answering state knows, and what a chain keeps for the votes of a slot makes all the later states
agree with it (`attestationData_counts`). -/

namespace Beacon

variable {c : Constants} {e : Engine} {h : ChainHead} {s s' t : ChainState} {slot : Slot}
  {index : CommitteeIndex} {data : AttestationData} {members : List ValidatorIndex}
  {committees : EpochCommittees} {position : Nat} {v : ValidatorIndex}

/-! ## The vote of one member -/

/-- The vote with the bit of one member of a committee. -/
def AttestationData.voteOf (data : AttestationData) (size position : Nat) : Ballot where
  bits := (List.replicate size false).set position true
  data := data

/-- The member at the position of the only set bit is the only one that a bit speaks for. -/
theorem members_of_single (hv : members[position]? = some v) :
    ((members.zip ((List.replicate members.length false).set position true)).filter (·.2)).map
      (·.1) = [v] := by
  induction members generalizing position with
  | nil => simp at hv
  | cons m members ih =>
      cases position with
      | zero =>
          obtain rfl := Option.some.inj hv
          have hrest : (members.zip (List.replicate members.length false)).filter (·.2) = [] := by
            rw [List.filter_eq_nil_iff]
            rintro ⟨w, bit⟩ hmem
            simp [List.eq_of_mem_replicate (List.of_mem_zip hmem).2]
          simp [List.replicate_succ, hrest]
      | succ position =>
          simpa [List.replicate_succ] using ih hv

/-! ## What is served -/

/-- The head answers for the committee with a state that knows the committee, and the answer names
    the roots and the checkpoint that this state has for the slot. -/
structure ChainHead.Serves (h : ChainHead) (e : Engine) (slot : Slot) (index : CommitteeIndex)
    (data : AttestationData) (t : ChainState) (committees : EpochCommittees)
    (members : List ValidatorIndex) : Prop where
  state : h.stateAt e slot = .ok t
  committees_eq : committeesOf e.constants t (e.constants.epochAt slot) = .ok committees
  members_eq : committees.committee? slot index = some members
  data_slot : data.slot = slot
  data_index : data.index = index
  head : e.blockRootAt? t slot = some data.beaconBlockRoot
  source : data.source = t.sourceFor e.constants (e.constants.epochAt slot)
  target_epoch : data.target.epoch = e.constants.epochAt slot
  target_root : e.blockRootAt? t (e.constants.epochStart (e.constants.epochAt slot))
    = some data.target.root

theorem ChainHead.rootAt_eq_ok {root : Root} :
    ChainHead.rootAt e s slot = .ok root ↔ e.blockRootAt? s slot = some root := by
  unfold ChainHead.rootAt
  cases e.blockRootAt? s slot with
  | none => simp
  | some r => simp

theorem ChainHead.serves_of_attestationData (hserved : h.attestationData e slot index = .ok data) :
    ∃ t committees members, h.Serves e slot index data t committees members := by
  simp only [ChainHead.attestationData, Attempt.bind_eq_ok, Attempt.widen_eq_ok,
    Attempt.require_eq_ok, ChainHead.rootAt_eq_ok, Attempt.pure_eq_ok] at hserved
  obtain ⟨t, hstate, committees, hcommittees, -, hsome, head, hhead, target, htarget, rfl⟩ := hserved
  obtain ⟨members, hmembers⟩ := Option.isSome_iff_exists.1 hsome
  exact ⟨t, committees, members, hstate, Attempt.widen_eq_ok.1 hcommittees, hmembers, rfl, rfl,
    hhead, rfl, rfl, htarget⟩

namespace ChainHead.Serves

/-- The epoch of the slot has started for the answering state. -/
theorem started (hserves : h.Serves e slot index data t committees members)
    (hreach : h.Reachable e) : e.Reachable t ∧ slot ≤ t.slot ∧ t.slot < Word.limit ∧
      e.constants.epochAt slot * e.constants.slotsPerEpoch ≤ slot := by
  obtain ⟨ht, hslot⟩ := hreach.stateAt hserves.state
  obtain ⟨_, hrun⟩ := ht.exists_run
  exact ⟨ht, hslot, hrun.slot_lt, Constants.epochAt_mul_le slot⟩

/-! ## Inclusion -/

/-- **The vote may be included.** Up to an epoch after its slot, every state accepts it with the bit
    of one member, unless the last slot for it leaves the 64-bit range. -/
theorem checkAttestation (hserves : h.Serves e slot index data t committees members)
    (hreach : h.Reachable e) (hafter : e.ReachesAfter slot t s) (hv : members[position]? = some v)
    (hearly : slot + e.constants.minAttestationInclusionDelay ≤ s.slot)
    (hlate : s.slot ≤ slot + e.constants.slotsPerEpoch) {a : Attestation}
    (ha : a.ballot = data.voteOf members.length position) :
    checkAttestation e.constants s a =
      if slot + e.constants.slotsPerEpoch < Word.limit then .ok ()
      else .error (.fault .overflow) := by
  obtain ⟨ht, hslot, hlimit, hstart⟩ := hserves.started hreach
  have hdata : a.data = data := congrArg Ballot.data ha
  have hbits : a.bits = (List.replicate members.length false).set position true :=
    congrArg Ballot.bits ha
  have hmono := hafter.reaches.slot_le
  have hlimit' : s.slot < Word.limit := by
    obtain ⟨_, hrun⟩ := ht.exists_run
    obtain ⟨_, hrun', -⟩ := hrun.extend hafter.reaches
    exact hrun'.slot_lt
  have hfrom : e.constants.epochAt slot ≤ s.currentEpoch e.constants :=
    Constants.epochAt_mono (hslot.trans hmono)
  have hto : s.currentEpoch e.constants ≤ e.constants.epochAt slot + 1 := by
    have hle := Constants.epochAt_mono (c := e.constants) hlate
    rwa [Constants.epochAt, Constants.epochAt, Nat.add_div_right _ e.consistent.slotsPerEpoch_pos]
      at hle
  have hepoch : data.target.epoch = s.currentEpoch e.constants ∨
      data.target.epoch = s.currentEpoch e.constants - 1 := by
    rw [hserves.target_epoch]
    lia
  have hearly_lt : slot + e.constants.minAttestationInclusionDelay < Word.limit :=
    hearly.trans_lt hlimit'
  split
  · next hfits =>
      obtain ⟨htwo, -⟩ := window_of_committeesOf e.consistent hserves.committees_eq
      have hcommittees : committeesOf e.constants s data.target.epoch = .ok committees := by
        rw [hserves.target_epoch]
        exact hafter.reaches.committees (hstart.trans hslot) hlimit hserves.committees_eq
          (hto.trans (Nat.le_succ _)) (by lia)
      have hsource := hafter.reaches.sourceFor ht
        (Constants.epochAt_mono (c := e.constants) hslot) hto
      subst hdata
      rw [← hserves.data_slot] at hearly hearly_lt hlate hfits
      refine checkAttestation_eq_ok.2 ⟨committees, hepoch, ?_, hearly_lt, hearly, hfits, hlate,
        hcommittees, ?_, ?_, ?_, ?_⟩
      · rw [hserves.target_epoch, hserves.data_slot]
      · rw [hserves.data_index]
        exact (EpochCommittees.of_committee? hserves.members_eq).2
      · rw [hserves.data_slot, hserves.data_index, hserves.members_eq, hbits]
        simp
      · -- The set bit is there.
        have hlt := (List.getElem?_eq_some_iff.1 hv).1
        have hmem : true ∈ (List.replicate members.length false).set position true :=
          List.mem_of_getElem? (List.getElem?_set_self (by simpa using hlt))
        rw [Attestation.participants, hbits]
        exact (List.count_pos_iff.2 hmem).ne'
      · rw [hserves.source, ← hsource, ChainState.sourceFor, hserves.target_epoch]
        simp only [eq_comm]
  · next hfits =>
      subst hdata
      rw [← hserves.data_slot] at hearly hearly_lt hfits
      have hmatch : a.data.target.epoch = e.constants.epochAt a.data.slot := by
        rw [hserves.target_epoch, hserves.data_slot]
      have hadd : Word.add a.data.slot e.constants.minAttestationInclusionDelay
          = .ok (a.data.slot + e.constants.minAttestationInclusionDelay) :=
        Word.add_eq_ok.2 ⟨rfl, hearly_lt⟩
      have hfault : Word.add a.data.slot e.constants.slotsPerEpoch = Attempt.fault .overflow :=
        if_neg hfits
      rw [Beacon.checkAttestation, Attempt.require_of_pos _ hepoch, Attempt.ok_bind,
        Attempt.require_of_pos _ hmatch, Attempt.ok_bind, hadd, hfault]
      simp only [Attempt.liftM_eq_ofChecked, Attempt.ofChecked, Attempt.ok_bind,
        Attempt.require_of_pos _ hearly]
      rfl

end ChainHead.Serves

/-! ## Settling the epoch -/

/-- A pending attestation counts in full, for one validator alone: it names the root of its target
    and the one that headed the chain at its slot, and its bits speak for nobody else. -/
structure CountsFor (c : Constants) (s : ChainState) (lookup : CommitteeLookup)
    (a : PendingAttestation) (v : ValidatorIndex) : Prop where
  target : boundaryRoot c s a.data.target.epoch = .ok a.data.target.root
  head : namesHead c s a = .ok true
  attesters : attestersOf lookup a = .ok [v]

/-- The roots are read from the slot and the ring alone. -/
theorem CountsFor.congr {lookup : CommitteeLookup} {a : PendingAttestation}
    (hcounts : CountsFor c s lookup a v) (hslot : s'.slot = s.slot)
    (hroots : s'.blockRoots = s.blockRoots) : CountsFor c s' lookup a v := by
  have hroot (u : Slot) : s'.blockRootAt? c u = s.blockRootAt? c u := by
    rw [ChainState.blockRootAt?, hslot, hroots, ChainState.blockRootAt?]
  refine ⟨?_, ?_, hcounts.attesters⟩
  · rw [boundaryRoot, hroot]
    exact hcounts.target
  · rw [namesHead, hroot]
    exact hcounts.head

/-- When rewards are paid, the attesters of all attestations of the epoch before have been worked
    out. -/
theorem attestersOf_of_payRewards {lookup : CommitteeLookup} {ended : Epoch}
    (hpay : payRewards c lookup ended s = .ok s') (hpos : ended ≠ 0) {a : PendingAttestation}
    (ha : a ∈ s.previousEpochAttestations) : ∃ attesters, attestersOf lookup a = .ok attesters := by
  rw [payRewards, if_neg hpos] at hpay
  obtain ⟨p, hp, -⟩ := Attempt.bind_eq_ok.1 hpay
  simp only [participation, Attempt.bind_eq_ok] at hp
  obtain ⟨-, -, -, -, -, -, -, -, -, -, attesting, hattesting, -⟩ := hp
  obtain ⟨attesters, -, hattesters⟩ := Attempt.exists_mem_of_mapM hattesting ha
  exact ⟨attesters, hattesters⟩

/-- A boundary that has been processed has room for the epoch after the one that it opens, as far as
    pending attestations speak of an earlier one. -/
theorem currentEpoch_succ_lt (hc : c.Consistent) (hcoherent : Coherent c s)
    (hstart : c.isEpochStart (s.slot + 1) = true) (hstep : Engine.step c s = .ok s')
    {a : PendingAttestation} (ha : a ∈ s.previousEpochAttestations) :
    s'.currentEpoch c + 1 < Word.limit := by
  have hslot := (step_frame hstep).slot
  obtain ⟨-, -, hstep⟩ := step_eq_ok.1 hstep
  rw [if_pos hstart] at hstep
  obtain ⟨summary, hprocess⟩ := hstep
  obtain ⟨-, s₁, s₂, -, hjustify, hpay, -⟩ := processEpoch_eq_ok.1 hprocess
  obtain ⟨epoch, hbefore, -⟩ := hcoherent.previous a ha
  have hended : (s.atNextSlot c).currentEpoch c - 1 = s.currentEpoch c :=
    Nat.sub_eq_of_eq_add (Constants.epochAt_succ_of_start hstart)
  have hpending : a ∈ s₁.previousEpochAttestations := by
    rw [justifyAndFinalize_frame hjustify]
    exact ha
  obtain ⟨attesters, hattesters⟩ := attestersOf_of_payRewards hpay (by lia) hpending
  rw [attestersOf, Attempt.bind_eq_ok] at hattesters
  obtain ⟨committees, hcommittees, -⟩ := hattesters
  obtain ⟨-, hnext, -⟩ := window_of_committeesOf hc (Attempt.widen_eq_ok.1 hcommittees)
  rw [ChainState.currentEpoch, hslot]
  exact hnext

namespace ChainHead.Serves

/-- **The vote counts.** A boundary that closes the epoch of the slot or the next one finds the
    roots that the vote names, and the member of the committee. -/
theorem countsFor (hserves : h.Serves e slot index data t committees members)
    (hreach : h.Reachable e) (hafter : e.ReachesAfter slot t s) (hv : members[position]? = some v)
    (hstart : e.constants.isEpochStart (s.slot + 1) = true)
    (hstep : Engine.step e.constants s = .ok s')
    (hto : s'.currentEpoch e.constants ≤ e.constants.epochAt slot + 2)
    (hnext : s'.currentEpoch e.constants + 1 < Word.limit) {a : PendingAttestation}
    (ha : a.ballot = data.voteOf members.length position) :
    CountsFor e.constants (s.atNextSlot e.constants)
      (committeesOf e.constants (s.atNextSlot e.constants)) a v := by
  obtain ⟨ht, hslot, hlimit, hepoch⟩ := hserves.started hreach
  have hframe := step_frame hstep
  have hnow := hframe.slot
  have hlimit' := hframe.slot_lt
  rw [hnow] at hlimit'
  have hmono := hafter.reaches.slot_le
  obtain rfl : a.data = data := congrArg Ballot.data ha
  have hbits : a.bits = (List.replicate members.length false).set position true :=
    congrArg Ballot.bits ha
  -- Both slots lie in the past, but no more than two epochs.
  have hround : s.slot + 1 ≤ e.constants.epochAt slot * e.constants.slotsPerEpoch
      + e.constants.slotsPerHistoricalRoot := by
    rw [← Constants.epochAt_mul_of_start hstart, ← hnow]
    calc s'.currentEpoch e.constants * e.constants.slotsPerEpoch
        ≤ (e.constants.epochAt slot + 2) * e.constants.slotsPerEpoch := Nat.mul_le_mul_right _ hto
      _ = e.constants.epochAt slot * e.constants.slotsPerEpoch + 2 * e.constants.slotsPerEpoch :=
          Nat.add_mul ..
      _ ≤ _ := Nat.add_le_add_left e.consistent.twoEpochs_le _
  have hroots {u : Slot} {root : Root}
      (hfrom : e.constants.epochAt slot * e.constants.slotsPerEpoch ≤ u) (hu : u ≤ slot)
      (hroot : e.blockRootAt? t u = some root) :
      (s.atNextSlot e.constants).blockRootAt? e.constants u = some root :=
    ChainState.blockRootAt?_atNextSlot hframe.rings hlimit' (by lia) (by lia)
      (hafter.blockRootAt? hu hslot hroot (by lia))
  have hcommittees := hafter.reaches.committees_atNextSlot (hepoch.trans hslot) hlimit
    hserves.committees_eq hstep hto hnext
  have htarget := hserves.target_root
  rw [Constants.epochStart_of_lt ((hepoch.trans hslot).trans_lt hlimit)] at htarget
  refine ⟨?_, ?_, ?_⟩
  · rw [boundaryRoot, hserves.target_epoch,
      Constants.epochStart_of_lt ((hepoch.trans hslot).trans_lt hlimit),
      hroots le_rfl hepoch htarget]
  · rw [namesHead, hserves.data_slot, hroots hepoch le_rfl hserves.head]
    simp
  · rw [attestersOf, hserves.target_epoch, hcommittees]
    simp only [Attempt.widen, Attempt.ok_bind, hserves.data_slot, hserves.data_index,
      hserves.members_eq, hbits, members_of_single hv]
    rfl

end ChainHead.Serves

/-- The boundary after a state counts a pending attestation in full, for one validator alone: when
    it justifies, and when it pays. -/
structure BoundaryCounts (c : Constants) (s : ChainState) (a : PendingAttestation)
    (v : ValidatorIndex) : Prop where
  justifying : CountsFor c (s.atNextSlot c) (committeesOf c (s.atNextSlot c)) a v
  paying : ∀ summary s', justifyAndFinalize c (committeesOf c (s.atNextSlot c))
      ((s.atNextSlot c).currentEpoch c - 1) (s.atNextSlot c) = .ok (summary, s') →
    CountsFor c s' (committeesOf c (s.atNextSlot c)) a v

theorem ChainHead.Serves.boundaryCounts
    (hserves : h.Serves e slot index data t committees members) (hreach : h.Reachable e)
    (hafter : e.ReachesAfter slot t s) (hv : members[position]? = some v)
    (hstart : e.constants.isEpochStart (s.slot + 1) = true)
    (hstep : Engine.step e.constants s = .ok s') {a : PendingAttestation}
    (hpending : a ∈ s.currentEpochAttestations ∨ a ∈ s.previousEpochAttestations)
    (ha : a.ballot = data.voteOf members.length position) : BoundaryCounts e.constants s a v := by
  obtain ⟨⟨time, validators, first, fork, hrun⟩, -⟩ := hreach.stateAt hserves.state
  have hcoherent : Coherent e.constants s :=
    Engine.Reachable.coherent ⟨time, validators, first, fork, hrun.trans hafter.reaches⟩
  have htarget : a.data.target.epoch = e.constants.epochAt slot := by
    rw [show a.data = data from congrArg Ballot.data ha]
    exact hserves.target_epoch
  have hopened : s'.currentEpoch e.constants = s.currentEpoch e.constants + 1 := by
    rw [ChainState.currentEpoch, (step_frame hstep).slot]
    exact Constants.epochAt_succ_of_start hstart
  -- The boundary closes the epoch of the slot, or the one after it.
  have hcounts : CountsFor e.constants (s.atNextSlot e.constants)
      (committeesOf e.constants (s.atNextSlot e.constants)) a v := by
    rcases hpending with hcurrent | hprevious
    · have hnow := (hcoherent.current a hcurrent).target
      obtain ⟨htwo, -⟩ := window_of_committeesOf e.consistent hserves.committees_eq
      exact hserves.countsFor hreach hafter hv hstart hstep (by lia) (by lia) ha
    · obtain ⟨epoch, hnext, hseat⟩ := hcoherent.previous a hprevious
      have hthen := hseat.target
      have hroom := currentEpoch_succ_lt e.consistent hcoherent hstart hstep hprevious
      exact hserves.countsFor hreach hafter hv hstart hstep (by lia) hroom ha
  refine ⟨hcounts, fun summary s₁ hjustify => ?_⟩
  have hframe := justifyAndFinalize_frame hjustify
  exact hcounts.congr (by rw [hframe]) (by rw [hframe])

/-! ## The theorem -/

/-- **Served votes are includable and count for the right validator.** A head that serves the data of
    a committee's vote knows the committee. Let an attestation with these data have the bit of one
    member set and no other. Then every state that the chain may become accepts it from the inclusion
    delay on up to an epoch after the slot; every boundary that is processed while the attestation is
    pending counts it in full, for that member alone; and the head's own assignments name the member
    for this place, to those who ask for it. Only where the slot an epoch later leaves the 64-bit
    range the check stops with an overflow, and the assignments may. -/
theorem attestationData_counts (e : Engine) {h : ChainHead} {slot : Slot} {index : CommitteeIndex}
    {data : AttestationData} (hreach : h.Reachable e)
    (hserved : h.attestationData e slot index = .ok data) :
    ∃ t committees members, h.stateAt e slot = .ok t ∧
      e.committees t (e.constants.epochAt slot) = .ok committees ∧
      committees.committee? slot index = some members ∧
      ∀ position v, members[position]? = some v →
        (∀ s a, h.LeadsTo e slot s →
          slot + e.constants.minAttestationInclusionDelay ≤ s.slot →
          s.slot ≤ slot + e.constants.slotsPerEpoch →
          a.ballot = data.voteOf members.length position →
            checkAttestation e.constants s a =
              if slot + e.constants.slotsPerEpoch < Word.limit then .ok ()
              else .error (.fault .overflow)) ∧
        (∀ s s' a, h.LeadsTo e slot s → e.constants.isEpochStart (s.slot + 1) = true →
          Engine.step e.constants s = .ok s' →
          a ∈ s.currentEpochAttestations ∨ a ∈ s.previousEpochAttestations →
          a.ballot = data.voteOf members.length position → BoundaryCounts e.constants s a v) ∧
        ∀ keys, (∃ duties, h.duties e (e.constants.epochAt slot) keys = .ok duties ∧
            ∀ w, AssignedTo duties slot index position w ↔
              w = v ∧ w ∈ Engine.requested h.state keys) ∨
          Word.limit ≤ slot + e.constants.slotsPerEpoch ∧
            h.duties e (e.constants.epochAt slot) keys = .error (.fault .overflow) := by
  obtain ⟨t, committees, members, hserves⟩ := ChainHead.serves_of_attestationData hserved
  -- What the chain may become follows on the state that has answered.
  have hafter {s : ChainState} (hleads : h.LeadsTo e slot s) : e.ReachesAfter slot t s := by
    obtain ⟨t', hstate, hafter⟩ := hleads.exists_answer hreach
    obtain rfl := Except.ok.inj (hserves.state.symm.trans hstate)
    exact hafter
  refine ⟨t, committees, members, hserves.state, Attempt.widen_eq_ok.2 hserves.committees_eq,
    hserves.members_eq, fun position v hv => ⟨?_, ?_, ?_⟩⟩
  · intro s a hleads hearly hlate ha
    exact hserves.checkAttestation hreach (hafter hleads) hv hearly hlate ha
  · intro s s' a hleads hstart hstep hpending ha
    exact hserves.boundaryCounts hreach (hafter hleads) hv hstart hstep hpending ha
  · intro keys
    have hassigned {duties : List ValidatorDuties}
        (hduties : h.duties e (e.constants.epochAt slot) keys = .ok duties) (w : ValidatorIndex) :
        AssignedTo duties slot index position w ↔ w = v ∧ w ∈ Engine.requested h.state keys := by
      rw [ChainHead.duties_iff hreach hserves.state hserves.committees_eq hserves.members_eq hduties,
        hv, Option.some.injEq, eq_comm]
    have hwithin {ℓ : Leeway} (hfits : ℓ.faults .overflow ∨ _) :
        (h.duties e (e.constants.epochAt slot) keys).Within ℓ :=
      ChainHead.duties_within hreach hserves.state hserves.committees_eq hfits keys
    rcases Nat.lt_or_ge (slot + e.constants.slotsPerEpoch) Word.limit with hfits | hout
    · obtain ⟨duties, hduties⟩ := (hwithin (ℓ := .none) (Or.inr hfits)).exists_ok
      exact Or.inl ⟨duties, hduties, hassigned hduties⟩
    · exact (hwithin (ℓ := .overflow) (Or.inl rfl)).ok_or_overflow.imp
        (fun ⟨duties, hduties⟩ => ⟨duties, hduties, hassigned hduties⟩) (⟨hout, ·⟩)

/-- The lone validator's node at the start of its chain. -/
def loneHead : ChainHead := ⟨ChainState.lone, .genesis (hashRoot ChainState.lone)⟩

theorem reachable_loneHead : loneHead.Reachable .lone := .genesis 0 [loneVoter] {} {} rfl

/-- The vote that is served for the first slot may be included in the second one, with the bit of the
    lone validator. Once a block has done so, the boundary that follows counts the vote for this
    validator, to whom the node has assigned the place. -/
theorem attestationData_counts_lone :
    ∃ data s s' p, loneHead.attestationData .lone 1 0 = .ok data ∧
      Engine.lone.advance loneHead.state 2 = .ok s ∧
      checkAttestation Constants.lone s { bits := [true], data } = .ok () ∧
      Engine.lone.Reaches s s' ∧ p ∈ s'.previousEpochAttestations ∧
      p.ballot = data.voteOf 1 0 ∧ BoundaryCounts Constants.lone s' p 0 ∧
      ∃ duties, loneHead.duties .lone 1 [Bytes.zero 48] = .ok duties ∧
        AssignedTo duties 1 0 0 0 := by
  obtain ⟨data, hserved⟩ : ∃ data, loneHead.attestationData .lone 1 0 = .ok data :=
    Attempt.exists_ok_of_isOk (by decide +kernel)
  obtain ⟨t, committees, members, hstate, hcommittees, hmembers, hall⟩ :=
    attestationData_counts .lone reachable_loneHead hserved
  -- The first slot is entered without a block.
  have hrun : Engine.lone.Run { first := ChainState.lone } ChainState.lone := .genesis ..
  obtain ⟨t', hstep, hlone, -⟩ := isLone_genesis.exists_step hrun (by decide)
  have hadvance : Engine.lone.advance ChainState.lone 1 = .ok t' :=
    advance_of_step (e := Engine.lone) hstep
  obtain rfl : t' = t := by
    have hahead : loneHead.stateAt .lone 1 = .ok t' :=
      ChainHead.stateAt_eq_ok.2 (Or.inr ⟨Nat.zero_lt_one, hadvance⟩)
    exact Except.ok.inj (hahead.symm.trans hstate)
  have hslot : t'.slot = 1 := advance_slot hadvance
  -- Its committee is the lone validator.
  obtain rfl : members = [0] := by
    have hknown := Attempt.widen_eq_ok.1 hcommittees
    have hwindow : checkWindow Constants.lone t' 1 = .ok () :=
      checkWindow_eq_ok.2 (window_of_committeesOf Engine.lone.consistent hknown)
    obtain ⟨committees', hcommittees', -, hmembers'⟩ :=
      hlone.isSole.committee Constants.brief_lone hwindow (by decide)
    obtain rfl := Except.ok.inj (hknown.symm.trans hcommittees')
    exact Option.some.inj (hmembers.symm.trans hmembers')
  obtain ⟨hinclude, hboundary, hduties⟩ := hall 0 0 rfl
  -- The next slot accepts the vote.
  have hrun₁ := hrun.slot hstep
  obtain ⟨s, hstep₁, hlone₁, hvotes⟩ := hlone.exists_step hrun₁ (by rw [hslot]; decide)
  have hadvance₁ := advance_of_step (e := Engine.lone) hstep₁
  rw [hslot] at hadvance₁
  have hslot₁ : s.slot = 2 := advance_slot hadvance₁
  have hleads : loneHead.LeadsTo .lone 1 s :=
    .ahead Nat.zero_lt_one hadvance (.single (.advance 2 hadvance₁))
  have hcheck : checkAttestation Constants.lone s { bits := [true], data } = .ok () :=
    (hinclude s { bits := [true], data } hleads (by rw [hslot₁]; decide) (by rw [hslot₁]; decide)
      rfl).trans (if_pos (by decide))
  -- A block of this slot includes it.
  obtain ⟨_, _, _, hserves⟩ := ChainHead.serves_of_attestationData hserved
  have hnewer : s.latestBlockHeader.slot < s.slot := by
    rw [advance_latestBlockHeader_slot hadvance₁, advance_latestBlockHeader_slot hadvance, hslot₁]
    exact Nat.zero_lt_two
  have hbefore : data.target.epoch < s.slot := by
    rw [hserves.target_epoch, hslot₁]
    decide
  obtain ⟨b, hb⟩ := hlone₁.isSole.exists_blockWith (e := Engine.lone) Constants.brief_lone
    (by rw [hslot₁]; decide) hnewer (hlone₁.votesStored hvotes {} (by decide)) rfl hcheck
    hbefore
  obtain ⟨s', hblock, hlone', hslot'⟩ : ∃ s', Engine.lone.applyBlock s b = .ok s' ∧ IsLone s' ∧
      s'.slot = s.slot := ⟨_, hb.applies, hlone₁.afterVote hb, rfl⟩
  have hrun' := (hrun₁.slot hstep₁).block hblock
  have hreaches : Engine.lone.Reaches s s' :=
    .of_importBlock (importBlock_of_applyBlock hblock)
  have hremembered :
      data.voteOf 1 0 ∈ s'.previousEpochAttestations.map PendingAttestation.ballot := by
    rw [hrun'.remembers.previous, Chronicle.afterBlock_blocks, ballotsOf_concat, hb.attestations,
      List.mem_filter, decide_eq_true_iff]
    refine ⟨List.mem_append_right _ (List.mem_singleton_self _), ?_⟩
    show data.target.epoch + 1 = Constants.lone.epochAt s'.slot
    rw [hserves.target_epoch, hslot', hslot₁]
    rfl
  obtain ⟨p, hp, hballot⟩ := List.mem_map.1 hremembered
  -- And the boundary at its end is processed.
  obtain ⟨s'', hstep', -⟩ := hlone'.exists_step hrun' (by rw [hslot', hslot₁]; decide)
  refine ⟨data, s, s', p, hserved, ?_, hcheck, hreaches, hp, hballot, ?_, ?_⟩
  · exact (advance_of_advance (by decide : 1 ≤ 2) hadvance).symm.trans hadvance₁
  · exact hboundary s' s'' p (hleads.extend (by rw [hslot₁]; decide) hreaches)
      (Constants.isEpochStart_lone _) hstep' (Or.inr hp) hballot
  · obtain ⟨duties, hok, hassigned⟩ := (hduties [Bytes.zero 48]).resolve_right fun hout =>
      absurd hout.1 (by decide)
    exact ⟨duties, hok, (hassigned 0).2 ⟨rfl, by decide⟩⟩

end Beacon
