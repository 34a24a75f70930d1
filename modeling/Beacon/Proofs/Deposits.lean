import Mathlib
import Beacon.Proofs.LoneVoter

set_option autoImplicit false

/-! # Deposits are processed once and in order

A state knows the index of the next deposit, and a block has to carry the deposits from there on, as
many as the record in force asks for. So the deposits of the blocks of a chain are numbered without a
gap from the first state on. Each of them either belongs to a key of the registry or adds its key at
the end; nothing else changes the keys (`SameIntake`), which are therefore those of the first state
with the new keys of the deposits after them (`Registered`). -/

namespace Beacon

variable {c : Constants} {e : Engine} {first s s' s'' : ChainState} {b : CandidateBlock}
  {d : Deposit} {deposits : List Deposit} {blocks : List CandidateBlock}
  {known keys : List PublicKey} {key : PublicKey}

/-! ## New keys -/

/-- The keys that are not known yet, each once, in the order in which they first appear. -/
def newKeys (known keys : List PublicKey) : List PublicKey :=
  (keys.filter fun key => key ∉ known).eraseDups

theorem mem_newKeys : key ∈ newKeys known keys ↔ key ∈ keys ∧ key ∉ known := by
  simp [newKeys]

/-- A key that has been seen adds nothing. -/
theorem newKeys_concat_of_mem (hmem : key ∈ known ++ newKeys known keys) :
    newKeys known (keys ++ [key]) = newKeys known keys := by
  rw [List.mem_append, mem_newKeys] at hmem
  by_cases hknown : key ∈ known
  · simp [newKeys, hknown]
  · have hseen : key ∈ keys := (hmem.resolve_left hknown).1
    simp [newKeys, hknown, hseen, List.eraseDups_append, List.cons_removeAll]

/-- Any other key comes last. -/
theorem newKeys_concat_of_notMem (hmem : key ∉ known ++ newKeys known keys) :
    newKeys known (keys ++ [key]) = newKeys known keys ++ [key] := by
  rw [List.mem_append, mem_newKeys, not_or] at hmem
  obtain ⟨hknown, hnew⟩ := hmem
  have hunseen : key ∉ keys := fun hseen => hnew ⟨hseen, hknown⟩
  simp [newKeys, hknown, hunseen, List.eraseDups_append, List.cons_removeAll, List.eraseDups_cons]

/-- Known keys that differ from each other and the new ones after them are all different. -/
theorem nodup_append_newKeys (hknown : known.Nodup) (keys : List PublicKey) :
    (known ++ newKeys known keys).Nodup := by
  induction keys using List.reverseRecOn with
  | nil => simpa [newKeys] using hknown
  | append_singleton keys key ih =>
      by_cases hmem : key ∈ known ++ newKeys known keys
      · rw [newKeys_concat_of_mem hmem]
        exact ih
      · rw [newKeys_concat_of_notMem hmem, ← List.append_assoc, ← List.concat_eq_append]
        exact ih.concat hmem

/-! ## The keys of a registry -/

/-- The keys of the registry, in its order. -/
def ChainState.pubkeys (s : ChainState) : List PublicKey :=
  s.validators.toList.map Validator.pubkey

theorem ChainState.validatorIndex?_eq_findIdx? (s : ChainState) (key : PublicKey) :
    s.validatorIndex? key = s.pubkeys.findIdx? (· = key) := by
  rw [pubkeys, List.findIdx?_map]
  rfl

theorem ChainState.validatorIndex?_eq_none_iff :
    s.validatorIndex? key = none ↔ key ∉ s.pubkeys := by
  simp [ChainState.validatorIndex?, ChainState.pubkeys]

/-- A key that is found stands in the registry. -/
theorem ChainState.mem_pubkeys_of_validatorIndex? {i : ValidatorIndex}
    (h : s.validatorIndex? key = some i) : key ∈ s.pubkeys := by
  by_contra hmem
  rw [validatorIndex?_eq_none_iff.2 hmem] at h
  cases h

theorem pubkeys_joinedBy : (s.joinedBy c d).pubkeys = s.pubkeys ++ [d.data.pubkey] := by
  simp [ChainState.pubkeys, Validator.ofDeposit]

/-- Registries with the same key at every place. -/
theorem ChainState.pubkeys_congr
    (h : ∀ i : Nat,
      (s'.validators[i]?).map Validator.pubkey = (s.validators[i]?).map Validator.pubkey) :
    s'.pubkeys = s.pubkeys := by
  refine List.ext_getElem? fun i => ?_
  simpa [ChainState.pubkeys] using h i

@[simp] theorem Validator.pubkey_followBalance (c : Constants) (downward upward : Gwei)
    (v : Validator) (balance : Gwei) :
    (v.followBalance c downward upward balance).pubkey = v.pubkey := by
  unfold Validator.followBalance
  split <;> rfl

theorem pubkeys_activateValidators (epoch : Epoch) :
    (activateValidators c epoch s).pubkeys = s.pubkeys := by
  refine ChainState.pubkeys_congr fun i => ?_
  simp only [activateValidators, Array.getElem?_map]
  cases s.validators[i]? with
  | none => rfl
  | some v =>
      simp only [Option.map_some]
      split <;> rfl

theorem pubkeys_updateEffectiveBalances (hupdate : updateEffectiveBalances c s = .ok s') :
    s'.pubkeys = s.pubkeys := by
  obtain ⟨-, rfl⟩ := updateEffectiveBalances_eq_ok.1 hupdate
  refine ChainState.pubkeys_congr fun i => ?_
  rw [ChainState.getElem?_withFollowed]
  cases s.validators[i]? with
  | none => rfl
  | some v => cases s.balances[i]? <;> simp

/-! ## What takes no deposit in -/

/-- Both states wait for the same deposit, and have the same keys. -/
structure SameIntake (s s' : ChainState) : Prop where
  depositIndex : s'.depositIndex = s.depositIndex
  pubkeys : s'.pubkeys = s.pubkeys

theorem SameIntake.refl (s : ChainState) : SameIntake s s := ⟨rfl, rfl⟩

theorem SameIntake.trans (h : SameIntake s s') (h' : SameIntake s' s'') : SameIntake s s'' :=
  ⟨h'.depositIndex.trans h.depositIndex, h'.pubkeys.trans h.pubkeys⟩

theorem processEpoch_sameIntake {summary : EpochSummary}
    (hprocess : processEpoch c s = .ok (summary, s')) : SameIntake s s' := by
  obtain ⟨-, s₁, s₂, s₃, hjustify, hpay, heffective, rfl⟩ := processEpoch_eq_ok.1 hprocess
  have h₁ := justifyAndFinalize_frame hjustify
  have h₂ := (payRewards_frame hpay).1
  refine ⟨?_, ?_⟩
  · show s₃.depositIndex = s.depositIndex
    rw [(updateEffectiveBalances_frame heffective).1, activateValidators, h₂, h₁]
  · show s₃.pubkeys = s.pubkeys
    rw [pubkeys_updateEffectiveBalances heffective, pubkeys_activateValidators,
      ChainState.pubkeys, h₂, h₁]
    rfl

theorem step_sameIntake (hstep : Engine.step c s = .ok s') : SameIntake s s' := by
  have hentry : SameIntake s (s.atNextSlot c) := ⟨rfl, rfl⟩
  rcases step_cases hstep with ⟨-, summary, hprocess⟩ | ⟨-, rfl⟩
  · exact hentry.trans (processEpoch_sameIntake hprocess)
  · exact hentry

theorem advance_sameIntake {target : Slot} (hadvance : e.advance s target = .ok s') :
    SameIntake s s' :=
  stepBy_invariant (P := SameIntake s) (fun _ _ ht hstep => ht.trans (step_sameIntake hstep))
    (.refl s) (advance_eq_ok.1 hadvance).2

theorem applySlashing_sameIntake {whistleblower : ValidatorIndex} {evidence : ProposerSlashing}
    (happly : applySlashing c whistleblower s evidence = .ok s') : SameIntake s s' := by
  obtain ⟨index, v, balance, -, hv, -, -, rfl⟩ := applySlashing_eq_ok.1 happly
  refine ⟨rfl, ChainState.pubkeys_congr fun i => ?_⟩
  rw [ChainState.getElem?_withSlashed hv]
  cases s.validators[i]? with
  | none => rfl
  | some w =>
      rw [Option.map_some]
      split <;> rfl

theorem applyAttestation_sameIntake {proposer : ValidatorIndex} {a : Attestation}
    (happly : applyAttestation c proposer s a = .ok s') : SameIntake s s' := by
  obtain ⟨-, -, rfl⟩ := applyAttestation_eq_ok.1 happly
  unfold ChainState.recording
  split <;> exact ⟨rfl, rfl⟩

/-! ## What takes deposits in -/

/-- The state has taken in these deposits since the first one: their indices follow on each other,
    and their new keys stand at the end of the registry. -/
structure Registered (first : ChainState) (deposits : List Deposit) (s : ChainState) : Prop where
  indices : deposits.map (·.index) = List.range' first.depositIndex deposits.length
  depositIndex : s.depositIndex = first.depositIndex + deposits.length
  pubkeys : s.pubkeys
    = first.pubkeys ++ newKeys first.pubkeys (deposits.map (·.data.pubkey))

theorem registered_nil (first : ChainState) : Registered first [] first :=
  ⟨rfl, rfl, (List.append_nil _).symm⟩

theorem Registered.congr (hreg : Registered first deposits s) (hsame : SameIntake s s') :
    Registered first deposits s' :=
  ⟨hreg.indices, hsame.depositIndex.trans hreg.depositIndex, hsame.pubkeys.trans hreg.pubkeys⟩

/-- A deposit with a key that has not been seen adds the key, any other one adds none. -/
theorem Registered.applyDeposit (hreg : Registered first deposits s)
    (happly : applyDeposit c s d = .ok s') : Registered first (deposits ++ [d]) s' := by
  obtain ⟨hindex, -, hcases⟩ := applyDeposit_eq_ok.1 happly
  have hindices : (deposits ++ [d]).map (·.index)
      = List.range' first.depositIndex (deposits ++ [d]).length := by
    rw [List.map_append, hreg.indices, List.map_singleton, hindex, hreg.depositIndex,
      List.length_append, List.length_singleton, List.range'_1_concat]
  have hnext : s.depositIndex + 1 = first.depositIndex + (deposits ++ [d]).length := by
    rw [hreg.depositIndex, List.length_append, List.length_singleton, Nat.add_assoc]
  rcases hcases with ⟨index, balance, hkey, -, rfl⟩ | ⟨hkey, rfl⟩
  · have hmem := ChainState.mem_pubkeys_of_validatorIndex? hkey
    refine ⟨hindices, hnext, ?_⟩
    rw [hreg.pubkeys] at hmem
    rw [List.map_append, List.map_singleton, newKeys_concat_of_mem hmem]
    exact hreg.pubkeys
  · have hmem := ChainState.validatorIndex?_eq_none_iff.1 hkey
    refine ⟨hindices, hnext, ?_⟩
    rw [hreg.pubkeys] at hmem
    rw [List.map_append, List.map_singleton, newKeys_concat_of_notMem hmem, pubkeys_joinedBy,
      hreg.pubkeys, List.append_assoc]

/-- A block takes in its deposits, one after the other. -/
theorem Registered.processBlock (hreg : Registered first deposits s) (hc : c.Consistent)
    (hblock : processBlock c s b = .ok s') :
    Registered first (deposits ++ b.body.deposits) s' := by
  obtain ⟨-, -, -, -, hops⟩ := (processBlock_eq_ok hc).1 hblock
  obtain ⟨-, s₁, s₂, hslashings, hattestations, hdeposits⟩ := applyOperations_eq_ok.1 hops
  have hopened : SameIntake s (s.opened c b) := ⟨rfl, rfl⟩
  have h₁ : SameIntake s s₁ :=
    Attempt.foldlM_invariant (P := SameIntake s)
      (fun _ _ _ ht happly => ht.trans (applySlashing_sameIntake happly)) hopened hslashings
  have h₂ : SameIntake s s₂ :=
    Attempt.foldlM_invariant (P := SameIntake s)
      (fun _ _ _ ht happly => ht.trans (applyAttestation_sameIntake happly)) h₁ hattestations
  refine Attempt.foldlM_done (P := fun done t => Registered first (deposits ++ done) t) ?_ ?_
    hdeposits
  · intro done d rest t t' _ ht happly
    rw [← List.append_assoc]
    exact ht.applyDeposit happly
  · rw [List.append_nil]
    exact hreg.congr h₂

/-! ## Chains of blocks -/

/-- The deposits in some blocks, in the order in which they are processed. -/
def depositsOf (blocks : List CandidateBlock) : List Deposit := blocks.flatMap (·.body.deposits)

theorem depositsOf_concat (blocks : List CandidateBlock) (b : CandidateBlock) :
    depositsOf (blocks ++ [b]) = depositsOf blocks ++ b.body.deposits := by
  simp [depositsOf]

/-- **The registry of a chain.** Imported blocks have taken in all their deposits and nothing else. -/
theorem registered_of_importBlocks (himport : blocks.foldlM e.importBlock first = .ok s) :
    Registered first (depositsOf blocks) s := by
  refine Attempt.foldlM_done (P := fun done t => Registered first (depositsOf done) t) ?_
    (registered_nil first) himport
  intro done b rest t t' _ ht hb
  obtain ⟨u, hadvance, hblock⟩ := importBlock_eq_ok.1 hb
  rw [depositsOf_concat]
  exact (ht.congr (advance_sameIntake hadvance)).processBlock e.consistent
    (applyBlock_eq_ok.1 hblock).1

/-- A block carries as many deposits as the record that is in force after it asks for. -/
theorem length_deposits_of_importBlock (himport : e.importBlock s b = .ok s') :
    b.body.deposits.length
      = min e.constants.maxDeposits (s'.externalData.depositCount - s.depositIndex) := by
  obtain ⟨t, hadvance, hblock⟩ := importBlock_eq_ok.1 himport
  have hrecord := (applyBlock_frame hblock).frame.externalData
  obtain ⟨-, -, -, -, hops⟩ :=
    (processBlock_eq_ok e.consistent).1 (applyBlock_eq_ok.1 hblock).1
  obtain ⟨⟨-, -, -, hdue⟩, -⟩ := applyOperations_eq_ok.1 hops
  rw [hdue, depositsDue, ← hrecord, ChainState.opened_depositIndex,
    (advance_sameIntake hadvance).depositIndex, Nat.min_comm]

/-! ## The lone validator takes deposits in -/

/-- Contents whose vote makes two deposits due, both with one new key. -/
def twoDeposits : BlockContents where
  randaoReveal := Bytes.fill 96 1
  externalData := { depositCount := 2 }
  deposits :=
    [{ index := 0, data := { pubkey := Bytes.fill 48 7, amount := 2 } },
      { index := 1, data := { pubkey := Bytes.fill 48 7, amount := 1 } }]

/-- In the first slot, where its own vote is the majority, the lone validator can propose a block
    that makes two deposits due and carries them. -/
theorem exists_lone_deposits (contents : BlockContents)
    (hreveal : contents.randaoReveal ≠ Bytes.zero 96)
    (hdata : contents.externalData = { depositCount := 2 })
    (hindices : contents.deposits.map (·.index) = [0, 1]) :
    ∃ t b s, Engine.step Constants.lone ChainState.lone = .ok t ∧ IsLone t ∧ t.slot = 1 ∧
      Engine.lone.applyBlock t b = .ok s ∧ Packs Engine.lone t contents b ∧ b.slot = t.slot ∧
      b.body.externalData = contents.externalData ∧ b.body.deposits = contents.deposits := by
  obtain ⟨t, hstep, hlone, hslot, hnewer, hvotes⟩ := exists_lone_firstSlot
  have hindex : t.depositIndex = 0 := (step_sameIntake hstep).depositIndex
  have hrecord : recordAfterVote Constants.lone t contents.externalData = contents.externalData := by
    rw [recordAfterVote, hvotes]
    rfl
  have hdue : dueAfterVote Constants.lone t contents.externalData = 2 := by
    rw [dueAfterVote, hrecord, depositsDue, hindex, hdata]
    rfl
  have hunprocessed : unprocessed t contents.deposits = contents.deposits := by
    rw [unprocessed, hindex]
    exact List.dropWhile_eq_self_iff.2 fun _ => by simp
  have hfollow : DepositsFollow Constants.lone t contents := by
    rw [DepositsFollow, hdue, hunprocessed, hindex, hindices]
    decide
  obtain ⟨b, hpacks, hblockSlot, hvote⟩ := hlone.isSole.exists_packed (e := Engine.lone)
    Constants.brief_lone (hslot.trans_le (by decide)) (hslot.symm ▸ hnewer) contents
    (hlone.votesStored hvotes _ (by rw [hdata]; decide)) hreveal hfollow
  obtain ⟨s, hblock⟩ := hpacks.applies
  refine ⟨t, b, s, hstep, hlone, hslot, hblock, hpacks, hblockSlot, hvote, ?_⟩
  have hlength : contents.deposits.length = 2 := by
    rw [← List.length_map, hindices]
    rfl
  rw [hpacks.deposits]
  show (unprocessed t contents.deposits).take
    (dueAfterVote Constants.lone t contents.externalData) = _
  rw [hdue, hunprocessed, ← hlength, List.take_length]

/-- They may have one new key. -/
theorem exists_lone_twoDeposits :
    ∃ b s, Engine.lone.importBlock ChainState.lone b = .ok s ∧
      b.body.externalData = twoDeposits.externalData ∧ b.body.deposits = twoDeposits.deposits := by
  obtain ⟨t, b, s, hstep, -, hslot, hblock, -, hblockSlot, hvote, hdeposits⟩ :=
    exists_lone_deposits twoDeposits (by decide) rfl rfl
  refine ⟨b, s, importBlock_eq_ok.2 ⟨t, ?_, hblock⟩, hvote, hdeposits⟩
  rw [hblockSlot, hslot]
  exact advance_of_step (e := Engine.lone) hstep

/-! ## The theorem -/

/-- **Deposits are processed exactly once and in order.** The deposits of blocks that have been
    imported one after the other onto a first state are numbered from its deposit index on, and the
    index of the state counts them all. Each block carries as many as the record in force after its
    own vote asks for, up to the maximum. The registry has the keys of the first state, then those
    of the deposits that had not been seen before, so that its keys are different if they were so at
    first; and there are as many balances as validators all along. -/
theorem deposits_exactly_once (e : Engine) (time : Nat) (validators : List Validator)
    (data : ExternalData) (fork : Fork) (blocks : List CandidateBlock) {first s : ChainState}
    (hfirst : first = ChainState.genesis e.constants time validators data fork)
    (himport : blocks.foldlM e.importBlock first = .ok s) :
    ((depositsOf blocks).map (·.index)
        = List.range' first.depositIndex (depositsOf blocks).length ∧
      s.depositIndex = first.depositIndex + (depositsOf blocks).length) ∧
    (∀ older b newer, blocks = older ++ b :: newer →
      ∃ t t', older.foldlM e.importBlock first = .ok t ∧ e.importBlock t b = .ok t' ∧
        b.body.deposits.length
          = min e.constants.maxDeposits (t'.externalData.depositCount - t.depositIndex)) ∧
    (s.pubkeys = validators.map (·.pubkey) ++
        newKeys (validators.map (·.pubkey)) ((depositsOf blocks).map (·.data.pubkey)) ∧
      ((validators.map (·.pubkey)).Nodup → s.pubkeys.Nodup)) ∧
    ∀ t, e.Reaches first t → t.validators.size = t.balances.size := by
  have hreg := registered_of_importBlocks himport
  have hkeys : first.pubkeys = validators.map (·.pubkey) := by
    rw [hfirst]
    simp [ChainState.pubkeys, ChainState.genesis]
  rw [← hkeys]
  refine ⟨⟨hreg.indices, hreg.depositIndex⟩, ?_, ⟨hreg.pubkeys, fun hdistinct => ?_⟩, ?_⟩
  · rintro older b newer rfl
    rw [List.foldlM_append, Attempt.bind_eq_ok] at himport
    obtain ⟨t, holder, hrest⟩ := himport
    rw [List.foldlM_cons, Attempt.bind_eq_ok] at hrest
    obtain ⟨t', hb, -⟩ := hrest
    exact ⟨t, t', holder, hb, length_deposits_of_importBlock hb⟩
  · rw [hreg.pubkeys]
    exact nodup_append_newKeys hdistinct _
  · intro t hreach
    exact Engine.Reachable.coherent ⟨time, validators, data, fork, hfirst ▸ hreach⟩ |>.sizes

/-- The lone validator's block takes in both deposits, and their key once. -/
theorem deposits_exactly_once_lone :
    ∃ b s, Engine.lone.importBlock ChainState.lone b = .ok s ∧
      (depositsOf [b]).map (·.index) = [0, 1] ∧ s.depositIndex = 2 ∧
      s.pubkeys = [Bytes.zero 48, Bytes.fill 48 7] ∧ s.pubkeys.Nodup ∧
      s.validators.size = s.balances.size := by
  obtain ⟨b, s, himport, -, hdeposits⟩ := exists_lone_twoDeposits
  have hblocks : [b].foldlM Engine.lone.importBlock ChainState.lone = .ok s := by
    rw [List.foldlM_cons, himport]
    rfl
  have hdepositsOf : depositsOf [b] = twoDeposits.deposits :=
    (List.flatMap_singleton ..).trans hdeposits
  obtain ⟨⟨hindices, hindex⟩, -, ⟨hkeys, hdistinct⟩, hsizes⟩ :=
    deposits_exactly_once .lone 0 [loneVoter] {} {} [b] rfl hblocks
  rw [hdepositsOf] at hindices hindex hkeys
  refine ⟨b, s, himport, ?_, hindex, hkeys.trans (by decide +kernel), hdistinct (by decide),
    hsizes s (.of_importBlock himport)⟩
  rw [hdepositsOf]
  exact hindices

end Beacon
