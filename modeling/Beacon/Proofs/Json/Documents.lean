import Mathlib
import Beacon.Json.Records
import Beacon.Proofs.Json.Forms

set_option autoImplicit false

/-! # Documents are read back

Every record of the chain is written as an object of its members and read by their names, so it is
read back as soon as its members are (`Inverse.record`); the records follow one another from the
ones without records in them up to whole states. Constants are read with a default for each member,
which none of them needs here, and an event is an object with one member. `Document` lists the types
that are kept in files and sent to other programs, and `document_restored` says of all of them that
the text of a value spells that value. -/

namespace Beacon

/-! ## The records of the chain -/

theorem roundTrips_fork : RoundTrips Fork := by
  refine .record (fun _ => rfl) (fun _ => rfl) (fun _ => rfl) (by decide) (fun x => ?_)
    fun x hfits => ?_
  · exact ⟨roundTrips_bytes.plain _, roundTrips_bytes.plain _, roundTrips_nat.plain _, trivial⟩
  · obtain ⟨hprevious, hcurrent, hepoch, -⟩ := hfits
    simp [roundTrips_bytes.restores _ hprevious, roundTrips_bytes.restores _ hcurrent,
      roundTrips_nat.restores _ hepoch]

theorem roundTrips_checkpoint : RoundTrips Checkpoint := by
  refine .record (fun _ => rfl) (fun _ => rfl) (fun _ => rfl) (by decide) (fun x => ?_)
    fun x hfits => ?_
  · exact ⟨roundTrips_nat.plain _, roundTrips_bytes.plain _, trivial⟩
  · obtain ⟨hepoch, hroot, -⟩ := hfits
    simp [roundTrips_nat.restores _ hepoch, roundTrips_bytes.restores _ hroot]

theorem roundTrips_validator : RoundTrips Validator := by
  refine .record (fun _ => rfl) (fun _ => rfl) (fun _ => rfl) (by decide) (fun x => ?_)
    fun x hfits => ?_
  · exact ⟨inverse_byteText.plain _, roundTrips_bytes.plain _, roundTrips_nat.plain _,
      roundTrips_bool.plain _, roundTrips_nat.plain _, roundTrips_nat.plain _,
      roundTrips_nat.plain _, trivial⟩
  · obtain ⟨hpubkey, hcredentials, hbalance, hslashed, hactivation, hexit, hwithdrawable,
      -⟩ := hfits
    simp [inverse_byteText.restores _ hpubkey, roundTrips_bytes.restores _ hcredentials,
      roundTrips_nat.restores _ hbalance, roundTrips_bool.restores _ hslashed,
      roundTrips_nat.restores _ hactivation, roundTrips_nat.restores _ hexit,
      roundTrips_nat.restores _ hwithdrawable]

theorem roundTrips_externalData : RoundTrips ExternalData := by
  refine .record (fun _ => rfl) (fun _ => rfl) (fun _ => rfl) (by decide) (fun x => ?_)
    fun x hfits => ?_
  · exact ⟨roundTrips_bytes.plain _, roundTrips_nat.plain _, roundTrips_bytes.plain _, trivial⟩
  · obtain ⟨hroot, hcount, hhash, -⟩ := hfits
    simp [roundTrips_bytes.restores _ hroot, roundTrips_nat.restores _ hcount,
      roundTrips_bytes.restores _ hhash]

theorem roundTrips_depositData : RoundTrips DepositData := by
  refine .record (fun _ => rfl) (fun _ => rfl) (fun _ => rfl) (by decide) (fun x => ?_)
    fun x hfits => ?_
  · exact ⟨inverse_byteText.plain _, roundTrips_bytes.plain _, roundTrips_nat.plain _,
      inverse_byteText.plain _, trivial⟩
  · obtain ⟨hpubkey, hcredentials, hamount, hsignature, -⟩ := hfits
    simp [inverse_byteText.restores _ hpubkey, roundTrips_bytes.restores _ hcredentials,
      roundTrips_nat.restores _ hamount, inverse_byteText.restores _ hsignature]

theorem roundTrips_deposit : RoundTrips Deposit := by
  refine .record (fun _ => rfl) (fun _ => rfl) (fun _ => rfl) (by decide) (fun x => ?_)
    fun x hfits => ?_
  · exact ⟨roundTrips_nat.plain _, roundTrips_depositData.plain _, trivial⟩
  · obtain ⟨hindex, hdata, -⟩ := hfits
    simp [roundTrips_nat.restores _ hindex, roundTrips_depositData.restores _ hdata]

theorem roundTrips_attestationData : RoundTrips AttestationData := by
  refine .record (fun _ => rfl) (fun _ => rfl) (fun _ => rfl) (by decide) (fun x => ?_)
    fun x hfits => ?_
  · exact ⟨roundTrips_nat.plain _, roundTrips_nat.plain _, roundTrips_bytes.plain _,
      roundTrips_checkpoint.plain _, roundTrips_checkpoint.plain _, trivial⟩
  · obtain ⟨hslot, hindex, hhead, hsource, htarget, -⟩ := hfits
    simp [roundTrips_nat.restores _ hslot, roundTrips_nat.restores _ hindex,
      roundTrips_bytes.restores _ hhead, roundTrips_checkpoint.restores _ hsource,
      roundTrips_checkpoint.restores _ htarget]

theorem roundTrips_attestation : RoundTrips Attestation := by
  refine .record (fun _ => rfl) (fun _ => rfl) (fun _ => rfl) (by decide) (fun x => ?_)
    fun x hfits => ?_
  · exact ⟨inverse_bits.plain _, roundTrips_attestationData.plain _, inverse_byteText.plain _,
      trivial⟩
  · obtain ⟨hbits, hdata, hsignature, -⟩ := hfits
    simp [inverse_bits.restores _ hbits, roundTrips_attestationData.restores _ hdata,
      inverse_byteText.restores _ hsignature]

theorem roundTrips_pendingAttestation : RoundTrips PendingAttestation := by
  refine .record (fun _ => rfl) (fun _ => rfl) (fun _ => rfl) (by decide) (fun x => ?_)
    fun x hfits => ?_
  · exact ⟨inverse_bits.plain _, roundTrips_attestationData.plain _, roundTrips_nat.plain _,
      roundTrips_nat.plain _, trivial⟩
  · obtain ⟨hbits, hdata, hdelay, hproposer, -⟩ := hfits
    simp [inverse_bits.restores _ hbits, roundTrips_attestationData.restores _ hdata,
      roundTrips_nat.restores _ hdelay, roundTrips_nat.restores _ hproposer]

theorem roundTrips_blockHeader : RoundTrips BlockHeader := by
  refine .record (fun _ => rfl) (fun _ => rfl) (fun _ => rfl) (by decide) (fun x => ?_)
    fun x hfits => ?_
  · exact ⟨roundTrips_nat.plain _, roundTrips_nat.plain _, roundTrips_bytes.plain _,
      roundTrips_bytes.plain _, roundTrips_bytes.plain _, trivial⟩
  · obtain ⟨hslot, hproposer, hparent, hstate, hbody, -⟩ := hfits
    simp [roundTrips_nat.restores _ hslot, roundTrips_nat.restores _ hproposer,
      roundTrips_bytes.restores _ hparent, roundTrips_bytes.restores _ hstate,
      roundTrips_bytes.restores _ hbody]

theorem roundTrips_signedBlockHeader : RoundTrips SignedBlockHeader := by
  refine .record (fun _ => rfl) (fun _ => rfl) (fun _ => rfl) (by decide) (fun x => ?_)
    fun x hfits => ?_
  · exact ⟨roundTrips_blockHeader.plain _, inverse_byteText.plain _, trivial⟩
  · obtain ⟨hmessage, hsignature, -⟩ := hfits
    simp [roundTrips_blockHeader.restores _ hmessage, inverse_byteText.restores _ hsignature]

theorem roundTrips_proposerSlashing : RoundTrips ProposerSlashing := by
  refine .record (fun _ => rfl) (fun _ => rfl) (fun _ => rfl) (by decide) (fun x => ?_)
    fun x hfits => ?_
  · exact ⟨roundTrips_signedBlockHeader.plain _, roundTrips_signedBlockHeader.plain _, trivial⟩
  · obtain ⟨hfirst, hsecond, -⟩ := hfits
    simp [roundTrips_signedBlockHeader.restores _ hfirst,
      roundTrips_signedBlockHeader.restores _ hsecond]

theorem roundTrips_blockBody : RoundTrips BlockBody := by
  refine .record (fun _ => rfl) (fun _ => rfl) (fun _ => rfl) (by decide) (fun x => ?_)
    fun x hfits => ?_
  · exact ⟨inverse_byteText.plain _, roundTrips_externalData.plain _, roundTrips_bytes.plain _,
      roundTrips_proposerSlashing.list.plain _, roundTrips_attestation.list.plain _,
      roundTrips_deposit.list.plain _, trivial⟩
  · obtain ⟨hreveal, hdata, hgraffiti, hslashings, hattestations, hdeposits, -⟩ := hfits
    simp [inverse_byteText.restores _ hreveal, roundTrips_externalData.restores _ hdata,
      roundTrips_bytes.restores _ hgraffiti, roundTrips_proposerSlashing.list.restores _ hslashings,
      roundTrips_attestation.list.restores _ hattestations,
      roundTrips_deposit.list.restores _ hdeposits]

theorem roundTrips_candidateBlock : RoundTrips CandidateBlock := by
  refine .record (fun _ => rfl) (fun _ => rfl) (fun _ => rfl) (by decide) (fun x => ?_)
    fun x hfits => ?_
  · exact ⟨roundTrips_nat.plain _, roundTrips_nat.plain _, roundTrips_bytes.plain _,
      roundTrips_bytes.plain _, roundTrips_blockBody.plain _, trivial⟩
  · obtain ⟨hslot, hproposer, hparent, hstate, hbody, -⟩ := hfits
    simp [roundTrips_nat.restores _ hslot, roundTrips_nat.restores _ hproposer,
      roundTrips_bytes.restores _ hparent, roundTrips_bytes.restores _ hstate,
      roundTrips_blockBody.restores _ hbody]

theorem roundTrips_signedBlock : RoundTrips SignedBlock := by
  refine .record (fun _ => rfl) (fun _ => rfl) (fun _ => rfl) (by decide) (fun x => ?_)
    fun x hfits => ?_
  · exact ⟨roundTrips_candidateBlock.plain _, inverse_byteText.plain _, trivial⟩
  · obtain ⟨hmessage, hsignature, -⟩ := hfits
    simp [roundTrips_candidateBlock.restores _ hmessage, inverse_byteText.restores _ hsignature]

theorem roundTrips_chainState : RoundTrips ChainState := by
  refine .record (fun _ => rfl) (fun _ => rfl) (fun _ => rfl) (by decide) (fun x => ?_)
    fun x hfits => ?_
  · exact ⟨roundTrips_nat.plain _, roundTrips_bytes.plain _, roundTrips_nat.plain _,
      roundTrips_fork.plain _, roundTrips_blockHeader.plain _, roundTrips_bytes.array.plain _,
      roundTrips_bytes.array.plain _, roundTrips_externalData.plain _,
      roundTrips_externalData.list.plain _, roundTrips_nat.plain _,
      roundTrips_validator.array.plain _, roundTrips_nat.array.plain _,
      roundTrips_pendingAttestation.list.plain _, roundTrips_pendingAttestation.list.plain _,
      inverse_bitVector.plain _, roundTrips_checkpoint.plain _, roundTrips_checkpoint.plain _,
      roundTrips_checkpoint.plain _, trivial⟩
  · obtain ⟨htime, hregistry, hslot, hfork, hheader, hroots, hmixes, hdata, hvotes, hdeposits,
      hvalidators, hbalances, hprevious, hcurrent, hbits, hpreviousJustified, hcurrentJustified,
      hfinalized, -⟩ := hfits
    simp [roundTrips_nat.restores _ htime, roundTrips_bytes.restores _ hregistry,
      roundTrips_nat.restores _ hslot, roundTrips_fork.restores _ hfork,
      roundTrips_blockHeader.restores _ hheader, roundTrips_bytes.array.restores _ hroots,
      roundTrips_bytes.array.restores _ hmixes, roundTrips_externalData.restores _ hdata,
      roundTrips_externalData.list.restores _ hvotes, roundTrips_nat.restores _ hdeposits,
      roundTrips_validator.array.restores _ hvalidators, roundTrips_nat.array.restores _ hbalances,
      roundTrips_pendingAttestation.list.restores _ hprevious,
      roundTrips_pendingAttestation.list.restores _ hcurrent, inverse_bitVector.restores _ hbits,
      roundTrips_checkpoint.restores _ hpreviousJustified,
      roundTrips_checkpoint.restores _ hcurrentJustified,
      roundTrips_checkpoint.restores _ hfinalized]

/-! ## Duties and deposit blocks -/

theorem roundTrips_forkInfo : RoundTrips ForkInfo := by
  refine .record (fun _ => rfl) (fun _ => rfl) (fun _ => rfl) (by decide) (fun x => ?_)
    fun x hfits => ?_
  · exact ⟨roundTrips_fork.plain _, roundTrips_bytes.plain _, trivial⟩
  · obtain ⟨hfork, hroot, -⟩ := hfits
    simp [roundTrips_fork.restores _ hfork, roundTrips_bytes.restores _ hroot]

theorem roundTrips_validatorDuties : RoundTrips ValidatorDuties := by
  refine .record (fun _ => rfl) (fun _ => rfl) (fun _ => rfl) (by decide) (fun x => ?_)
    fun x hfits => ?_
  · exact ⟨inverse_hexText.plain _, roundTrips_nat.plain _, roundTrips_nat.plain _,
      roundTrips_nat.plain _, roundTrips_nat.plain _, roundTrips_nat.plain _,
      roundTrips_nat.list.plain _, trivial⟩
  · obtain ⟨hpubkey, hindex, hslot, hcommittee, hposition, hsize, hproposals, -⟩ := hfits
    simp [inverse_hexText.restores _ hpubkey, roundTrips_nat.restores _ hindex,
      roundTrips_nat.restores _ hslot, roundTrips_nat.restores _ hcommittee,
      roundTrips_nat.restores _ hposition, roundTrips_nat.restores _ hsize,
      roundTrips_nat.list.restores _ hproposals]

theorem roundTrips_aggregateAndProof : RoundTrips AggregateAndProof := by
  refine .record (fun _ => rfl) (fun _ => rfl) (fun _ => rfl) (by decide) (fun x => ?_)
    fun x hfits => ?_
  · exact ⟨roundTrips_nat.plain _, roundTrips_attestation.plain _, inverse_byteText.plain _,
      trivial⟩
  · obtain ⟨hindex, haggregate, hproof, -⟩ := hfits
    simp [roundTrips_nat.restores _ hindex, roundTrips_attestation.restores _ haggregate,
      inverse_byteText.restores _ hproof]

theorem roundTrips_signedAggregateAndProof : RoundTrips SignedAggregateAndProof := by
  refine .record (fun _ => rfl) (fun _ => rfl) (fun _ => rfl) (by decide) (fun x => ?_)
    fun x hfits => ?_
  · exact ⟨roundTrips_aggregateAndProof.plain _, inverse_byteText.plain _, trivial⟩
  · obtain ⟨hmessage, hsignature, -⟩ := hfits
    simp [roundTrips_aggregateAndProof.restores _ hmessage, inverse_byteText.restores _ hsignature]

theorem roundTrips_depositBlock : RoundTrips DepositBlock := by
  refine .record (fun _ => rfl) (fun _ => rfl) (fun _ => rfl) (by decide) (fun x => ?_)
    fun x hfits => ?_
  · exact ⟨roundTrips_nat.plain _, roundTrips_bytes.plain _, roundTrips_bytes.plain _,
      roundTrips_nat.plain _, trivial⟩
  · obtain ⟨hnumber, hhash, hparent, htimestamp, -⟩ := hfits
    simp [roundTrips_nat.restores _ hnumber, roundTrips_bytes.restores _ hhash,
      roundTrips_bytes.restores _ hparent, roundTrips_nat.restores _ htimestamp]

/-! ## Constants and events -/

theorem roundTrips_constants : RoundTrips Constants := by
  refine .record (fun _ => rfl) (fun _ => rfl) (fun _ => rfl) (by decide) (fun x => ?_)
    fun x hfits => ?_
  · exact ⟨trivial, trivial, trivial, trivial, trivial, trivial, trivial, trivial, trivial, trivial,
      trivial, trivial, trivial, trivial, trivial, trivial, trivial, trivial, trivial⟩
  · obtain ⟨h₁, h₂, h₃, h₄, h₅, h₆, h₇, h₈, h₉, h₁₀, h₁₁, h₁₂, h₁₃, h₁₄, h₁₅, h₁₆, h₁₇, h₁₈, -⟩ :=
      hfits
    simp only [Constants.members, List.map_cons, List.map_nil, List.zip_cons_cons,
      List.zip_nil_left]
    simp [Constants.ofRow, roundTrips_nat.restores _ h₁, roundTrips_nat.restores _ h₂,
      roundTrips_nat.restores _ h₃, roundTrips_nat.restores _ h₄, roundTrips_nat.restores _ h₅,
      roundTrips_nat.restores _ h₆, roundTrips_nat.restores _ h₇, roundTrips_nat.restores _ h₈,
      roundTrips_nat.restores _ h₉, roundTrips_nat.restores _ h₁₀, roundTrips_nat.restores _ h₁₁,
      roundTrips_nat.restores _ h₁₂, roundTrips_nat.restores _ h₁₃, roundTrips_nat.restores _ h₁₄,
      roundTrips_nat.restores _ h₁₅, roundTrips_nat.restores _ h₁₆, roundTrips_nat.restores _ h₁₇,
      roundTrips_nat.restores _ h₁₈]

/-- An event is an object with one member, named for its kind. -/
theorem roundTrips_chainEvent : RoundTrips ChainEvent where
  plain event := by
    cases event with
    | slotStarted n => exact ⟨⟨trivial, trivial⟩, trivial⟩
    | epochStarted n => exact ⟨⟨trivial, trivial⟩, trivial⟩
    | blockImported slot root proposer =>
        exact ⟨⟨trivial, roundTrips_bytes.plain root, trivial, trivial⟩, trivial⟩
    | checkpointFinalized cp => exact ⟨roundTrips_checkpoint.plain cp, trivial⟩
  restores event hfits := by
    cases event with
    | slotStarted n =>
        obtain ⟨⟨hn, -⟩, -⟩ := hfits
        show (do
          return ChainEvent.slotStarted (← (← Row.read? .stored ["slot"]
            (.object [("slot", write .stored n)])).get "slot") : Option ChainEvent) = _
        rw [Row.read?_object ["slot"] rfl (by decide)]
        simp [roundTrips_nat.restores _ hn]
    | epochStarted n =>
        obtain ⟨⟨hn, -⟩, -⟩ := hfits
        show (do
          return ChainEvent.epochStarted (← (← Row.read? .stored ["epoch"]
            (.object [("epoch", write .stored n)])).get "epoch") : Option ChainEvent) = _
        rw [Row.read?_object ["epoch"] rfl (by decide)]
        simp [roundTrips_nat.restores _ hn]
    | blockImported slot root proposer =>
        obtain ⟨⟨hslot, hroot, hproposer, -⟩, -⟩ := hfits
        show readImported .stored (.object [("slot", write .stored slot),
          ("root", write .stored root), ("proposer_index", write .stored proposer)]) = _
        rw [readImported, Row.read?_object ["slot", "root", "proposer_index"] rfl (by decide)]
        simp [roundTrips_nat.restores _ hslot, roundTrips_bytes.restores _ hroot,
          roundTrips_nat.restores _ hproposer]
    | checkpointFinalized cp =>
        obtain ⟨hcp, -⟩ := hfits
        show (read .stored (write .stored cp) : Option Checkpoint).map
          ChainEvent.checkpointFinalized = _
        rw [roundTrips_checkpoint.restores cp hcp, Option.map_some]

/-! ## Documents -/

/-- The types of the documents that are kept in files and sent to other programs. -/
inductive Document where
  | state | block | signedBlock | body | attestation | pendingAttestation | slashing | deposit
  | validator | constants | event | duties | aggregateAndProof | forkInfo | depositBlock

namespace Document

/-- The values of such a type. -/
def Value : Document → Type
  | state => ChainState
  | block => CandidateBlock
  | signedBlock => SignedBlock
  | body => BlockBody
  | attestation => Attestation
  | pendingAttestation => PendingAttestation
  | slashing => ProposerSlashing
  | deposit => Deposit
  | validator => Validator
  | constants => Constants
  | event => ChainEvent
  | duties => ValidatorDuties
  | aggregateAndProof => SignedAggregateAndProof
  | forkInfo => ForkInfo
  | depositBlock => DepositBlock

instance : (d : Document) → Form d.Value
  | state => inferInstanceAs (Form ChainState)
  | block => inferInstanceAs (Form CandidateBlock)
  | signedBlock => inferInstanceAs (Form SignedBlock)
  | body => inferInstanceAs (Form BlockBody)
  | attestation => inferInstanceAs (Form Attestation)
  | pendingAttestation => inferInstanceAs (Form PendingAttestation)
  | slashing => inferInstanceAs (Form ProposerSlashing)
  | deposit => inferInstanceAs (Form Deposit)
  | validator => inferInstanceAs (Form Validator)
  | constants => inferInstanceAs (Form Constants)
  | event => inferInstanceAs (Form ChainEvent)
  | duties => inferInstanceAs (Form ValidatorDuties)
  | aggregateAndProof => inferInstanceAs (Form SignedAggregateAndProof)
  | forkInfo => inferInstanceAs (Form ForkInfo)
  | depositBlock => inferInstanceAs (Form DepositBlock)

theorem roundTrips : (d : Document) → RoundTrips d.Value
  | state => roundTrips_chainState
  | block => roundTrips_candidateBlock
  | signedBlock => roundTrips_signedBlock
  | body => roundTrips_blockBody
  | attestation => roundTrips_attestation
  | pendingAttestation => roundTrips_pendingAttestation
  | slashing => roundTrips_proposerSlashing
  | deposit => roundTrips_deposit
  | validator => roundTrips_validator
  | constants => roundTrips_constants
  | event => roundTrips_chainEvent
  | duties => roundTrips_validatorDuties
  | aggregateAndProof => roundTrips_signedAggregateAndProof
  | forkInfo => roundTrips_forkInfo
  | depositBlock => roundTrips_depositBlock

end Document

/-- The text of a document in the stored style. -/
def documentText {α : Type} [Form α] (x : α) : String := (write .stored x).render

/-- The value that a text spells in the stored style, if it spells one. -/
def documentOf? {α : Type} [Form α] (text : String) : Option α :=
  (Json.parse text).bind (read .stored)

/-- **Documents are read back as they were written.** The text of every document whose numbers are
    words spells that document. -/
theorem document_restored (d : Document) (x : d.Value) (hfits : (write .stored x).Fits) :
    documentOf? (documentText x) = some x := by
  rw [documentOf?, documentText, Json.parse_render (d.roundTrips.plain x), Option.bind_some,
    d.roundTrips.restores x hfits]

/-- An event with the largest word in it, and an assignment with its key as text. -/
theorem document_restored_event :
    documentOf? (documentText (ChainEvent.slotStarted Word.max))
        = some (ChainEvent.slotStarted Word.max) ∧
      documentOf? (documentText ({ proposalSlots := [1, Word.max] } : ValidatorDuties))
        = some ({ proposalSlots := [1, Word.max] } : ValidatorDuties) := by
  have hmax : Word.max < Word.limit := by decide
  have hzero : 0 < Word.limit := by decide
  have hone : 1 < Word.limit := by decide
  refine ⟨document_restored .event (.slotStarted Word.max) ⟨⟨hmax, trivial⟩, trivial⟩,
    document_restored .duties { proposalSlots := [1, Word.max] } ?_⟩
  exact ⟨trivial, hzero, hzero, hzero, hzero, hzero, ⟨hone, hmax, trivial⟩, trivial⟩

end Beacon
