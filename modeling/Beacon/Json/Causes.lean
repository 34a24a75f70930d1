import Beacon.DepositChain.Contract
import Beacon.Duties.Retry
import Beacon.Json.Form
import Beacon.Node.Genesis
import Beacon.Transition.Rejection

set_option autoImplicit false

/-! # Causes as tools see them

Every cause has a code beside its text: the names of the causes it lies in and its own, joined by
dots. The causes that collaborators give are also written as short lists, so that they can be
scripted. -/

namespace Beacon

/-- A kind of cause with codes and texts. -/
class Cause (ε : Type) where
  code : ε → String
  text : ε → String

/-! ## Codes -/

instance : Cause Empty := ⟨Empty.elim, Empty.elim⟩

instance : Cause InvalidSetting := ⟨fun _ => "Invalid", InvalidSetting.message⟩

instance : Cause SlotError where
  code
    | .targetInPast .. => "TargetInPast"
    | .ringLength .. => "MalformedState"
    | .overflow => "SlotOverflow"
  text := SlotError.message

instance : Cause CommitteeError where
  code
    | .epochOutOfRange .. => "EpochOutOfRange"
    | .noActiveValidators _ => "NoActiveValidators"
    | .missingRandaoMix _ => "MissingRandaoMix"
  text := CommitteeError.message

instance : Cause EpochError where
  code
    | .balancesLength .. | .noCommittee .. => "MalformedState"
    | .blockRootUnavailable _ => "BlockRootUnavailable"
    | .committee e => "Committee." ++ Cause.code e
  text := EpochError.message

instance : Cause AttestationError where
  code
    | .committeeIndexOutOfRange .. => "CommitteeIndexOutOfRange"
    | .targetEpochOutOfRange .. => "TargetEpochOutOfRange"
    | .targetEpochMismatch .. => "TargetEpochMismatch"
    | .inclusionTooEarly .. => "InclusionTooEarly"
    | .inclusionTooLate .. => "InclusionTooLate"
    | .bitsLength .. => "AggregationBitsLength"
    | .noParticipants => "NoParticipants"
    | .sourceMismatch => "SourceMismatch"
    | .committee e => "Committee." ++ Cause.code e
  text := AttestationError.message

instance : Cause BlockError where
  code
    | .malformedState e => "MalformedState." ++ Cause.code e
    | .balancesLength .. => "BalancesLength"
    | .slotMismatch .. => "SlotMismatch"
    | .notNewerThanLatest .. => "NotNewerThanLatest"
    | .proposerMismatch .. => "ProposerMismatch"
    | .parentRootMismatch .. => "ParentRootMismatch"
    | .proposerSlashed _ => "ProposerSlashed"
    | .unknownValidator _ => "UnknownValidator"
    | .emptyRandaoReveal => "EmptyRandaoReveal"
    | .tooManyOperations .. => "TooManyOperations"
    | .invalidAttestation e => "InvalidAttestation." ++ Cause.code e
    | .invalidProposerSlashing _ => "InvalidProposerSlashing"
    | .depositCountMismatch .. => "DepositCountMismatch"
    | .depositIndexMismatch .. => "DepositIndexMismatch"
    | .stateRootMismatch .. => "StateRootMismatch"
    | .committee e => "Committee." ++ Cause.code e
  text := BlockError.message

instance : Cause TransitionError where
  code
    | .slot e => "Slot." ++ Cause.code e
    | .epoch e => "Epoch." ++ Cause.code e
    | .block e => "Block." ++ Cause.code e
  text := TransitionError.message

instance : Cause GateError := ⟨fun _ => "Abandoned", GateError.message⟩

instance : Cause RequestError where
  code
    | .unavailable _ => "Unavailable"
    | .blockNotFound _ => "BlockNotFound"
    | .callFailed _ => "CallFailed"
    | .malformedResponse _ => "MalformedResponse"
    | .gate e => "Gate." ++ Cause.code e
  text := RequestError.message

instance : Cause ApiError where
  code
    | .unavailable _ => "Unavailable"
    | .rejected _ => "Rejected"
  text := ApiError.message

instance : Cause SignerError where
  code
    | .unavailable _ => "Unavailable"
    | .refused _ => "Refused"
    | .unknownKey _ => "UnknownKey"
  text := SignerError.message

instance : Cause ForkLookupError := ⟨fun _ => "Api", ForkLookupError.message⟩

instance : Cause LoadError where
  code
    | .api e => "Api." ++ Cause.code e
    | .fork e => "Fork." ++ Cause.code e
    | .signer e => "Signer." ++ Cause.code e
    | .gate e => "Gate." ++ Cause.code e
    | .noLongerNeeded _ => "NoLongerNeeded"
    | .retriesExhausted .. => "RetriesExhausted"
  text := LoadError.message

instance : Cause ExecutionError where
  code
    | .api e => "Api." ++ Cause.code e
    | .signer e => "Signer." ++ Cause.code e
    | .fork e => "Fork." ++ Cause.code e
    | .invalidAssignment .. => "InvalidAssignment"
    | .aborted _ => "Aborted"
  text := ExecutionError.message

instance : Cause GenesisError where
  code
    | .noValidators => "NoValidators"
    | .tooFewValidators .. => "TooFewValidators"
  text := GenesisError.message

/-! ## Causes as short lists -/

instance : Form ApiError where
  write _
    | .unavailable s => .array [.string "Unavailable", .string s]
    | .rejected s => .array [.string "Rejected", .string s]
  read _
    | .array [.string "Unavailable", .string s] => some (.unavailable s)
    | .array [.string "Rejected", .string s] => some (.rejected s)
    | _ => none

instance : Form SignerError where
  write _
    | .unavailable s => .array [.string "Unavailable", .string s]
    | .refused s => .array [.string "Refused", .string s]
    | .unknownKey s => .array [.string "UnknownKey", .string s]
  read _
    | .array [.string "Unavailable", .string s] => some (.unavailable s)
    | .array [.string "Refused", .string s] => some (.refused s)
    | .array [.string "UnknownKey", .string s] => some (.unknownKey s)
    | _ => none

instance : Form ForkLookupError where
  write style e := .array [.natural e.epoch, write style e.cause]
  read style
    | .array [epoch, cause] => do return ⟨← read style epoch, ← read style cause⟩
    | _ => none

/-- Write the cause of a failed load. -/
def LoadError.write (style : Style) : LoadError → Json
  | .api e => .array [.string "Api", Form.write style e]
  | .fork e => .array [.string "Fork", Form.write style e]
  | .signer e => .array [.string "Signer", Form.write style e]
  | .gate _ => .array [.string "Gate"]
  | .noLongerNeeded epoch => .array [.string "NoLongerNeeded", .natural epoch]
  | .retriesExhausted epoch attempts last =>
    .array [.string "RetriesExhausted", .natural epoch, .natural attempts, LoadError.write style last]

/-- Read the cause of a failed load. -/
def LoadError.read? (style : Style) : Json → Option LoadError
  | .array [.string "Api", e] => (Form.read style e).map .api
  | .array [.string "Fork", e] => (Form.read style e).map .fork
  | .array [.string "Signer", e] => (Form.read style e).map .signer
  | .array [.string "Gate"] => some (.gate (.abandoned loaderGate))
  | .array [.string "NoLongerNeeded", n] => (Form.read style n).map .noLongerNeeded
  | .array [.string "RetriesExhausted", n, k, e] => do
    return .retriesExhausted (← Form.read style n) (← Form.read style k) (← LoadError.read? style e)
  | _ => none

instance : Form LoadError where
  write := LoadError.write
  read := LoadError.read?

instance : Form ExecutionError where
  write style
    | .api e => .array [.string "Api", write style e]
    | .signer e => .array [.string "Signer", write style e]
    | .fork e => .array [.string "Fork", write style e]
    | .invalidAssignment slot position size =>
      .array [.string "InvalidAssignment", .natural slot, .natural position, .natural size]
    | .aborted slot => .array [.string "Aborted", .natural slot]
  read style
    | .array [.string "Api", e] => (read style e).map .api
    | .array [.string "Signer", e] => (read style e).map .signer
    | .array [.string "Fork", e] => (read style e).map .fork
    | .array [.string "InvalidAssignment", s, p, n] => do
      return .invalidAssignment (← read style s) (← read style p) (← read style n)
    | .array [.string "Aborted", s] => (read style s).map .aborted
    | _ => none

/-- The gate whose name a scripted request gives. -/
def requestGate : String := "deposit-chain"

instance : Form RequestError where
  write _
    | .unavailable s => .array [.string "Unavailable", .string s]
    | .blockNotFound s => .array [.string "BlockNotFound", .string s]
    | .callFailed s => .array [.string "CallFailed", .string s]
    | .malformedResponse s => .array [.string "MalformedResponse", .string s]
    | .gate _ => .array [.string "Gate"]
  read _
    | .array [.string "Unavailable", .string s] => some (.unavailable s)
    | .array [.string "BlockNotFound", .string s] => some (.blockNotFound s)
    | .array [.string "CallFailed", .string s] => some (.callFailed s)
    | .array [.string "MalformedResponse", .string s] => some (.malformedResponse s)
    | .array [.string "Gate"] => some (.gate (.abandoned requestGate))
    | _ => none

end Beacon
