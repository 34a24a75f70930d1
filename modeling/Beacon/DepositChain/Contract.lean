import Beacon.Gate.Basic
import Beacon.Keccak

set_option autoImplicit false

/-! # The deposit contract

What the deposit chain looks like from outside: its blocks, the two questions that the deposit
contract answers, the words in which it answers, and what may go wrong on the way. A question is
asked by its selector, the first four bytes of the digest of its signature. An answer is one word of
32 bytes: a root, or a count with its most significant byte first. -/

namespace Beacon

/-! ## Requests -/

/-- Why a request to the deposit chain has no answer. -/
inductive RequestError where
  /-- Nobody answers. -/
  | unavailable (reason : String)
  | blockNotFound (block : String)
  | callFailed (reason : String)
  | malformedResponse (reason : String)
  /-- The request never left the gate. -/
  | gate (cause : GateError)
  deriving DecidableEq, Repr

namespace RequestError

/-- The text of the cause. -/
def message : RequestError → String
  | .unavailable reason => s!"Deposit chain unavailable: {reason}"
  | .blockNotFound block => s!"Deposit chain block not found: {block}"
  | .callFailed reason => s!"Contract call failed: {reason}"
  | .malformedResponse reason => s!"Malformed response from deposit chain: {reason}"
  | .gate cause => cause.message

/-- Whether the same request may be answered later. -/
def isRecoverable : RequestError → Bool
  | .unavailable _ | .blockNotFound _ | .gate _ => true
  | .callFailed _ | .malformedResponse _ => false

end RequestError

/-- An account of the deposit chain. -/
abbrev Address : Type := Bytes 20

/-- A block of the deposit chain. -/
structure DepositBlock where
  number : Nat := 0
  hash : Root := Bytes.zero 32
  parentHash : Root := Bytes.zero 32
  timestamp : Nat := 0
  deriving DecidableEq, Inhabited

/-! ## Questions -/

/-- A question to the deposit contract. -/
inductive ContractCall where
  | depositRoot
  | depositCount
  deriving DecidableEq, Repr

/-- The bytes by which a function of a contract is asked for. -/
def selector (signature : String) : List UInt8 := (keccak256 signature.toUTF8).toList.take 4

namespace ContractCall

/-- The signature of the function that answers. -/
def signature : ContractCall → String
  | .depositRoot => "get_deposit_root()"
  | .depositCount => "get_deposit_count()"

/-- The bytes of a question. -/
def encode (c : ContractCall) : List UInt8 := selector c.signature

/-- The question that some bytes ask, if any. -/
def decode? (data : List UInt8) : Option ContractCall :=
  [.depositRoot, .depositCount].find? fun c => data == c.encode

end ContractCall

/-! ## Answers -/

/-- Read a word; no other length will do. -/
def readWord (response : List UInt8) : Attempt RequestError Root :=
  match Bytes.ofArray? 32 response.toArray with
  | some word => .ok word
  | none =>
    Attempt.reject (.malformedResponse s!"expected 32-byte word, got {response.length} bytes")

/-- Read a root. -/
def decodeDepositRoot (response : List UInt8) : Attempt RequestError Root := readWord response

/-- Read a count; it has to fit in the last eight bytes of its word. -/
def decodeDepositCount (response : List UInt8) : Attempt RequestError Nat := do
  let word ← readWord response
  Attempt.require ((word.toList.take 24).all (· == 0))
    (.malformedResponse s!"deposit count 0x{word.hex} exceeds u64")
  return ofBigEndian (word.toList.drop 24)

/-- The word of a count. -/
def encodeDepositCount (count : Nat) : List UInt8 := List.replicate 24 0 ++ bigEndian64 count

end Beacon
