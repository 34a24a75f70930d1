import Beacon.Duties.Call

set_option autoImplicit false

/-! # Keys and signatures for development

Keys that depend on a number alone, so that every node of a development network knows them, and a
signer whose signatures are digests of the key, the purpose, the fork and what is signed. Anyone can
make such signatures; they protect nothing. -/

namespace Beacon

/-- The key of development validator `index`. -/
def devKey (index : Nat) : PublicKey :=
  let head := keccak256 (pushWord "qc-dev-key".toUTF8 index)
  let tail := keccak256 head.toByteArray
  Vector.ofFn fun i : Fin 48 => (head.toList ++ tail.toList).getD i.val 0

/-- A signer for development networks. -/
structure DevSigner where
  keys : List PublicKey
  slotsPerEpoch : Nat

namespace DevSigner

/-- A signer with the given keys. -/
def create (keys : List PublicKey) (slotsPerEpoch : Nat) : DevSigner where
  keys
  slotsPerEpoch := max slotsPerEpoch 1

/-- The signature of a key for a purpose. -/
def sign (s : DevSigner) (key : PublicKey) (domain : String) (fork : ForkInfo) (epoch : Epoch)
    (root : Root) : Attempt SignerError Signature := do
  Attempt.require (s.keys.contains key) (.unknownKey key.hex)
  let first := taggedDigest "qc-dev-signature"
    [.bytes key.toByteArray, .bytes domain.toUTF8, .bytes (fork.versionAt epoch).toByteArray,
     .digest fork.genesisValidatorsRoot, .digest root]
  let second := keccak256 first.toByteArray
  let third := keccak256 second.toByteArray
  return Vector.ofFn fun i : Fin 96 =>
    (first.toList ++ second.toList ++ third.toList).getD i.val 0

/-- Do what is asked: the purpose and the epoch follow from what is to be signed. -/
def respond (s : DevSigner) (key : PublicKey) (fork : ForkInfo) :
    SigningRequest → Attempt SignerError Signature
  | .randao epoch => s.sign key "randao" fork epoch (taggedDigest "Randao" [.word epoch])
  | .block b => s.sign key "block" fork (b.slot / s.slotsPerEpoch) b.root
  | .attestation data => s.sign key "attestation" fork data.target.epoch (hashRoot data)
  | .slot slot => s.sign key "selection" fork (slot / s.slotsPerEpoch) (slotSigningRoot slot)
  | .aggregate m =>
    s.sign key "aggregate" fork (m.aggregate.data.slot / s.slotsPerEpoch) (hashRoot m)

end DevSigner

end Beacon
