import Cawala.Model.SettleRoute

/-! # Ethereum identities

The EIP-712 challenges that bind an Ethereum address to a node id or an order, and the
recovery of the address that signed one. Keccak-256 and the secp256k1 curve are third-party
code, so they enter as the fields of a class. -/

namespace Cawala

/-- The primitives the Ethereum crate imports. -/
class EthPrimitives where
  /-- Keccak-256. -/
  keccak256 : List UInt8 → Vector UInt8 32
  /-- Whether 64 bytes parse as an ECDSA signature. -/
  wellFormed : Vector UInt8 64 → Bool
  /-- The uncompressed public key that signed a digest, by signature and parity. -/
  recoverFromPrehash : Vector UInt8 32 → Vector UInt8 64 → Bool → Option (Vector UInt8 65)

variable [EthPrimitives]

open EthPrimitives

/-- Errors of the Ethereum identity primitives. -/
inductive EthError where
  | invalidSignature
  | invalidRecoveryId (v : UInt8)
  | highS
  | recoveryFailed
  | addressMismatch (expected recovered : EthAddress)
  | registrationCarriesOldAddress
  | rotationIncumbentMismatch
deriving DecidableEq

/-- `n/2` for secp256k1: the boundary above which an ECDSA `s` is high. -/
def secp256k1HalfOrder : ℕ :=
  0x7fffffffffffffffffffffffffffffff5d576e7357a4501ddfe92f46681b20a0

/-- The number that big-endian bytes spell. -/
def beNat (bytes : List UInt8) : ℕ := bytes.foldl (fun n b => 256 * n + b.toNat) 0

def lastTwenty (digest : Vector UInt8 32) : EthAddress := Vector.ofFn fun i => digest[12 + i.val]

def addressFromPublicKey (key : Vector UInt8 65) : EthAddress :=
  lastTwenty (keccak256 (key.toList.drop 1))

/-- The parity that the recovery byte of a signature names. -/
def recoveryIdFromV (v : UInt8) : Except EthError Bool :=
  if v = 0 ∨ v = 27 then .ok false
  else if v = 1 ∨ v = 28 then .ok true
  else .error (.invalidRecoveryId v)

def recoverAddress (digest : Vector UInt8 32) (signature : Vector UInt8 65) :
    Except EthError EthAddress := do
  let rs : Vector UInt8 64 := Vector.ofFn fun i => signature[i.val]
  if !wellFormed rs then .error .invalidSignature
  else if beNat (rs.toList.drop 32) > secp256k1HalfOrder then .error .highS
  else do
    let odd ← recoveryIdFromV signature[64]
    match recoverFromPrehash digest rs odd with
    | some key => pure (addressFromPublicKey key)
    | none => .error .recoveryFailed

/-! ## EIP-712 -/

def stringBytes (s : String) : List UInt8 := s.toByteArray.data.toList

/-- `keccak256(typeHash ‖ encodedFields)`. -/
def eip712HashStruct (type : String) (fields : List UInt8) : Vector UInt8 32 :=
  keccak256 ((keccak256 (stringBytes type)).toList ++ fields)

/-- `keccak256(0x1901 ‖ domainSeparator ‖ structHash)`. -/
def eip712Digest (domainSeparator structHash : Vector UInt8 32) : Vector UInt8 32 :=
  keccak256 ([0x19, 0x01] ++ domainSeparator.toList ++ structHash.toList)

/-- The network id used as the domain's `chainId`. -/
def cawalaChainId : ℕ := 0x636177616c61

/-- The `n` low bytes of a number, big-endian. -/
def beBytes (n value : ℕ) : List UInt8 :=
  (List.range n).reverse.map fun i => UInt8.ofNat (value / 256 ^ i)

def abiEncodeString (value : String) : List UInt8 := (keccak256 (stringBytes value)).toList

/-- An `address` field, left-padded to 32 bytes. -/
def abiEncodeAddress (address : EthAddress) : List UInt8 :=
  List.replicate 12 0 ++ address.toList

def cawalaDomainSeparator : Vector UInt8 32 :=
  eip712HashStruct "EIP712Domain(string name,string version,uint256 chainId)"
    (abiEncodeString "Cawala" ++ abiEncodeString "1" ++ beBytes 32 cawalaChainId)

/-- The digest a user signs to register a fresh anchor. -/
def ethRegistrationDigest (nodeId : NodeId) (newAddress : EthAddress) : Vector UInt8 32 :=
  eip712Digest cawalaDomainSeparator
    (eip712HashStruct "CawalaEthRegistration(string nodeId,address newAddress)"
      (abiEncodeString nodeId ++ abiEncodeAddress newAddress))

/-- The digest a user signs to rotate an existing anchor. -/
def ethRotationDigest (nodeId : NodeId) (oldAddress newAddress : EthAddress) : Vector UInt8 32 :=
  eip712Digest cawalaDomainSeparator
    (eip712HashStruct "CawalaEthRotation(string nodeId,address oldAddress,address newAddress)"
      (abiEncodeString nodeId ++ abiEncodeAddress oldAddress ++ abiEncodeAddress newAddress))

/-! ## Proofs of control -/

/-- The proof that accompanies a registration or a rotation. -/
structure EthProof where
  signature : Vector UInt8 65
  oldAddress : Option EthAddress
deriving DecidableEq

namespace EthProof

/-- Require that a digest was signed by an address. -/
def recoversTo (proof : EthProof) (digest : Vector UInt8 32) (expected : EthAddress) :
    Except EthError Unit := do
  let recovered ← recoverAddress digest proof.signature
  if recovered = expected then pure () else .error (.addressMismatch expected recovered)

def verifyRegistration (proof : EthProof) (nodeId : NodeId) (newAddress : EthAddress) :
    Except EthError Unit :=
  if proof.oldAddress.isSome then .error .registrationCarriesOldAddress
  else proof.recoversTo (ethRegistrationDigest nodeId newAddress) newAddress

def verifyRotation (proof : EthProof) (nodeId : NodeId) (incumbent newAddress : EthAddress) :
    Except EthError Unit :=
  if proof.oldAddress ≠ some incumbent then .error .rotationIncumbentMismatch
  else proof.recoversTo (ethRotationDigest nodeId incumbent newAddress) incumbent

end EthProof

/-- The Ethereum identity of an order: the claimed address and its signature. -/
structure EthIdentity where
  address : EthAddress
  signature : Vector UInt8 65
deriving DecidableEq

/-! ## The anchor gate of a direct parent -/

/-- The fail-closed gate: an anchored sender needs a recovered address that is its anchor. -/
def anchorGate (record : NodeRecord) (sender : NodeId) (recovered : Option EthAddress) :
    Except OrderReject Unit :=
  match record.childEthAddress sender, recovered with
  | some anchor, some recovered =>
      if anchor = recovered then .ok () else .error .unauthorized
  | some _, none => .error .unauthorized
  | none, _ => .ok ()

end Cawala
