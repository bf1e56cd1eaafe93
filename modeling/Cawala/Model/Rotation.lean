import Cawala.Model.ControlEngine
import Cawala.Model.Message

/-! # Rotating the Ethereum key of a leaf

The leaf signs one frame and resends it unchanged until its parent answers; the answer decides
whether the leaf adopts its new key. The secp256k1 signer is third-party code, so it enters as
the fields of a class. -/

namespace Cawala

open Library

/-- The secp256k1 signer the Ethereum crate imports. -/
class EthSigner where
  Key : Type
  /-- The uncompressed public key. -/
  publicKey : Key → Vector UInt8 65
  /-- The signature of a digest, and whether its point has an odd ordinate and an abscissa
  beyond the group order. -/
  signPrehash : Key → Vector UInt8 32 → Vector UInt8 64 × Bool × Bool
  /-- The signature with a low `s`. -/
  normalizeS : Vector UInt8 64 → Vector UInt8 64

open EthSigner

section Signing

variable [EthSigner]

/-- Enforce a low `s`; normalising it flips the parity. -/
def canonicalize (signature : Vector UInt8 64) (odd reduced : Bool) :
    Vector UInt8 64 × Bool × Bool :=
  let normalized := normalizeS signature
  if normalized = signature then (signature, odd, reduced) else (normalized, !odd, reduced)

def recoveryIdByte (odd reduced : Bool) : UInt8 :=
  (if odd then 1 else 0) + if reduced then 2 else 0

/-- Sign a digest: `r ‖ s ‖ v`. -/
def signDigest (key : Key) (digest : Vector UInt8 32) : Vector UInt8 65 :=
  let (signature, odd, reduced) := signPrehash key digest
  let (signature, odd, reduced) := canonicalize signature odd reduced
  signature.push (recoveryIdByte odd reduced + 27)

variable [EthPrimitives]

def addressFromSigningKey (key : Key) : EthAddress := addressFromPublicKey (publicKey key)

def rotationProof (incumbent : Key) (nodeId : NodeId) (newAddress : EthAddress) : EthProof where
  signature :=
    signDigest incumbent (ethRotationDigest nodeId (addressFromSigningKey incumbent) newAddress)
  oldAddress := some (addressFromSigningKey incumbent)

end Signing

variable [Crypto]

/-! ## Committing a request -/

/-- The reconciled outcome of an idempotent control commit. -/
inductive CommitOutcome where
  | applied
  | rejected (code : RejectCode)
  | unexpected
deriving DecidableEq

/-- What a reply decides: a replay counts as applied. -/
def ControlReply.commitOutcome : ControlReply → CommitOutcome
  | .accepted => .applied
  | .rejected .replay => .applied
  | .rejected code => .rejected code
  | _ => .unexpected

/-- Send until there is a reply, with a number of attempts left. -/
def commitAttempts {σ : Type} (send : σ → Option ControlReply × σ) :
    ℕ → σ → Option CommitOutcome × σ
  | 0, s => (none, s)
  | attempts + 1, s =>
      match send s with
      | (some reply, s) => (some reply.commitOutcome, s)
      | (none, s) => commitAttempts send attempts s

/-- Run an idempotent control commit, at least once. -/
def commitControlIdempotent {σ : Type} (send : σ → Option ControlReply × σ) (maxAttempts : ℕ) :
    σ → Option CommitOutcome × σ :=
  commitAttempts send (max maxAttempts 1)

/-- The initial send and up to two resends. -/
def controlCommitAttempts : ℕ := 3

/-! ## The leaf -/

/-- Why a rotation ends without an answer. -/
inductive RotateError where
  | noControlIdentity
  | noAddress
  | noParent
  | noUserIdentity
  | badParentId (detail : String)
  | unreachable
deriving DecidableEq

/-- What a leaf's client holds of its identity and its place. -/
structure Leaf [EthSigner] where
  nodeId : NodeId
  operator : Option OperatorSecretKey
  record : NodeRecord
  userIdentity : Option Key

variable [EthSigner] [EthPrimitives] [ControlPostcard]

namespace Leaf

def joinedContext (leaf : Leaf) : Except RotateError (OctAddr × ParentLink) :=
  match leaf.record.address with
  | none => .error .noAddress
  | some address =>
      match leaf.record.parent with
      | none => .error .noParent
      | some parent => .ok (address, parent)

/-- The frame of a rotation, signed once: the incumbent key proves the move of the anchor to the
address of the new key. -/
def rotationFrame [EndpointIds] (leaf : Leaf) (newKey : Key) (nonce now : UInt64) :
    Except RotateError SignedControl :=
  match leaf.operator with
  | none => .error .noControlIdentity
  | some operator => do
      let (_, parent) ← leaf.joinedContext
      match leaf.userIdentity with
      | none => .error .noUserIdentity
      | some incumbent =>
          let address := addressFromSigningKey newKey
          let proof := rotationProof incumbent leaf.nodeId address
          match EndpointIds.canonical parent.parentId with
          | .error detail => .error (.badParentId detail)
          | .ok _ =>
              .ok (.authorize leaf.nodeId operator nonce (saturatingAdd now controlRequestTtlSecs)
                (.registerEthAddress { address, proof }))

end Leaf

/-! ## The leaf and its parent -/

variable [ZeroKey] [Postcard]

/-- The reply to a request; work on the ledger is not done here. -/
def receiveAtReply : Except RejectCode Handled → ControlReply
  | .ok (.reply reply) => reply
  | .ok _ => .rejected .internal
  | .error code => .rejected code

/-- One attempt on the wire: what happens at the parent before it answers, the arrivals whose
reply is lost among it, and then the arrival that is answered, if there is one. -/
structure Exchange where
  meanwhile : List ControlEvent
  answer : Option (Io × UInt64)

/-- The parent, and what the wire does to the attempts ahead. -/
structure Wire where
  parent : ControlHost
  ahead : List Exchange

/-- One exchange of a frame. A parent that does not come back answers nothing more. -/
def Wire.exchange (signed : SignedControl) (w : Wire) : Option ControlReply × Wire :=
  match w.ahead with
  | [] => (none, w)
  | attempt :: ahead =>
      match w.parent.run attempt.meanwhile with
      | none => (none, { w with ahead := [] })
      | some parent =>
          match attempt.answer with
          | none => (none, { parent, ahead })
          | some (io, now) =>
              let result := Transaction.exec (receiveAtHandled io signed now) parent.host
              (some (receiveAtReply result.1), { parent := parent.settle result, ahead })

/-- Rotate the leaf's key: the new key is adopted when the outcome is `applied`. -/
def Leaf.rotateEthAddress [EndpointIds] (leaf : Leaf) (newKey : Key) (nonce now : UInt64)
    (wire : Wire) : Except RotateError CommitOutcome × Leaf × Wire :=
  match leaf.rotationFrame newKey nonce now with
  | .error e => (.error e, leaf, wire)
  | .ok signed =>
      match commitControlIdempotent (Wire.exchange signed) controlCommitAttempts wire with
      | (none, wire) => (.error .unreachable, leaf, wire)
      | (some .applied, wire) => (.ok .applied, { leaf with userIdentity := some newKey }, wire)
      | (some outcome, wire) => (.ok outcome, leaf, wire)

end Cawala
