import Cawala.Model.Auth
import Cawala.Model.Eth
import Cawala.Model.LedgerService

/-! # Control requests

The requests one node or user sends to another, the operator signature over them, and the
form in which they travel along the tree. -/

namespace Cawala

/-- Maximum byte length of a node id. -/
def maxNodeIdLen : ℕ := 128

/-- Maximum byte length of a location hint. -/
def maxLocationHintLen : ℕ := 256

/-- Maximum byte length of a reason. -/
def maxReasonLen : ℕ := 256

/-- Maximum number of hops of an envelope, and so of forwards of a routed request. -/
def maxHops : ℕ := 32

/-- A node's address and id. -/
structure PeerRef where
  addr : OctAddr
  node : NodeId
deriving DecidableEq

/-- Errors of signing, validating and approving control requests. `persist` stands for the
text of a failed read or write of the data directory. -/
inductive ControlError where
  | unsupportedVersion (version : UInt8)
  | unknownOrigin (origin : NodeId)
  | operatorMismatch
  | invalidSignature
  | missingLedgerForNode
  | unexpectedLedgerForUser
  | slotOutOfRange (slot : UInt8)
  | fieldTooLong (field : String) (len max : ℕ)
  | fieldBelowMinimum (field : String) (value min : ℕ)
  | zeroValueRequestId
  | emptyValueReason
  | codec (message : String)
  | persist
deriving DecidableEq, Repr

def boundField (field text : String) (max : ℕ) : Except ControlError Unit :=
  if text.utf8ByteSize > max then .error (.fieldTooLong field text.utf8ByteSize max) else .ok ()

def validateNodeId (field id : String) : Except ControlError Unit :=
  boundField field id maxNodeIdLen

def validateSlot (slot : Option UInt8) : Except ControlError Unit :=
  match slot with
  | some s => if s > maxSlot then .error (.slotOutOfRange s) else .ok ()
  | none => .ok ()

/-! ## Requests -/

section Payloads

variable [Crypto]

/-- An applicant's self-signed request to become a child. -/
structure JoinRequest where
  node : NodeId
  kind : ChildKind
  operator : OperatorPubKey
  ledger : Option LedgerPubKey
  desiredSlot : Option UInt8
  locationHint : Option String
  nonce : UInt64
  expiry : UInt64
deriving DecidableEq

def JoinRequest.validate (r : JoinRequest) : Except ControlError Unit := do
  validateNodeId "node" r.node
  match r.locationHint with
  | some hint => boundField "location_hint" hint maxLocationHintLen
  | none => .ok ()
  match r.kind, r.ledger.isSome with
  | .node, false => .error .missingLedgerForNode
  | .user, true => .error .unexpectedLedgerForUser
  | _, _ => validateSlot r.desiredSlot

structure JoinApproval where
  child : NodeId
  childOperator : OperatorPubKey
  childLedger : Option LedgerPubKey
  kind : ChildKind
  slot : UInt8
  address : OctAddr
  dateJoined : UInt64
  nonce : UInt64
  parentLedger : LedgerPubKey
deriving DecidableEq

/-- A request to create a child without its own join. -/
structure CreateChild where
  child : NodeId
  operator : OperatorPubKey
  ledger : Option LedgerPubKey
  kind : ChildKind
  slot : Option UInt8
  dateJoined : UInt64
deriving DecidableEq

end Payloads

/-- A parent's refusal of a join. -/
structure JoinRejection where
  child : NodeId
  reason : String
  nonce : UInt64
deriving DecidableEq

def JoinRejection.validate (r : JoinRejection) : Except ControlError Unit := do
  validateNodeId "child" r.child
  boundField "reason" r.reason maxReasonLen

/-- A request to re-slot a child. -/
structure MoveChild where
  child : NodeId
  newParent : NodeId
  slot : Option UInt8
deriving DecidableEq

/-- A child's notice that it leaves. -/
structure ExitRequest where
  node : NodeId
  subtreeNodes : UInt32
deriving DecidableEq

def ExitRequest.validate (r : ExitRequest) : Except ControlError Unit := do
  validateNodeId "node" r.node
  if r.subtreeNodes < 1 then
    .error (.fieldBelowMinimum "subtree_nodes" r.subtreeNodes.toNat 1)
  else .ok ()

/-- A parent's notice of a child's new address. -/
structure RebaseNotice where
  node : NodeId
  parentAddress : OctAddr
  address : OctAddr
  generation : UInt64
deriving DecidableEq

def RebaseNotice.validate (r : RebaseNotice) : Except ControlError Unit := do
  validateNodeId "node" r.node
  if r.generation < 1 then .error (.fieldBelowMinimum "generation" 0 1) else .ok ()

/-- An administrator's approval of a pending join. -/
structure AdminJoinApprove where
  child : NodeId
  slot : Option UInt8
deriving DecidableEq

def AdminJoinApprove.validate (r : AdminJoinApprove) : Except ControlError Unit := do
  validateNodeId "child" r.child
  validateSlot r.slot

/-- An administrator's refusal of a pending join. -/
structure AdminJoinReject where
  child : NodeId
  reason : Option String
deriving DecidableEq

def AdminJoinReject.validate (r : AdminJoinReject) : Except ControlError Unit := do
  validateNodeId "child" r.child
  match r.reason with
  | some reason => boundField "reason" reason maxReasonLen
  | none => .ok ()

/-- An administrator's request to re-slot a child. -/
structure AdminMoveChild where
  child : NodeId
  slot : Option UInt8
deriving DecidableEq

def AdminMoveChild.validate (r : AdminMoveChild) : Except ControlError Unit := do
  validateNodeId "child" r.child
  validateSlot r.slot

/-- An administrator's request to issue or burn value. -/
structure AdminValueRequest where
  requestId : Vector UInt8 16
  account : NodeId
  amount : Amount
  reason : String
deriving DecidableEq

def AdminValueRequest.validate (r : AdminValueRequest) : Except ControlError Unit := do
  validateNodeId "account" r.account
  if r.requestId.all (· == 0) then .error .zeroValueRequestId
  else if r.amount = 0 then .error (.fieldBelowMinimum "amount" 0 1)
  else if r.reason.isEmpty then .error .emptyValueReason
  else boundField "reason" r.reason maxReasonLen

/-- A user's registration or rotation of its Ethereum anchor. -/
structure RegisterEthAddress where
  address : EthAddress
  proof : EthProof
deriving DecidableEq

/-- The proof an anchor change needs: registration when there is no incumbent, else a rotation
that the incumbent signed. -/
def RegisterEthAddress.verify [EthPrimitives] (register : RegisterEthAddress)
    (nodeId : NodeId) (incumbent : Option EthAddress) : Except EthError Unit :=
  match incumbent with
  | none => register.proof.verifyRegistration nodeId register.address
  | some old => register.proof.verifyRotation nodeId old register.address

/-! ## Wire versions -/

/-- Wire version of the frames this build mints. -/
def controlFormatVersion : UInt8 := 9

/-- Whether this build accepts a wire version inbound. -/
def isSupportedControlVersion (version : UInt8) : Bool :=
  version == 7 || version == 8 || version == controlFormatVersion

/-- Lifetime, in seconds, of the frames this build mints. -/
def controlRequestTtlSecs : UInt64 := 120

/-- Largest accepted `expiry - now`, in seconds. -/
def controlRequestMaxTtlSecs : UInt64 := 300

def routedControlVersion : UInt8 := 2

/-- Errors of routed-control validation. -/
inductive RoutedError where
  | unsupportedVersion (version : UInt8)
  | tooManyForwards (len max : ℕ)
  | forwardHopMismatch (index : ℕ) (hop origin : NodeId)
  | forwardRequestMismatch (index : ℕ)
deriving DecidableEq, Repr

section

variable [Crypto]

/-- A control request. A request whose payload is a single node id carries it directly. -/
inductive ControlRequest where
  | join (request : JoinRequest)
  | joinApproved (approval : JoinApproval)
  | joinRejected (rejection : JoinRejection)
  | createChild (create : CreateChild)
  | detachChild (child : NodeId)
  | moveChild (move : MoveChild)
  | setAddress (address : Option OctAddr)
  | query
  | adminQuery
  | adminApproveJoin (approve : AdminJoinApprove)
  | adminRejectJoin (reject : AdminJoinReject)
  | adminRedeliverJoin (child : NodeId)
  | exit (exit : ExitRequest)
  | detachNotice (node : NodeId)
  | rebase (notice : RebaseNotice)
  | rebasePull (node : NodeId)
  | adminLedgerQuery
  | adminDetachChild (child : NodeId)
  | adminMoveChild (move : AdminMoveChild)
  | adminIssue (request : AdminValueRequest)
  | adminBurn (request : AdminValueRequest)
  | adminDesignate (child : NodeId)
  | adminRevoke (child : NodeId)
  | capabilities (clientApiVersion : UInt16)
  | registerEthAddress (register : RegisterEthAddress)
deriving DecidableEq

namespace ControlRequest

/-- Whether a request belongs to the administration class. -/
def isAdmin : ControlRequest → Bool
  | adminQuery | adminApproveJoin _ | adminRejectJoin _ | adminRedeliverJoin _
  | adminLedgerQuery | adminDetachChild _ | adminMoveChild _ | adminIssue _ | adminBurn _
  | adminDesignate _ | adminRevoke _ => true
  | _ => false

/-- Whether the dispatch of a request needs a computed authority. -/
def needsAuthority (r : ControlRequest) : Bool :=
  r.isAdmin || match r with
    | createChild _ | detachChild _ | moveChild _ | setAddress _ | query => true
    | _ => false

/-- Join and exit-rights traffic, which only the direct path accepts. -/
def isDirectOnly : ControlRequest → Bool
  | join _ | joinApproved _ | joinRejected _ | exit _ | detachNotice _ | rebase _
  | rebasePull _ => true
  | _ => false

def minControlVersion : ControlRequest → UInt8
  | join _ | joinApproved _ | joinRejected _ | createChild _ | detachChild _ | moveChild _
  | setAddress _ | query | adminQuery | adminApproveJoin _ | adminRejectJoin _
  | adminRedeliverJoin _ => 3
  | exit _ | detachNotice _ | rebase _ | rebasePull _ => 4
  | adminLedgerQuery => 5
  | adminDetachChild _ | adminMoveChild _ => 6
  | adminIssue _ | adminBurn _ => 7
  | adminDesignate _ | adminRevoke _ => 8
  | capabilities _ | registerEthAddress _ => 9

end ControlRequest

/-! ## Signed requests -/

/-- The postcard encoding of a request's signing preimage: version, origin, controller, nonce,
expiry and request. It never fails. -/
class ControlPostcard where
  preimage : UInt8 → NodeId → OperatorPubKey → UInt64 → UInt64 → ControlRequest → Bytes

structure SignedControl where
  version : UInt8
  origin : NodeId
  controller : OperatorPubKey
  nonce : UInt64
  expiry : UInt64
  request : ControlRequest
  signature : Signature
deriving DecidableEq

namespace SignedControl

variable [ControlPostcard]

def signingHash (s : SignedControl) : Hash :=
  derive "cawala-control/request/v1"
    [ControlPostcard.preimage s.version s.origin s.controller s.nonce s.expiry s.request]

def authorize (origin : NodeId) (controller : OperatorSecretKey) (nonce expiry : UInt64)
    (request : ControlRequest) : SignedControl :=
  let unsigned : SignedControl :=
    { version := controlFormatVersion
      origin
      controller := Crypto.pubKey controller
      nonce
      expiry
      request
      signature := Crypto.sign controller [] }
  { unsigned with signature := Crypto.sign controller [.digest unsigned.signingHash] }

def verifySignature (s : SignedControl) : Except ControlError Unit :=
  if Crypto.verify s.controller [.digest s.signingHash] s.signature then .ok ()
  else .error .invalidSignature

end SignedControl

def verifyControl [ControlPostcard] (signed : SignedControl) (registry : PeerRegistry) :
    Except ControlError PeerKeys :=
  if !isSupportedControlVersion signed.version then .error (.unsupportedVersion signed.version)
  else
    match registry.get signed.origin with
    | none => .error (.unknownOrigin signed.origin)
    | some peer =>
        if peer.operator ≠ signed.controller then .error .operatorMismatch
        else do
          signed.verifySignature
          pure peer

/-! ## Tree-routed requests -/

/-- One transmitting hop's re-signing of the carried request. -/
structure RoutedForward where
  hop : PeerRef
  signed : SignedControl

structure RoutedControlV1 where
  version : UInt8
  target : PeerRef
  requester : PeerRef
  intent : SignedControl
  forwards : List RoutedForward

namespace RoutedControlV1

def checkForward (r : RoutedControlV1) (index : ℕ) (forward : RoutedForward) :
    Except RoutedError Unit :=
  if !isSupportedControlVersion forward.signed.version then
    .error (.unsupportedVersion forward.signed.version)
  else if forward.signed.request ≠ r.intent.request then .error (.forwardRequestMismatch index)
  else if forward.hop.node ≠ forward.signed.origin then
    .error (.forwardHopMismatch index forward.hop.node forward.signed.origin)
  else .ok ()

/-- Structural coherence of a routed request. -/
def validate (r : RoutedControlV1) : Except RoutedError Unit :=
  if r.version ≠ routedControlVersion then .error (.unsupportedVersion r.version)
  else if r.forwards.length > maxHops then .error (.tooManyForwards r.forwards.length maxHops)
  else if !isSupportedControlVersion r.intent.version then
    .error (.unsupportedVersion r.intent.version)
  else r.forwards.zipIdx.forM fun (forward, index) => r.checkForward index forward

end RoutedControlV1

end

end Cawala
