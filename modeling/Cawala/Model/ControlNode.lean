import Cawala.Model.ControlRequest
import Cawala.Model.Replay

/-! # The state of a control engine

What a node's control engine keeps in memory and in its data directory, how the two are
reconciled at the start of a request, and who may administer the node. -/

namespace Cawala

open Library

/-! ## Replies -/

/-- Why a request was refused. -/
inductive RejectCode where
  | badVersion
  | unauthorized
  | notFound
  | capacity
  | slotTaken
  | slotOutOfRange
  | badRequest
  | notAttached
  | expired
  | replay
  | internal
deriving DecidableEq, Repr

/-- The applicant's view of a delivered decision. -/
inductive DeliveryStatus where
  | delivered
  | unreachable
  | rejected (code : RejectCode)
  | timedOut
deriving DecidableEq, Repr

structure ParentSnapshot where
  nodeId : NodeId
  slot : UInt8
  address : OctAddr
deriving DecidableEq

structure ChildSnapshot where
  childId : NodeId
  kind : ChildKind
  slot : UInt8
  address : Option OctAddr
  dateJoined : UInt64
deriving DecidableEq

/-- A node's links with their derived addresses. -/
structure NodeSnapshot where
  nodeId : NodeId
  address : Option OctAddr
  parent : Option ParentSnapshot
  children : List ChildSnapshot
deriving DecidableEq

/-- The address of a child slot. Every listed slot is in range. -/
def childAddress (parent : OctAddr) (slot : UInt8) : Option OctAddr :=
  if h : slot ≤ maxSlot then some (parent.child slot h) else none

def NodeRecord.snapshot (r : NodeRecord) : NodeSnapshot where
  nodeId := r.nodeId
  address := r.address
  parent := do
    let parent ← r.parent
    let address ← r.address
    let parentAddress ← address.parent
    pure { nodeId := parent.parentId, slot := parent.slot, address := parentAddress }
  children := r.children.map fun child =>
    { childId := child.childId, kind := child.kind, slot := child.slot
      address := r.address.bind fun address => childAddress address child.slot
      dateJoined := child.dateJoined }

/-! ## Designations -/

/-- Maximum number of designated administrators. -/
def maxDesignatedAdmins : ℕ := 8

/-- The set of designated administrator children. -/
structure AdminState where
  admins : List NodeId
  updatedAt : UInt64
  updatedBy : String
deriving DecidableEq

namespace AdminState

def empty : AdminState where
  admins := []
  updatedAt := 0
  updatedBy := "local"

/-- The invariants of the document on disk. -/
def isValid (s : AdminState) : Bool :=
  s.admins.length ≤ maxDesignatedAdmins
    && s.admins.all (fun id => id.utf8ByteSize ≠ 0 && id.utf8ByteSize ≤ maxNodeIdLen)
    && s.admins.Nodup

def has (s : AdminState) (id : NodeId) : Bool := s.admins.any fun admin => admin == id

/-- Designate an id; refused when it is empty, too long, present, or the set is full. -/
def add (s : AdminState) (id : NodeId) : Option AdminState :=
  if id.utf8ByteSize = 0 ∨ id.utf8ByteSize > maxNodeIdLen then none
  else if s.admins.length ≥ maxDesignatedAdmins ∨ s.has id then none
  else some { s with admins := s.admins ++ [id] }

def remove (s : AdminState) (id : NodeId) : AdminState :=
  { s with admins := s.admins.filter fun admin => admin ≠ id }

/-- Drop the designations of ids that are not children. -/
def prune (s : AdminState) (children : List NodeId) : AdminState :=
  { s with admins := s.admins.filter fun admin => children.any fun child => child == admin }

/-- Record who changed the set and when. -/
def markUpdated (s : AdminState) (now : UInt64) (by_ : String) : AdminState :=
  { s with updatedAt := now, updatedBy := by_ }

end AdminState

/-- Who was authenticated as the authority of a request. -/
inductive Authority where
  | selfOperator
  | adminChild (child : NodeId)
deriving DecidableEq, Repr

/-- What a queued outbound frame answers. -/
inductive OutboundKind where
  | approved
  | rejected
  | rebase
  | detachNotice
deriving DecidableEq, Repr

/-- Bounds of the replay guard. -/
def controlSeenConfig : SeenConfig where
  maxPerOrigin := 256
  maxOrigins := 128

/-! ## What the file system does -/

/-- Which reads succeed when the persisted state is reloaded, and whether a pruned designation
set can be written back. -/
structure ReloadIo where
  recordReads : Bool
  peersReads : Bool
  adminReads : Bool
  pruneSaves : Bool

/-- Which reads succeed when an engine is opened. -/
structure OpenIo where
  recordReads : Bool
  peersReads : Bool
  pendingReads : Bool
  adminReads : Bool
  seenReads : Bool

variable [Crypto]

/-! ## In-flight joins -/

/-- The join this node has sent to a prospective parent. -/
structure OutboundJoin where
  request : JoinRequest
  parent : NodeId
  pinnedOperator : Option OperatorPubKey
deriving DecidableEq

/-- The joins queued for approval, and the one sent. -/
structure ControlStore where
  pending : List JoinRequest
  outbound : Option OutboundJoin
deriving DecidableEq

namespace ControlStore

def pendingFor (s : ControlStore) (node : NodeId) : Option JoinRequest :=
  s.pending.find? fun request => request.node == node

def addPending (s : ControlStore) (request : JoinRequest) : ControlStore :=
  if (s.pendingFor request.node).isNone then { s with pending := s.pending ++ [request] } else s

def removePending (s : ControlStore) (node : NodeId) : ControlStore :=
  { s with pending := s.pending.eraseP fun request => request.node == node }

/-- Whether both documents load: each request is valid and no node is queued twice. -/
def loads (s : ControlStore) : Bool :=
  s.pending.all (fun request => request.validate.toBool)
    && (s.pending.map (·.node)).Nodup
    && s.outbound.all fun outbound => outbound.request.validate.toBool

end ControlStore

/-! ## The engine -/

/-- A frame the engine wants delivered. -/
structure OutboundControl where
  target : NodeId
  signed : SignedControl
  kind : OutboundKind

/-- The key of the replay guard: the origin and the key that signed. -/
abbrev SeenKey : Type := NodeId × OperatorPubKey

/-- The local control engine in memory. -/
structure ControlNode where
  nodeId : NodeId
  operator : OperatorSecretKey
  record : NodeRecord
  peers : PeerRegistry
  pending : ControlStore
  adminState : AdminState
  outbound : List OutboundControl
  selfKind : ChildKind
  decisions : List SignedControl
  seen : SeenStore SeenKey
  /-- Whether a running ledger is attached. -/
  ledger : Bool

/-- The files of a data directory; `none` is an absent file. -/
structure DataDir where
  record : Option NodeRecord
  peers : Option PeerRegistry
  pending : List JoinRequest
  outbound : Option OutboundJoin
  adminState : Option AdminState
  seen : Option (List (SeenEntry SeenKey))

/-- One engine, its data directory and its source of fresh nonces. -/
structure NodeHost where
  node : ControlNode
  disk : DataDir
  entropy : ℕ → UInt64

/-- What the file system does during one request. -/
structure Io where
  /-- The reload at the top of a routed request. -/
  routedReload : ReloadIo
  /-- The reload of the prechecks. -/
  reload : ReloadIo
  seenSaves : Bool
  recordSaves : Bool
  peersSaves : Bool
  pendingSaves : Bool
  outboundSaves : Bool
  adminSaves : Bool
  /-- The node's own ledger key, if it can be loaded or created. -/
  ledgerKey : Option LedgerPubKey

/-- A computation of the engine; a refused one keeps what it has done. -/
abbrev Engine (α : Type) : Type := Transaction NodeHost RejectCode α

/-! ## Loading -/

def openRecord (reads : Bool) (disk : DataDir) (nodeId : NodeId) :
    Except RecordError NodeRecord := do
  if !reads then .error .readFailed
  else
    let record := disk.record.getD (.new nodeId)
    record.validate
    if record.nodeId ≠ nodeId then .error (.idMismatch record.nodeId nodeId)
    else pure record

def loadPeers (reads : Bool) (disk : DataDir) : Option PeerRegistry :=
  if reads then some (disk.peers.getD .new) else none

def loadAdminState (reads : Bool) (disk : DataDir) : Option AdminState :=
  match disk.adminState with
  | none => some .empty
  | some state => if reads && state.isValid then some state else none

def openControlStore (reads : Bool) (disk : DataDir) : Option ControlStore :=
  let store : ControlStore := { pending := disk.pending, outbound := disk.outbound }
  if reads && store.loads then some store else none

def ControlNode.open_ (io : OpenIo) (disk : DataDir) (nodeId : NodeId)
    (operator : OperatorSecretKey) (ledger : Bool) (now : UInt64) : Option ControlNode := do
  let record ← (openRecord io.recordReads disk nodeId).toOption
  let peers ← loadPeers io.peersReads disk
  let pending ← openControlStore io.pendingReads disk
  pure
    { nodeId, operator, record, peers, pending
      adminState := (loadAdminState io.adminReads disk).getD .empty
      outbound := []
      selfKind := .node
      decisions := []
      seen := .open_ controlSeenConfig now (if io.seenReads then disk.seen else none)
      ledger }

namespace NodeHost

/-- Reload the persisted record and the peer registry; a failed read keeps what is in
memory. -/
def refreshControlPlane (io : ReloadIo) (h : NodeHost) : NodeHost :=
  let record :=
    if h.disk.record.isSome then
      match openRecord io.recordReads h.disk h.node.nodeId with
      | .ok record => record
      | .error _ => h.node.record
    else h.node.record
  let peers :=
    if h.disk.peers.isSome then (loadPeers io.peersReads h.disk).getD h.node.peers
    else h.node.peers
  { h with node := { h.node with record, peers } }

/-- Reload the designation set, dropping the ids that are not children; a dropped one is
written back. A failed read leaves no administrator. -/
def reloadAdminState (io : ReloadIo) (h : NodeHost) : NodeHost :=
  match loadAdminState io.adminReads h.disk with
  | none => { h with node := { h.node with adminState := .empty } }
  | some state =>
      let pruned := state.prune (h.node.record.children.map (·.childId))
      let disk :=
        if pruned.admins.length ≠ state.admins.length ∧ io.pruneSaves then
          { h.disk with adminState := some pruned }
        else h.disk
      { h with node := { h.node with adminState := pruned }, disk }

def reload (io : ReloadIo) (h : NodeHost) : NodeHost :=
  (h.refreshControlPlane io).reloadAdminState io

end NodeHost

/-! ## Authority -/

namespace ControlNode

/-- The last hop administers the node if it is a child and designated. -/
def isAdministrator (n : ControlNode) (node : NodeId) : Option Authority :=
  if n.record.lists node && n.adminState.has node then some (.adminChild node) else none

def mapControlError : ControlError → RejectCode
  | .unsupportedVersion _ => .badVersion
  | .unknownOrigin _ | .operatorMismatch | .invalidSignature => .unauthorized
  | .missingLedgerForNode | .unexpectedLedgerForUser | .slotOutOfRange _ | .fieldTooLong _ _ _
  | .fieldBelowMinimum _ _ _ | .zeroValueRequestId | .emptyValueReason => .badRequest
  | .codec _ | .persist => .internal

variable [ControlPostcard]

def authorizeActor (n : ControlNode) (signed : SignedControl) : Except RejectCode Authority :=
  if signed.origin = n.nodeId then
    if signed.controller ≠ Crypto.pubKey n.operator ∨ signed.verifySignature.toBool = false then
      .error .unauthorized
    else .ok .selfOperator
  else
    match verifyControl signed n.peers with
    | .error e => .error (mapControlError e)
    | .ok _ =>
        match n.isAdministrator signed.origin with
        | some authority => .ok authority
        | none => .error .unauthorized

/-- Verify one hop's forward against the registry. -/
def verifyForward (n : ControlNode) (forward : RoutedForward) : Except RejectCode Unit :=
  match verifyControl forward.signed n.peers with
  | .error e => .error (mapControlError e)
  | .ok _ => if forward.hop.node ≠ forward.signed.origin then .error .unauthorized else .ok ()

end ControlNode

end Cawala
