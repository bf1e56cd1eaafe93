import Cawala.Model.ControlNode

/-! # The handlers of the control engine

Each definition is the handler of one request, under the source's name. A refused request
keeps what the handler did before it refused. -/

namespace Cawala

open Library

def mapRecordError : RecordError → RejectCode
  | .slotTaken _ => .slotTaken
  | .slotOutOfRange _ => .slotOutOfRange
  | .capExceeded => .capacity
  | .childNotFound _ => .notFound
  | .addressWithoutParent _ => .notAttached
  | .duplicateChild _ | .selfReference _ | .addressSlotMismatch _ _ | .idMismatch _ _ =>
      .badRequest
  | .readFailed | .writeFailed => .internal

/-- The text of a record error. The I/O errors name a path and stand for themselves. -/
def RecordError.message : RecordError → String
  | .selfReference id => s!"node '{id}' cannot reference itself"
  | .slotOutOfRange slot => s!"slot {slot} out of range (must be 0..=7)"
  | .slotTaken slot => s!"slot {slot} is already taken"
  | .addressWithoutParent address =>
      s!"address '{address}' set without a parent (only the root address \"0\" may have no parent)"
  | .addressSlotMismatch (some slot) parentSlot =>
      s!"address slot Some({slot}) does not match parent slot {parentSlot}"
  | .addressSlotMismatch none parentSlot =>
      s!"address slot None does not match parent slot {parentSlot}"
  | .capExceeded => s!"node already has {maxChildren} children (cap reached)"
  | .duplicateChild id => s!"child '{id}' already present"
  | .childNotFound id => s!"child '{id}' not found"
  | .idMismatch found expected =>
      s!"record node_id '{found}' does not match this node's endpoint id '{expected}'"
  | .readFailed => "could not read"
  | .writeFailed => "could not write"

def RejectCode.name : RejectCode → String
  | .badVersion => "BadVersion"
  | .unauthorized => "Unauthorized"
  | .notFound => "NotFound"
  | .capacity => "Capacity"
  | .slotTaken => "SlotTaken"
  | .slotOutOfRange => "SlotOutOfRange"
  | .badRequest => "BadRequest"
  | .notAttached => "NotAttached"
  | .expired => "Expired"
  | .replay => "Replay"
  | .internal => "Internal"

/-- Maximum number of joins awaiting approval. -/
def maxPendingJoins : ℕ := 64

/-- Maximum number of retained decisions. -/
def maxStoredDecisions : ℕ := 64

def ChildKind.peerRole : ChildKind → PeerRole
  | .node => .node
  | .user => .user

/-- How an existing peer row relates to an expected one. -/
inductive PeerState where
  | absent
  | identical
  | ledgerChanged
  | conflict
deriving DecidableEq, Repr

/-- The lowest slot free for a child, its own included. -/
def freeSlotFor (r : NodeRecord) (child : NodeId) : Option UInt8 :=
  allSlots.find? fun slot =>
    !r.children.any fun entry => entry.slot == slot && !(entry.childId == child)

/-- Who is recorded for a designation change: the forwarder of a routed request. -/
def designationUpdatedBy (route : Option (NodeId × NodeId)) : String :=
  match route with
  | some (_, forwarder) => forwarder
  | none => "local"

variable [Crypto]

/-- Whether a ledger key is the all-zero one, which an approval may not carry. -/
class ZeroKey where
  isZero : LedgerPubKey → Bool

/-! ## Replies of a request -/

/-- A pending join, as an administrator sees it. -/
structure AdminPendingJoin where
  child : NodeId
  kind : ChildKind
  operator : OperatorPubKey
  desiredSlot : Option UInt8
  expiry : UInt64

inductive ControlReply where
  | accepted
  | pending
  | rejected (code : RejectCode)
  | snapshot (node : NodeSnapshot)
  | adminSnapshot (node : NodeSnapshot) (admins : List NodeId) (pending : List AdminPendingJoin)
  | adminApproved (child : NodeId) (slot : UInt8) (address : OctAddr) (delivery : DeliveryStatus)
  | adminRejected (child : NodeId) (delivery : DeliveryStatus)
  | adminValueApplied (requestId : Vector UInt8 16) (account : NodeId)
      (direction : ValueDirection) (amount : Amount) (applied : ValueApplied)
  | capabilities (clientApiVersion : UInt16) (features : UInt64)

/-- A value mutation to execute once the control lock is free. -/
structure PendingLedgerMutation where
  direction : ValueDirection
  account : NodeId
  kind : ChildKind
  amount : Amount
  requestId : Vector UInt8 16
  reason : String
  origin : NodeId
  controller : OperatorPubKey

/-- The result of dispatching a request: a reply, or work on the ledger to do after the
control lock is released. -/
inductive Handled where
  | reply (reply : ControlReply)
  | ledger (record : NodeRecord) (origin : NodeId) (controller : OperatorPubKey)
  | ledgerMutation (pending : PendingLedgerMutation)

/-! ## Memory and disk -/

namespace NodeHost

def withRecord (r : NodeRecord) (h : NodeHost) : NodeHost :=
  { h with node := { h.node with record := r } }

def withPeers (peers : PeerRegistry) (h : NodeHost) : NodeHost :=
  { h with node := { h.node with peers } }

/-- Replace the in-flight joins in memory. -/
def withPending (pending : ControlStore) (h : NodeHost) : NodeHost :=
  { h with node := { h.node with pending } }

/-- Queue a frame for delivery. -/
def pushOutbound (item : OutboundControl) (h : NodeHost) : NodeHost :=
  { h with node := { h.node with outbound := h.node.outbound ++ [item] } }

end NodeHost

def onRecord {α : Type} (x : RecordOp α) : Transaction NodeHost RecordError α :=
  Transaction.zoom (·.node.record) NodeHost.withRecord x

section Saves

variable {ε : Type}

/-- `RecordStore::save`: the record is validated and written atomically. -/
def saveRecord (io : Io) (e : ε) : Transaction NodeHost ε PUnit := do
  let h ← get
  Transaction.refuseIf (h.node.record.validate.toBool = false ∨ !io.recordSaves) e
  modify fun h => { h with disk := { h.disk with record := some h.node.record } }

def savePeers (io : Io) (e : ε) : Transaction NodeHost ε PUnit := do
  Transaction.refuseIf (!io.peersSaves) e
  modify fun h => { h with disk := { h.disk with peers := some h.node.peers } }

/-- `ControlStore::save`: two documents, one after the other. -/
def savePending (io : Io) (e : ε) : Transaction NodeHost ε PUnit := do
  Transaction.refuseIf (!io.pendingSaves) e
  modify fun h => { h with disk := { h.disk with pending := h.node.pending.pending } }
  Transaction.refuseIf (!io.outboundSaves) e
  modify fun h => { h with disk := { h.disk with outbound := h.node.pending.outbound } }

/-- Persist a designation set, and only then take it into memory. -/
def saveAdminState (io : Io) (state : AdminState) (e : ε) : Transaction NodeHost ε PUnit := do
  Transaction.refuseIf (!io.adminSaves) e
  modify fun h => { h with
    node := { h.node with adminState := state }
    disk := { h.disk with adminState := some state } }

end Saves

/-! ## The peer registry -/

def mapLedgerError : LedgerError → RejectCode
  | .invalidPeerKeys | .duplicatePeer | .duplicateKey => .badRequest
  | _ => .internal

namespace ControlNode

/-- Classify the registry row of an expected peer. -/
def existingPeerState (n : ControlNode) (expected : PeerKeys) : PeerState :=
  match n.peers.get expected.nodeId with
  | none => .absent
  | some existing =>
      if existing = expected then .identical
      else if existing.operator = expected.operator ∧ existing.role = expected.role then
        .ledgerChanged
      else .conflict

/-- Rebuild the registry with one row's ledger key replaced. -/
def replacePeerLedger (peers : PeerRegistry) (node : NodeId) (ledger : Option LedgerPubKey) :
    Except RejectCode PeerRegistry :=
  let rows := peers.rows.map fun row => if row.nodeId = node then { row with ledger } else row
  match rows.foldlM PeerRegistry.insert .new with
  | .ok rebuilt => .ok rebuilt
  | .error _ => .error .unauthorized

def reconciledPeers (peers : PeerRegistry) (peer : PeerKeys) :
    PeerState → Except RejectCode PeerRegistry
  | .identical => .ok peers
  | .conflict => .error .unauthorized
  | .absent =>
      match peers.insert peer with
      | .ok peers => .ok peers
      | .error e => .error (mapLedgerError e)
  | .ledgerChanged => replacePeerLedger peers peer.nodeId peer.ledger

end ControlNode

/-- Apply the registry change that a re-approval or a re-create implies. -/
def reconcilePeerRow (peer : PeerKeys) (state : PeerState) : Engine PUnit := do
  let h ← get
  let peers ← Transaction.ofExcept (ControlNode.reconciledPeers h.node.peers peer state)
  modify (NodeHost.withPeers peers)

def JoinRequest.peerKeys (r : JoinRequest) : PeerKeys where
  nodeId := r.node
  operator := r.operator
  ledger := r.ledger
  role := r.kind.peerRole

/-! ## Approvals -/

/-- Validate an approval against the current state. -/
def precheckApprove (n : ControlNode) (child : NodeId) (slot : Option UInt8) :
    Except RejectCode PUnit :=
  if (n.pending.pendingFor child).isNone then .error .notFound
  else if n.record.address.isNone then .error .notAttached
  else
    match slot with
    | some slot =>
        if slot > maxSlot then .error .slotOutOfRange
        else if n.record.children.any (fun c => c.slot == slot && !(c.childId == child)) then
          .error .slotTaken
        else .ok ⟨⟩
    | none =>
        if !n.record.lists child && (lowestFreeSlot n.record).isNone then .error .capacity
        else .ok ⟨⟩

def mapApproveError : ControlError → RejectCode
  | .slotOutOfRange _ => .slotOutOfRange
  | _ => .internal

/-- The slot an approval assigns: a listed child keeps its own. -/
def approveSlot (r : NodeRecord) (listed : Option UInt8) (slot : Option UInt8) :
    Except ControlError UInt8 :=
  match listed, slot with
  | some existing, none => .ok existing
  | some existing, some requested =>
      if requested > maxSlot then .error (.slotOutOfRange requested)
      else if requested ≠ existing ∧ r.slotTaken requested then
        .error (.codec s!"slot {requested} is already taken")
      else .ok existing
  | none, some requested =>
      if requested > maxSlot then .error (.slotOutOfRange requested)
      else if r.slotTaken requested then
        .error (.codec s!"slot {requested} is already taken")
      else .ok requested
  | none, none =>
      match lowestFreeSlot r with
      | some slot => .ok slot
      | none => .error (.codec "node is full")

/-- Attach an approved applicant, and put its request back when that fails. -/
def attachApproved (request : JoinRequest) (slot : UInt8) (now : UInt64) :
    Transaction NodeHost ControlError PUnit :=
  Transaction.catchWith
    (onRecord (RecordStore.attachChild request.node request.kind (some slot) now)) fun e => do
      modify fun h => h.withPending (h.node.pending.addPending request)
      throw (.codec e.message)

/-- Register an approved applicant; a refusal takes the attachment back. -/
def registerApproved (request : JoinRequest) (state : PeerState) (listed : Bool) :
    Transaction NodeHost ControlError PUnit :=
  Transaction.catchWith (reconcilePeerRow request.peerKeys state) fun code => do
    Transaction.when (!listed)
      (Transaction.catchWith (onRecord (RecordStore.detachChild request.node)) fun _ => pure ⟨⟩)
    modify fun h => h.withPending (h.node.pending.addPending request)
    throw (.codec s!"peer row update failed: {code.name}")

/-- Consume a pending request: assign a slot, attach the child, register its keys, and return
the approval to send. -/
def approvePending (io : Io) (node : NodeId) (slot : Option UInt8) (now : UInt64)
    (parentLedger : LedgerPubKey) : Transaction NodeHost ControlError JoinApproval := do
  let h ← get
  match h.node.pending.pendingFor node with
  | none => throw (.codec s!"no pending join for '{node}'")
  | some request =>
      match h.node.record.address with
      | none => throw (.codec "this node has no asserted address")
      | some baseAddress => do
          let state := h.node.existingPeerState request.peerKeys
          Transaction.refuseIf (state = .conflict) (.codec
            s!"peer row for '{request.node}' conflicts with the approved operator/role")
          let listed := (h.node.record.childEntry request.node).map (·.slot)
          let slot ← Transaction.ofExcept (approveSlot h.node.record listed slot)
          match childAddress baseAddress slot with
          | none => throw (.slotOutOfRange slot)
          | some address => do
              modify fun h => h.withPending (h.node.pending.removePending node)
              Transaction.when listed.isNone (attachApproved request slot now)
              Transaction.when (state ≠ .identical)
                (registerApproved request state listed.isSome)
              saveRecord io .persist
              savePeers io .persist
              savePending io .persist
              pure
                { child := request.node, childOperator := request.operator
                  childLedger := request.ledger, kind := request.kind, slot, address
                  dateJoined := now, nonce := request.nonce, parentLedger }

def rejectPending {ε : Type} (io : Io) (node : NodeId) (e : ε) : Transaction NodeHost ε PUnit := do
  modify fun h => h.withPending (h.node.pending.removePending node)
  savePending io e

/-- Whether a new applicant fits: its slot is free, or some slot is. -/
def joinCapacity (r : NodeRecord) (join : JoinRequest) : Except RejectCode PUnit :=
  if r.lists join.node then .ok ⟨⟩
  else
    match join.desiredSlot with
    | some slot => if r.slotTaken slot then .error .slotTaken else .ok ⟨⟩
    | none => if (lowestFreeSlot r).isNone then .error .capacity else .ok ⟨⟩

/-- Record the approving parent in the registry. -/
def rememberParentPeer (signed : SignedControl) (approval : JoinApproval) : Engine PUnit := do
  let h ← get
  let expected : PeerKeys :=
    { nodeId := signed.origin, operator := signed.controller
      ledger := some approval.parentLedger, role := .node }
  let peers ← Transaction.ofExcept (match h.node.existingPeerState expected with
    | .identical => .ok h.node.peers
    | .ledgerChanged =>
        ControlNode.replacePeerLedger h.node.peers signed.origin (some approval.parentLedger)
    | .conflict => .error .unauthorized
    | .absent =>
        match h.node.peers.insert expected with
        | .ok peers => .ok peers
        | .error _ => .error .unauthorized)
  modify (NodeHost.withPeers peers)

/-- Apply a parent's approval to the record and the registry, and put both back in memory when
a step or a save fails. -/
def applyApproval (io : Io) (signed : SignedControl) (approval : JoinApproval) :
    Engine PUnit := do
  let backup ← get
  Transaction.catchWith
    (do
      Transaction.mapError mapRecordError (onRecord RecordStore.unsetAddress)
      Transaction.mapError mapRecordError
        (onRecord (RecordStore.setParent signed.origin approval.slot))
      Transaction.mapError mapRecordError (onRecord (RecordStore.setAddress approval.address))
      rememberParentPeer signed approval
      saveRecord io .internal
      savePeers io .internal)
    fun code => do
      modify fun h => (h.withRecord backup.node.record).withPeers backup.node.peers
      throw code

def decisionTarget (signed : SignedControl) : Option NodeId :=
  match signed.request with
  | .joinApproved approval => some approval.child
  | .joinRejected rejection => some rejection.child
  | _ => none

def storeDecision (signed : SignedControl) : Engine PUnit :=
  modify fun h =>
    match decisionTarget signed with
    | none => h
    | some child =>
        let kept := h.node.decisions.filter (fun d => decisionTarget d ≠ some child) ++ [signed]
        { h with node := { h.node with
            decisions := kept.drop (kept.length - maxStoredDecisions) } }

/-! ## Signed notices -/

def freshNonce {ε : Type} : Transaction NodeHost ε UInt64 := do
  let h ← get
  modify fun h => { h with entropy := fun i => h.entropy (i + 1) }
  pure (h.entropy 0)

variable [ControlPostcard]

/-- Sign an outbound frame with the node's own operator key. -/
def signDecision {ε : Type} (request : ControlRequest) (now : UInt64) :
    Transaction NodeHost ε SignedControl := do
  let h ← get
  let nonce ← freshNonce
  pure (.authorize h.node.nodeId h.node.operator nonce
    (saturatingAdd now controlRequestTtlSecs) request)

def queueNotice (child : NodeId) (kind : OutboundKind) (request : ControlRequest)
    (now : UInt64) : Engine PUnit := do
  let signed ← signDecision request now
  modify (NodeHost.pushOutbound { target := child, signed, kind })

/-- Queue a rebase notice for one child, carrying the node's own address epoch. -/
def queueRebaseNotice (child : NodeId) (slot : UInt8) (parentAddress : OctAddr) (now : UInt64) :
    Engine PUnit := do
  let h ← get
  match childAddress parentAddress slot with
  | some address =>
      queueNotice child .rebase
        (.rebase { node := child, parentAddress, address
                   generation := h.node.record.addressEpoch }) now
  | none => pure ⟨⟩

def propagateRebase (parentAddress : OctAddr) (now : UInt64) : Engine PUnit := do
  let h ← get
  h.node.record.children.forM fun child =>
    queueRebaseNotice child.childId child.slot parentAddress now

/-! ## Joins -/

/-- Queue a self-signed join for approval. -/
def handleJoin (io : Io) (signed : SignedControl) (join : JoinRequest) (now : UInt64) :
    Engine ControlReply := do
  Transaction.refuseIf (signed.verifySignature.toBool = false) .unauthorized
  Transaction.refuseIf (signed.controller ≠ join.operator ∨ signed.origin ≠ join.node)
    .unauthorized
  Transaction.refuseIf (join.validate.toBool = false) .badRequest
  Transaction.refuseIf (now > join.expiry) .badRequest
  let h ← get
  if (h.node.pending.pendingFor join.node).isSome then pure .pending
  else do
    Transaction.ofExcept (joinCapacity h.node.record join)
    Transaction.refuseIf (h.node.pending.pending.length ≥ maxPendingJoins) .capacity
    modify fun h => h.withPending (h.node.pending.addPending join)
    savePending io .internal
    pure .pending

/-- Applicant side: apply a parent's approval. -/
def handleJoinApproved [ZeroKey] (io : Io) (signed : SignedControl) (approval : JoinApproval)
    (now : UInt64) : Engine ControlReply := do
  Transaction.refuseIf (signed.verifySignature.toBool = false) .unauthorized
  let h ← get
  match h.node.pending.outbound with
  | none => throw .notAttached
  | some outbound => do
      Transaction.refuseIf
        (outbound.parent ≠ signed.origin ∨ outbound.request.node ≠ approval.child)
        .unauthorized
      Transaction.refuseIf (approval.nonce ≠ outbound.request.nonce) .unauthorized
      Transaction.refuseIf (outbound.pinnedOperator.any (· ≠ signed.controller)) .unauthorized
      Transaction.refuseIf (ZeroKey.isZero approval.parentLedger) .badRequest
      applyApproval io signed approval
      modify fun h => h.withPending { h.node.pending with outbound := none }
      savePending io .internal
      let h ← get
      Transaction.forSome h.node.record.address fun address => propagateRebase address now
      pure .accepted

/-- Applicant side: a parent's refusal cancels the outbound join. -/
def handleJoinRejected (io : Io) (signed : SignedControl) (rejection : JoinRejection) :
    Engine ControlReply := do
  Transaction.refuseIf (signed.verifySignature.toBool = false) .unauthorized
  Transaction.refuseIf (rejection.validate.toBool = false) .badRequest
  let h ← get
  match h.node.pending.outbound with
  | none => pure .accepted
  | some outbound => do
      Transaction.refuseIf (outbound.parent ≠ signed.origin) .unauthorized
      Transaction.refuseIf (outbound.pinnedOperator.any (· ≠ signed.controller)) .unauthorized
      Transaction.refuseIf (outbound.request.nonce ≠ 0 ∧ rejection.nonce ≠ 0
        ∧ rejection.nonce ≠ outbound.request.nonce) .unauthorized
      modify fun h => h.withPending { h.node.pending with outbound := none }
      savePending io .internal
      pure .accepted

/-! ## Topology -/

def handleCreateChild (io : Io) (create : CreateChild) (authority : Authority) :
    Engine ControlReply := do
  let peer : PeerKeys :=
    { nodeId := create.child, operator := create.operator, ledger := create.ledger
      role := create.kind.peerRole }
  let h ← get
  let state := h.node.existingPeerState peer
  Transaction.refuseIf ((state = .ledgerChanged ∧ authority ≠ .selfOperator) ∨ state = .conflict)
    .unauthorized
  if h.node.record.lists create.child then do
    Transaction.when (state ≠ .identical) do
      reconcilePeerRow peer state
      savePeers io .internal
    pure .accepted
  else do
    Transaction.mapError mapRecordError (onRecord
      (RecordStore.attachChild create.child create.kind create.slot create.dateJoined))
    Transaction.when (state ≠ .identical)
      (Transaction.catchWith (reconcilePeerRow peer state) fun code => do
        modify (NodeHost.withRecord h.node.record)
        throw code)
    saveRecord io .internal
    savePeers io .internal
    pure .accepted

/-- Remove a child link and queue a notice to the child. The caller has authorized. -/
def applyDetachChild (io : Io) (child : NodeId) (now : UInt64) : Engine ControlReply := do
  Transaction.mapError mapRecordError (onRecord (RecordStore.detachChild child))
  saveRecord io .internal
  queueNotice child .detachNotice (.detachNotice child) now
  pure .accepted

def handleDetachChild (io : Io) (child : NodeId) (now : UInt64) : Engine ControlReply :=
  applyDetachChild io child now

/-- Re-slot a node child and queue its rebase notice. The caller has authorized. -/
def applyMoveChild (io : Io) (child : NodeId) (slot : Option UInt8) (now : UInt64) :
    Engine ControlReply := do
  let h ← get
  match h.node.record.childEntry child with
  | none => throw .notFound
  | some entry => do
      Transaction.refuseIf (entry.kind ≠ .node) .badRequest
      match slot.orElse fun _ => freeSlotFor h.node.record child with
      | none => throw .internal
      | some target => do
          let moved ← Transaction.catchWith (onRecord (RecordStore.moveChildSlot child target))
            fun e => do
              modify (NodeHost.withRecord h.node.record)
              throw (mapRecordError e)
          match moved with
          | none => pure .accepted
          | some _ => do
              saveRecord io .internal
              let h ← get
              Transaction.forSome h.node.record.address fun address =>
                queueRebaseNotice child target address now
              pure .accepted

def handleMoveChild (io : Io) (move : MoveChild) (now : UInt64) : Engine ControlReply := do
  let h ← get
  Transaction.refuseIf (move.newParent ≠ h.node.nodeId) .badRequest
  applyMoveChild io move.child move.slot now

/-- Set or clear the node's asserted address; only its own operator may. -/
def handleSetAddress (io : Io) (address : Option OctAddr) (authority : Authority) :
    Engine ControlReply := do
  Transaction.refuseIf (authority ≠ .selfOperator) .unauthorized
  Transaction.mapError mapRecordError (onRecord (match address with
    | some address => RecordStore.setAddress address
    | none => RecordStore.unsetAddress))
  saveRecord io .internal
  pure .accepted

def handleQuery : Engine ControlReply := do
  let h ← get
  pure (.snapshot h.node.record.snapshot)

/-! ## Exit rights -/

/-- Parent side: a child leaves. -/
def handleExit (io : Io) (signed : SignedControl) (exit : ExitRequest) : Engine ControlReply := do
  Transaction.refuseIf (exit.validate.toBool = false) .badRequest
  Transaction.refuseIf (exit.node ≠ signed.origin) .unauthorized
  let h ← get
  Transaction.refuseIf ((verifyControl signed h.node.peers).toBool = false) .unauthorized
  Transaction.when (h.node.record.lists exit.node) do
    Transaction.mapError mapRecordError (onRecord (RecordStore.detachChild exit.node))
    saveRecord io .internal
  pure .accepted

/-- Child side: the current parent detached this node. -/
def handleDetachNotice (io : Io) (signed : SignedControl) (node : NodeId) (now : UInt64) :
    Engine ControlReply := do
  Transaction.refuseIf ((validateNodeId "node" node).toBool = false) .badRequest
  let h ← get
  Transaction.refuseIf (node ≠ h.node.nodeId) .unauthorized
  match h.node.record.parent with
  | none => pure .accepted
  | some parent => do
      Transaction.refuseIf (signed.origin ≠ parent.parentId) .unauthorized
      Transaction.refuseIf ((verifyControl signed h.node.peers).toBool = false) .unauthorized
      Transaction.mapError mapRecordError (onRecord (match h.node.selfKind with
        | .node => RecordStore.rebaseToRoot
        | .user => do
            RecordStore.unsetAddress
            RecordStore.unsetParent))
      saveRecord io .internal
      let h ← get
      Transaction.when (h.node.selfKind = .node)
        (Transaction.forSome h.node.record.address fun root => propagateRebase root now)
      pure .accepted

/-- Child side: apply a parent-signed rebase, ordered by its generation. -/
def handleRebase (io : Io) (signed : SignedControl) (notice : RebaseNotice) (now : UInt64) :
    Engine ControlReply := do
  Transaction.refuseIf (notice.validate.toBool = false) .badRequest
  let h ← get
  Transaction.refuseIf (notice.node ≠ h.node.nodeId) .unauthorized
  match h.node.record.parent with
  | none => throw .unauthorized
  | some parent => do
      Transaction.refuseIf (signed.origin ≠ parent.parentId) .unauthorized
      Transaction.refuseIf ((verifyControl signed h.node.peers).toBool = false) .unauthorized
      Transaction.refuseIf (notice.address.parent ≠ some notice.parentAddress) .badRequest
      let stored := h.node.record.parentGeneration
      if notice.generation < stored then pure .accepted
      else if h.node.record.address = some notice.address then do
        Transaction.when (notice.generation > stored) do
          Transaction.mapError mapRecordError
            (onRecord (RecordStore.setParentGeneration notice.generation))
          saveRecord io .internal
        pure .accepted
      else do
        Transaction.refuseIf (notice.generation = stored) .badRequest
        match notice.address.slot with
        | none => throw .badRequest
        | some slot => do
            Transaction.mapError mapRecordError
              (onRecord (RecordStore.applyRebase notice.address slot notice.generation))
            saveRecord io .internal
            propagateRebase notice.address now
            pure .accepted

/-- Parent side: answer a child's healing pull with a snapshot. -/
def handleRebasePull (signed : SignedControl) (node : NodeId) : Engine ControlReply := do
  Transaction.refuseIf ((validateNodeId "node" node).toBool = false) .badRequest
  Transaction.refuseIf (node ≠ signed.origin) .unauthorized
  let h ← get
  Transaction.refuseIf (!h.node.record.lists node) .unauthorized
  Transaction.refuseIf ((verifyControl signed h.node.peers).toBool = false) .unauthorized
  pure (.snapshot h.node.record.snapshot)

/-! ## The Ethereum anchor -/

variable [EthPrimitives]

/-- Register or rotate the anchor of a user child. -/
def handleRegisterEthAddress (io : Io) (signed : SignedControl) (register : RegisterEthAddress) :
    Engine ControlReply := do
  let h ← get
  Transaction.refuseIf ((verifyControl signed h.node.peers).toBool = false) .unauthorized
  match h.node.record.childEntry signed.origin with
  | none => throw .notFound
  | some child => do
      Transaction.refuseIf (child.kind ≠ .user) .unauthorized
      Transaction.refuseIf
        ((register.verify signed.origin child.ethAddress).toBool = false) .unauthorized
      Transaction.mapError mapRecordError
        (onRecord (RecordStore.setChildEthAddress signed.origin register.address))
      saveRecord io .internal
      pure .accepted

/-! ## Administration -/

omit [EthPrimitives]

/-- Answer an administrator's query. -/
def handleAdminQuery : Engine ControlReply := do
  let h ← get
  pure (.adminSnapshot h.node.record.snapshot h.node.adminState.admins
    ((h.node.pending.pending.take maxPendingJoins).map fun request =>
      { child := request.node, kind := request.kind, operator := request.operator
        desiredSlot := request.desiredSlot, expiry := request.expiry }))

/-- Sign, retain and queue a join decision. -/
def deliverDecision (target : NodeId) (request : ControlRequest) (kind : OutboundKind)
    (now : UInt64) : Engine PUnit := do
  let signed ← signDecision request now
  storeDecision signed
  modify (NodeHost.pushOutbound { target, signed, kind })

def handleAdminApproveJoin (io : Io) (approve : AdminJoinApprove) (now : UInt64) :
    Engine ControlReply := do
  Transaction.refuseIf (approve.validate.toBool = false) .badRequest
  let h ← get
  Transaction.ofExcept (precheckApprove h.node approve.child approve.slot)
  match io.ledgerKey with
  | none => throw .internal
  | some parentLedger => do
      let approval ← Transaction.mapError mapApproveError
        (approvePending io approve.child approve.slot now parentLedger)
      deliverDecision approval.child (.joinApproved approval) .approved now
      pure (.adminApproved approval.child approval.slot approval.address .unreachable)

def handleAdminRejectJoin (io : Io) (reject : AdminJoinReject) (now : UInt64) :
    Engine ControlReply := do
  Transaction.refuseIf (reject.validate.toBool = false) .badRequest
  let h ← get
  match h.node.pending.pendingFor reject.child with
  | none => throw .notFound
  | some pending => do
      rejectPending io reject.child RejectCode.internal
      deliverDecision reject.child
        (.joinRejected
          { child := reject.child, reason := reject.reason.getD "rejected"
            nonce := pending.nonce }) .rejected now
      pure (.adminRejected reject.child .unreachable)

/-- Send the stored decision of a child again, signed afresh. -/
def handleAdminRedeliverJoin (child : NodeId) (now : UInt64) : Engine ControlReply := do
  Transaction.refuseIf ((validateNodeId "child" child).toBool = false) .badRequest
  let h ← get
  match h.node.decisions.find? fun stored => decisionTarget stored = some child with
  | none => throw .notFound
  | some stored =>
      match stored.request with
      | .joinApproved approval => do
          deliverDecision approval.child stored.request .approved now
          pure (.adminApproved approval.child approval.slot approval.address .unreachable)
      | .joinRejected rejection => do
          deliverDecision rejection.child stored.request .rejected now
          pure (.adminRejected rejection.child .unreachable)
      | _ => throw .internal

def handleAdminDetachChild (io : Io) (child : NodeId) (now : UInt64) : Engine ControlReply := do
  Transaction.refuseIf ((validateNodeId "child" child).toBool = false) .badRequest
  applyDetachChild io child now

/-- Re-slot a child on behalf of an administrator. -/
def handleAdminMoveChild (io : Io) (move : AdminMoveChild) (now : UInt64) :
    Engine ControlReply := do
  Transaction.ofExcept (match move.validate with
    | .ok _ => .ok ⟨⟩
    | .error (.slotOutOfRange _) => .error .slotOutOfRange
    | .error _ => .error RejectCode.badRequest)
  applyMoveChild io move.child move.slot now

def handleAdminDesignate (io : Io) (child : NodeId) (now : UInt64)
    (route : Option (NodeId × NodeId)) : Engine ControlReply := do
  Transaction.refuseIf ((validateNodeId "child" child).toBool = false) .badRequest
  let h ← get
  Transaction.refuseIf (!h.node.record.lists child) .notFound
  if h.node.adminState.has child then pure .accepted
  else
    match h.node.adminState.add child with
    | none => throw .capacity
    | some state => do
        saveAdminState io (state.markUpdated now (designationUpdatedBy route)) .internal
        pure .accepted

def handleAdminRevoke (io : Io) (child : NodeId) (now : UInt64)
    (route : Option (NodeId × NodeId)) : Engine ControlReply := do
  Transaction.refuseIf ((validateNodeId "child" child).toBool = false) .badRequest
  let h ← get
  if h.node.adminState.has child then do
    saveAdminState io
      ((h.node.adminState.remove child).markUpdated now (designationUpdatedBy route)) .internal
    pure .accepted
  else pure .accepted

def prepareAdminValue (direction : ValueDirection) (signed : SignedControl)
    (request : AdminValueRequest) : Engine PendingLedgerMutation := do
  Transaction.refuseIf (request.validate.toBool = false) .badRequest
  let h ← get
  match h.node.record.childEntry request.account with
  | none => throw .notFound
  | some child => do
      Transaction.refuseIf (!h.node.ledger) .internal
      pure
        { direction, account := request.account, kind := child.kind, amount := request.amount
          requestId := request.requestId, reason := request.reason, origin := signed.origin
          controller := signed.controller }

end Cawala
