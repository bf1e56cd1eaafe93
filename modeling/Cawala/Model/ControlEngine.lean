import Cawala.Model.ControlHandlers

/-! # The control engine

How a request reaches its handler: the prechecks, the authority of its actor, the replay
guard, and the dispatch, on the direct path and along the tree. Around the engine stand the
local processes that share its data directory, and the ledger. -/

namespace Cawala

open Library

def nodeClientApiVersion : UInt16 := 1

def nodeFeatureEthIdentity : UInt64 := 1

/-- A byte of a number, counted from the least significant one. -/
def byteOf (n : UInt64) (i : ℕ) : UInt8 := UInt8.ofNat (n.toNat / 256 ^ i)

/-- Pack a nonce into a message id: eight big-endian bytes, then zeros. -/
def nonceMsgId (nonce : UInt64) : MsgId :=
  Vector.ofFn fun i : Fin 16 => if i.val < 8 then byteOf nonce (7 - i.val) else 0

variable [Crypto]

def SignedControl.seenKey (signed : SignedControl) : SeenKey := (signed.origin, signed.controller)

/-- Persist the marks of the replay guard. -/
def saveSeen (io : Io) (now : UInt64) : Engine PUnit := do
  Transaction.refuseIf (!io.seenSaves) .internal
  modify fun h => { h with disk := { h.disk with seen := some (h.node.seen.document now) } }

/-- The replay guard: a duplicate is refused, and a fresh frame is marked on disk before its
dispatch. A mark that cannot be persisted stays in memory. -/
def replayGuard (io : Io) (signed : SignedControl) (now : UInt64) : Engine PUnit := do
  let h ← get
  let observed := h.node.seen.observe signed.seenKey (nonceMsgId signed.nonce) signed.expiry
  modify fun h => { h with node := { h.node with seen := observed.2 } }
  Transaction.refuseIf (observed.1 = .duplicate) .replay
  saveSeen io now

variable [ControlPostcard]

/-- Version, shape, signature and expiry, and then the reload of the persisted state. -/
def precheck (io : ReloadIo) (signed : SignedControl) (now : UInt64) : Engine PUnit := do
  Transaction.refuseIf (!isSupportedControlVersion signed.version) .badVersion
  Transaction.refuseIf (signed.version < signed.request.minControlVersion) .badVersion
  Transaction.refuseIf (signed.verifySignature.toBool = false) .unauthorized
  Transaction.refuseIf (now > signed.expiry) .expired
  Transaction.refuseIf (signed.expiry > saturatingAdd now controlRequestMaxTtlSecs) .badRequest
  modify (NodeHost.reload io)

def actorAuthority (signed : SignedControl) : Engine Authority := do
  let h ← get
  Transaction.ofExcept (h.node.authorizeActor signed)

/-- What a direct request must pass before the replay guard: the prechecks, an authority where
its class needs one, and the node's own operator where it is an admin request. -/
def admitDirect (io : Io) (signed : SignedControl) (now : UInt64) :
    Engine (Option Authority) := do
  precheck io.reload signed now
  if signed.request.needsAuthority then do
    let authority ← actorAuthority signed
    Transaction.refuseIf (signed.request.isAdmin ∧ authority ≠ .selfOperator) .unauthorized
    pure (some authority)
  else pure none

/-- What a routed request must pass before the replay guard. Its last forward is returned: that
frame is dispatched, and its signer is the authority. -/
def admitRouted (io : Io) (remote : NodeId) (routed : RoutedControlV1) (now : UInt64) :
    Engine (Authority × SignedControl) := do
  Transaction.refuseIf (routed.validate.toBool = false) .unauthorized
  modify (NodeHost.reload io.routedReload)
  let h ← get
  Transaction.refuseIf (routed.target.node ≠ h.node.nodeId) .unauthorized
  Transaction.refuseIf (h.node.record.address ≠ some routed.target.addr) .unauthorized
  Transaction.refuseIf (routed.intent.verifySignature.toBool = false) .unauthorized
  Transaction.refuseIf (now > routed.intent.expiry) .expired
  Transaction.refuseIf (routed.intent.expiry > saturatingAdd now controlRequestMaxTtlSecs)
    .badRequest
  match routed.forwards.getLast? with
  | none => throw .unauthorized
  | some last => do
      Transaction.refuseIf (last.hop.node ≠ remote) .unauthorized
      Transaction.refuseIf ((h.node.verifyForward last).toBool = false) .unauthorized
      Transaction.refuseIf routed.intent.request.isDirectOnly .unauthorized
      precheck io.reload last.signed now
      let authority ← actorAuthority last.signed
      pure (authority, last.signed)

variable [EthPrimitives] [ZeroKey]

/-- Hand an admitted frame to its handler. The classes that need an authority always come with
one. -/
def handleRequest (io : Io) (signed : SignedControl) (now : UInt64)
    (authority : Option Authority) (route : Option (NodeId × NodeId)) : Engine Handled :=
  match signed.request with
  | .join join => .reply <$> handleJoin io signed join now
  | .joinApproved approval => .reply <$> handleJoinApproved io signed approval now
  | .joinRejected rejection => .reply <$> handleJoinRejected io signed rejection
  | .createChild create =>
      match authority with
      | some authority => .reply <$> handleCreateChild io create authority
      | none => throw .internal
  | .detachChild child => .reply <$> handleDetachChild io child now
  | .moveChild move => .reply <$> handleMoveChild io move now
  | .setAddress address =>
      match authority with
      | some authority => .reply <$> handleSetAddress io address authority
      | none => throw .internal
  | .query => .reply <$> handleQuery
  | .adminQuery => .reply <$> handleAdminQuery
  | .adminApproveJoin approve => .reply <$> handleAdminApproveJoin io approve now
  | .adminRejectJoin reject => .reply <$> handleAdminRejectJoin io reject now
  | .adminRedeliverJoin child => .reply <$> handleAdminRedeliverJoin child now
  | .exit exit => .reply <$> handleExit io signed exit
  | .detachNotice node => .reply <$> handleDetachNotice io signed node now
  | .rebase notice => .reply <$> handleRebase io signed notice now
  | .rebasePull node => .reply <$> handleRebasePull signed node
  | .adminLedgerQuery => do
      let h ← get
      Transaction.refuseIf (!h.node.ledger) .internal
      pure (.ledger h.node.record signed.origin signed.controller)
  | .adminDetachChild child => .reply <$> handleAdminDetachChild io child now
  | .adminMoveChild move => .reply <$> handleAdminMoveChild io move now
  | .adminIssue request => .ledgerMutation <$> prepareAdminValue .issue signed request
  | .adminBurn request => .ledgerMutation <$> prepareAdminValue .burn signed request
  | .adminDesignate child => .reply <$> handleAdminDesignate io child now route
  | .adminRevoke child => .reply <$> handleAdminRevoke io child now route
  | .capabilities _ =>
      pure (.reply (.capabilities nodeClientApiVersion nodeFeatureEthIdentity))
  | .registerEthAddress register => .reply <$> handleRegisterEthAddress io signed register

def dispatchAuthorized (io : Io) (signed : SignedControl) (now : UInt64)
    (authority : Option Authority) (route : Option (NodeId × NodeId)) : Engine Handled := do
  replayGuard io signed now
  handleRequest io signed now authority route

def receiveAtHandled (io : Io) (signed : SignedControl) (now : UInt64) : Engine Handled := do
  let authority ← admitDirect io signed now
  dispatchAuthorized io signed now authority none

/-- Handle a routed request that reaches this node as its destination. -/
def receiveRoutedAtHandled (io : Io) (remote : NodeId) (routed : RoutedControlV1)
    (now : UInt64) : Engine Handled := do
  let (authority, last) ← admitRouted io remote routed now
  dispatchAuthorized io last now (some authority) (some (routed.requester.node, remote))

/-! ## The node and what shares its data directory -/

/-- A running node: its engine and data directory, the ledger, and the value mutations that
wait for the ledger. -/
structure ControlHost where
  host : NodeHost
  desk : Desk
  waiting : List PendingLedgerMutation

/-- The steps of a running node. -/
inductive ControlEvent where
  /-- A direct request arrives. -/
  | direct (io : Io) (signed : SignedControl) (now : UInt64)
  /-- A routed request arrives from a neighbour. -/
  | routed (io : Io) (remote : NodeId) (routed : RoutedControlV1) (now : UInt64)
  /-- A waiting value mutation reaches the ledger, if its intent can be audited. -/
  | execute (index : ℕ) (audited : Bool) (env : TxEnv) (now : UInt64)
  /-- Another process approves a pending join. -/
  | approve (opens : OpenIo) (io : Io) (node : NodeId) (slot : Option UInt8)
      (parentLedger : LedgerPubKey) (now : UInt64)
  /-- Another process drops a pending join. -/
  | reject (opens : OpenIo) (io : Io) (node : NodeId) (now : UInt64)
  /-- Another process designates a child. -/
  | adminAdd (adminReads recordReads adminSaves : Bool) (child : NodeId) (now : UInt64)
  /-- Another process revokes a designation. -/
  | adminRemove (adminReads adminSaves : Bool) (child : NodeId) (now : UInt64)
  /-- The node's process stops and starts again. -/
  | restart (opens : OpenIo) (now : UInt64)

namespace ControlHost

/-- The host and the waiting mutations after a request; its outbound frames are taken for
delivery. -/
def settle (c : ControlHost) (result : Except RejectCode Handled × NodeHost) : ControlHost :=
  { c with
    host := { result.2 with node := { result.2.node with outbound := [] } }
    waiting := match result.1 with
      | .ok (.ledgerMutation pending) => c.waiting ++ [pending]
      | _ => c.waiting }

/-- Run a transaction of another process on the data directory; its memory is its own. -/
def elsewhere {ε α : Type} (c : ControlHost) (opens : OpenIo) (now : UInt64)
    (x : Transaction NodeHost ε α) : ControlHost :=
  match ControlNode.open_ opens c.host.disk c.host.node.nodeId c.host.node.operator false now with
  | none => c
  | some node =>
      { c with
        host := { c.host with disk := (Transaction.exec x { c.host with node }).2.disk } }

/-- The designation set as the local tool reads it. -/
def adminForRepair (c : ControlHost) (reads : Bool) : AdminState :=
  (loadAdminState reads c.host.disk).getD .empty

/-- The children of the record on disk, none when it cannot be read. -/
def currentChildren (c : ControlHost) (reads : Bool) : List NodeId :=
  match openRecord reads c.host.disk c.host.node.nodeId with
  | .ok record => record.children.map (·.childId)
  | .error _ => []

/-- Write the designation set from outside the engine. -/
def putAdminState (c : ControlHost) (state : AdminState) : ControlHost :=
  { c with host := { c.host with disk := { c.host.disk with adminState := some state } } }

def adminAdd (c : ControlHost) (adminReads recordReads adminSaves : Bool) (child : NodeId)
    (now : UInt64) : ControlHost :=
  let state := c.adminForRepair adminReads
  if state.has child ∨ child ∉ c.currentChildren recordReads then c
  else
    match state.add child with
    | none => c
    | some state => if adminSaves then c.putAdminState (state.markUpdated now "local") else c

def adminRemove (c : ControlHost) (adminReads adminSaves : Bool) (child : NodeId)
    (now : UInt64) : ControlHost :=
  let state := c.adminForRepair adminReads
  if state.has child ∧ adminSaves then
    c.putAdminState ((state.remove child).markUpdated now "local")
  else c

variable [Postcard]

/-- Execute a waiting value mutation on the ledger; without the audit of its intent the ledger
is not touched. -/
def executeMutation (c : ControlHost) (index : ℕ) (audited : Bool) (env : TxEnv) (now : UInt64) :
    ControlHost :=
  match c.waiting[index]? with
  | none => c
  | some m =>
      { c with
        desk :=
          if audited then
            (Transaction.exec (adminValueApply env m.direction m.account m.kind m.amount
              m.controller m.requestId now) c.desk).2
          else c.desk
        waiting := c.waiting.eraseIdx index }

/-- One step. A node that cannot be opened again does not come back; one that starts writes its
record first. -/
def step (c : ControlHost) : ControlEvent → Option ControlHost
  | .direct io signed now =>
      some (c.settle (Transaction.exec (receiveAtHandled io signed now) c.host))
  | .routed io remote routed now =>
      some (c.settle (Transaction.exec (receiveRoutedAtHandled io remote routed now) c.host))
  | .execute index audited env now => some (c.executeMutation index audited env now)
  | .approve opens io node slot parentLedger now =>
      some (c.elsewhere opens now (approvePending io node slot now parentLedger))
  | .reject opens io node now =>
      some (c.elsewhere opens now (rejectPending io node ControlError.persist))
  | .adminAdd adminReads recordReads adminSaves child now =>
      some (c.adminAdd adminReads recordReads adminSaves child now)
  | .adminRemove adminReads adminSaves child now =>
      some (c.adminRemove adminReads adminSaves child now)
  | .restart opens now =>
      (ControlNode.open_ opens c.host.disk c.host.node.nodeId c.host.node.operator
        c.host.node.ledger now).map fun node =>
          { c with
            host := { c.host with node, disk := { c.host.disk with record := some node.record } }
            waiting := [] }

def run (c : ControlHost) (events : List ControlEvent) : Option ControlHost := events.foldlM step c

end ControlHost

end Cawala
