import Cawala.Model.ControlEngine

/-! # The control side of a browser leaf

A browser keeps its parent link and its address. The guard that orders the rebase notices of its
parent lives in memory only. -/

namespace Cawala

open Library

/-- A key that an endpoint id spells, if it parses. -/
class EndpointKeys [Crypto] where
  operatorKeyFromNode : NodeId → Option OperatorPubKey

structure BrowserParentLink where
  nodeId : NodeId
  slot : UInt8
deriving DecidableEq

/-- A child link of a browser; a leaf has none in practice. -/
structure ChildLink where
  childId : NodeId
  kind : ChildKind
  slot : UInt8
  dateJoined : UInt64
deriving DecidableEq

structure LocalRecord where
  address : Option OctAddr
  parent : Option BrowserParentLink
  children : List ChildLink
deriving DecidableEq

structure Rejection where
  code : String
  reason : Option String
deriving DecidableEq

/-- What an inbound control event does to the local state. -/
inductive LocalState.Transition where
  | notAttached
  | denied (code : RejectCode)
  | approved
  | rejected (parent : NodeId) (reason : String)
  | rebased
  | detached
  | none
deriving DecidableEq

/-- The highest rebase generation applied from the current parent. -/
structure RebaseGuard where
  parent : Option NodeId := none
  generation : UInt64 := 0
deriving DecidableEq

/-- The guard as the next notice of a parent finds it: it starts again for another parent. -/
def RebaseGuard.seatedFor (guard : RebaseGuard) (parent : NodeId) : RebaseGuard :=
  if guard.parent ≠ some parent then { parent := some parent, generation := 0 } else guard

variable [Crypto]

def LocalState.Transition.reply : LocalState.Transition → ControlReply
  | notAttached => .rejected .notAttached
  | denied code => .rejected code
  | approved | rejected _ _ | rebased | detached | none => .accepted

/-- The local state that a browser persists. -/
structure LocalState where
  outbound : Option OutboundJoin
  record : LocalRecord
  lastRejection : Option Rejection
deriving DecidableEq

namespace LocalState

def setOutbound (s : LocalState) (outbound : OutboundJoin) : LocalState :=
  { s with outbound := some outbound, lastRejection := none }

def rejectOutbound (s : LocalState) (code : String) (reason : Option String) : LocalState :=
  { s with outbound := none, lastRejection := some { code, reason } }

/-- Apply an approval that answers the outbound join. -/
def onJoinApproved (s : LocalState) (selfNodeId : NodeId) (approval : JoinApproval)
    (origin : NodeId) (controller : OperatorPubKey) : Transition × LocalState :=
  match s.outbound with
  | none => (.notAttached, s)
  | some outbound =>
      if outbound.parent ≠ origin ∨ approval.child ≠ selfNodeId then (.denied .unauthorized, s)
      else if approval.nonce ≠ outbound.request.nonce then (.denied .unauthorized, s)
      else if outbound.pinnedOperator.any (· ≠ controller) then (.denied .unauthorized, s)
      else
        (.approved,
          { s with
            record := { s.record with
              parent := some { nodeId := origin, slot := approval.slot }
              address := some approval.address }
            outbound := none
            lastRejection := none })

/-- Apply a rejection that answers the outbound join; a zero nonce on either side matches. -/
def onJoinRejected (s : LocalState) (rejection : JoinRejection) (origin : NodeId)
    (controller : OperatorPubKey) : Transition × LocalState :=
  match s.outbound with
  | none => (.none, s)
  | some outbound =>
      if outbound.parent ≠ origin then (.denied .unauthorized, s)
      else if outbound.pinnedOperator.any (· ≠ controller) then (.denied .unauthorized, s)
      else if outbound.request.nonce ≠ 0 ∧ rejection.nonce ≠ 0
          ∧ rejection.nonce ≠ outbound.request.nonce then (.denied .unauthorized, s)
      else
        (.rejected origin rejection.reason,
          { s with
            outbound := none
            lastRejection := some { code := "rejected", reason := some rejection.reason } })

/-- Move the address to a new one under the recorded slot; the parent link stays. -/
def applyRebase (s : LocalState) (parentAddress address : OctAddr) : Transition × LocalState :=
  match s.record.parent with
  | none => (.denied .unauthorized, s)
  | some parent =>
      if some address ≠ childAddress parentAddress parent.slot then (.denied .unauthorized, s)
      else if s.record.address = some address then (.none, s)
      else (.rebased, { s with record := { s.record with address := some address } })

/-- Clear the parent link, the address and the outbound join. -/
def applyDetach (s : LocalState) : Transition × LocalState :=
  if s.record.parent.isNone ∧ s.record.address.isNone then (.none, s)
  else
    (.detached,
      { s with record := { s.record with parent := none, address := none }, outbound := none })

def toNodeSnapshot (s : LocalState) (nodeId : NodeId) : NodeSnapshot where
  nodeId
  address := s.record.address
  parent := do
    let parent ← s.record.parent
    let address ← s.record.address
    let parentAddress ← address.parent
    pure { nodeId := parent.nodeId, slot := parent.slot, address := parentAddress }
  children := s.record.children.map fun child =>
    { childId := child.childId, kind := child.kind, slot := child.slot
      address := s.record.address.bind fun address => childAddress address child.slot
      dateJoined := child.dateJoined }

end LocalState

/-- The control side of a browser in memory. -/
structure BrowserControl where
  nodeId : NodeId
  operator : Option OperatorSecretKey
  state : LocalState
  rebaseGuard : RebaseGuard

namespace BrowserControl

variable [EndpointKeys]

/-- `origin_binds_controller`: a node id and its operator key are one key. -/
def originBindsController (signed : SignedControl) : Bool :=
  EndpointKeys.operatorKeyFromNode signed.origin = some signed.controller

variable [ControlPostcard]

def handleRebase (b : BrowserControl) (signed : SignedControl) (notice : RebaseNotice) :
    ControlReply × BrowserControl :=
  if signed.verifySignature.toBool = false then (.rejected .unauthorized, b)
  else if notice.validate.toBool = false then (.rejected .badRequest, b)
  else if notice.node ≠ b.nodeId then (.rejected .unauthorized, b)
  else
    match b.state.record.parent with
    | none => (.rejected .unauthorized, b)
    | some parent =>
        if signed.origin ≠ parent.nodeId ∨ !originBindsController signed then
          (.rejected .unauthorized, b)
        else if some notice.address ≠ childAddress notice.parentAddress parent.slot then
          (.rejected .badRequest, b)
        else
          let b := { b with rebaseGuard := b.rebaseGuard.seatedFor parent.nodeId }
          let stored := b.rebaseGuard.generation
          if notice.generation < stored then (.accepted, b)
          else if notice.generation = stored then
            if b.state.record.address = some notice.address then (.accepted, b)
            else (.rejected .badRequest, b)
          else
            let (transition, state) := b.state.applyRebase notice.parentAddress notice.address
            let b := { b with state }
            if transition = .rebased ∨ transition = .none then
              (transition.reply,
                { b with rebaseGuard := { b.rebaseGuard with generation := notice.generation } })
            else (transition.reply, b)

/-- Apply a detach notice signed by the parent; without a parent there is nothing to do. -/
def handleDetachNotice (b : BrowserControl) (signed : SignedControl) (node : NodeId) :
    ControlReply × BrowserControl :=
  if signed.verifySignature.toBool = false then (.rejected .unauthorized, b)
  else if (validateNodeId "node" node).toBool = false then (.rejected .badRequest, b)
  else if node ≠ b.nodeId then (.rejected .unauthorized, b)
  else
    match b.state.record.parent with
    | none => (.accepted, b)
    | some parent =>
        if signed.origin ≠ parent.nodeId ∨ !originBindsController signed then
          (.rejected .unauthorized, b)
        else
          let (transition, state) := b.state.applyDetach
          let b := { b with state }
          (transition.reply,
            if transition = .detached then { b with rebaseGuard := {} } else b)

/-- Apply the approval of the outbound join; the guard starts again. -/
def handleJoinApproved (b : BrowserControl) (signed : SignedControl) (approval : JoinApproval) :
    ControlReply × BrowserControl :=
  if signed.verifySignature.toBool = false then (.rejected .unauthorized, b)
  else
    let (transition, state) :=
      b.state.onJoinApproved b.nodeId approval signed.origin signed.controller
    let b := { b with state }
    (transition.reply, if transition = .approved then { b with rebaseGuard := {} } else b)

def handleJoinRejected (b : BrowserControl) (signed : SignedControl)
    (rejection : JoinRejection) : ControlReply × BrowserControl :=
  if signed.verifySignature.toBool = false then (.rejected .unauthorized, b)
  else if rejection.validate.toBool = false then (.rejected .badRequest, b)
  else
    let (transition, state) := b.state.onJoinRejected rejection signed.origin signed.controller
    (transition.reply, { b with state })

def handleQuery (b : BrowserControl) (signed : SignedControl) : ControlReply :=
  if signed.origin = b.nodeId ∧ b.operator.any (fun key => signed.controller = Crypto.pubKey key)
      ∧ signed.verifySignature.toBool = true then
    .snapshot (b.state.toNodeSnapshot b.nodeId)
  else .rejected .unauthorized

def handle (b : BrowserControl) (signed : SignedControl) (now : UInt64) :
    ControlReply × BrowserControl :=
  if !isSupportedControlVersion signed.version then (.rejected .badVersion, b)
  else if signed.expiry < now then (.rejected .expired, b)
  else
    match signed.request with
    | .joinApproved approval => b.handleJoinApproved signed approval
    | .joinRejected rejection => b.handleJoinRejected signed rejection
    | .rebase notice => b.handleRebase signed notice
    | .detachNotice node => b.handleDetachNotice signed node
    | .query => (b.handleQuery signed, b)
    | _ => (.rejected .unauthorized, b)

/-! ## Steps -/

/-- The steps of a browser between two loads of its page. -/
inductive Event where
  /-- A control frame arrives. -/
  | frame (signed : SignedControl) (now : UInt64)
  /-- The user asks to join a parent. -/
  | join (outbound : OutboundJoin)
  /-- The parent refuses the join at once. -/
  | refused (code : String)
  /-- The user leaves the parent. -/
  | leave

def step (b : BrowserControl) : Event → BrowserControl
  | .frame signed now => (b.handle signed now).2
  | .join outbound => { b with state := b.state.setOutbound outbound }
  | .refused code => { b with state := b.state.rejectOutbound code none }
  | .leave => { b with state := b.state.applyDetach.2 }

end BrowserControl

end Cawala
