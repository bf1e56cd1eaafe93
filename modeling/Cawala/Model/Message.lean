import Cawala.Model.ControlRequest
import Cawala.Model.Replay

/-! # Messages and their routes

The routing view of a node, the local decision for a destination, the envelope with the hops
it has visited, and the checks on both. -/

namespace Cawala

/-! ## Routing -/

/-- What a direct neighbor is: another routing node, or a terminal user. -/
inductive NeighborKind where
  | node
  | user
deriving DecidableEq, Repr

structure Neighbor where
  addr : OctAddr
  node : NodeId
  kind : NeighborKind
deriving DecidableEq

/-- An immutable routing snapshot: the node, its parent, and its children sorted by address. -/
structure Routable where
  this : PeerRef
  parent : Option Neighbor
  children : List Neighbor

/-- Why `route` dropped a message. -/
inductive RouteError where
  | noSuchChild (at_ : OctAddr) (slot : UInt8)
  | userHasNoDescendants (at_ : OctAddr)
  | rootCannotRoute (dst : OctAddr)
deriving DecidableEq

/-- The routing outcome for a destination. -/
inductive RouteDecision where
  | local_
  | forward (next : Neighbor)
  | drop (error : RouteError)
deriving DecidableEq

namespace Routable

def isChildIn (this : OctAddr) (slot : UInt8) (n : Neighbor) : Bool :=
  n.addr.slot == some slot && n.addr.parent == some this

/-- Route a destination from a snapshot. The digit exists, since an ancestor is shorter. -/
def route (r : Routable) (dst : OctAddr) : RouteDecision :=
  let this := r.this.addr
  if dst = this then .local_
  else if this.isAncestorOf dst then
    let slot := dst.digits.getD this.depth 0
    match r.children.find? (isChildIn this slot) with
    | none => .drop (.noSuchChild this slot)
    | some n =>
        if n.kind = .user ∧ dst.depth ≠ this.depth + 1 then .drop (.userHasNoDescendants n.addr)
        else .forward n
  else
    match r.parent with
    | some p => .forward p
    | none => .drop (.rootCannotRoute dst)

end Routable

/-! ## The routing view of a record -/

class EndpointIds where
  /-- `EndpointId::from_str`, rendered back: the canonical form of an id, or the parse error. -/
  canonical : NodeId → Except String NodeId

/-- Errors raised while deriving a routing view from a node record. -/
inductive RoutingSetupError where
  | noAddress
  | badEndpointId (nodeId : NodeId) (detail : String)
  | invalidRecord (detail : String)
deriving DecidableEq, Repr

section

variable [EndpointIds]

/-- Parse an id and render it back. -/
def parseEndpointId (id : NodeId) : Except RoutingSetupError NodeId :=
  match EndpointIds.canonical id with
  | .ok canonical => .ok canonical
  | .error detail => .error (.badEndpointId id detail)

def ChildKind.neighborKind : ChildKind → NeighborKind
  | .node => .node
  | .user => .user

/-- The neighbor a child link names. A slot beyond the octal digits, which the store never
holds, is a failed debug assertion in the source. -/
def childNeighbor (address : OctAddr) (child : ChildEntry) : Except RoutingSetupError Neighbor := do
  let node ← parseEndpointId child.childId
  if h : child.slot ≤ maxSlot then
    pure { addr := address.child child.slot h, node, kind := child.kind.neighborKind }
  else .error (.invalidRecord ("octal slot " ++ toString child.slot ++ " out of range"))

def parentNeighbor (address : OctAddr) (link : ParentLink) : Except RoutingSetupError Neighbor := do
  let node ← parseEndpointId link.parentId
  match address.parent with
  | none =>
      .error (.invalidRecord ("record links parent '" ++ link.parentId
        ++ "' but its address is root '" ++ address.display ++ "'"))
  | some addr => pure { addr, node, kind := .node }

/-- Derive a routing snapshot from a node record. -/
def Routable.fromRecord (record : NodeRecord) : Except RoutingSetupError Routable :=
  match record.address with
  | none => .error .noAddress
  | some address => do
      let parent ← match record.parent with
        | none => pure none
        | some link => do
            let neighbor ← parentNeighbor address link
            pure (some neighbor)
      let children ← record.children.mapM (childNeighbor address)
      pure {
        this := { addr := address, node := record.nodeId }
        parent
        children := children.mergeSort fun a b => decide (a.addr.digits ≤ b.addr.digits) }

/-- Whether an id at an address is the parent or a child of a node. -/
def Routable.isNeighbor (r : Routable) (node : NodeId) (addr : OctAddr) : Bool :=
  match parseEndpointId node with
  | .error _ => false
  | .ok canonical =>
      (r.parent.toList ++ r.children).any fun n => n.node == canonical && n.addr == addr

end

/-! ## Hop chains -/

/-- One visited hop of an envelope. -/
structure Hop where
  addr : OctAddr
  node : NodeId
deriving DecidableEq

/-- Why a hop chain is structurally invalid. -/
inductive HopChainError where
  | empty
  | tooLong (len max : ℕ)
  | originMismatch (expected found : OctAddr)
  | originNodeMismatch (expected found : NodeId)
  | notOnPath (index : ℕ) (from_ to_ dst : OctAddr)
  | repeatedNode (node : NodeId)
  | repeatedAddress (addr : OctAddr)
deriving DecidableEq

/-- The loop that looks for a node or an address used twice. -/
def checkRepeats : List NodeId → List OctAddr → List Hop → Except HopChainError Unit
  | _, _, [] => .ok ()
  | nodes, addrs, hop :: rest =>
      if hop.node ∈ nodes then .error (.repeatedNode hop.node)
      else if hop.addr ∈ addrs then .error (.repeatedAddress hop.addr)
      else checkRepeats (hop.node :: nodes) (hop.addr :: addrs) rest

/-- Whether an address is the next step from another toward a destination. -/
def isNextStep (from_ dst to_ : OctAddr) : Bool :=
  match nextStep from_ dst with
  | some step => step.addr == to_
  | none => false

/-- The loop over the consecutive pairs of a chain. -/
def checkSteps (dst : OctAddr) : ℕ → List Hop → Except HopChainError Unit
  | index, a :: b :: rest =>
      if !isNextStep a.addr dst b.addr then .error (.notOnPath index a.addr b.addr dst)
      else checkSteps dst (index + 1) (b :: rest)
  | _, _ => .ok ()

/-- Validate that hops are a structurally plausible path from `src` toward `dst`. -/
def validateHopChain (src dst : OctAddr) (hops : List Hop) : Except HopChainError Unit :=
  match hops with
  | [] => .error .empty
  | first :: _ =>
      if hops.length > maxHops then .error (.tooLong hops.length maxHops)
      else if first.addr ≠ src then .error (.originMismatch src first.addr)
      else do
        checkRepeats [] [] hops
        checkSteps dst 0 hops

/-! ## Envelopes -/

/-- Wire protocol version carried by every envelope. -/
def protocolVersion : UInt8 := 1

/-- Maximum accepted payload size in bytes. -/
def maxPayload : ℕ := 1024 * 1024

def msgControlV1 : UInt16 := 2

/-- Cross-subtree settlement payloads. -/
def msgSettleV1 : UInt16 := 3

/-- A routable message envelope. -/
structure Envelope where
  version : UInt8
  src : PeerRef
  dst : OctAddr
  msgId : MsgId
  msgType : UInt16
  nonce : UInt64
  /-- Remaining authorized forwards. -/
  ttl : UInt8
  payload : List UInt8
  /-- Visited hops, starting with `src`. -/
  hopChain : List Hop

/-- Errors of building, checking and coding messages. -/
inductive MsgError where
  | unsupportedVersion (version : UInt8)
  | payloadTooLarge (actual max : ℕ)
  | nodeIdTooLong (len max : ℕ)
  | badTtl (ttl : UInt8)
  | hopChain (error : HopChainError)
  | invalidEntryProof (detail : String)
  | codec (detail : String)
deriving DecidableEq

namespace Envelope

def new (src : PeerRef) (dst : OctAddr) (msgId : MsgId) (msgType : UInt16) (nonce : UInt64)
    (payload : List UInt8) : Envelope where
  version := protocolVersion
  src
  dst
  msgId
  msgType
  nonce
  ttl := UInt8.ofNat maxHops
  payload
  hopChain := [{ addr := src.addr, node := src.node }]

def validate (env : Envelope) : Except MsgError Unit :=
  if env.src.node.utf8ByteSize > maxNodeIdLen then
    .error (.nodeIdTooLong env.src.node.utf8ByteSize maxNodeIdLen)
  else match env.hopChain.find? (fun hop => decide (hop.node.utf8ByteSize > maxNodeIdLen)) with
  | some hop => .error (.nodeIdTooLong hop.node.utf8ByteSize maxNodeIdLen)
  | none =>
    if env.version ≠ protocolVersion then .error (.unsupportedVersion env.version)
    else if env.payload.length > maxPayload then
      .error (.payloadTooLarge env.payload.length maxPayload)
    else match env.hopChain.head? with
    | none => .error (.hopChain .empty)
    | some origin =>
        if origin.addr ≠ env.src.addr then
          .error (.hopChain (.originMismatch env.src.addr origin.addr))
        else if origin.node ≠ env.src.node then
          .error (.hopChain (.originNodeMismatch env.src.node origin.node))
        else if env.hopChain.length > maxHops then
          .error (.hopChain (.tooLong env.hopChain.length maxHops))
        else if env.ttl.toNat > maxHops then .error (.badTtl env.ttl)
        else if env.hopChain.length + env.ttl.toNat > maxHops + 1 then .error (.badTtl env.ttl)
        else .ok ()

/-- Append a node to the hop chain. The envelope comes back, unchanged on error. -/
def appendHop (env : Envelope) (this : PeerRef) : Except HopChainError Unit × Envelope :=
  if env.hopChain.length ≥ maxHops then
    (.error (.tooLong env.hopChain.length maxHops), env)
  else if env.hopChain.any (fun hop => hop.node == this.node) then
    (.error (.repeatedNode this.node), env)
  else if env.hopChain.any (fun hop => hop.addr == this.addr) then
    (.error (.repeatedAddress this.addr), env)
  else match env.hopChain.getLast? with
  | none => (.error .empty, env)
  | some last =>
      if !isNextStep last.addr env.dst this.addr then
        (.error (.notOnPath (env.hopChain.length - 1) last.addr this.addr env.dst), env)
      else
        (.ok (), { env with
          hopChain := env.hopChain ++ [{ addr := this.addr, node := this.node }] })

end Envelope

end Cawala
