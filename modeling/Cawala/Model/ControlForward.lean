import Cawala.Model.MsgHandler
import Cawala.Model.ControlEngine

/-! # Routed control along the tree

A routed control request carries one signed forward for each hop of its envelope: its requester
signs the first one, each relay checks its predecessor's and adds its own, and the destination
dispatches the last one. -/

namespace Cawala

variable [Crypto] [ControlPostcard]

/-! ## The wire form -/

/-- The postcard codec of the routed frames. -/
class RoutedPostcard where
  encode : RoutedControlV1 → List UInt8
  /-- Decodes a request without trailing bytes and of at most `maxHops` forwards. -/
  decode : List UInt8 → Option RoutedControlV1
  /-- Decodes a signed reply, of which a relay looks at the responder. -/
  decodeReply : List UInt8 → Option PeerRef

variable [RoutedPostcard]

namespace RoutedControlV1

/-- Encode a request; a frame beyond the limit is refused. -/
def toBytes (r : RoutedControlV1) :
    Option { bytes : List UInt8 // bytes.length ≤ maxControlFrame } :=
  if h : (RoutedPostcard.encode r).length ≤ maxControlFrame then
    some ⟨RoutedPostcard.encode r, h⟩
  else none

/-- Decode a request: the length and the leading version byte come before the body. -/
def fromBytes (bytes : List UInt8) : Option RoutedControlV1 :=
  if bytes.length > maxControlFrame then none
  else if bytes.head? ≠ some routedControlVersion then none
  else RoutedPostcard.decode bytes

end RoutedControlV1

def sameHop (peer : PeerRef) (hop : Hop) : Bool := peer.addr == hop.addr && peer.node == hop.node

/-! ## The requester -/

/-- Build a request with the requester's own forward; an intent that is not the requester's own is
refused. -/
def buildRoutedControl (target requester : PeerRef) (intent : SignedControl)
    (operator : OperatorSecretKey) (forwardNonce forwardExpiry : UInt64) :
    Option RoutedControlV1 :=
  if intent.origin ≠ requester.node then none
  else if intent.controller ≠ Crypto.pubKey operator then none
  else
    let forward := SignedControl.authorize requester.node operator forwardNonce forwardExpiry
      intent.request
    let routed : RoutedControlV1 :=
      { version := routedControlVersion
        target
        requester
        intent
        forwards := [{ hop := requester, signed := forward }] }
    if routed.validate.toBool then some routed else none

/-- Wrap a payload in a fresh envelope to the target. -/
def routedRequestEnvelope (requester target : PeerRef) (msgId : MsgId) (nonce : UInt64)
    (payload : List UInt8) : Envelope :=
  .new requester target.addr msgId msgControlV1 nonce payload

/-! ## The relays -/

/-- Sign a request as a node's own forward. The node must have an address. -/
def ControlNode.signForward (n : ControlNode) (nonce now : UInt64) (request : ControlRequest) :
    Option RoutedForward :=
  n.record.address.map fun address =>
    { hop := { addr := address, node := n.nodeId }
      signed := SignedControl.authorize n.nodeId n.operator nonce
        (saturatingAdd now controlRequestTtlSecs) request }

/-- Check a decoded request against its envelope and add the node's own forward. The clock is
read for the expiry of the intent, and again for the forward's own. -/
def extendForwards (n : ControlNode) (nonce now signedAt : UInt64) (env : Envelope)
    (routed : RoutedControlV1) :
    Except RejectReason { payload : List UInt8 // payload.length ≤ maxControlFrame } :=
  if routed.validate.toBool = false then .error .badPayload
  else if routed.forwards.length ≠ env.hopChain.length then .error .badPayload
  else if (routed.forwards.zip env.hopChain).any fun (forward, hop) => !sameHop forward.hop hop then
    .error .badPayload
  else if routed.intent.expiry < now then .error .ttlExpired
  else match routed.forwards.getLast? with
  | none => .error .badPayload
  | some last =>
      if (n.verifyForward last).toBool = false then .error .badPayload
      else match n.signForward nonce signedAt routed.intent.request with
      | none => .error .badPayload
      | some own =>
          match { routed with forwards := routed.forwards ++ [own] }.toBytes with
          | none => .error .badPayload
          | some payload => .ok payload

/-- A reply of the envelope's origin passes through unchanged. -/
def passReply (env : Envelope) (h : env.payload.length ≤ maxControlFrame) :
    Except RejectReason { payload : List UInt8 // payload.length ≤ maxControlFrame } :=
  match RoutedPostcard.decodeReply env.payload with
  | some responder =>
      if responder.node = env.src.node then .ok ⟨env.payload, h⟩ else .error .noRoute
  | none => .error .noRoute

/-- The payload of a control message for the next hop. -/
def prepareControlForward (engine : Option ControlNode) (nonce now signedAt : UInt64) :
    ControlRelay := fun env =>
  if h : env.payload.length ≤ maxControlFrame then
    match engine with
    | none => .error .noRoute
    | some n =>
        match RoutedControlV1.fromBytes env.payload with
        | some routed =>
            if routed.target.addr = env.dst ∧ routed.requester.node = env.src.node
                ∧ routed.requester.addr = env.src.addr then
              extendForwards n nonce now signedAt env routed
            else passReply env h
        | none => passReply env h
  else .error .badPayload

/-! ## The destination -/

/-- The envelope-level coherence of a request at its destination. -/
def isCoherent (routed : RoutedControlV1) (env : Envelope) : Bool :=
  decide (routed.target.addr = env.dst) && decide (routed.requester = env.src)
    && decide (routed.forwards.length = env.hopChain.length)
    && (routed.forwards.zip env.hopChain).all fun (forward, hop) => sameHop forward.hop hop

variable [EthPrimitives] [ZeroKey] [EndpointIds]

/-- What the destination does with a control envelope; a malformed one is skipped without a
reply. -/
def dispatchControlEnvelope (io : Io) (env : Envelope) (now : UInt64) :
    Option (Engine Handled) := do
  let routed ← RoutedControlV1.fromBytes env.payload
  let hop ← env.hopChain.getLast?
  let remote ← (EndpointIds.canonical hop.node).toOption
  if isCoherent routed env then pure (receiveRoutedAtHandled io remote routed now)
  else pure (throw .unauthorized)

end Cawala
