import Cawala.Model.Message

/-! # The message handler

The receive decision for one envelope, with its three atomic parts apart: the checks and the
replay mark, the delivery or the forward, and the roll-back of a transient failure. Calls run
concurrently, so other calls may act between the parts. -/

namespace Cawala

/-- Why a message was rejected. -/
inductive RejectReason where
  | badVersion
  | badPayload
  | badHopChain
  | ttlExpired
  | noRoute
  | noAddress
  | notNeighbor
  | busy
  | unreachable
  | internal
deriving DecidableEq, Repr

/-- The answer to an envelope. -/
inductive AckStatus where
  | delivered
  | duplicate
  | rejected (reason : RejectReason)
deriving DecidableEq, Repr

/-- Statuses that roll the replay mark back. -/
def AckStatus.isTransient : AckStatus → Bool
  | .rejected .unreachable | .rejected .busy | .rejected .internal => true
  | _ => false

/-- The rejection of a structurally invalid envelope. -/
def MsgError.rejectReason : MsgError → RejectReason
  | .unsupportedVersion _ => .badVersion
  | .payloadTooLarge .. | .nodeIdTooLong .. => .badPayload
  | .badTtl _ => .ttlExpired
  | .hopChain _ => .badHopChain
  | .invalidEntryProof _ => .badPayload
  | .codec _ => .internal

/-- Maximum size of a control frame. -/
def maxControlFrame : ℕ := 64 * 1024

/-- `prepare_control_forward`: the payload of a control message for the next hop, which the
control engine has checked and signed. Its encoder refuses larger frames. -/
abbrev ControlRelay : Type :=
  Envelope → Except RejectReason { payload : List UInt8 // payload.length ≤ maxControlFrame }

/-- Control payloads are signed anew before the hop chain changes. -/
def preparePayload (relay : ControlRelay) (env : Envelope) : Except RejectReason Envelope :=
  if env.msgType = msgControlV1 then do
    let payload ← relay env
    pure { env with payload := payload.1 }
  else .ok env

/-- Prepare an envelope that is to be forwarded: a hop more, one forward less. -/
def forwardHop (relay : ControlRelay) (this : PeerRef) (env : Envelope) :
    Except RejectReason Envelope :=
  if env.ttl = 0 ∨ env.hopChain.length ≥ maxHops then .error .ttlExpired
  else do
    let env ← preparePayload relay env
    match env.appendHop this with
    | (.error _, _) => .error .badHopChain
    | (.ok (), env) => pure { env with ttl := env.ttl - 1 }

/-- Relay a settlement forward that was delivered here to the next signer. Nothing is sent when
the hop does not fit. -/
def relaySettleForward (this : PeerRef) (env : Envelope) (next : OctAddr) (payload : List UInt8) :
    Option Envelope :=
  match { env with dst := next, msgType := msgSettleV1, payload }.appendHop this with
  | (.error _, _) => none
  | (.ok (), out) => some { out with ttl := if out.ttl = 0 then 0 else out.ttl - 1 }

/-! ## The receive decision -/

/-- What replay defence goes by: the claimed origin and the message id. -/
def Envelope.seenKey (env : Envelope) : NodeId × MsgId := (env.src.node, env.msgId)

/-- The checks before replay defence, of an envelope that came from `remote`. -/
def checkEnvelope [EndpointIds] (snapshot : Routable) (remote : NodeId) (env : Envelope) :
    Except RejectReason Unit :=
  match env.validate with
  | .error e => .error e.rejectReason
  | .ok () =>
    match validateHopChain env.src.addr env.dst env.hopChain with
    | .error _ => .error .badHopChain
    | .ok () =>
      if env.hopChain.any fun h => h.node == snapshot.this.node || h.addr == snapshot.this.addr then
        .error .badHopChain
      else match env.hopChain.getLast? with
      | none => .error .badHopChain
      | some last =>
          if last.node ≠ remote ∨ ¬ snapshot.isNeighbor last.node last.addr then
            .error .notNeighbor
          else .ok ()

/-- The bounded channel of locally delivered envelopes, and how many of them the application
has taken. -/
structure Sink where
  capacity : ℕ
  handed : List Envelope
  taken : ℕ
  closed : Bool

/-- Hand an envelope to the application without waiting. -/
def Sink.trySend (s : Sink) (env : Envelope) : AckStatus × Sink :=
  if s.closed then (.rejected .internal, s)
  else if s.handed.length - s.taken ≥ s.capacity then (.rejected .busy, s)
  else (.delivered, { s with handed := s.handed ++ [env] })

/-- How far a call of the handler has come. -/
inductive CallStage where
  /-- The replay mark is set. -/
  | marked
  /-- The outcome is known; it is not settled yet. -/
  | routed (status : AckStatus)
  | answered (status : AckStatus)
deriving DecidableEq, Repr

/-- One call of the handler. The routing view was resolved when the envelope came in. -/
structure Call where
  env : Envelope
  snapshot : Routable
  stage : CallStage

/-- The handler of a node: the state its calls share, and all calls so far. -/
structure MsgNode where
  seen : SeenSet NodeId
  sink : Sink
  calls : List Call

inductive MsgEvent where
  /-- A call begins: the checks, then the replay mark. -/
  | receive (remote : NodeId) (snapshot : Routable) (env : Envelope)
  /-- A call routes its envelope; without a reply the next hop could not be reached. -/
  | route (call : ℕ) (relay : ControlRelay) (reply : Option AckStatus)
  /-- A call rolls its mark back if it has to, and answers. -/
  | settle (call : ℕ)
  /-- The application takes an envelope. -/
  | take
  /-- The application closes the sink. -/
  | close

namespace MsgNode

def new (config : SeenConfig) (capacity : ℕ) : MsgNode where
  seen := .new config
  sink := { capacity, handed := [], taken := 0, closed := false }
  calls := []

def receive [EndpointIds] (n : MsgNode) (remote : NodeId) (snapshot : Routable)
    (env : Envelope) : MsgNode :=
  match checkEnvelope snapshot remote env with
  | .error reason =>
      { n with calls := n.calls ++ [{ env, snapshot, stage := .answered (.rejected reason) }] }
  | .ok () =>
      match n.seen.observe env.seenKey.1 env.seenKey.2 with
      | (.duplicate, seen) =>
          { n with seen, calls := n.calls ++ [{ env, snapshot, stage := .answered .duplicate }] }
      | (.fresh, seen) => { n with seen, calls := n.calls ++ [{ env, snapshot, stage := .marked }] }

/-- Route the envelope of a call: the outcome, and the sink. -/
def routeCall (n : MsgNode) (call : Call) (relay : ControlRelay) (reply : Option AckStatus) :
    AckStatus × Sink :=
  match call.snapshot.route call.env.dst with
  | .local_ => n.sink.trySend call.env
  | .forward _ =>
      match forwardHop relay call.snapshot.this call.env with
      | .error reason => (.rejected reason, n.sink)
      | .ok _ => (reply.getD (.rejected .unreachable), n.sink)
  | .drop _ => (.rejected .noRoute, n.sink)

/-- Transient failures roll the replay mark back. -/
def settleSeen (n : MsgNode) (call : Call) (status : AckStatus) : SeenSet NodeId :=
  if status.isTransient then n.seen.unobserve call.env.seenKey.1 call.env.seenKey.2 else n.seen

/-- One step of the handler; `none` when the call is not at that stage. -/
def step [EndpointIds] (n : MsgNode) : MsgEvent → Option MsgNode
  | .receive remote snapshot env => some (n.receive remote snapshot env)
  | .route i relay reply =>
      match n.calls[i]? with
      | some call =>
          if call.stage = .marked then
            let (status, sink) := n.routeCall call relay reply
            some { n with sink, calls := n.calls.set i { call with stage := .routed status } }
          else none
      | none => none
  | .settle i =>
      match n.calls[i]? with
      | some call =>
          match call.stage with
          | .routed status => some { n with
              seen := n.settleSeen call status
              calls := n.calls.set i { call with stage := .answered status } }
          | _ => none
      | none => none
  | .take =>
      some { n with sink := { n.sink with taken := min (n.sink.taken + 1) n.sink.handed.length } }
  | .close => some { n with sink := { n.sink with closed := true } }

/-- Calls taking their steps in any order. -/
def run [EndpointIds] (n : MsgNode) (events : List MsgEvent) : Option MsgNode :=
  events.foldlM step n

end MsgNode

end Cawala
