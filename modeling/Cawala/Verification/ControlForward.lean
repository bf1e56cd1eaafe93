import Cawala.Model.ControlForward
import Cawala.Model.ControlConcrete
import Cawala.Verification.ControlAdmission
import Cawala.Verification.Routing

/-! # Routed control hop by hop

The forwards of a routed request stay in step with the hop chain of its envelope, and the frame
that the destination dispatches is the forward of its own neighbour. A relay in whose memory the
node still has another address breaks the step. -/

namespace Cawala

open Library Library.Transaction

section

variable [Crypto]

/-! ## Coherence -/

/-- What `validate` asks of one forward. -/
def RoutedForward.Coherent (forward : RoutedForward) (request : ControlRequest) : Prop :=
  isSupportedControlVersion forward.signed.version = true ∧ forward.signed.request = request
    ∧ forward.hop.node = forward.signed.origin

theorem checkForward_eq_ok {routed : RoutedControlV1} {index : ℕ} {forward : RoutedForward}
    {u : Unit} :
    routed.checkForward index forward = .ok u ↔ forward.Coherent routed.intent.request := by
  simp only [RoutedControlV1.checkForward, ite_error_eq_ok, RoutedForward.Coherent, not_not,
    Bool.not_eq_eq_eq_not, Bool.not_true, Bool.not_eq_false, and_true]

/-- The spec lemma of `validate`. -/
theorem routed_validate_eq_ok {routed : RoutedControlV1} :
    routed.validate = .ok () ↔ routed.version = routedControlVersion
      ∧ routed.forwards.length ≤ maxHops ∧ isSupportedControlVersion routed.intent.version = true
      ∧ ∀ forward ∈ routed.forwards, forward.Coherent routed.intent.request := by
  have hall : (∀ forward index, (forward, index) ∈ routed.forwards.zipIdx →
      routed.checkForward index forward = .ok ())
      ↔ ∀ forward ∈ routed.forwards, forward.Coherent routed.intent.request := by
    constructor
    · intro h forward hmem
      obtain ⟨index, hlt, rfl⟩ := List.getElem_of_mem hmem
      have hindex : (routed.forwards[index], index) ∈ routed.forwards.zipIdx :=
        List.mem_zipIdx_iff_getElem?.mpr (List.getElem?_eq_getElem hlt)
      exact checkForward_eq_ok.mp (h _ index hindex)
    · intro h forward index hmem
      exact checkForward_eq_ok.mpr (h forward (List.fst_mem_of_mem_zipIdx hmem))
  simp only [RoutedControlV1.validate, ite_error_eq_ok, forM_eq_ok, Prod.forall, hall, not_not,
    not_lt, Bool.not_eq_eq_eq_not, Bool.not_true, Bool.not_eq_false]

structure SignedByHop [ControlPostcard] (keys : NodeId → OperatorSecretKey)
    (request : ControlRequest) (forward : RoutedForward) (hop : Hop) : Prop where
  node : forward.hop.node = hop.node
  origin : forward.signed.origin = hop.node
  controller : forward.signed.controller = Crypto.pubKey (keys hop.node)
  signature : forward.signed.verifySignature = .ok ()
  request : forward.signed.request = request

variable [ControlPostcard] [RoutedPostcard]

/-- The codec reads back what it wrote, and the version leads. -/
structure RoutedPostcard.Faithful : Prop where
  head : ∀ r : RoutedControlV1, (encode r).head? = some r.version
  decode_encode : ∀ r : RoutedControlV1, r.forwards.length ≤ maxHops →
    (encode r).length ≤ maxControlFrame → decode (encode r) = some r

/-- The payload of an envelope is in step with its hop chain: a valid request with the intent of
its requester, and for each hop, in order, a forward that names it and that its operator signed
over the intent's request. -/
structure LockStep (keys : NodeId → OperatorSecretKey) (intent : SignedControl) (env : Envelope)
    (routed : RoutedControlV1) : Prop where
  decoded : RoutedControlV1.fromBytes env.payload = some routed
  intent_eq : routed.intent = intent
  valid : routed.validate = .ok ()
  length : routed.forwards.length = env.hopChain.length
  signed : List.Forall₂ (SignedByHop keys intent.request) routed.forwards env.hopChain
  names : List.Forall₂ (fun forward hop => sameHop forward.hop hop = true) routed.forwards
    env.hopChain

/-! ## One hop -/

/-- A relay as it handles one envelope: its engine, the node as its routing view has it, the nonce
of its forward, and what the clock shows. The engine and the view are of one node. -/
structure Relay where
  engine : ControlNode
  this : PeerRef
  nonce : UInt64
  now : UInt64
  signedAt : UInt64
  sameNode : this.node = engine.nodeId

def Relay.forward (r : Relay) (env : Envelope) : Except RejectReason Envelope :=
  forwardHop (prepareControlForward (some r.engine) r.nonce r.now r.signedAt) r.this env

def relayed (env : Envelope) (relays : List Relay) : Except RejectReason Envelope :=
  relays.foldlM (fun env r => r.forward env) env

variable {keys : NodeId → OperatorSecretKey} {target requester : PeerRef} {intent : SignedControl}
  {env out : Envelope} {routed : RoutedControlV1} {r : Relay}

/-- What holds of a routed request on its way, whatever addresses its forwards name. -/
structure UnderWay (keys : NodeId → OperatorSecretKey) (target requester : PeerRef)
    (intent : SignedControl) (env : Envelope) (routed : RoutedControlV1) : Prop where
  msgType : env.msgType = msgControlV1
  src : env.src = requester
  dst : env.dst = target.addr
  target_eq : routed.target = target
  requester_eq : routed.requester = requester
  decoded : RoutedControlV1.fromBytes env.payload = some routed
  intent_eq : routed.intent = intent
  valid : routed.validate = .ok ()
  signed : List.Forall₂ (SignedByHop keys intent.request) routed.forwards env.hopChain

omit [RoutedPostcard] in
theorem verifySignature_authorize (hsign : Crypto.SignCorrect) (origin : NodeId)
    (operator : OperatorSecretKey) (nonce expiry : UInt64) (request : ControlRequest) :
    (SignedControl.authorize origin operator nonce expiry request).verifySignature = .ok () := by
  rw [SignedControl.verifySignature]
  exact if_pos (hsign operator _)

omit [RoutedPostcard] in
theorem signedByHop_authorize (hsign : Crypto.SignCorrect) (keys : NodeId → OperatorSecretKey)
    (peer : PeerRef) (hop : Hop)
    (hnode : peer.node = hop.node) (nonce expiry : UInt64) (request : ControlRequest) :
    SignedByHop keys request
      { hop := peer
        signed := SignedControl.authorize hop.node (keys hop.node) nonce expiry request } hop :=
  ⟨hnode, rfl, rfl, verifySignature_authorize hsign _ _ _ _ _, rfl⟩

omit [ControlPostcard] in
theorem toBytes_eq_some {payload : { bytes : List UInt8 // bytes.length ≤ maxControlFrame }}
    (h : routed.toBytes = some payload) :
    payload.1 = RoutedPostcard.encode routed
      ∧ (RoutedPostcard.encode routed).length ≤ maxControlFrame := by
  unfold RoutedControlV1.toBytes at h
  split_ifs at h with hlen
  obtain rfl := Option.some.inj h
  exact ⟨rfl, hlen⟩

omit [ControlPostcard] in
/-- What is encoded for the wire is decoded from it. -/
theorem fromBytes_of_toBytes (hcodec : RoutedPostcard.Faithful)
    {payload : { bytes : List UInt8 // bytes.length ≤ maxControlFrame }}
    (h : routed.toBytes = some payload) (hversion : routed.version = routedControlVersion)
    (hlen : routed.forwards.length ≤ maxHops) :
    RoutedControlV1.fromBytes payload.1 = some routed := by
  obtain ⟨hpayload, hframe⟩ := toBytes_eq_some h
  rw [hpayload, RoutedControlV1.fromBytes, if_neg (Nat.not_lt.mpr hframe), hcodec.head, hversion,
    if_neg (by simp)]
  exact hcodec.decode_encode routed hlen hframe

def ControlNode.ownForward (n : ControlNode) (address : OctAddr) (nonce signedAt : UInt64)
    (request : ControlRequest) : RoutedForward where
  hop := { addr := address, node := n.nodeId }
  signed := SignedControl.authorize n.nodeId n.operator nonce
    (saturatingAdd signedAt controlRequestTtlSecs) request

def RoutedControlV1.with_ (routed : RoutedControlV1) (own : RoutedForward) : RoutedControlV1 :=
  { routed with forwards := routed.forwards ++ [own] }

theorem extendForwards_eq_ok {n : ControlNode} {nonce now signedAt : UInt64}
    {payload : { bytes : List UInt8 // bytes.length ≤ maxControlFrame }}
    (h : extendForwards n nonce now signedAt env routed = .ok payload) :
    routed.validate = .ok () ∧ routed.forwards.length = env.hopChain.length
      ∧ List.Forall₂ (fun forward hop => sameHop forward.hop hop = true) routed.forwards
        env.hopChain
      ∧ ∃ address, n.record.address = some address
        ∧ (routed.with_ (n.ownForward address nonce signedAt routed.intent.request)).toBytes
          = some payload := by
  simp only [extendForwards, ite_error_eq_ok, Bool.not_eq_false, toBool_iff_eq_ok, not_not] at h
  obtain ⟨hvalid, hlength, hnames, -, h⟩ := h
  refine ⟨hvalid, hlength, ?_, ?_⟩
  · rw [List.forall₂_iff_zip]
    refine ⟨hlength, ?_⟩
    intro forward hop hmem
    simp only [List.any_eq_true, Prod.exists, not_exists, not_and, Bool.not_eq_eq_eq_not,
      Bool.not_true, Bool.not_eq_false] at hnames
    exact hnames forward hop hmem
  · cases hlast : routed.forwards.getLast? with
    | none => simp [hlast] at h
    | some last =>
        simp only [hlast, ite_error_eq_ok] at h
        obtain ⟨-, h⟩ := h
        cases haddress : n.record.address with
        | none => simp [ControlNode.signForward, haddress] at h
        | some address =>
            refine ⟨address, rfl, ?_⟩
            simp only [ControlNode.signForward, haddress, Option.map_some] at h
            split at h
            · cases h
            · rename_i bytes hbytes
              refine Eq.trans hbytes ?_
              rw [Except.ok.inj h]

omit [Crypto] [ControlPostcard] [RoutedPostcard] in
/-- `append_hop` adds the node at the end of a chain that has room. -/
theorem appendHop_of_ok {this : PeerRef} (h : env.appendHop this = (.ok (), out)) :
    env.hopChain.length < maxHops
      ∧ out = { env with
          hopChain := env.hopChain ++ [{ addr := this.addr, node := this.node }] } := by
  unfold Envelope.appendHop at h
  split_ifs at h with hlen hnode haddr
  · cases h
  · cases h
  · cases h
  · split at h
    · cases h
    · split_ifs at h
      · cases h
      · exact ⟨Nat.not_le.mp hlen, (Prod.mk.inj h).2.symm⟩

/-- A relay that knows a request has checked that every forward names its hop, and adds its own
forward with the address in its memory while the chain gets the one of its routing view. -/
theorem UnderWay.forward (hcodec : RoutedPostcard.Faithful) (hsign : Crypto.SignCorrect)
    (h : UnderWay keys target requester intent env routed)
    (hhonest : r.engine.operator = keys r.engine.nodeId) (hout : r.forward env = .ok out) :
    LockStep keys intent env routed
      ∧ ∃ own address, r.engine.record.address = some address
        ∧ own.hop = { addr := address, node := r.engine.nodeId }
        ∧ out.hopChain = env.hopChain ++ [{ addr := r.this.addr, node := r.this.node }]
        ∧ UnderWay keys target requester intent out (routed.with_ own) := by
  simp only [Relay.forward, forwardHop, ite_error_eq_ok, bind_eq_ok, preparePayload, h.msgType,
    if_true, pure_eq_ok] at hout
  obtain ⟨-, prepared, ⟨payload, hpayload, rfl⟩, hout⟩ := hout
  unfold prepareControlForward at hpayload
  split_ifs at hpayload with hsize
  simp only [h.decoded] at hpayload
  have hrequester : routed.requester = env.src := by rw [h.requester_eq, h.src]
  rw [if_pos ⟨by rw [h.target_eq, h.dst], by rw [hrequester], by rw [hrequester]⟩]
    at hpayload
  obtain ⟨hvalid, hlength, hnames, address, haddress, hbytes⟩ := extendForwards_eq_ok hpayload
  refine ⟨⟨h.decoded, h.intent_eq, hvalid, hlength, h.signed, hnames⟩, ?_⟩
  split at hout
  · cases hout
  · rename_i appended happend
    obtain ⟨hroom, rfl⟩ := appendHop_of_ok happend
    obtain rfl := pure_eq_ok.mp hout
    refine ⟨r.engine.ownForward address r.nonce r.signedAt routed.intent.request, address, haddress,
      rfl, rfl, ?_⟩
    obtain ⟨hversion, hfew, hintent, hforwards⟩ := routed_validate_eq_ok.mp hvalid
    have hlonger : (routed.with_ (r.engine.ownForward address r.nonce r.signedAt
        routed.intent.request)).forwards.length ≤ maxHops := by
      simp only [RoutedControlV1.with_, List.length_append, List.length_singleton, hlength]
      exact hroom
    refine ⟨rfl, h.src, h.dst, h.target_eq, h.requester_eq,
      fromBytes_of_toBytes hcodec hbytes hversion hlonger, h.intent_eq, ?_, ?_⟩
    · refine routed_validate_eq_ok.mpr ⟨hversion, hlonger, hintent, ?_⟩
      intro forward hmem
      rcases List.mem_append.mp hmem with hmem | hmem
      · exact hforwards forward hmem
      · rw [List.mem_singleton.mp hmem]
        exact ⟨rfl, rfl, rfl⟩
    · refine List.rel_append h.signed (.cons ?_ .nil)
      have hown := signedByHop_authorize hsign keys
        { addr := address, node := r.engine.nodeId }
        { addr := r.this.addr, node := r.this.node } r.sameNode.symm r.nonce
        (saturatingAdd r.signedAt controlRequestTtlSecs) routed.intent.request
      rw [h.intent_eq] at hown
      simpa only [ControlNode.ownForward, hhonest, ← r.sameNode, h.intent_eq] using hown

omit [Crypto] [ControlPostcard] [RoutedPostcard] in
theorem sameHop_iff {peer : PeerRef} {hop : Hop} :
    sameHop peer hop = true ↔ peer.addr = hop.addr ∧ peer.node = hop.node := by
  simp [sameHop]

/-- A request on its way is in step with its chain exactly when every forward names its hop. -/
theorem UnderWay.lockStep (h : UnderWay keys target requester intent env routed)
    (hnames : List.Forall₂ (fun forward hop => sameHop forward.hop hop = true) routed.forwards
      env.hopChain) : LockStep keys intent env routed :=
  ⟨h.decoded, h.intent_eq, h.valid, h.signed.length_eq, h.signed, hnames⟩

theorem underWay_sent (hcodec : RoutedPostcard.Faithful) (hsign : Crypto.SignCorrect)
    {forwardNonce forwardExpiry nonce : UInt64} {msgId : MsgId}
    {payload : { bytes : List UInt8 // bytes.length ≤ maxControlFrame }}
    (hbuild : buildRoutedControl target requester intent (keys requester.node) forwardNonce
      forwardExpiry = some routed) (hpayload : routed.toBytes = some payload) :
    UnderWay keys target requester intent
        (routedRequestEnvelope requester target msgId nonce payload.1) routed
      ∧ LockStep keys intent (routedRequestEnvelope requester target msgId nonce payload.1)
        routed := by
  simp only [buildRoutedControl] at hbuild
  split_ifs at hbuild with horigin hcontroller hvalid
  rw [toBool_iff_eq_ok] at hvalid
  obtain rfl := Option.some.inj hbuild
  obtain ⟨hversion, hfew, -, -⟩ := routed_validate_eq_ok.mp hvalid
  have hsigned : SignedByHop keys intent.request
      { hop := requester
        signed := SignedControl.authorize requester.node (keys requester.node) forwardNonce
          forwardExpiry intent.request } { addr := requester.addr, node := requester.node } :=
    signedByHop_authorize hsign keys requester
      { addr := requester.addr, node := requester.node } rfl forwardNonce forwardExpiry
      intent.request
  have hunder : UnderWay keys target requester intent
      (routedRequestEnvelope requester target msgId nonce payload.1) _ :=
    ⟨rfl, rfl, rfl, rfl, rfl, fromBytes_of_toBytes hcodec hpayload hversion hfew, rfl, hvalid,
      .cons hsigned .nil⟩
  exact ⟨hunder, hunder.lockStep (.cons (sameHop_iff.mpr ⟨rfl, rfl⟩) .nil)⟩

/-- The payload is in step with the hop chain. -/
def InLockStep (keys : NodeId → OperatorSecretKey) (intent : SignedControl) (env : Envelope) :
    Prop := ∃ routed, LockStep keys intent env routed

theorem UnderWay.inLockStep_iff (h : UnderWay keys target requester intent env routed) :
    InLockStep keys intent env ↔ LockStep keys intent env routed := by
  constructor
  · intro hstep
    obtain ⟨routed', hstep⟩ := hstep
    have heq := hstep.decoded
    rw [h.decoded] at heq
    rw [Option.some.inj heq]
    exact hstep
  · intro hstep
    exact ⟨routed, hstep⟩

omit [Crypto] [ControlPostcard] [RoutedPostcard] in
/-- The last elements of two related lists. -/
theorem rel_of_forall₂_snoc {α β : Type} {R : α → β → Prop} {xs : List α} {ys : List β} {x : α}
    {y : β} (hlen : xs.length = ys.length) (h : List.Forall₂ R (xs ++ [x]) (ys ++ [y])) :
    R x y := by
  have hdrop := List.forall₂_drop xs.length h
  rw [List.drop_left, hlen, List.drop_left] at hdrop
  exact (List.forall₂_cons.mp hdrop).1

/-- One relay keeps the step exactly when the address in its memory is the one of its routing
view. -/
theorem UnderWay.forward_lockStep_iff (hcodec : RoutedPostcard.Faithful)
    (hsign : Crypto.SignCorrect) (h : UnderWay keys target requester intent env routed)
    (hhonest : r.engine.operator = keys r.engine.nodeId) (hout : r.forward env = .ok out) :
    InLockStep keys intent env
      ∧ ∃ routed', UnderWay keys target requester intent out routed'
        ∧ (InLockStep keys intent out ↔ r.engine.record.address = some r.this.addr) := by
  obtain ⟨hstep, own, address, haddress, hown, hchain, hunder⟩ :=
    h.forward hcodec hsign hhonest hout
  refine ⟨⟨routed, hstep⟩, _, hunder, ?_⟩
  rw [hunder.inLockStep_iff, haddress, Option.some.injEq]
  constructor
  · intro hlock
    have hnames := hlock.names
    rw [hchain] at hnames
    have hlast := rel_of_forall₂_snoc hstep.length hnames
    rw [sameHop_iff, hown] at hlast
    exact hlast.1
  · intro heq
    apply hunder.lockStep
    rw [hchain]
    refine List.rel_append hstep.names (.cons ?_ .nil)
    rw [sameHop_iff, hown]
    exact ⟨heq, r.sameNode.symm⟩

theorem relayed_lockStep_iff (hcodec : RoutedPostcard.Faithful) (hsign : Crypto.SignCorrect)
    (h : UnderWay keys target requester intent env routed)
    (hstart : LockStep keys intent env routed)
    {relays : List Relay} (hhonest : ∀ r ∈ relays, r.engine.operator = keys r.engine.nodeId)
    (hout : relayed env relays = .ok out) :
    (∃ routed', UnderWay keys target requester intent out routed')
      ∧ (InLockStep keys intent out
        ↔ ∀ r ∈ relays, r.engine.record.address = some r.this.addr) := by
  induction relays using List.reverseRecOn generalizing out with
  | nil =>
      obtain rfl : env = out := by simpa [relayed, pure, Except.pure] using hout
      exact ⟨⟨routed, h⟩, by simpa using ⟨routed, hstart⟩⟩
  | append_singleton relays r ih =>
      rw [relayed, List.foldlM_append, bind_eq_ok] at hout
      obtain ⟨mid, hmid, hout⟩ := hout
      simp only [List.foldlM_cons, List.foldlM_nil, bind_pure] at hout
      obtain ⟨⟨routed', hunder⟩, hiff⟩ :=
        ih (fun r' hr' => hhonest r' (List.mem_append_left _ hr')) hmid
      obtain ⟨hlock, routed'', hnext, hlast⟩ := hunder.forward_lockStep_iff hcodec hsign
        (hhonest r (List.mem_append_right _ (List.mem_singleton.mpr rfl))) hout
      refine ⟨⟨routed'', hnext⟩, ?_⟩
      rw [hlast]
      constructor
      · intro heq r' hr'
        rcases List.mem_append.mp hr' with hr' | hr'
        · exact hiff.mp hlock r' hr'
        · rw [List.mem_singleton.mp hr']
          exact heq
      · intro hall
        exact hall r (List.mem_append_right _ (List.mem_singleton.mpr rfl))

/-! ## The destination -/

omit [ControlPostcard] [RoutedPostcard] in
/-- The last forward of a coherent request names the last hop. -/
theorem sameHop_last {forwards : List RoutedForward} {hops : List Hop}
    (hlen : forwards.length = hops.length)
    (hall : (forwards.zip hops).all (fun (forward, hop) => sameHop forward.hop hop) = true)
    {last : RoutedForward} {hop : Hop} (hlast : forwards.getLast? = some last)
    (hhop : hops.getLast? = some hop) : sameHop last.hop hop = true := by
  obtain ⟨front, rfl⟩ := List.getLast?_eq_some_iff.mp hlast
  obtain ⟨front', rfl⟩ := List.getLast?_eq_some_iff.mp hhop
  have hfront : front.length = front'.length := by simpa using hlen
  rw [List.zip_append hfront, List.all_append, Bool.and_eq_true] at hall
  simpa using hall.2

section

variable [EthPrimitives] [ZeroKey] [EndpointIds]

/-- What becomes of a request at its destination: it is refused before its dispatch, or the frame
that is dispatched is the last forward. That forward names the last hop, its actor is the
neighbour `remote`, and the authority is what the destination knows of this neighbour. -/
def DispatchesNeighbour (io : Io) (env : Envelope) (remote : NodeId) (now : UInt64)
    (e : Engine Handled) (h : NodeHost) : Prop :=
  ∃ routed, RoutedControlV1.fromBytes env.payload = some routed
    ∧ ((∃ code h', exec e h = (.error code, h')
        ∧ (isCoherent routed env = false
          ∨ ∃ named, exec (admitRouted io named routed now) h = (.error code, h')))
      ∨ ∃ last hop authority h', routed.forwards.getLast? = some last
        ∧ env.hopChain.getLast? = some hop ∧ sameHop last.hop hop = true
        ∧ last.signed.origin = remote ∧ authority.StandsFor h' last.signed
        ∧ exec e h = exec (dispatchAuthorized io last.signed now (some authority)
          (some (routed.requester.node, remote))) h')

/-- The dispatch names the neighbour that the transport has authenticated. -/
theorem dispatchControlEnvelope_neighbour {io : Io} {now : UInt64} {snapshot : Routable}
    {remote : NodeId} {e : Engine Handled}
    (hchecked : checkEnvelope snapshot remote env = .ok ())
    (he : dispatchControlEnvelope io env now = some e) (h : NodeHost) :
    DispatchesNeighbour io env remote now e h := by
  simp only [dispatchControlEnvelope, Option.bind_eq_bind, Option.bind_eq_some_iff] at he
  obtain ⟨routed, hdecoded, hop, hhop, remote', hremote, he⟩ := he
  have hnode : hop.node = remote := by
    unfold checkEnvelope at hchecked
    split at hchecked
    · cases hchecked
    · split at hchecked
      · cases hchecked
      · rw [ite_error_eq_ok] at hchecked
        have hlast := hchecked.2
        rw [hhop] at hlast
        simp only [ite_error_eq_ok, not_or, not_not] at hlast
        exact hlast.1.1
  refine ⟨routed, hdecoded, ?_⟩
  split_ifs at he with hcoherent
  · obtain rfl := Option.some.inj he
    have hparts := hcoherent
    simp only [isCoherent, Bool.and_eq_true, decide_eq_true_eq] at hparts
    obtain ⟨⟨⟨-, -⟩, hlen⟩, hall⟩ := hparts
    have hrefused : ∀ code h', exec (admitRouted io remote' routed now) h = (.error code, h') →
        ∃ code h', exec (receiveRoutedAtHandled io remote' routed now) h = (.error code, h')
          ∧ (isCoherent routed env = false
            ∨ ∃ named, exec (admitRouted io named routed now) h = (.error code, h')) := by
      intro code h' hadmit
      refine ⟨code, h', ?_, Or.inr ⟨remote', hadmit⟩⟩
      rw [receiveRoutedAtHandled, exec_bind, hadmit]
    rcases admitRouted_exec io remote' routed now h with
      ⟨code, hadmit⟩ | ⟨code, hadmit⟩ | ⟨code, hadmit⟩ | ⟨authority, last, hadmit, hshown⟩
    · exact Or.inl (hrefused code _ hadmit)
    · exact Or.inl (hrefused code _ hadmit)
    · exact Or.inl (hrefused code _ hadmit)
    · obtain ⟨peer, hlast, hpeer⟩ := hshown.forward
      have hsame := sameHop_last hlen hall hlast hhop
      -- the destination looks up the last hop of the chain, which is the neighbour
      have hneighbour : remote' = remote := by
        rw [← hpeer, ← hnode]
        exact (sameHop_iff.mp hsame).2
      subst hneighbour
      right
      refine ⟨_, hop, authority, _, hlast, hhop, hsame, hshown.origin, hshown.actor, ?_⟩
      rw [receiveRoutedAtHandled, exec_bind, hadmit]
  · obtain rfl := Option.some.inj he
    exact Or.inl ⟨.unauthorized, h, rfl, Or.inl (by simpa using hcoherent)⟩

/-- Routed control is in step with its hop chain, over any number of honest relays, exactly when
each relay has in memory the address that its routing view gives to the node; and what the
destination dispatches is always the forward of the neighbour it has authenticated. -/
theorem routed_control_lock_step_iff (hcodec : RoutedPostcard.Faithful)
    (hsign : Crypto.SignCorrect) (keys : NodeId → OperatorSecretKey) (target requester : PeerRef)
    (intent : SignedControl) (forwardNonce forwardExpiry nonce : UInt64) (msgId : MsgId)
    (routed : RoutedControlV1)
    (payload : { bytes : List UInt8 // bytes.length ≤ maxControlFrame })
    (hbuild : buildRoutedControl target requester intent (keys requester.node) forwardNonce
      forwardExpiry = some routed) (hpayload : routed.toBytes = some payload)
    (relays : List Relay) (hhonest : ∀ r ∈ relays, r.engine.operator = keys r.engine.nodeId)
    (out : Envelope)
    (hout : relayed (routedRequestEnvelope requester target msgId nonce payload.1) relays
      = .ok out) :
    (InLockStep keys intent out ↔ ∀ r ∈ relays, r.engine.record.address = some r.this.addr)
      ∧ ∀ (io : Io) (env : Envelope) (now : UInt64) (snapshot : Routable) (remote : NodeId)
          (e : Engine Handled) (h : NodeHost), checkEnvelope snapshot remote env = .ok () →
          dispatchControlEnvelope io env now = some e →
          DispatchesNeighbour io env remote now e h := by
  obtain ⟨hunder, hstep⟩ := underWay_sent hcodec hsign hbuild hpayload
  refine ⟨(relayed_lockStep_iff hcodec hsign hunder hstep hhonest hout).2, ?_⟩
  intro io env now snapshot remote e h hchecked he
  exact dispatchControlEnvelope_neighbour hchecked he h

end

end

/-! ## A relay with a stale address -/

section Concrete

open Concrete

deriving instance DecidableEq for RoutedForward, RoutedControlV1

namespace Concrete

/-- A codec that knows some frames; every other frame is too large for it. -/
@[reducible] def tableCodec (frames : List RoutedControlV1) : RoutedPostcard where
  encode r :=
    if r ∈ frames then [r.version, UInt8.ofNat (frames.idxOf r)]
    else r.version :: List.replicate maxControlFrame 0
  decode
    | [_, i] => frames[i.toNat]?
    | _ => none
  decodeReply _ := none

theorem tableCodec_faithful {frames : List RoutedControlV1} (h : frames.length ≤ 256) :
    (tableCodec frames).Faithful := by
  refine @RoutedPostcard.Faithful.mk _ (tableCodec frames) ?_ ?_
  · intro r
    change (if r ∈ frames then [r.version, UInt8.ofNat (frames.idxOf r)]
      else r.version :: List.replicate maxControlFrame 0).head? = some r.version
    split_ifs <;> rfl
  · intro r _ hlen
    change (if r ∈ frames then [r.version, UInt8.ofNat (frames.idxOf r)]
      else r.version :: List.replicate maxControlFrame 0).length ≤ maxControlFrame at hlen
    by_cases hmem : r ∈ frames
    · have hlt : frames.idxOf r < frames.length := List.idxOf_lt_length_of_mem hmem
      have hbyte : (UInt8.ofNat (frames.idxOf r)).toNat = frames.idxOf r :=
        UInt8.toNat_ofNat_of_lt' (by
          rw [UInt8.size]
          omega)
      change (tableCodec frames).decode (if r ∈ frames then
        [r.version, UInt8.ofNat (frames.idxOf r)] else _) = some r
      rw [if_pos hmem]
      change frames[(UInt8.ofNat (frames.idxOf r)).toNat]? = some r
      rw [hbyte, List.getElem?_eq_getElem hlt, List.getElem_idxOf]
    · rw [if_neg hmem, List.length_cons, List.length_replicate] at hlen
      omega

/-- The requester `u`, a child of the node `n`. -/
def requesterPeer : PeerRef where
  addr := OctAddr.root.child 2 two_le_maxSlot
  node := "u"

def targetPeer : PeerRef where
  addr := OctAddr.root.child 3 (by decide)
  node := "v"

def operatorOf (id : NodeId) : ℕ := if id = "n" then 1 else 2

def engineAt (address : OctAddr) : ControlNode where
  nodeId := "n"
  operator := (1 : ℕ)
  record := { nodeId := "n", address := some address, parent := none, children := [] }
  peers := registry [row "u" .user 2]
  pending := { pending := [], outbound := none }
  adminState := .empty
  outbound := []
  selfKind := .node
  decisions := []
  seen := .empty controlSeenConfig
  ledger := true

/-- The node `n` at the root, relaying with an address in memory. -/
def relayAt (address : OctAddr) : Relay where
  engine := engineAt address
  this := { addr := OctAddr.root, node := "n" }
  nonce := 7
  now := 150
  signedAt := 150
  sameNode := rfl

def sentRequest : RoutedControlV1 where
  version := 2
  target := targetPeer
  requester := requesterPeer
  intent := frame "u" 2 5 .query
  forwards := [{ hop := requesterPeer, signed := frame "u" 2 6 .query }]

/-- The request as `n` passes it on. -/
def relayedRequest (address : OctAddr) : RoutedControlV1 :=
  sentRequest.with_ ((engineAt address).ownForward address 7 150 .query)

/-- The address of `n` before it became a root. -/
def formerAddress : OctAddr := OctAddr.root.child 1 one_le_maxSlot

scoped instance routedPostcard : RoutedPostcard :=
  tableCodec [sentRequest, relayedRequest OctAddr.root, relayedRequest formerAddress]

end Concrete

local instance routedIds : EndpointIds := plainIds

theorem routedPostcard_faithful : Concrete.routedPostcard.Faithful :=
  Concrete.tableCodec_faithful (by decide)

def sentEnvelope : Envelope :=
  routedRequestEnvelope requesterPeer targetPeer (.replicate 16 1) 1
    (RoutedPostcard.encode sentRequest)

theorem sentRequest_built :
    buildRoutedControl targetPeer requesterPeer (frame "u" 2 5 .query) (operatorOf "u") 6 200
      = some sentRequest := by
  decide +kernel

theorem sentRequest_encoded :
    ∃ payload, sentRequest.toBytes = some payload
      ∧ payload.1 = RoutedPostcard.encode sentRequest := by
  have hsome : sentRequest.toBytes.isSome = true := by decide +kernel
  obtain ⟨payload, hpayload⟩ := Option.isSome_iff_exists.mp hsome
  exact ⟨payload, hpayload, (toBytes_eq_some hpayload).1⟩

/-- A relay that knows its address keeps the step. -/
theorem routed_control_lock_step_one :
    ∃ out, relayed sentEnvelope [relayAt OctAddr.root] = .ok out
      ∧ InLockStep operatorOf (frame "u" 2 5 .query) out := by
  have hok : (relayed sentEnvelope [relayAt OctAddr.root]).toBool = true := by decide +kernel
  obtain ⟨out, hout⟩ := exists_ok_of_toBool hok
  obtain ⟨payload, hpayload, hbytes⟩ := sentRequest_encoded
  rw [sentEnvelope, ← hbytes] at hout
  have hlock := (routed_control_lock_step_iff routedPostcard_faithful signCorrect operatorOf
    targetPeer requesterPeer (frame "u" 2 5 .query) 6 200 1 (.replicate 16 1) sentRequest payload
    sentRequest_built hpayload [relayAt OctAddr.root] (by simp [relayAt, engineAt, operatorOf])
    out hout).1.mpr (by simp [relayAt, engineAt])
  refine ⟨out, ?_, hlock⟩
  rw [sentEnvelope, ← hbytes]
  exact hout

/-- A relay that has been re-addressed on disk only signs a forward that does not name its hop. -/
theorem routed_control_out_of_step :
    ¬ ∀ (relays : List Relay) (out : Envelope),
      (∀ r ∈ relays, r.engine.operator = operatorOf r.engine.nodeId) →
      relayed sentEnvelope relays = .ok out →
      InLockStep operatorOf (frame "u" 2 5 .query) out := by
  intro h
  have hok : (relayed sentEnvelope [relayAt formerAddress]).toBool = true := by decide +kernel
  obtain ⟨out, hout⟩ := exists_ok_of_toBool hok
  have hhonest : ∀ r ∈ [relayAt formerAddress], r.engine.operator = operatorOf r.engine.nodeId := by
    simp [relayAt, engineAt, operatorOf]
  have hlock := h _ out hhonest hout
  obtain ⟨payload, hpayload, hbytes⟩ := sentRequest_encoded
  rw [sentEnvelope, ← hbytes] at hout
  obtain ⟨hunder, hstep⟩ := underWay_sent routedPostcard_faithful signCorrect sentRequest_built
    hpayload
  have hagree := (relayed_lockStep_iff routedPostcard_faithful signCorrect hunder hstep hhonest
    hout).2.mp hlock _ (List.mem_singleton.mpr rfl)
  revert hagree
  decide

end Concrete

end Cawala
