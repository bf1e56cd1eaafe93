import Cawala.Verification.Layout
import Cawala.Verification.Network
import Cawala.Verification.OrderJournal
import Cawala.Verification.PrefundPayments

/-! # Cascades across a network

In a network whose nodes all run this code, the nodes that hold an order across leaves are the
first signers of one route, each with its own hop, and a payer is told of a success only when the
payee has been credited. Messages may be lost, repeated and delivered in any order, and nodes may
restart at any time. -/

namespace Cawala

open Std (ExtTreeMap)
open Library Library.Transaction

variable [Crypto]

/-! ## The last signer -/

omit [Crypto] in
/-- The last place of a route is the payee's leaf. -/
theorem SignerRoute.terminal_iff {src dst srcLeaf dstLeaf a : OctAddr} {signers : List OctAddr}
    {i : ℕ} (h : SignerRoute src dst srcLeaf dstLeaf signers) (hi : signers[i]? = some a) :
    i + 1 = signers.length ↔ a = dstLeaf := by
  have hlast := h.last
  rw [List.getLast?_eq_getElem?] at hlast
  have hlt := (List.getElem?_eq_some_iff.mp hi).1
  constructor
  · intro heq
    have hindex : signers.length - 1 = i := by omega
    rw [hindex, hi] at hlast
    exact Option.some.inj hlast
  · rintro rfl
    have hindex := (List.getElem?_inj hlt h.nodup).mp (hi.trans hlast.symm)
    omega

/-! ## Registered users -/

theorem effectiveRegistry_user {service : LedgerService} {env : TxEnv} {rows : PeerRegistry}
    {u : NodeId} {row : PeerKeys} (h : service.effectiveRegistry env = .ok rows)
    (hrow : rows.get u = some row) (huser : row.role = .user) :
    ∃ peers, env.peers = some peers ∧ peers.get u = some row := by
  unfold LedgerService.effectiveRegistry at h
  split at h
  · cases h
  · cases h
  next registry operator hpeers hoperator =>
    split at h
    next existing hexisting =>
      split at h
      · cases h
      · obtain rfl := Except.ok.inj h
        exact ⟨registry, hpeers, hrow⟩
    next =>
      have hinsert := tagged_eq_ok.mp h
      simp only [PeerRegistry.insert, ite_error_eq_ok, Except.ok.injEq] at hinsert
      obtain ⟨-, -, -, -, rfl⟩ := hinsert
      refine ⟨registry, hpeers, ?_⟩
      rw [PeerRegistry.get, ExtTreeMap.getElem?_insert] at hrow
      split at hrow
      · -- the row of the node itself is no user
        obtain rfl := Option.some.inj hrow
        cases huser
      · exact hrow

theorem assembleSettlementRegistry_user {service : LedgerService} {env : TxEnv}
    {payerKey : PeerKeys} {order : PaymentOrder} {auth : AuthRef} {registry : PeerRegistry}
    (h : assembleSettlementRegistry service env payerKey order auth = .ok registry) :
    payerKey.role = .user := by
  unfold assembleSettlementRegistry at h
  split at h
  · cases h
  · next hguard =>
      simp only [not_or, ne_eq, not_not] at hguard
      exact hguard.2.1

/-! ## Lawful runs -/

section Lawful

variable [Postcard] [SettlePostcard] [EthPrimitives] [HashBytes]

/-- What the files of a node say when it dispatches: its address and its children are those of
the layout, and users are registered at their home only. -/
structure DispatchEnv.Located (layout : Layout) (env : DispatchEnv) (a : OctAddr) : Prop where
  snapshot : env.snapshot.this.addr = a
  record : ∀ record, env.record = some record → layout.Lists a record
  peers : ∀ rows, env.lookup.peers = some rows → ∀ u row, rows.get u = some row →
    row.role = .user → layout.home u = a

/-- The settlement payload that an output puts on the wire. -/
def NodeOutput.bytes? : NodeOutput → Option (List UInt8)
  | .settle _ payload => payload.toBytes
  | .relay e => some e.payload
  | _ => none

def Network.Sent (net : Network) (bytes : List UInt8) : Prop :=
  ∃ a out, (a, out) ∈ net.outputs ∧ out.bytes? = some bytes

/-- The ids of an order are strings that fit in memory. -/
def PaymentOrder.Addressable (order : PaymentOrder) : Prop :=
  Cawala.Addressable order.from_ ∧ Cawala.Addressable order.to_

/-- What may happen in a network of nodes that run this code: users send what they like, and
settlement payloads are ones that a node has sent. -/
def NetworkEvent.Lawful (layout : Layout) (net : Network) (ev : NetworkEvent) : Prop :=
  match ev.event with
  | .ledger env e => env.Located layout ev.place
      ∧ ∀ order, e.payload.order? = some order → order.Addressable
  | .settle env e => env.Located layout ev.place ∧ net.Sent e.payload
  | .operate _ op | .share _ _ op => op.Administrative
  | .sweep _ | .restart _ => True

def LawfulRun (target : Target) (keys : OctAddr → LedgerSecretKey) (ids : OctAddr → NodeId)
    (layout : Layout) (events : List NetworkEvent) : Prop :=
  ∀ before ev, before ++ [ev] <+: events → ev.Lawful layout (Network.run target keys ids before)

theorem LawfulRun.of_concat {target : Target}
    {keys : OctAddr → LedgerSecretKey} {ids : OctAddr → NodeId} {layout : Layout}
    {events : List NetworkEvent} {ev : NetworkEvent}
    (h : LawfulRun target keys ids layout (events ++ [ev])) :
    LawfulRun target keys ids layout events
      ∧ ev.Lawful layout (Network.run target keys ids events) :=
  ⟨fun before ev' hle => h before ev' (hle.trans (List.prefix_append _ _)),
    h events ev List.prefix_rfl⟩

end Lawful

/-! ## What holds across a network -/

section Invariant

variable [Postcard] [SettlePostcard]

def NodeOutput.Carries (payload : SettlePayloadV3) : NodeOutput → Prop
  | .settle _ p => p = payload
  | .relay e => SettlePayloadV3.fromBytes e.payload = .ok payload
  | _ => False

/-- A settlement payload that some node has put out. -/
def Network.Issued (net : Network) (payload : SettlePayloadV3) : Prop :=
  ∃ a out, (a, out) ∈ net.outputs ∧ out.Carries payload

/-- A node holds its hop of a cascade, and the leaf of the payee knows the payee. -/
structure Network.HoldsAt (net : Network) (layout : Layout) (order : PaymentOrder)
    (payer payee a : OctAddr) : Prop where
  hop : ∃ derived seq hash, layout.hop payer payee a = some derived
    ∧ HoldsHop (net.log a) order derived seq hash
  payee : payee.parent = some a → layout.tenant payee = order.to_ ∧ layout.kind payee = .user

structure Routed (layout : Layout) (forward : SettleForwardV3) (signers : List OctAddr) :
    Prop where
  route : routeSigners forward.payerAddr forward.payeeAddr = some signers
  first : signers[0]? = some (layout.home forward.order.from_)
  payer : layout.kind forward.payerAddr = .user
  addressable : forward.order.Addressable

/-- A forward under way: the signers whose hops it has passed hold them. -/
structure Network.UnderWay (layout : Layout) (net : Network) (forward : SettleForwardV3)
    (signers : List OctAddr) : Prop where
  routed : Routed layout forward signers
  started : 0 < forward.hops.length
  held : ∀ i < forward.hops.length, ∀ a, signers[i]? = some a →
    net.HoldsAt layout forward.order forward.payerAddr forward.payeeAddr a

/-- A completed cascade: every signer of the route holds its hop, and the payee's leaf the credit
at this position. -/
def Network.Completed (layout : Layout) (net : Network) : Evidence := fun orderHash seq hash _ =>
  ∃ (forward : SettleForwardV3) (signers : List OctAddr) (leaf : OctAddr),
    net.Issued (.forward forward) ∧ forward.order.hash = orderHash
    ∧ routeSigners forward.payerAddr forward.payeeAddr = some signers
    ∧ (∀ a ∈ signers, net.HoldsAt layout forward.order forward.payerAddr forward.payeeAddr a)
    ∧ forward.payeeAddr.parent = some leaf
    ∧ HoldsHop (net.log leaf) forward.order forward.order.creditHop seq hash

/-- A booked order: a transfer between two users of a leaf, or the hop of a signer that the signers
before it hold too. -/
def Network.Explained (layout : Layout) (net : Network) (a : OctAddr)
    (order : PaymentOrder) : Prop :=
  (layout.Houses a order.from_ ∧ layout.Houses a order.to_
      ∧ ∃ seq hash, HoldsHop (net.log a) order order.directHop seq hash)
    ∨ ∃ (forward : SettleForwardV3) (signers : List OctAddr) (i : ℕ),
      net.Issued (.forward forward) ∧ forward.order = order
      ∧ routeSigners forward.payerAddr forward.payeeAddr = some signers ∧ signers[i]? = some a
      ∧ ∀ j ≤ i, ∀ b, signers[j]? = some b →
          net.HoldsAt layout order forward.payerAddr forward.payeeAddr b

/-- What holds in every network that a lawful run leads to. -/
structure Network.Cascading (keys : OctAddr → LedgerSecretKey) (layout : Layout)
    (net : Network) : Prop where
  leaf : ∀ a, LeafSound (keys a) (net.Completed layout) (net.node a)
  told : ∀ a out, (a, out) ∈ net.outputs → out.Truthful (net.Completed layout) (net.log a)
  forwards : ∀ forward, net.Issued (.forward forward) →
    ∃ signers, net.UnderWay layout forward signers
  same : ∀ forward forward', net.Issued (.forward forward) → net.Issued (.forward forward') →
    forward.order = forward'.order →
    forward.payerAddr = forward'.payerAddr ∧ forward.payeeAddr = forward'.payeeAddr
  results : ∀ result, net.Issued (.result result) → ∀ seq hash proof intermediates,
    result.outcome = .applied seq hash proof intermediates →
    net.Completed layout result.paymentId seq hash proof
  booked : ∀ a order, order.Addressable → order.hash ∈ payments (net.log a) →
    net.Explained layout a order

/-! ## Growing networks -/

/-- A later network: the logs and the outputs have grown. -/
structure Network.Extends (net net' : Network) : Prop where
  log : ∀ a, net.log a <+: net'.log a
  outputs : net.outputs <+: net'.outputs

section Extends

variable {net net' : Network} {keys : OctAddr → LedgerSecretKey} {layout : Layout}
  {order : PaymentOrder} {payer payee a : OctAddr}

omit [Postcard] in
theorem Network.Issued.mono {payload : SettlePayloadV3} (h : net.Issued payload)
    (hext : net.Extends net') : net'.Issued payload := by
  obtain ⟨a, out, hout, hcarries⟩ := h
  exact ⟨a, out, hext.outputs.subset hout, hcarries⟩

omit [SettlePostcard] in
theorem Network.HoldsAt.mono (h : net.HoldsAt layout order payer payee a)
    (hext : net.Extends net') : net'.HoldsAt layout order payer payee a := by
  obtain ⟨derived, seq, hash, hderived, hholds⟩ := h.hop
  exact ⟨⟨derived, seq, hash, hderived, hholds.mono (hext.log a)⟩, h.payee⟩

omit [SettlePostcard] in
theorem Network.HoldsAt.mem (h : net.HoldsAt layout order payer payee a) :
    order.hash ∈ payments (net.log a) := by
  obtain ⟨derived, seq, hash, -, hholds⟩ := h.hop
  exact hholds.namesFirst.mem

theorem Network.Completed.mono {orderHash hash : Hash} {seq : UInt64} {proof : EntryProofV1}
    (h : net.Completed layout orderHash seq hash proof) (hext : net.Extends net') :
    net'.Completed layout orderHash seq hash proof := by
  obtain ⟨forward, signers, leaf, hissued, hhash, hroute, hheld, hleaf, hcredit⟩ := h
  exact ⟨forward, signers, leaf, hissued.mono hext, hhash, hroute,
    fun b hb => (hheld b hb).mono hext, hleaf, hcredit.mono (hext.log leaf)⟩

theorem Network.Explained.mono (h : net.Explained layout a order) (hext : net.Extends net') :
    net'.Explained layout a order := by
  rcases h with ⟨hfrom, hto, seq, hash, hholds⟩
    | ⟨forward, signers, i, hissued, horder, hroute, hi, hheld⟩
  · exact Or.inl ⟨hfrom, hto, seq, hash, hholds.mono (hext.log a)⟩
  · exact Or.inr ⟨forward, signers, i, hissued.mono hext, horder, hroute, hi,
      fun j hj b hb => (hheld j hj b hb).mono hext⟩

omit [SettlePostcard] in
theorem Network.UnderWay.mono {forward : SettleForwardV3} {signers : List OctAddr}
    (h : net.UnderWay layout forward signers) (hext : net.Extends net') :
    net'.UnderWay layout forward signers :=
  ⟨h.routed, h.started, fun i hi b hb => (h.held i hi b hb).mono hext⟩

/-- The invariant of a later network, from what is new in it. -/
theorem Network.Cascading.extend (h : net.Cascading keys layout) (hext : net.Extends net')
    (hleaf : ∀ a, LeafSound (keys a) (net.Completed layout) (net'.node a))
    (htold : ∀ a out, (a, out) ∈ net'.outputs → out.Truthful (net.Completed layout) (net'.log a))
    (hforwards : ∀ forward, net'.Issued (.forward forward) → net.Issued (.forward forward)
      ∨ ∃ signers, net'.UnderWay layout forward signers)
    (hsame : ∀ forward forward', net'.Issued (.forward forward) →
      net'.Issued (.forward forward') → forward.order = forward'.order →
      forward.payerAddr = forward'.payerAddr ∧ forward.payeeAddr = forward'.payeeAddr)
    (hresults : ∀ result, net'.Issued (.result result) → net.Issued (.result result)
      ∨ ∀ seq hash proof intermediates, result.outcome = .applied seq hash proof intermediates →
        net'.Completed layout result.paymentId seq hash proof)
    (hbooked : ∀ a order, order.Addressable → order.hash ∈ payments (net'.log a) →
      order.hash ∈ payments (net.log a) ∨ net'.Explained layout a order) :
    net'.Cascading keys layout where
  leaf a := (hleaf a).known_mono fun _ _ _ _ hknows => Network.Completed.mono hknows hext
  told a out hout := (htold a out hout).imp List.prefix_rfl
    fun _ _ _ _ hknows => Network.Completed.mono hknows hext
  forwards forward hissued := by
    rcases hforwards forward hissued with hold | hnew
    · obtain ⟨signers, hway⟩ := h.forwards forward hold
      exact ⟨signers, hway.mono hext⟩
    · exact hnew
  same := hsame
  results result hissued seq hash proof intermediates houtcome := by
    rcases hresults result hissued with hold | hnew
    · exact (h.results result hold seq hash proof intermediates houtcome).mono hext
    · exact hnew seq hash proof intermediates houtcome
  booked a order haddr hmem := by
    rcases hbooked a order haddr hmem with hold | hnew
    · exact (h.booked a order haddr hold).mono hext
    · exact hnew

end Extends

end Invariant

/-! ## One event -/

section Step

variable [Postcard] [SettlePostcard]

omit [Postcard] in
theorem SettlePayloadV3.fromBytes_toBytes (hcodec : SettlePostcard.RoundTrip)
    {payload : SettlePayloadV3} {bytes : List UInt8} (h : payload.toBytes = some bytes) :
    SettlePayloadV3.fromBytes bytes = .ok payload := by
  obtain ⟨body, hbody, rfl⟩ := Option.map_eq_some_iff.mp h
  simp [SettlePayloadV3.fromBytes, hcodec payload body hbody]

omit [Postcard] in
theorem NodeOutput.carries_of_bytes (hcodec : SettlePostcard.RoundTrip) {out : NodeOutput}
    {bytes : List UInt8} {payload : SettlePayloadV3} (hbytes : out.bytes? = some bytes)
    (hpayload : SettlePayloadV3.fromBytes bytes = .ok payload) : out.Carries payload := by
  cases out with
  | settle dst p =>
      have hdecoded := SettlePayloadV3.fromBytes_toBytes hcodec hbytes
      exact Except.ok.inj (hdecoded.symm.trans hpayload)
  | relay e =>
      obtain rfl := Option.some.inj hbytes
      exact hpayload
  | journal order => cases hbytes
  | audit paymentId hop check => cases hbytes
  | ledger message => cases hbytes

omit [Postcard] in
theorem NodeOutput.Plain.not_carries {out : NodeOutput} (h : out.Plain)
    {payload : SettlePayloadV3} : ¬ out.Carries payload := by
  cases out with
  | settle dst p => exact h.elim
  | relay e => exact h.elim
  | journal order => exact id
  | audit paymentId hop check => exact id
  | ledger message => exact id

variable [EthPrimitives] [HashBytes] {target : Target} {keys : OctAddr → LedgerSecretKey}
  {layout : Layout} {net : Network} {ev : NetworkEvent} {outputs : List NodeOutput}
  {after : LedgerNode}

theorem Network.step_issued {payload : SettlePayloadV3}
    (hstep : (net.node ev.place).step target (keys ev.place) ev.event = (outputs, after))
    (h : (net.step target keys ev).Issued payload) :
    net.Issued payload ∨ ∃ out ∈ outputs, out.Carries payload := by
  obtain ⟨a, out, hout, hcarries⟩ := h
  rcases (Network.mem_step_outputs ev).mp hout with hold | ⟨-, hnew⟩
  · exact Or.inl ⟨a, out, hold, hcarries⟩
  · rw [hstep] at hnew
    exact Or.inr ⟨out, hnew, hcarries⟩

theorem Network.step_log_self
    (hstep : (net.node ev.place).step target (keys ev.place) ev.event = (outputs, after)) :
    (net.step target keys ev).log ev.place = after.desk.frames := by
  rw [Network.log, Network.step_node_self, hstep]

theorem Network.step_log_of_ne {a : OctAddr} (h : a ≠ ev.place) :
    (net.step target keys ev).log a = net.log a := by
  rw [Network.log, Network.step_node_of_ne ev h, Network.log]

theorem Network.step_extends {known : Evidence}
    (hstep : (net.node ev.place).step target (keys ev.place) ev.event = (outputs, after))
    (h : LeafStep (keys ev.place) known (net.node ev.place) outputs after) :
    net.Extends (net.step target keys ev) where
  log a := by
    by_cases ha : a = ev.place
    · subst ha
      rw [Network.step_log_self hstep]
      exact h.grown
    · rw [Network.step_log_of_ne ha]
  outputs := List.prefix_append _ _

theorem Network.Cascading.step_of (h : net.Cascading keys layout)
    (hstep : (net.node ev.place).step target (keys ev.place) ev.event = (outputs, after))
    (hleaf : LeafStep (keys ev.place) (net.Completed layout) (net.node ev.place) outputs after)
    (hforwards : ∀ out ∈ outputs, ∀ forward, out.Carries (.forward forward) →
      ∃ signers, (net.step target keys ev).UnderWay layout forward signers)
    (hsame : ∀ forward forward', (net.step target keys ev).Issued (.forward forward) →
      (net.step target keys ev).Issued (.forward forward') → forward.order = forward'.order →
      forward.payerAddr = forward'.payerAddr ∧ forward.payeeAddr = forward'.payeeAddr)
    (hresults : ∀ out ∈ outputs, ∀ result, out.Carries (.result result) →
      ∀ seq hash proof intermediates, result.outcome = .applied seq hash proof intermediates →
        (net.step target keys ev).Completed layout result.paymentId seq hash proof)
    (hbooked : ∀ order : PaymentOrder, order.Addressable →
      order.hash ∈ payments after.desk.frames → order.hash ∈ payments (net.log ev.place)
        ∨ (net.step target keys ev).Explained layout ev.place order) :
    (net.step target keys ev).Cascading keys layout := by
  have hself : ((net.node ev.place).step target (keys ev.place) ev.event).2 = after := by
    rw [hstep]
  refine h.extend (Network.step_extends hstep hleaf) ?_ ?_ ?_ hsame ?_ ?_
  · exact net.step_sound h.leaf (hself ▸ hleaf.sound)
  · refine net.step_truthful h.told ?_
    rw [hstep]
    exact hleaf
  · intro forward hissued
    refine (Network.step_issued hstep hissued).imp id ?_
    intro hnew
    obtain ⟨out, hout, hcarries⟩ := hnew
    exact hforwards out hout forward hcarries
  · intro result hissued
    refine (Network.step_issued hstep hissued).imp id ?_
    intro hnew
    obtain ⟨out, hout, hcarries⟩ := hnew
    exact hresults out hout result hcarries
  · intro a order haddr hmem
    by_cases ha : a = ev.place
    · subst ha
      rw [Network.step_log_self hstep] at hmem
      exact hbooked order haddr hmem
    · rw [Network.step_log_of_ne ha] at hmem
      exact Or.inl hmem

/-- An event that sends no forward and no success. -/
theorem Network.Cascading.step_silent (h : net.Cascading keys layout)
    (hstep : (net.node ev.place).step target (keys ev.place) ev.event = (outputs, after))
    (hleaf : LeafStep (keys ev.place) (net.Completed layout) (net.node ev.place) outputs after)
    (hsilent : ∀ out ∈ outputs, ∀ payload, out.Carries payload →
      ∃ id reason, payload = .result { paymentId := id, outcome := .rejected reason })
    (hbooked : ∀ order : PaymentOrder, order.Addressable →
      order.hash ∈ payments after.desk.frames → order.hash ∈ payments (net.log ev.place)
        ∨ (net.step target keys ev).Explained layout ev.place order) :
    (net.step target keys ev).Cascading keys layout := by
  have hold : ∀ forward, (net.step target keys ev).Issued (.forward forward) →
      net.Issued (.forward forward) := by
    intro forward hissued
    rcases Network.step_issued hstep hissued with hold | ⟨out, hout, hcarries⟩
    · exact hold
    · obtain ⟨id, reason, heq⟩ := hsilent out hout _ hcarries
      cases heq
  refine h.step_of hstep hleaf ?_ ?_ ?_ hbooked
  · intro out hout forward hcarries
    obtain ⟨id, reason, heq⟩ := hsilent out hout _ hcarries
    cases heq
  · exact fun forward forward' hissued hissued' => h.same _ _ (hold _ hissued) (hold _ hissued')
  · intro out hout result hcarries seq hash proof intermediates houtcome
    obtain ⟨id, reason, heq⟩ := hsilent out hout _ hcarries
    cases heq
    cases houtcome

/-- A direct transfer at the home of its payer. -/
theorem Network.Cascading.step_direct (h : net.Cascading keys layout)
    (hfree : Crypto.CollisionFree)
    (hstep : (net.node ev.place).step target (keys ev.place) ev.event = (outputs, after))
    (hleaf : LeafStep (keys ev.place) (net.Completed layout) (net.node ev.place) outputs after)
    (hplain : ∀ out ∈ outputs, out.Plain) {order : PaymentOrder} (haddr : order.Addressable)
    (hfrom : layout.Houses ev.place order.from_) (hto : layout.Houses ev.place order.to_)
    {auth : AuthRef}
    {registry : LedgerService → Except ServiceError PeerRegistry} {now seq : UInt64} {hash : Hash}
    {s : SignedEntry} {mid : Desk} (hframes : after.desk.frames = mid.frames)
    (hentered : Booking (keys ev.place) order auth .direct (.child order.from_) (.child order.to_)
      registry now (net.node ev.place).desk mid seq hash s) :
    (net.step target keys ev).Cascading keys layout := by
  refine h.step_silent hstep hleaf ?_ ?_
  · intro out hout payload hcarries
    exact absurd hcarries (hplain out hout).not_carries
  · intro order' haddr' hmem
    rw [hframes] at hmem
    refine (hentered.mem_payments hmem).imp id fun heq => Or.inl ?_
    obtain rfl := OrderJournal.hash_injective hfree haddr' haddr heq
    refine ⟨hfrom, hto, seq, hash, ?_⟩
    rw [Network.step_log_self hstep, hframes]
    exact Booking.holdsHop hentered

/-- A reservation at the home of the payer starts the one cascade of its order. -/
theorem Network.Cascading.step_reserved (h : net.Cascading keys layout)
    (hfree : Crypto.CollisionFree)
    (hstep : (net.node ev.place).step target (keys ev.place) ev.event = (outputs, after))
    (hleaf : LeafStep (keys ev.place) (net.Completed layout) (net.node ev.place) outputs after)
    {env : DispatchEnv} (hlocated : env.Located layout ev.place) {sender : NodeId}
    {forward : SettleForwardV3} (haddr : forward.order.Addressable)
    (hsends : ∀ out ∈ outputs, out.Plain ∨ ∃ next, out = .settle next (.forward forward))
    (hsent : ∃ next, .settle next (.forward forward) ∈ outputs) {s : SignedEntry} {mid : Desk}
    (hframes : after.desk.frames = mid.frames)
    (hreservation : Reservation (keys ev.place) env sender (net.node ev.place) forward s mid) :
    (net.step target keys ev).Cascading keys layout := by
  obtain ⟨rows, hrows, hrow⟩ := hreservation.payerRow
  obtain ⟨record, this, derived, signers, registry, seq, hash, carried, hrecord, hthis, hpayer,
    hsigners, hderived, hassembly, hentered, hhops⟩ := hreservation.hop
  have hlists := hlocated.record record hrecord
  obtain rfl : this = ev.place := Option.some.inj (hthis.symm.trans hlists.address)
  have hhome : layout.home forward.order.from_ = ev.place := by
    have huser := assembleSettlementRegistry_user hassembly
    obtain ⟨peers, hpeers, hpeer⟩ := effectiveRegistry_user hrows hrow huser
    exact hlocated.peers peers hpeers _ _ hpeer huser
  obtain ⟨srcLeaf, dstLeaf, hroute⟩ := routeSigners_route hsigners
  obtain ⟨-, hkind, hparent⟩ := hlists.user hpayer
  obtain rfl : ev.place = srcLeaf := Option.some.inj (hparent.symm.trans hroute.src)
  have hext := Network.step_extends hstep hleaf
  have hholds : (net.step target keys ev).HoldsAt layout forward.order forward.payerAddr
      forward.payeeAddr ev.place := by
    refine ⟨⟨derived, seq, hash, hlists.hop_of_deriveHop hroute hderived, ?_⟩, ?_⟩
    · rw [Network.step_log_self hstep, hframes]
      exact hentered.holdsHop
    · intro hlast
      obtain rfl := Option.some.inj (hlast.symm.trans hroute.dst)
      exact absurd List.prefix_rfl hroute.left
  have hfirst : ∀ i < forward.hops.length, ∀ a, signers[i]? = some a →
      (net.step target keys ev).HoldsAt layout forward.order forward.payerAddr
        forward.payeeAddr a := by
    intro i hi a ha
    obtain rfl : i = 0 := by simpa [hhops] using hi
    obtain rfl := Option.some.inj (hroute.first.symm.trans ha)
    exact hholds
  have hissued : (net.step target keys ev).Issued (.forward forward) := by
    obtain ⟨next, hout⟩ := hsent
    exact ⟨ev.place, .settle next (.forward forward),
      (Network.mem_step_outputs ev).mpr (Or.inr ⟨rfl, by rw [hstep]; exact hout⟩), rfl⟩
  have hnew : ∀ payload, (net.step target keys ev).Issued payload →
      net.Issued payload ∨ payload = .forward forward := by
    intro payload hpayload
    refine (Network.step_issued hstep hpayload).imp id fun hout => ?_
    obtain ⟨out, hout, hcarries⟩ := hout
    rcases hsends out hout with hplain | ⟨next, rfl⟩
    · exact absurd hcarries hplain.not_carries
    · exact hcarries.symm
  -- no cascade of this order was under way, for its payment would be in the log of its home
  have hfresh : ∀ old, net.Issued (.forward old) → old.order ≠ forward.order := by
    intro old hold heq
    obtain ⟨signers', hway⟩ := h.forwards old hold
    have hheld := hway.held 0 hway.started _ hway.routed.first
    have hmem := hheld.mem
    rw [heq, hhome] at hmem
    exact hentered.fresh hmem
  refine h.step_of hstep hleaf ?_ ?_ ?_ ?_
  · intro out hout next hcarries
    rcases hsends out hout with hplain | ⟨_, rfl⟩
    · exact absurd hcarries hplain.not_carries
    · cases hcarries
      exact ⟨signers, ⟨hsigners, hhome ▸ hroute.first, hkind, haddr⟩, by simp [hhops], hfirst⟩
  · intro f f' hf hf' horder
    rcases hnew _ hf with hold | heq <;> rcases hnew _ hf' with hold' | heq'
    · exact h.same f f' hold hold' horder
    · cases heq'
      exact absurd horder (hfresh f hold)
    · cases heq
      exact absurd horder.symm (hfresh f' hold')
    · cases heq
      cases heq'
      exact ⟨rfl, rfl⟩
  · intro out hout result hcarries
    rcases hsends out hout with hplain | ⟨_, rfl⟩
    · exact absurd hcarries hplain.not_carries
    · cases hcarries
  · intro order haddr' hmem
    rw [hframes] at hmem
    refine (hentered.mem_payments hmem).imp id fun heq => Or.inr ?_
    obtain rfl := OrderJournal.hash_injective hfree haddr' haddr heq
    refine ⟨forward, signers, 0, hissued, rfl, hsigners, hroute.first, ?_⟩
    intro j hj a ha
    obtain rfl := Nat.le_zero.mp hj
    obtain rfl := Option.some.inj (hroute.first.symm.trans ha)
    exact hholds

omit [SettlePostcard] [EthPrimitives] [HashBytes] in
/-- The signers up to a node hold their hops once the node's own is settled. -/
theorem Network.UnderWay.settle {net' : Network} {forward : SettleForwardV3}
    {signers : List OctAddr} (hway : net.UnderWay layout forward signers) (hext : net.Extends net')
    {a : OctAddr} (hturn : signers[forward.hops.length]? = some a)
    (hheld : net'.HoldsAt layout forward.order forward.payerAddr forward.payeeAddr a) :
    ∀ j ≤ forward.hops.length, ∀ b, signers[j]? = some b →
      net'.HoldsAt layout forward.order forward.payerAddr forward.payeeAddr b := by
  intro j hj b hb
  rcases Nat.lt_or_eq_of_le hj with hlt | rfl
  · exact (hway.held j hlt b hb).mono hext
  · obtain rfl := Option.some.inj (hturn.symm.trans hb)
    exact hheld

theorem Network.Cascading.step_settled (h : net.Cascading keys layout)
    (hfree : Crypto.CollisionFree) (hcodec : SettlePostcard.RoundTrip)
    (hstep : (net.node ev.place).step target (keys ev.place) ev.event = (outputs, after))
    (hleaf : LeafStep (keys ev.place) (net.Completed layout) (net.node ev.place) outputs after)
    {env : DispatchEnv} (hlocated : env.Located layout ev.place) {e : Envelope}
    {forward : SettleForwardV3} (hissued : net.Issued (.forward forward)) {place : SignerPlace}
    {record : NodeRecord} {derived : DerivedHop} {seq : UInt64} {hash : Hash} {mid : Desk}
    (hturn : InTurn env.snapshot.this.addr e forward place) (hrecord : env.record = some record)
    (hpayee : place.isTerminal = true →
      userChildAddress record forward.order.to_ = some forward.payeeAddr)
    (hderived : deriveHop record env.snapshot.this.addr forward.payerAddr forward.payeeAddr
      = .ok derived)
    (hhop : HopSettled (keys ev.place) env forward place derived (net.node ev.place).desk mid seq
      hash)
    (hholds : HoldsHop mid.frames forward.order derived seq hash)
    (hframes : after.desk.frames = mid.frames)
    (hsends : ∀ out ∈ outputs, out.Plain ∨ SentOn forward place seq hash out) :
    (net.step target keys ev).Cascading keys layout := by
  have hext := Network.step_extends hstep hleaf
  obtain ⟨signers, hway⟩ := h.forwards forward hissued
  obtain rfl : place.signers = signers :=
    Option.some.inj (hturn.route.symm.trans hway.routed.route)
  obtain ⟨srcLeaf, dstLeaf, hroute⟩ := routeSigners_route hturn.route
  have hplace : place.signers[forward.hops.length]? = some ev.place := by
    rw [← hturn.index, hturn.turn, hlocated.snapshot]
  have hterminal : place.isTerminal = true ↔ ev.place = dstLeaf := by
    rw [SignerPlace.isTerminal, beq_iff_eq, hturn.index]
    exact hroute.terminal_iff hplace
  have hlists := hlocated.record record hrecord
  have hhopAt : layout.hop forward.payerAddr forward.payeeAddr ev.place = some derived :=
    hlists.hop_of_deriveHop hroute (hlocated.snapshot ▸ hderived)
  have hself : HoldsHop ((net.step target keys ev).log ev.place) forward.order derived seq
      hash := by
    rw [Network.step_log_self hstep, hframes]
    exact hholds
  have hknows : forward.payeeAddr.parent = some ev.place →
      layout.tenant forward.payeeAddr = forward.order.to_
        ∧ layout.kind forward.payeeAddr = .user := by
    intro heq
    obtain ⟨htenant, hkind, -⟩ := hlists.user
      (hpayee (hterminal.mpr (Option.some.inj (heq.symm.trans hroute.dst))))
    exact ⟨htenant, hkind⟩
  have hheld := hway.settle hext hplace ⟨⟨derived, seq, hash, hhopAt, hself⟩, hknows⟩
  -- a forward that is sent here hands on the one that came
  have hnext : ∀ out ∈ outputs, ∀ next, out.Carries (.forward next) → HandedOn forward next := by
    intro out hout next hcarries
    rcases hsends out hout with hplain | hsent
    · exact absurd hcarries hplain.not_carries
    · cases hsent with
      | result origin proof intermediates => cases hcarries
      | relay next' e' inner handed payload =>
          have hdecoded := SettlePayloadV3.fromBytes_toBytes hcodec payload
          cases hdecoded.symm.trans hcarries
          exact handed
  have hhanded : ∀ next, (net.step target keys ev).Issued (.forward next) →
      ∃ old, net.Issued (.forward old) ∧ old.order = next.order
        ∧ old.payerAddr = next.payerAddr ∧ old.payeeAddr = next.payeeAddr := by
    intro next hissued'
    rcases Network.step_issued hstep hissued' with hold | ⟨out, hout, hcarries⟩
    · exact ⟨next, hold, rfl, rfl, rfl⟩
    · have hnew := hnext out hout next hcarries
      exact ⟨forward, hissued, hnew.order.symm, hnew.payerAddr.symm, hnew.payeeAddr.symm⟩
  refine h.step_of hstep hleaf ?_ ?_ ?_ ?_
  · intro out hout next hcarries
    have hnew := hnext out hout next hcarries
    have hlength : forward.hops.length ≤ next.hops.length
        ∧ next.hops.length ≤ forward.hops.length + 1 := by
      rcases hnew.hops with heq | ⟨hop, heq⟩ <;> simp [heq]
    refine ⟨place.signers, ⟨?_, ?_, ?_, ?_⟩, hway.started.trans_le hlength.1, ?_⟩
    · rw [hnew.payerAddr, hnew.payeeAddr]
      exact hturn.route
    · rw [hnew.order]
      exact hway.routed.first
    · rw [hnew.payerAddr]
      exact hway.routed.payer
    · rw [hnew.order]
      exact hway.routed.addressable
    · rw [hnew.order, hnew.payerAddr, hnew.payeeAddr]
      exact fun i hi => hheld i (Nat.lt_succ_iff.mp (hi.trans_le hlength.2))
  · intro next next' hnext hnext' horder
    obtain ⟨old, hold, horder₁, hpayer₁, hpayee₁⟩ := hhanded next hnext
    obtain ⟨old', hold', horder₂, hpayer₂, hpayee₂⟩ := hhanded next' hnext'
    obtain ⟨hpayer, hpayee⟩ := h.same old old' hold hold'
      (horder₁.trans (horder.trans horder₂.symm))
    exact ⟨hpayer₁.symm.trans (hpayer.trans hpayer₂), hpayee₁.symm.trans (hpayee.trans hpayee₂)⟩
  · intro out hout result hcarries seq' hash' proof' intermediates' houtcome
    rcases hsends out hout with hplain | hsent
    · exact absurd hcarries hplain.not_carries
    · cases hsent with
      | relay next e' inner handed payload =>
          have hdecoded := SettlePayloadV3.fromBytes_toBytes hcodec payload
          cases hdecoded.symm.trans hcarries
      | result origin proof intermediates terminal =>
          cases hcarries
          cases houtcome
          have heq := hterminal.mp terminal
          have hparent : forward.payeeAddr.parent = some ev.place := heq ▸ hroute.dst
          have hcredit : derived = forward.order.creditHop := by
            have hlast := Layout.hop_last hroute (hknows hparent).1
            rw [← heq] at hlast
            exact Option.some.inj (hhopAt.symm.trans hlast)
          refine ⟨forward, place.signers, ev.place, hissued.mono hext, rfl, hturn.route, ?_,
            hparent, hcredit ▸ hself⟩
          intro b hb
          obtain ⟨j, hj, rfl⟩ := List.mem_iff_getElem.mp hb
          refine hheld j ?_ _ (List.getElem?_eq_getElem hj)
          have hlength := (hroute.terminal_iff hplace).mpr heq
          omega
  · intro order haddr hmem
    rw [hframes] at hmem
    cases hhop with
    | replayed frames =>
        rw [frames] at hmem
        exact Or.inl hmem
    | entered s checked =>
        obtain ⟨registry, -, -, hentered⟩ := checked.checked
        refine (hentered.mem_payments hmem).imp id fun heq => Or.inr ?_
        obtain rfl := OrderJournal.hash_injective hfree haddr hway.routed.addressable heq
        exact ⟨forward, place.signers, forward.hops.length, hissued.mono hext, rfl, hturn.route,
          hplace, hheld⟩

omit [Postcard] [EthPrimitives] [HashBytes] in
theorem Network.Sent.issued (hcodec : SettlePostcard.RoundTrip) {bytes : List UInt8}
    (h : net.Sent bytes) {payload : SettlePayloadV3}
    (hpayload : SettlePayloadV3.fromBytes bytes = .ok payload) : net.Issued payload := by
  obtain ⟨a, out, hout, hbytes⟩ := h
  exact ⟨a, out, hout, NodeOutput.carries_of_bytes hcodec hbytes hpayload⟩

/-- An event that appends nothing and sends nothing to other nodes. -/
theorem Network.Cascading.step_plain (h : net.Cascading keys layout)
    (hstep : (net.node ev.place).step target (keys ev.place) ev.event = (outputs, after))
    (hleaf : LeafStep (keys ev.place) (net.Completed layout) (net.node ev.place) outputs after)
    (hplain : ∀ out ∈ outputs, out.Plain)
    (hframes : after.desk.frames = (net.node ev.place).desk.frames) :
    (net.step target keys ev).Cascading keys layout := by
  refine h.step_silent hstep hleaf ?_ ?_
  · intro out hout payload hcarries
    exact absurd hcarries (hplain out hout).not_carries
  · intro order _ hmem
    rw [hframes] at hmem
    exact Or.inl hmem

theorem Network.Cascading.step_operated (h : net.Cascading keys layout)
    (hfree : Crypto.CollisionFree)
    (hstep : (net.node ev.place).step target (keys ev.place) ev.event = ([], after))
    (hleaf : LeafStep (keys ev.place) (net.Completed layout) (net.node ev.place) [] after)
    (hprefunds : OnlyPrefunds (net.log ev.place) after.desk) :
    (net.step target keys ev).Cascading keys layout := by
  refine h.step_silent hstep hleaf ?_ ?_
  · exact fun out hout => absurd hout List.not_mem_nil
  · intro order _ hmem
    obtain ⟨s, hs, hpayment⟩ := List.mem_filterMap.mp hmem
    rcases hprefunds s hs with hold | hnone | ⟨r, operator, hr, -⟩
    · exact Or.inl (List.mem_filterMap.mpr ⟨s, hold, hpayment⟩)
    · cases hnone.symm.trans hpayment
    · exact absurd (Option.some.inj (hr.symm.trans hpayment))
        (order_hash_ne_prefund hfree order r)

theorem Network.Cascading.step_ledger (h : net.Cascading keys layout) (hfree : Crypto.CollisionFree)
    {a : OctAddr} {env : DispatchEnv} {e : LedgerEnvelope} (hlocated : env.Located layout a)
    (haddr : ∀ order, e.payload.order? = some order → order.Addressable) :
    (net.step target keys ⟨a, .ledger env e⟩).Cascading keys layout := by
  have heffect := dispatchLedgerEnvelope_effect (h.leaf a) env e
  generalize hdispatch : dispatchLedgerEnvelope env e (net.node a) = result at heffect
  obtain ⟨outputs, after⟩ := result
  have hstep : (net.node a).step target (keys a) (.ledger env e) = (outputs, after) := hdispatch
  cases heffect with
  | answered outputs after step plain frames => exact h.step_plain hstep step plain frames
  | direct order auth record seq hash s mid outputs after step plain frames asked sender record_eq
      payer payee entered =>
      have hlists := hlocated.record record record_eq
      exact h.step_direct hfree hstep step plain (haddr order asked) (hlists.houses payer)
        (hlists.houses payee) frames entered
  | reserved forward s mid outputs after step sends sent frames asked addressed reservation =>
      exact h.step_reserved hfree hstep step hlocated (haddr _ asked) sends sent frames reservation

theorem Network.Cascading.step_settle (h : net.Cascading keys layout) (hfree : Crypto.CollisionFree)
    (hcodec : SettlePostcard.RoundTrip) {a : OctAddr} {env : DispatchEnv} {e : Envelope}
    (hlocated : env.Located layout a) (hsent : net.Sent e.payload) :
    (net.step target keys ⟨a, .settle env e⟩).Cascading keys layout := by
  cases hdispatch : dispatchSettleEnvelope target env e (net.node a) with
  | none =>
      have hstep : (net.node a).step target (keys a) (.settle env e) = ([], net.node a) := by
        rw [LedgerNode.step, hdispatch, Option.getD_none]
      exact h.step_plain hstep (.quiet (h.leaf a)) (fun _ hout => absurd hout List.not_mem_nil) rfl
  | some result =>
      obtain ⟨outputs, after⟩ := result
      have hstep : (net.node a).step target (keys a) (.settle env e) = (outputs, after) := by
        rw [LedgerNode.step, hdispatch, Option.getD_some]
      have hknown : ∀ result, SettlePayloadV3.fromBytes e.payload = .ok (.result result) →
          ∀ seq hash proof intermediates order leaf,
            result.outcome = .applied seq hash proof intermediates →
            order.hash = result.paymentId →
            verifyTerminalProof target proof order leaf seq hash = some true →
            net.Completed layout result.paymentId seq hash proof :=
        fun result hresult seq hash proof intermediates _ _ houtcome _ _ =>
          h.results result (hsent.issued hcodec hresult) seq hash proof intermediates houtcome
      cases dispatchSettleEnvelope_effect (h.leaf a) hknown hdispatch with
      | still _ _ step plain frames => exact h.step_plain hstep step plain frames
      | forward forward _ _ payload effect =>
          cases effect with
          | refused _ _ step frames sends =>
              refine h.step_silent hstep step ?_ ?_
              · intro out hout payload' hcarries
                rcases sends out hout with hplain | ⟨origin, reason, rfl⟩
                · exact absurd hcarries hplain.not_carries
                · exact ⟨_, reason, hcarries.symm⟩
              · intro order _ hmem
                rw [frames] at hmem
                exact Or.inl hmem
          | settled place record derived seq hash mid _ _ step turn record_eq payee derived_eq hop
              holds frames sends =>
              exact h.step_settled hfree hcodec hstep step hlocated (hsent.issued hcodec payload)
                turn record_eq payee derived_eq hop holds frames sends

/-- Every lawful event keeps the invariant. -/
theorem Network.Cascading.step (h : net.Cascading keys layout) (hfree : Crypto.CollisionFree)
    (hcodec : SettlePostcard.RoundTrip) (hlawful : ev.Lawful layout net) :
    (net.step target keys ev).Cascading keys layout := by
  obtain ⟨a, event⟩ := ev
  have hquiet : (∀ env e, event ≠ .settle env e) →
      LeafStep (keys a) (net.Completed layout) (net.node a)
        ((net.node a).step target (keys a) event).1 ((net.node a).step target (keys a) event).2 :=
    fun hne => LedgerNode.step_leafStep (h.leaf a) event fun env e heq => absurd heq (hne env e)
  cases event with
  | ledger env e => exact h.step_ledger hfree hlawful.1 hlawful.2
  | settle env e => exact h.step_settle hfree hcodec hlawful.1 hlawful.2
  | sweep env =>
      obtain ⟨hstep, hplain, hframes⟩ := sweepSettlements_step (h.leaf a) env
      exact h.step_plain rfl hstep hplain hframes
  | operate env op =>
      refine h.step_operated hfree rfl (hquiet ?_) hlawful.onlyPrefunds
      rintro _ _ heq
      cases heq
  | share service env op =>
      have hprefunds : OnlyPrefunds (net.log a)
          (op.perform env ⟨(net.node a).desk.frames, { service with key := keys a }⟩) :=
        hlawful.onlyPrefunds
      refine h.step_operated hfree rfl (hquiet ?_) hprefunds
      rintro _ _ heq
      cases heq
  | restart env =>
      have hstep := hquiet (by rintro _ _ heq; cases heq)
      have houtputs : ((net.node a).step target (keys a) (.restart env)).1 = []
          ∧ ((net.node a).step target (keys a) (.restart env)).2.desk.frames
            = (net.node a).desk.frames := by
        rw [LedgerNode.step]
        split
        · exact ⟨rfl, rfl⟩
        · exact ⟨rfl, rfl⟩
      have hplain : ∀ out ∈ ((net.node a).step target (keys a) (.restart env)).1, out.Plain := by
        rw [houtputs.1]
        exact fun _ hout => absurd hout List.not_mem_nil
      exact h.step_plain rfl hstep hplain houtputs.2

end Step

/-! ## Lawful runs keep the invariant -/

section Runs

variable [Postcard] [SettlePostcard] [EthPrimitives] [HashBytes] {target : Target}
  {keys : OctAddr → LedgerSecretKey} {ids : OctAddr → NodeId} {layout : Layout}

omit [EthPrimitives] [HashBytes] in
theorem Network.cascading_new : (Network.new keys ids).Cascading keys layout where
  leaf a := leafSound_new a _
  told _ _ hout := absurd hout List.not_mem_nil
  forwards _ hissued := by
    obtain ⟨_, _, hout, -⟩ := hissued
    exact absurd hout List.not_mem_nil
  same _ _ hissued := by
    obtain ⟨_, _, hout, -⟩ := hissued
    exact absurd hout List.not_mem_nil
  results _ hissued := by
    obtain ⟨_, _, hout, -⟩ := hissued
    exact absurd hout List.not_mem_nil
  booked _ _ _ hmem := absurd hmem List.not_mem_nil

theorem LawfulRun.cascading (hfree : Crypto.CollisionFree) (hcodec : SettlePostcard.RoundTrip)
    {events : List NetworkEvent} (h : LawfulRun target keys ids layout events) :
    (Network.run target keys ids events).Cascading keys layout := by
  induction events using List.reverseRecOn with
  | nil => exact Network.cascading_new
  | append_singleton events ev ih =>
      obtain ⟨hbefore, hev⟩ := h.of_concat
      rw [Network.run_concat]
      exact (ih hbefore).step hfree hcodec hev

end Runs

end Cawala
