import Cawala.Verification.CascadeSafety
import Cawala.Verification.NodeIdentity

/-! # Where entries and forwards come from

Every entry of every log can be traced to the event that made it. Whatever envelopes come in,
transfers are made by an operator, by an order of a user of the node, or by a settlement forward
when it was the node's turn; the accounts of a hop come from the record of the node, never from
the wire. -/

namespace Cawala

open Library Library.Transaction

/-! ## Transfers of orders -/

section Transfers

variable [Crypto] [Postcard]

/-- An entry is a transfer of an order that was verified against a registry before the order
expired. -/
structure SignedEntry.Transfers (s : SignedEntry) (order : PaymentOrder) (auth : AuthRef)
    (hop : DerivedHop) (rows : PeerRegistry) (now : UInt64) : Prop where
  booked : HopBooked order hop s
  auth : s.entry.auth = some auth
  payer : PayerSigned rows order s
  in_time : now ≤ order.expiry

/-- A service of the node with an id and a key. What registry it assembles depends on these and on
the peer file only. -/
structure LedgerService.Serves (id : NodeId) (key : LedgerSecretKey) (service : LedgerService) :
    Prop where
  nodeId : service.nodeId = id
  key : service.key = key

theorem Booking.transfers {key : LedgerSecretKey} {order : PaymentOrder} {auth : AuthRef}
    {hop : DerivedHop} {registry : LedgerService → Except ServiceError PeerRegistry}
    {now seq : UInt64} {desk after : Desk} {hash : Hash} {s : SignedEntry}
    (h : Booking key order auth hop.role hop.first hop.second registry now desk after seq hash
      s) : ∃ service rows, service.Serves desk.service.nodeId key ∧ registry service = .ok rows
        ∧ s.Transfers order auth hop rows now := by
  obtain ⟨began, hbegan, -, hnode, happlied⟩ := h.transfer
  obtain ⟨m, hm, hentry⟩ := happlied.entry
  obtain ⟨rows, hrows, hverified⟩ := happlied.verified
  obtain ⟨-, -, hpayer, htime, -⟩ := verifyTransfer_eq_ok.mp hverified
  refine ⟨began.service, rows, ⟨hnode, hbegan.sameKey⟩, hrows, ⟨?_, m, hm, ?_⟩, ?_, hpayer,
    UInt64.not_lt.mp htime⟩
  · rw [hentry]
    rfl
  · rw [hentry]
    rfl
  · rw [hentry]
    rfl

end Transfers

/-! ## The event that makes an entry -/

section Trace

variable [Crypto] [Postcard] [SettlePostcard] [EthPrimitives] [HashBytes]

/-- How an event makes an entry of the node it happens at, which has an id and a key. -/
inductive NodeAction.Makes (id : NodeId) (key : LedgerSecretKey) (s : SignedEntry) :
    NodeAction → Prop
  /-- A user of the node pays another one. -/
  | direct (env e order auth record service rows) (asked : e.payload.order? = some order)
      (sender : order.from_ = e.src.node) (record_eq : env.record = some record)
      (payer : childKind record order.from_ = some .user)
      (payee : childKind record order.to_ = some .user)
      (serves : LedgerService.Serves id key service)
      (rows_eq : service.effectiveRegistry env.apply = .ok rows)
      (transfers : s.Transfers order auth order.directHop rows env.now) :
      NodeAction.Makes id key s (.ledger env e)
  /-- A user of the node starts a cascade. -/
  | reserved (env e order auth record this payerAddr payeeAddr derived payerKey)
      (service : LedgerService) (known rows : PeerRegistry)
      (asked : e.payload.order? = some order) (record_eq : env.record = some record)
      (this_eq : record.address = some this)
      (payer : userChildAddress record e.src.node = some payerAddr)
      (derived_eq : deriveHop record this payerAddr payeeAddr = .ok derived)
      (serves : service.Serves id key)
      (known_eq : service.effectiveRegistry env.lookup = .ok known)
      (payer_row : known.get order.from_ = some payerKey)
      (rows_eq : assembleSettlementRegistry service env.assembly payerKey order auth = .ok rows)
      (transfers : s.Transfers order auth derived rows env.now) :
      NodeAction.Makes id key s (.ledger env e)
  /-- It is the turn of the node in a cascade. -/
  | settled (env e forward place record derived) (service : LedgerService) (rows : PeerRegistry)
      (payload : SettlePayloadV3.fromBytes e.payload = .ok (.forward forward))
      (turn : InTurn env.snapshot.this.addr e forward place) (record_eq : env.record = some record)
      (derived_eq : deriveHop record env.snapshot.this.addr forward.payerAddr forward.payeeAddr
        = .ok derived)
      (serves : service.Serves id key)
      (rows_eq : assembleSettlementRegistry service env.assembly forward.payerKey forward.order
        forward.auth = .ok rows)
      (carried : carriedHopsMatch forward.hops place.signers forward.payerAddr forward.payeeAddr
        env.snapshot.this.addr forward.order (Crypto.pubKey service.key) env.snapshot.neighborIds
        rows = true)
      (transfers : s.Transfers forward.order forward.auth derived rows env.now) :
      NodeAction.Makes id key s (.settle env e)
  | operated (env op) (made : op.Administrative → s.entry.Operated) :
      NodeAction.Makes id key s (.operate env op)
  | shared (service env op) (made : op.Administrative → s.entry.Operated) :
      NodeAction.Makes id key s (.share service env op)

variable {target : Target} {key : LedgerSecretKey} {known : Evidence} {node : LedgerNode}
  {s : SignedEntry}

omit [EthPrimitives] [HashBytes] in
theorem OrderEffect.makes {env : DispatchEnv} {e : LedgerEnvelope} {outputs : List NodeOutput}
    {after : LedgerNode} (h : OrderEffect key known env e node outputs after)
    (hkey : node.desk.service.key = key) (hs : s ∈ after.desk.frames) :
    s ∈ node.desk.frames ∨ (NodeAction.ledger env e).Makes node.desk.service.nodeId key s := by
  cases h with
  | answered _ _ _ _ frames => exact Or.inl (frames ▸ hs)
  | direct order auth record seq hash t mid _ _ _ _ frames asked sender record_eq payer payee
      entered =>
      rw [frames, entered.frames] at hs
      refine (List.mem_append.mp hs).imp id fun hs => ?_
      obtain rfl := List.mem_singleton.mp hs
      obtain ⟨service, rows, hserves, hrows, htransfers⟩ : ∃ service rows,
          LedgerService.Serves node.desk.service.nodeId key service
            ∧ service.effectiveRegistry env.apply = .ok rows
            ∧ s.Transfers order auth order.directHop rows env.now :=
        Booking.transfers entered
      exact .direct env e order auth record service rows asked sender record_eq payer payee
        hserves hrows htransfers
  | reserved forward t mid _ _ _ _ _ frames asked _ reservation =>
      obtain ⟨record, this, derived, signers, registry, seq, hash, carried, hrecord, hthis, hpayer,
        -, hderived, hassembly, hentered, -⟩ := reservation.hop
      obtain ⟨rows, hrows, hget⟩ := reservation.payerRow
      rw [frames, hentered.frames] at hs
      refine (List.mem_append.mp hs).imp id fun hs => ?_
      obtain rfl := List.mem_singleton.mp hs
      obtain ⟨-, rows', -, hrows', htransfers⟩ := hentered.transfers
      obtain rfl := Except.ok.inj hrows'
      exact .reserved env e forward.order forward.auth record this forward.payerAddr
        forward.payeeAddr derived forward.payerKey _ rows registry asked hrecord hthis hpayer
        hderived ⟨rfl, hkey⟩ hrows hget hassembly htransfers

omit [EthPrimitives] [HashBytes] in
/-- A settlement envelope makes at most the hop of its forward. -/
theorem SettleEffect.makes {env : DispatchEnv} {e : Envelope} {outputs : List NodeOutput}
    {after : LedgerNode} (h : SettleEffect key known env e node outputs after)
    (hkey : node.desk.service.key = key) (hs : s ∈ after.desk.frames) :
    s ∈ node.desk.frames ∨ (NodeAction.settle env e).Makes node.desk.service.nodeId key s := by
  cases h with
  | still _ _ _ _ frames => exact Or.inl (frames ▸ hs)
  | forward forward _ _ payload effect =>
      cases effect with
      | refused _ _ _ frames => exact Or.inl (frames ▸ hs)
      | settled place record derived seq hash mid _ _ _ turn record_eq _ derived_eq hop _ frames =>
          rw [frames] at hs
          cases hop with
          | replayed frames => exact Or.inl (frames ▸ hs)
          | entered t checked =>
              obtain ⟨registry, hassembly, hcarried, hentered⟩ := checked.checked
              rw [hentered.frames] at hs
              refine (List.mem_append.mp hs).imp id fun hs => ?_
              obtain rfl := List.mem_singleton.mp hs
              obtain ⟨-, rows', -, hrows', htransfers⟩ := hentered.transfers
              obtain rfl := Except.ok.inj hrows'
              exact .settled env e forward place record derived _ registry payload turn record_eq
                derived_eq ⟨rfl, hkey⟩ hassembly hcarried htransfers

omit [EthPrimitives] [HashBytes] in
/-- A settlement envelope at a node whose successes rest on verified proofs. -/
theorem dispatchSettleEnvelope_verified (h : LeafSound key (VerifiedProof target) node)
    {env : DispatchEnv} {e : Envelope} {outputs : List NodeOutput} {after : LedgerNode}
    (hdispatch : dispatchSettleEnvelope target env e node = some (outputs, after)) :
    SettleEffect key (VerifiedProof target) env e node outputs after :=
  dispatchSettleEnvelope_effect h
    (fun _ _ _ _ _ _ order leaf _ horder hproof => ⟨order, leaf, horder, hproof⟩) hdispatch

/-- Every entry that an event adds is one that it makes. -/
theorem LedgerNode.step_makes (h : LeafSound key (VerifiedProof target) node) (action : NodeAction)
    (hs : s ∈ (node.step target key action).2.desk.frames) :
    s ∈ node.desk.frames ∨ action.Makes node.desk.service.nodeId key s := by
  have hkey := h.desk.service.sameKey
  cases action with
  | ledger env e => exact (dispatchLedgerEnvelope_effect h env e).makes hkey hs
  | settle env e =>
      change s ∈ ((dispatchSettleEnvelope target env e node).getD ([], node)).2.desk.frames at hs
      cases hdispatch : dispatchSettleEnvelope target env e node with
      | none =>
          rw [hdispatch] at hs
          exact Or.inl hs
      | some result =>
          rw [hdispatch] at hs
          obtain ⟨outputs, after⟩ := result
          exact (dispatchSettleEnvelope_verified h hdispatch).makes hkey hs
  | sweep env =>
      obtain ⟨-, -, hframes⟩ := sweepSettlements_step h env
      exact Or.inl (hframes ▸ hs)
  | operate env op =>
      by_cases hadmin : op.Administrative
      · exact (hadmin.onlyPrefunds s hs).imp id fun hmade => .operated env op fun _ => hmade
      · exact Or.inr (.operated env op fun hno => absurd hno hadmin)
  | share service env op =>
      by_cases hadmin : op.Administrative
      · have hprefunds : OnlyPrefunds node.desk.frames
            (op.perform env ⟨node.desk.frames, { service with key }⟩) := hadmin.onlyPrefunds
        exact (hprefunds s hs).imp id fun hmade => .shared service env op fun _ => hmade
      · exact Or.inr (.shared service env op fun hno => absurd hno hadmin)
  | restart env =>
      left
      simp only [LedgerNode.step] at hs
      split at hs
      · exact hs
      · exact hs

/-- In every run, whatever envelopes come in, each entry of a log was added by one event at its
node, which made it: a command of the operator, the order of a user of the node, or the forward of
a cascade when it was the turn of the node. Results, sweeps and restarts add nothing. -/
theorem entries_traced (target : Target) (keys : OctAddr → LedgerSecretKey)
    (ids : OctAddr → NodeId) (events : List NetworkEvent) (a : OctAddr) (s : SignedEntry)
    (hs : s ∈ (Network.run target keys ids events).log a) :
    ∃ before ev after, events = before ++ ev :: after ∧ ev.place = a
      ∧ s ∉ (Network.run target keys ids before).log a
      ∧ s ∈ (Network.run target keys ids (before ++ [ev])).log a
      ∧ ev.event.Makes (ids a) (keys a) s := by
  induction events using List.reverseRecOn with
  | nil => exact absurd hs List.not_mem_nil
  | append_singleton events ev ih =>
      by_cases hold : s ∈ (Network.run target keys ids events).log a
      · obtain ⟨before, ev', after, rfl, hrest⟩ := ih hold
        exact ⟨before, ev', after ++ [ev], by simp, hrest⟩
      · have hadded := hs
        rw [Network.run_concat] at hadded
        have hplace : ev.place = a := by
          by_contra hne
          rw [Network.log, Network.step_node_of_ne ev fun heq => hne heq.symm] at hadded
          exact hold hadded
        subst hplace
        rw [Network.log, Network.step_node_self] at hadded
        have hmade := LedgerNode.step_makes (Network.run_leafSound target keys ids events ev.place)
          ev.event hadded
        have hid : ((Network.run target keys ids events).node ev.place).desk.service.nodeId
            = ids ev.place := Network.run_of target keys ids events ev.place
        exact ⟨events, ev, [], rfl, rfl, hold, hs, hid ▸ hmade.resolve_left hold⟩

/-! ## The event that sends a forward -/

/-- How an event sends a forward from the node it happens at, which has an id and a key. -/
inductive NodeAction.Sends (id : NodeId) (key : LedgerSecretKey) (forward : SettleForwardV3) :
    NodeAction → Prop
  /-- A user of the node starts the cascade of its order, with the row that the node has of it. -/
  | reserved (env e record payerKey) (service : LedgerService) (known : PeerRegistry)
      (asked : e.payload.order? = some forward.order)
      (addressed : e.payload.payeeAddr? = some forward.payeeAddr)
      (record_eq : env.record = some record)
      (payer : userChildAddress record e.src.node = some forward.payerAddr)
      (serves : service.Serves id key)
      (known_eq : service.effectiveRegistry env.lookup = .ok known)
      (payer_row : known.get forward.order.from_ = some payerKey)
      (operator : payerKey.operator = forward.auth.operator) :
      NodeAction.Sends id key forward (.ledger env e)
  /-- A signer hands on the forward that came to it. -/
  | handed (env e old) (payload : SettlePayloadV3.fromBytes e.payload = .ok (.forward old))
      (handed : HandedOn old forward) : NodeAction.Sends id key forward (.settle env e)

omit [Postcard] [SettlePostcard] [EthPrimitives] [HashBytes] in
theorem assembleSettlementRegistry_operator {service : LedgerService} {tx : TxEnv}
    {payerKey : PeerKeys} {order : PaymentOrder} {auth : AuthRef} {rows : PeerRegistry}
    (h : assembleSettlementRegistry service tx payerKey order auth = .ok rows) :
    payerKey.operator = auth.operator := by
  unfold assembleSettlementRegistry at h
  split at h
  · cases h
  next hguard =>
    simp only [not_or, ne_eq, not_not] at hguard
    exact hguard.2.2.2

variable {forward : SettleForwardV3} {out : NodeOutput}

omit [EthPrimitives] [HashBytes] in
theorem OrderEffect.sends {env : DispatchEnv} {e : LedgerEnvelope} {outputs : List NodeOutput}
    {after : LedgerNode} (h : OrderEffect key known env e node outputs after)
    (hkey : node.desk.service.key = key) (hout : out ∈ outputs)
    (hcarries : out.Carries (.forward forward)) :
    (NodeAction.ledger env e).Sends node.desk.service.nodeId key forward := by
  cases h with
  | answered _ _ _ plain => exact absurd hcarries (plain out hout).not_carries
  | direct _ _ _ _ _ _ _ _ _ _ plain => exact absurd hcarries (plain out hout).not_carries
  | reserved sent _ _ _ _ _ sends _ _ asked addressed reservation =>
      rcases sends out hout with hplain | ⟨next, rfl⟩
      · exact absurd hcarries hplain.not_carries
      · cases hcarries
        obtain ⟨record, _, _, _, _, _, _, _, hrecord, -, hpayer, -, -, hassembly, -⟩ :=
          reservation.hop
        obtain ⟨rows, hrows, hget⟩ := reservation.payerRow
        exact .reserved env e record forward.payerKey _ rows asked addressed hrecord hpayer
          ⟨rfl, hkey⟩ hrows hget (assembleSettlementRegistry_operator hassembly)

omit [EthPrimitives] [HashBytes] in
theorem SettleEffect.sends (hcodec : SettlePostcard.RoundTrip) {env : DispatchEnv} {e : Envelope}
    {outputs : List NodeOutput} {after : LedgerNode}
    (h : SettleEffect key known env e node outputs after) (hout : out ∈ outputs)
    (hcarries : out.Carries (.forward forward)) :
    (NodeAction.settle env e).Sends node.desk.service.nodeId key forward := by
  cases h with
  | still _ _ _ plain => exact absurd hcarries (plain out hout).not_carries
  | forward old _ _ payload effect =>
      cases effect with
      | refused _ _ _ _ sends =>
          rcases sends out hout with hplain | ⟨origin, reason, rfl⟩
          · exact absurd hcarries hplain.not_carries
          · cases hcarries
      | settled place record derived seq hash mid _ _ _ _ _ _ _ _ _ _ sends =>
          rcases sends out hout with hplain | hsent
          · exact absurd hcarries hplain.not_carries
          · cases hsent with
            | result => cases hcarries
            | relay next e' inner handed encoded =>
                have hdecoded := SettlePayloadV3.fromBytes_toBytes hcodec encoded
                cases hdecoded.symm.trans hcarries
                exact .handed env e old payload handed

theorem LedgerNode.step_sends (hcodec : SettlePostcard.RoundTrip)
    (h : LeafSound key (VerifiedProof target) node) (action : NodeAction)
    (hout : out ∈ (node.step target key action).1) (hcarries : out.Carries (.forward forward)) :
    action.Sends node.desk.service.nodeId key forward := by
  cases action with
  | ledger env e =>
      exact (dispatchLedgerEnvelope_effect h env e).sends h.desk.service.sameKey hout hcarries
  | settle env e =>
      change out ∈ ((dispatchSettleEnvelope target env e node).getD ([], node)).1 at hout
      cases hdispatch : dispatchSettleEnvelope target env e node with
      | none =>
          rw [hdispatch] at hout
          exact absurd hout List.not_mem_nil
      | some result =>
          rw [hdispatch] at hout
          obtain ⟨outputs, after⟩ := result
          exact (dispatchSettleEnvelope_verified h hdispatch).sends hcodec hout hcarries
  | sweep env =>
      obtain ⟨-, hplain, -⟩ := sweepSettlements_step h env
      exact absurd hcarries (hplain out hout).not_carries
  | operate env op => exact absurd hout List.not_mem_nil
  | share service env op => exact absurd hout List.not_mem_nil
  | restart env =>
      simp only [LedgerNode.step] at hout
      split at hout
      · exact absurd hout List.not_mem_nil
      · exact absurd hout List.not_mem_nil

end Trace

namespace Concrete

/-- The entry of the root for the order for `v` was made by an event at the root. -/
theorem entries_traced_root : ∃ s ev, s.payment = some (orderTo addressOfV 3).hash
    ∧ ev ∈ cascadeEvents ∧ ev.place = .root
    ∧ ev.event.Makes (nameOf .root) (stationKey .root) s := by
  obtain ⟨s, hs, hpayment⟩ := List.mem_filterMap.mp cascadeEvents_holders.1
  obtain ⟨before, ev, after, hevents, hplace, -, -, hmakes⟩ :=
    entries_traced .native64 stationKey nameOf cascadeEvents .root s hs
  exact ⟨s, ev, hpayment, by simp [hevents], hplace, hmakes⟩

end Concrete

end Cawala
