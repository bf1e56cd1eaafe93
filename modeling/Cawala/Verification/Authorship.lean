import Cawala.Verification.Provenance

/-! # In whose name payments are made

A leaf books an order for whoever sends it, and takes the address of the payee from the sender.
Where each user sends its own orders to where the payee sits, every payment of every log is
authorized by the payer of its order, and every forward leads from the payer to the payee. -/

namespace Cawala

open Library Library.Transaction

variable [Crypto] [Postcard]

/-! ## Own orders -/

/-- The registry that a node reads lists its users with their operator keys. -/
def TxEnv.Registers (operators : NodeId → OperatorPubKey) (record : NodeRecord) (tx : TxEnv) :
    Prop :=
  ∀ rows, tx.peers = some rows → ∀ u, childKind record u = some .user →
    ∃ row, rows.get u = some row ∧ row.operator = operators u

section Registries

variable {operators : NodeId → OperatorPubKey} {record : NodeRecord} {service : LedgerService}
  {tx : TxEnv} {rows : PeerRegistry} {u : NodeId}

omit [Postcard] in
theorem effectiveRegistry_row {peers : PeerRegistry} {row : PeerKeys}
    (h : service.effectiveRegistry tx = .ok rows) (hpeers : tx.peers = some peers)
    (hrow : peers.get u = some row) : rows.get u = some row := by
  unfold LedgerService.effectiveRegistry at h
  rw [hpeers] at h
  split at h
  next heq => cases heq
  next => cases h
  next registry operator heq hoperator =>
    obtain rfl := Option.some.inj heq
    split at h
    · simp only [ite_error_eq_ok, Except.ok.injEq] at h
      exact h.2 ▸ hrow
    next hnone =>
      have hinsert := tagged_eq_ok.mp h
      simp only [PeerRegistry.insert, ite_error_eq_ok, Except.ok.injEq] at hinsert
      obtain ⟨-, -, -, -, rfl⟩ := hinsert
      rw [PeerRegistry.get, Std.ExtTreeMap.getElem?_insert, if_neg]
      · exact hrow
      · intro heq
        obtain rfl := Std.LawfulEqCmp.eq_of_compare heq
        cases hnone.symm.trans hrow

omit [Postcard] in
theorem TxEnv.Registers.effective (h : tx.Registers operators record)
    (huser : childKind record u = some .user) (hrows : service.effectiveRegistry tx = .ok rows) :
    ∃ row, rows.get u = some row ∧ row.operator = operators u := by
  have hpeers : ∃ peers, tx.peers = some peers := by
    unfold LedgerService.effectiveRegistry at hrows
    split at hrows
    · cases hrows
    · cases hrows
    next peers _ heq _ => exact ⟨peers, heq⟩
  obtain ⟨peers, hpeers⟩ := hpeers
  obtain ⟨row, hrow, hoperator⟩ := h peers hpeers u huser
  exact ⟨row, effectiveRegistry_row hrows hpeers hrow, hoperator⟩

end Registries

section Own

variable [SettlePostcard] [EthPrimitives] [HashBytes]

/-- Users send their own orders to where the payee sits, from a leaf that they are registered
at. -/
def NetworkEvent.Own (operators : NodeId → OperatorPubKey) (layout : Layout) (ev : NetworkEvent) :
    Prop :=
  match ev.event with
  | .ledger env e =>
      (∀ order, e.payload.order? = some order → e.src.node = order.from_
        ∧ ∀ payeeAddr, e.payload.payeeAddr? = some payeeAddr →
          layout.tenant payeeAddr = order.to_ ∧ layout.kind payeeAddr = .user)
      ∧ ∀ record, env.record = some record →
        env.apply.Registers operators record ∧ env.lookup.Registers operators record
  | _ => True

end Own

/-- An entry names the order that it moves in its authorization. -/
structure SignedEntry.Authored (operators : NodeId → OperatorPubKey) (s : SignedEntry) :
    Prop where
  auth : ∀ id, s.payment = some id → ∃ auth, s.entry.auth = some auth ∧ auth.orderHash = id
  payer : ∀ order : PaymentOrder, order.Addressable → s.payment = some order.hash →
    ∃ auth, s.entry.auth = some auth ∧ auth.operator = operators order.from_
      ∧ auth.nonce = order.nonce
      ∧ Crypto.verify auth.operator [.digest order.hash] auth.signature = true

/-- A forward leads from the address of the payer to the one of the payee, in the name of the
payer. -/
structure SettleForwardV3.Authored (operators : NodeId → OperatorPubKey) (layout : Layout)
    (forward : SettleForwardV3) : Prop where
  addressable : forward.order.Addressable
  operator : forward.auth.operator = operators forward.order.from_
  payer : layout.tenant forward.payerAddr = forward.order.from_
    ∧ layout.kind forward.payerAddr = .user
  payee : layout.tenant forward.payeeAddr = forward.order.to_
    ∧ layout.kind forward.payeeAddr = .user

section Authored

variable {operators : NodeId → OperatorPubKey} {layout : Layout} {s : SignedEntry}

omit [Postcard] in
/-- A transfer of an order in the name of its payer. -/
theorem SignedEntry.Transfers.authored {order : PaymentOrder} {auth : AuthRef} {hop : DerivedHop}
    {rows : PeerRegistry} {now : UInt64} (h : s.Transfers order auth hop rows now)
    (hfree : Crypto.CollisionFree) (haddr : order.Addressable)
    (hoperator : auth.operator = operators order.from_) : s.Authored operators := by
  obtain ⟨auth', hauth, -, hhash, hnonce, hverified⟩ := h.payer.auth
  obtain rfl := Option.some.inj (h.auth.symm.trans hauth)
  have hpayment : s.payment = some order.hash := by
    rw [SignedEntry.payment, h.booked.body]
    rfl
  constructor
  · intro id hid
    obtain rfl := Option.some.inj (hpayment.symm.trans hid)
    exact ⟨auth, hauth, hhash⟩
  · intro order' haddr' hpayment'
    obtain rfl := OrderJournal.hash_injective hfree haddr haddr'
      (Option.some.inj (hpayment.symm.trans hpayment'))
    exact ⟨auth, hauth, hoperator, hnonce, hverified⟩

omit [Postcard] in
/-- The payer of a verified transfer is registered with the key that authorized it. -/
theorem SignedEntry.Transfers.operator_eq {order : PaymentOrder} {auth : AuthRef}
    {hop : DerivedHop} {rows : PeerRegistry} {now : UInt64} {row : PeerKeys}
    (h : s.Transfers order auth hop rows now) (hrow : rows.get order.from_ = some row) :
    auth.operator = row.operator := by
  obtain ⟨auth', hauth, hoperator, -⟩ := h.payer.auth
  obtain rfl := Option.some.inj (h.auth.symm.trans hauth)
  rw [PeerRegistry.operatorOf, hrow] at hoperator
  exact (Option.some.inj hoperator).symm

omit [Postcard] in
/-- What the operator posts names a prefund, or nothing. -/
theorem Entry.Operated.authored (h : s.entry.Operated) (hfree : Crypto.CollisionFree) :
    s.Authored operators := by
  constructor
  · intro id hid
    rcases h with hnone | ⟨r, operator, hr, hauth⟩
    · cases hnone.symm.trans hid
    · obtain rfl := Option.some.inj (hr.symm.trans hid)
      exact ⟨_, hauth, rfl⟩
  · intro order _ hpayment
    rcases h with hnone | ⟨r, operator, hr, -⟩
    · cases hnone.symm.trans hpayment
    · exact absurd (Option.some.inj (hr.symm.trans hpayment)) (order_hash_ne_prefund hfree order r)

omit [Postcard] in
theorem SignedEntry.Authored.authorizedFor_iff (h : s.Authored operators) (id : Hash) :
    authorizedFor id s = true ↔ s.payment = some id := by
  have hauth := h.auth
  unfold authorizedFor
  rw [SignedEntry.payment] at hauth ⊢
  cases hbody : s.entry.body with
  | transfer payment amount role =>
      obtain ⟨auth, hauth', rfl⟩ := hauth payment (by rw [hbody]; rfl)
      simp [hauth', EntryBody.payment]
  | _ => simp [EntryBody.payment]

variable [SettlePostcard]

structure Network.Authored (operators : NodeId → OperatorPubKey) (layout : Layout)
    (net : Network) : Prop where
  entries : ∀ a, ∀ s ∈ net.log a, s.Authored operators
  forwards : ∀ forward, net.Issued (.forward forward) → forward.Authored operators layout

end Authored

/-! ## Authored networks -/

section Step

variable [SettlePostcard] [EthPrimitives] [HashBytes] {target : Target}
  {keys : OctAddr → LedgerSecretKey} {operators : NodeId → OperatorPubKey} {layout : Layout}
  {net : Network} {a : OctAddr} {action : NodeAction}

omit [EthPrimitives] [HashBytes] in
theorem NodeAction.Makes.authored {s : SignedEntry} {id : NodeId} {key : LedgerSecretKey}
    (h : action.Makes id key s) (hnet : net.Authored operators layout)
    (hfree : Crypto.CollisionFree)
    (hcodec : SettlePostcard.RoundTrip) (hlawful : NetworkEvent.Lawful layout net ⟨a, action⟩)
    (hown : NetworkEvent.Own operators layout ⟨a, action⟩) : s.Authored operators := by
  cases h with
  | direct env e order auth record service rows asked sender record_eq payer payee serves
      rows_eq transfers =>
      obtain ⟨row, hrow, hoperator⟩ := (hown.2 record record_eq).1.effective payer rows_eq
      exact transfers.authored hfree (hlawful.2 order asked)
        ((transfers.operator_eq hrow).trans hoperator)
  | reserved env e order auth record this payerAddr payeeAddr derived payerKey service known rows
      asked record_eq this_eq payer derived_eq serves known_eq payer_row rows_eq transfers =>
      have huser := (hlawful.1.record record record_eq).childKind_user payer
      obtain ⟨row, hrow, hoperator⟩ := (hown.2 record record_eq).2.effective huser known_eq
      rw [(hown.1 order asked).1] at hrow hoperator
      obtain rfl := Option.some.inj (payer_row.symm.trans hrow)
      exact transfers.authored hfree (hlawful.2 order asked)
        ((assembleSettlementRegistry_operator rows_eq).symm.trans hoperator)
  | settled env e forward place record derived service rows payload turn record_eq derived_eq
      serves rows_eq carried transfers =>
      have hforward := hnet.forwards forward (hlawful.2.issued hcodec payload)
      exact transfers.authored hfree hforward.addressable hforward.operator
  | operated env op made => exact (made hlawful).authored hfree
  | shared service env op made => exact (made hlawful).authored hfree

omit [Postcard] [EthPrimitives] [HashBytes] in
theorem NodeAction.Sends.authored {forward : SettleForwardV3} {id : NodeId} {key : LedgerSecretKey}
    (h : action.Sends id key forward)
    (hnet : net.Authored operators layout) (hcodec : SettlePostcard.RoundTrip)
    (hlawful : NetworkEvent.Lawful layout net ⟨a, action⟩)
    (hown : NetworkEvent.Own operators layout ⟨a, action⟩) :
    forward.Authored operators layout := by
  cases h with
  | reserved env e record payerKey service known asked addressed record_eq payer serves
      known_eq payer_row operator =>
      have hlists := hlawful.1.record record record_eq
      obtain ⟨hsender, hpayee⟩ := hown.1 forward.order asked
      obtain ⟨row, hrow, hoperator⟩ :=
        (hown.2 record record_eq).2.effective (hlists.childKind_user payer) known_eq
      rw [hsender] at hrow hoperator payer
      obtain rfl := Option.some.inj (payer_row.symm.trans hrow)
      obtain ⟨htenant, hkind, -⟩ := hlists.user payer
      exact ⟨hlawful.2 _ asked, operator.symm.trans hoperator, ⟨htenant, hkind⟩,
        hpayee _ addressed⟩
  | handed env e old payload handed =>
      have hold := hnet.forwards old (hlawful.2.issued hcodec payload)
      refine ⟨?_, ?_, ?_, ?_⟩
      · rw [handed.order]
        exact hold.addressable
      · rw [handed.auth, handed.order]
        exact hold.operator
      · rw [handed.payerAddr, handed.order]
        exact hold.payer
      · rw [handed.payeeAddr, handed.order]
        exact hold.payee

theorem Network.Authored.step {ev : NetworkEvent} (h : net.Authored operators layout)
    (hfree : Crypto.CollisionFree) (hcodec : SettlePostcard.RoundTrip)
    (hsound : LeafSound (keys ev.place) (VerifiedProof target) (net.node ev.place))
    (hlawful : ev.Lawful layout net) (hown : ev.Own operators layout) :
    (net.step target keys ev).Authored operators layout := by
  constructor
  · intro a s hs
    by_cases ha : a = ev.place
    · subst ha
      rw [Network.log, Network.step_node_self] at hs
      rcases LedgerNode.step_makes hsound ev.event hs with hold | hmakes
      · exact h.entries _ s hold
      · exact hmakes.authored h hfree hcodec hlawful hown
    · rw [Network.step_log_of_ne ha] at hs
      exact h.entries a s hs
  · intro forward hissued
    rcases Network.step_issued rfl hissued with hold | ⟨out, hout, hcarries⟩
    · exact h.forwards forward hold
    · exact (LedgerNode.step_sends hcodec hsound ev.event hout hcarries).authored h hcodec hlawful
        hown

/-- Where users send their own orders, all is in the name of the payers. -/
theorem LawfulRun.authored {ids : OctAddr → NodeId} {events : List NetworkEvent}
    (h : LawfulRun target keys ids layout events) (hfree : Crypto.CollisionFree)
    (hcodec : SettlePostcard.RoundTrip) (hown : ∀ ev ∈ events, ev.Own operators layout) :
    (Network.run target keys ids events).Authored operators layout := by
  induction events using List.reverseRecOn with
  | nil =>
      refine ⟨fun _ _ hs => absurd hs List.not_mem_nil, fun _ hissued => ?_⟩
      obtain ⟨_, _, hout, -⟩ := hissued
      exact absurd hout List.not_mem_nil
  | append_singleton events ev ih =>
      obtain ⟨hbefore, hev⟩ := h.of_concat
      rw [Network.run_concat]
      exact (ih hbefore fun ev' hev' => hown ev' (List.mem_append_left _ hev')).step hfree hcodec
        (Network.run_leafSound target keys ids events ev.place) hev
        (hown ev (List.mem_append_right _ List.mem_cons_self))

end Step

end Cawala
