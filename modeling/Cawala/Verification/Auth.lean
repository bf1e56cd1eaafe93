import Cawala.Library.Except
import Cawala.Library.TreeMap
import Cawala.Model.Auth

/-! # Registered signers and authorised transfers

A registry names each ledger key once, so a signature names its signer; and a verified
transfer carries the payer's authorisation of its order. -/

namespace Cawala

open Std (ExtTreeMap)
open Library

variable [Crypto]

namespace PeerRegistry

/-- The rows of a registry: keyed by node id, no key used twice, ledger keys for nodes only. -/
structure Registered (r : PeerRegistry) : Prop where
  keyed : ∀ id keys, r.get id = some keys → keys.nodeId = id
  role : ∀ id keys, r.get id = some keys → roleLedgerOk keys = true
  operator : ∀ id keys id' keys', r.get id = some keys → r.get id' = some keys' →
    keys.operator = keys'.operator → id = id'
  ledger : ∀ id keys id' keys' key, r.get id = some keys → r.get id' = some keys' →
    keys.ledger = some key → keys'.ledger = some key → id = id'

theorem mem_rows_iff {r : PeerRegistry} {keys : PeerKeys} :
    keys ∈ r.rows ↔ ∃ id, r.get id = some keys := by
  simp only [rows, List.mem_map, Prod.exists, exists_eq_right,
    ExtTreeMap.mem_toList_iff_getElem?_eq_some]
  rfl

theorem registered_insert {r next : PeerRegistry} {keys : PeerKeys} (hr : r.Registered)
    (h : r.insert keys = .ok next) : next.Registered := by
  simp only [insert, ite_error_eq_ok, Except.ok.injEq, Bool.not_eq_true', Bool.not_eq_false,
    Bool.and_eq_true, not_and, List.any_eq_true, not_exists, beq_iff_eq] at h
  obtain ⟨hrole, hoperator, hledger, -, rfl⟩ := h
  have hget : ∀ id, ({ peers := r.peers.insert keys.nodeId keys } : PeerRegistry).get id
      = if keys.nodeId = id then some keys else r.get id := by
    intro id
    simp [get, ExtTreeMap.getElem?_insert]
  -- Each row of the new registry is the new one or an old one.
  have hrow : ∀ {id row}, ({ peers := r.peers.insert keys.nodeId keys } : PeerRegistry).get id
      = some row → (id = keys.nodeId ∧ row = keys) ∨ r.get id = some row := by
    intro id row h
    rw [hget] at h
    split at h
    · rename_i heq
      exact Or.inl ⟨heq.symm, (Option.some.inj h).symm⟩
    · exact Or.inr h
  have hold : ∀ {id row}, r.get id = some row → row ∈ r.rows := fun h => mem_rows_iff.mpr ⟨_, h⟩
  refine ⟨?_, ?_, ?_, ?_⟩
  · intro id row h
    rcases hrow h with ⟨rfl, rfl⟩ | h
    · rfl
    · exact hr.keyed id row h
  · intro id row h
    rcases hrow h with ⟨-, rfl⟩ | h
    · exact hrole
    · exact hr.role id row h
  · intro id row id' row' h h' heq
    rcases hrow h with ⟨rfl, rfl⟩ | ho
    · rcases hrow h' with ⟨rfl, -⟩ | ho'
      · rfl
      · exact absurd heq.symm (hoperator row' (hold ho'))
    · rcases hrow h' with ⟨rfl, rfl⟩ | ho'
      · exact absurd heq (hoperator row (hold ho))
      · exact hr.operator id row id' row' ho ho' heq
  · intro id row id' row' key h h' hk hk'
    rcases hrow h with ⟨rfl, rfl⟩ | ho
    · rcases hrow h' with ⟨rfl, -⟩ | ho'
      · rfl
      · exact absurd (hk'.trans hk.symm)
          (hledger (by simp [hk]) row' (hold ho') (by simp [hk']))
    · rcases hrow h' with ⟨rfl, rfl⟩ | ho'
      · exact absurd (hk.trans hk'.symm) (hledger (by simp [hk']) row (hold ho) (by simp [hk]))
      · exact hr.ledger id row id' row' key ho ho' hk hk'

theorem registered_of_built {r : PeerRegistry} (h : Built r) : r.Registered := by
  induction h with
  | new => exact ⟨by simp [get, new], by simp [get, new], by simp [get, new], by simp [get, new]⟩
  | insert _ h ih => exact registered_insert ih h

theorem ledgerOf_eq_some {r : PeerRegistry} {id : NodeId} {key : LedgerPubKey} :
    r.ledgerOf id = some key ↔ ∃ keys, r.get id = some keys ∧ keys.ledger = some key := by
  simp [ledgerOf, Option.bind_eq_some_iff]

theorem ledgerOf_injective {r : PeerRegistry} (hr : r.Registered) {id id' : NodeId}
    {key : LedgerPubKey} (h : r.ledgerOf id = some key) (h' : r.ledgerOf id' = some key) :
    id = id' := by
  obtain ⟨keys, hkeys, hledger⟩ := ledgerOf_eq_some.mp h
  obtain ⟨keys', hkeys', hledger'⟩ := ledgerOf_eq_some.mp h'
  exact hr.ledger _ _ _ _ _ hkeys hkeys' hledger hledger'

theorem peerByLedger_eq_some {r : PeerRegistry} (hr : r.Registered) {key : LedgerPubKey}
    {peer : PeerKeys} :
    r.peerByLedger key = some peer ↔ r.get peer.nodeId = some peer ∧ peer.ledger = some key := by
  have hfound : ∀ {found}, r.peerByLedger key = some found →
      r.get found.nodeId = some found ∧ found.ledger = some key := by
    intro found h
    obtain ⟨id, hid⟩ := mem_rows_iff.mp (List.mem_of_find?_eq_some h)
    refine ⟨hr.keyed id found hid ▸ hid, ?_⟩
    simpa using List.find?_some h
  constructor
  · exact hfound
  · rintro ⟨hget, hledger⟩
    cases h : r.peerByLedger key with
    | none =>
        have := List.find?_eq_none.mp h peer (mem_rows_iff.mpr ⟨_, hget⟩)
        simp [hledger] at this
    | some found =>
        obtain ⟨hget', hledger'⟩ := hfound h
        have hid := hr.ledger _ _ _ _ key hget' hget hledger' hledger
        rw [hid, hget] at hget'
        exact hget'.symm

end PeerRegistry

/-! ## Signed entries -/

variable [Postcard]

/-- The entry carries the signature of the ledger it names. -/
def SignedEntry.Authentic (s : SignedEntry) : Prop :=
  ∃ bytes, s.entry.canonicalBytes = .ok bytes
    ∧ Crypto.verify s.entry.ledgerId bytes s.signature = true

theorem PeerRegistry.verifyEntry_eq_ok {r : PeerRegistry} (hr : r.Registered) {s : SignedEntry}
    {peer : PeerKeys} :
    r.verifyEntry s = .ok peer ↔
      r.get peer.nodeId = some peer ∧ peer.ledger = some s.entry.ledgerId ∧ s.Authentic := by
  rw [← and_assoc, ← peerByLedger_eq_some hr, verifyEntry]
  constructor
  · intro h
    split at h
    · cases h
    · rename_i found hfound
      split at h
      · cases h
      · rename_i key hkey
        have hledger := ((peerByLedger_eq_some hr).mp hfound).2
        rw [hkey, Option.some.injEq] at hledger
        subst hledger
        simp only [SignedEntry.verify, bind_eq_ok, ite_error_eq_ok, ite_ok_eq_ok, pure_eq_ok] at h
        obtain ⟨_, ⟨-, bytes, hbytes, hsig, -⟩, rfl⟩ := h
        exact ⟨hfound, bytes, hbytes, hsig⟩
  · rintro ⟨hfound, bytes, hbytes, hsig⟩
    have hledger := ((peerByLedger_eq_some hr).mp hfound).2
    simp [hfound, hledger, SignedEntry.verify, hbytes, hsig]

theorem PeerRegistry.exists_verifyEntry_iff {r : PeerRegistry} (hr : r.Registered)
    {s : SignedEntry} {id : NodeId} :
    (∃ peer, r.verifyEntry s = .ok peer ∧ peer.nodeId = id)
      ↔ r.ledgerOf id = some s.entry.ledgerId ∧ s.Authentic := by
  constructor
  · rintro ⟨peer, hpeer, rfl⟩
    obtain ⟨hget, hledger, hauth⟩ := (verifyEntry_eq_ok hr).mp hpeer
    exact ⟨ledgerOf_eq_some.mpr ⟨peer, hget, hledger⟩, hauth⟩
  · rintro ⟨hledger, hauth⟩
    obtain ⟨peer, hget, hledger⟩ := ledgerOf_eq_some.mp hledger
    have hid := hr.keyed id peer hget
    exact ⟨peer, (verifyEntry_eq_ok hr).mpr ⟨hid ▸ hget, hledger, hauth⟩, hid⟩

/-- The payer's operator authorised the order in this entry. -/
structure PayerSigned (registry : PeerRegistry) (order : PaymentOrder) (s : SignedEntry) :
    Prop where
  auth : ∃ auth, s.entry.auth = some auth ∧ registry.operatorOf order.from_ = some auth.operator
    ∧ auth.orderHash = order.hash ∧ auth.nonce = order.nonce
    ∧ Crypto.verify auth.operator [.digest order.hash] auth.signature = true

omit [Postcard] in
theorem verifyOperator_eq_ok {auth : AuthRef} {orderHash : Hash} :
    verifyOperator auth orderHash = .ok ()
      ↔ Crypto.verify auth.operator [.digest orderHash] auth.signature = true := by
  simp [verifyOperator]

/-- The spec lemma of `verify_transfer`. -/
theorem verifyTransfer_eq_ok {s : SignedEntry} {order : PaymentOrder} {r : PeerRegistry}
    {now : UInt64} :
    verifyTransfer s order r now = .ok () ↔
      s.entry.checkConservation = .ok () ∧ (∃ peer, r.verifyEntry s = .ok peer)
        ∧ PayerSigned r order s ∧ ¬ now > order.expiry
        ∧ ∃ role, s.entry.body = .transfer order.hash order.amount role
          ∧ (role = .direct → verifyDirectEndpoints s.entry.postings order = .ok ()) := by
  constructor
  · intro h
    simp only [verifyTransfer, bind_eq_ok] at h
    obtain ⟨_, hcons, peer, hpeer, h⟩ := h
    refine ⟨hcons, ⟨peer, hpeer⟩, ?_⟩
    split at h
    · rename_i paymentId amount role hbody
      split at h
      · cases h
      · rename_i auth hauth
        split at h
        · cases h
        · rename_i payerOperator hoperator
          simp only [ite_error_eq_ok, bind_eq_ok, ne_eq, not_or, not_not] at h
          obtain ⟨rfl, ⟨hhash, hnonce⟩, _, hexpiry, ⟨rfl, rfl⟩, h⟩ := h
          simp only [requireNoExpiry, ite_error_eq_ok] at hexpiry
          by_cases hdirect : role = .direct
          · rw [if_pos hdirect, bind_eq_ok] at h
            obtain ⟨_, hends, h⟩ := h
            exact ⟨⟨auth, hauth, hoperator, hhash, hnonce, verifyOperator_eq_ok.mp h⟩, hexpiry.1,
              role, hbody, fun _ => hends⟩
          · rw [if_neg hdirect] at h
            exact ⟨⟨auth, hauth, hoperator, hhash, hnonce, verifyOperator_eq_ok.mp h⟩, hexpiry.1,
              role, hbody, fun heq => absurd heq hdirect⟩
    · cases h
  · rintro ⟨hcons, ⟨peer, hpeer⟩, ⟨auth, hauth, hoperator, hhash, hnonce, hsig⟩, hexpiry, role,
      hbody,
      hdirect⟩
    simp only [verifyTransfer, bind_eq_ok]
    refine ⟨_, hcons, peer, hpeer, ?_⟩
    have hop : verifyOperator auth order.hash = .ok () := verifyOperator_eq_ok.mpr hsig
    have htime : requireNoExpiry order.expiry now = .ok () := if_neg hexpiry
    by_cases hrole : role = .direct
    · have hends := hdirect hrole
      subst hrole
      simp [hbody, hauth, hoperator, hhash, hnonce, htime, hends, hop]
    · simp [hbody, hauth, hoperator, hhash, hnonce, htime, hrole, hop]

/-- The spec lemma of the node-level checks. -/
theorem verifyRequest_eq_ok {s : SignedEntry} {r : PeerRegistry} {now : UInt64} {node : NodeId}
    {requestHash : Hash} {nonce expiry : UInt64} {shape : Bool}
    {early late : Except LedgerError Unit} :
    verifyRequest s r now node requestHash nonce expiry shape early late = .ok () ↔
      s.entry.checkConservation = .ok ()
        ∧ (∃ peer, r.verifyEntry s = .ok peer ∧ peer.nodeId = node
          ∧ ∃ auth, s.entry.auth = some auth ∧ auth.operator = peer.operator
            ∧ auth.orderHash = requestHash ∧ auth.nonce = nonce
            ∧ Crypto.verify auth.operator [.digest requestHash] auth.signature = true)
        ∧ ¬ now > expiry ∧ shape = true ∧ early = .ok () ∧ late = .ok () := by
  unfold verifyRequest
  simp only [bind_eq_ok, ite_error_eq_ok, ne_eq, not_not, Bool.not_eq_true', Bool.not_eq_false]
  constructor
  · rintro ⟨⟨⟩, hcons, peer, hpeer, hnode, hshape, h⟩
    split at h
    · cases h
    · rename_i auth hauth
      simp only [bind_eq_ok, ite_error_eq_ok, not_or, not_not, requireNoExpiry,
        verifyOperator_eq_ok] at h
      obtain ⟨hoperator, ⟨⟩, hearly, ⟨hhash, hnonce⟩, ⟨⟩, ⟨hexpiry, -⟩, ⟨⟩, hlate, hsig⟩ := h
      exact ⟨hcons, ⟨peer, hpeer, hnode, auth, hauth, hoperator, hhash, hnonce, hsig⟩, hexpiry,
        hshape, hearly, hlate⟩
  · rintro ⟨hcons, ⟨peer, hpeer, hnode, auth, hauth, hoperator, hhash, hnonce, hsig⟩, hexpiry,
      hshape, hearly, hlate⟩
    have htime : requireNoExpiry expiry now = .ok () := if_neg hexpiry
    refine ⟨(), hcons, peer, hpeer, hnode, hshape, ?_⟩
    simp [hauth, hoperator, hearly, hhash, hnonce, htime, hlate,
      verifyOperator_eq_ok.mpr (hhash ▸ hhash ▸ hsig)]

end Cawala
