import Cawala.Verification.BrowserRuns

/-! # What a browser takes for paid -/

namespace Cawala

open Library

section

variable [Crypto] [Postcard] {target : Target} {s : LedgerStateV1}

/-! ## Success -/

/-- The event reports the order as applied or duplicate. -/
def LedgerEvent.Reports (orderHash : Hash) : LedgerEvent → Prop
  | .orderResult app => app.orderHash = orderHash ∧ app.status ≠ .rejected
  | .settlement app => app.orderHash = orderHash ∧ app.state.Success
  | _ => False

/-- The call adds an activity or settlement record of an applied or duplicate order. -/
def Transition.Records (t : Transition) (orderHash : Hash) : Prop :=
  (∃ entry ∈ t.after.activity, entry ∉ t.before.activity ∧ entry.paymentId = orderHash)
    ∨ ∃ record ∈ t.after.settlements, record ∉ t.before.settlements
      ∧ record.orderHash = orderHash ∧ record.state.Success

/-- The pending order is reported as applied or duplicate, or leaves the pending set with a
record of that kind. -/
def Transition.Succeeds (t : Transition) (p : PendingOrderV1) : Prop :=
  (∃ event, t.event = some event ∧ event.Reports p.order.hash
    ∧ t.before.pending.find? (fun q => q.order.hash == p.order.hash) = some p)
  ∨ t.after.pending.count p < t.before.pending.count p ∧ t.Records p.order.hash

/-- The call presents a terminal proof for the pending order that passes verification. -/
def Transition.Proves (target : Target) (t : Transition) (p : PendingOrderV1) : Prop :=
  ∃ selfNode parent result now proof,
    t.call = .receive selfNode parent (some (.orderResultV3 result)) now
      ∧ result.orderHash = p.order.hash ∧ result.proof = some proof
      ∧ verifySettlementProof target t.before p p.order.hash proof = some (.ok ())

/-- No order with a payee address is taken for paid without a proof. -/
def Transition.SuccessProven (target : Target) (t : Transition) : Prop :=
  ∀ p ∈ t.before.pending, p.payeeAddr.isSome → t.Succeeds p → t.Proves target p

/-- A result of the first version reports success for a pending order with a payee address,
and the receipt that comes with it, if any, is accepted. -/
def Transition.Downgrade (target : Target) (t : Transition) : Prop :=
  ∃ selfNode parent result now p verified mid,
    t.call = .receive selfNode (some parent) (some (.orderResultV1 result)) now
      ∧ result.status ≠ .rejected
      ∧ t.before.pending.find? (fun q => q.order.hash == result.orderHash) = some p
      ∧ p.payeeAddr.isSome
      ∧ verifyOffered target t.before result.balance selfNode parent = some (.ok verified, mid)

omit [Postcard] in
theorem pendingIndex_of_find {orderHash : Hash} {p : PendingOrderV1}
    (h : s.pending.find? (fun q => q.order.hash == orderHash) = some p) :
    ∃ index, s.pendingIndex orderHash = some index ∧ s.pending[index]? = some p := by
  cases hindex : s.pendingIndex orderHash with
  | none =>
      have hnone := List.findIdx?_eq_none_iff.mp hindex
      have hp := hnone p (List.mem_of_find?_eq_some h)
      rw [List.find?_some h] at hp
      cases hp
  | some index =>
      obtain ⟨pending, hget, hfirst⟩ := pendingIndex_spec hindex
      rw [h, Option.some.injEq] at hfirst
      exact ⟨index, rfl, hfirst ▸ hget⟩

/-- A result of the first version that is applied came with an accepted receipt, or none. -/
theorem verifyOffered_of_orderResult {selfNode : NodeId} {current : Option NodeId}
    {result : OrderResultV1} {now : UInt64} {app : OrderResultApplication}
    {after : LedgerStateV1}
    (h : tryRecvLedgerEvent target s selfNode current (some (.orderResultV1 result)) now
      = some (.orderResult app, after)) :
    ∃ parent verified mid, current = some parent
      ∧ verifyOffered target s result.balance selfNode parent = some (.ok verified, mid) := by
  cases current with
  | none => simp [tryRecvLedgerEvent] at h
  | some parent =>
      cases hindex : s.pendingIndex result.orderHash with
      | none =>
          simp [tryRecvLedgerEvent, dispatchLedgerPayload, applyOrderResult, hindex,
            Answer.event] at h
      | some index =>
          rcases hverify : verifyOffered target s result.balance selfNode parent
            with _ | ⟨e | verified, mid⟩
          · simp [tryRecvLedgerEvent, dispatchLedgerPayload, applyOrderResult, hindex, hverify,
              Answer.event] at h
          · simp [tryRecvLedgerEvent, dispatchLedgerPayload, applyOrderResult, hindex, hverify,
              Answer.event] at h
          · exact ⟨parent, verified, mid, rfl, hverify⟩

theorem Transition.Downgrade.reports {t : Transition} (h : t.Performed target)
    {selfNode parent : NodeId} {result : OrderResultV1} {now : UInt64} {p : PendingOrderV1}
    {verified : Option VerifiedBalanceV1} {mid : LedgerStateV1}
    (hcall : t.call = .receive selfNode (some parent) (some (.orderResultV1 result)) now)
    (hstatus : result.status ≠ .rejected)
    (hfind : t.before.pending.find? (fun q => q.order.hash == result.orderHash) = some p)
    (hverify : verifyOffered target t.before result.balance selfNode parent
      = some (.ok verified, mid)) :
    ∃ app, t.event = some (.orderResult app) ∧ app.orderHash = result.orderHash
      ∧ app.status ≠ .rejected := by
  obtain ⟨index, hindex, hget⟩ := pendingIndex_of_find hfind
  have hmid : mid.pending[index]? = some p := by
    generalize hoffer : (Except.ok verified : Except LedgerRefusal _) = offer at hverify
    cases verifyOffered_vetted hverify with
    | refused => cases hoffer
    | accepted _ hunmoved => rw [hunmoved.pending, hget]
  have hperform := h
  simp only [Transition.Performed, hcall, ClientCall.perform, tryRecvLedgerEvent,
    dispatchLedgerPayload, applyOrderResult_ok hindex hverify hmid, Answer.event,
    Option.some.injEq, Prod.mk.injEq] at hperform
  exact ⟨_, hperform.1.symm, rfl, hstatus⟩

omit [Postcard] in
/-- A settlement record that a call adds has the state of its result. -/
theorem state_of_new_record {after : LedgerStateV1} {new record : SettlementRecordV1}
    (hafter : after.settlements = (s.recordSettlement new).settlements)
    (hmem : record ∈ after.settlements) (hnew : record ∉ s.settlements) :
    record.state = new.state := by
  rw [hafter] at hmem
  rcases Fifo.mem_put hmem with hold | rfl | ⟨z, -, -, rfl⟩
  · exact absurd hold hnew
  · rfl
  · rfl

omit [Postcard] in
theorem not_records {t : Transition} (hactivity : t.after.activity = t.before.activity)
    (hsettlements : t.after.settlements = t.before.settlements) (orderHash : Hash) :
    ¬ t.Records orderHash := by
  intro hrecords
  rcases hrecords with ⟨entry, hmem, hnew, -⟩ | ⟨record, hmem, hnew, -⟩
  · rw [hactivity] at hmem
    exact hnew hmem
  · rw [hsettlements] at hmem
    exact hnew hmem

theorem proven_of_settlement {payload : VersionedLedgerPayload} {app : SettlementApplication}
    {after : LedgerStateV1} {call : ClientCall} {orderHash : Hash}
    (h : Received target s (some payload) (.settlement app) after)
    (hsuccess : (LedgerEvent.settlement app).Reports orderHash
      ∨ Transition.Records { before := s, call, event := some (.settlement app), after }
          orderHash) :
    ∃ result proof pending, payload = .orderResultV3 result ∧ result.proof = some proof
      ∧ app.orderHash = result.orderHash ∧ Taken s after result.orderHash pending
      ∧ verifySettlementProof target s pending result.orderHash proof = some (.ok ()) := by
  cases h with
  | settlement _ result _ pending _ hsettles _ _ _ htaken hhash hresolved hactivity hrecord =>
      have hstate : app.state.Success := by
        rcases hsuccess with hreports | hrecords
        · exact hreports.2
        · obtain ⟨new, -, hnewState, hafter⟩ := hrecord
          rcases hrecords with ⟨entry, hmem, hnew, -⟩ | ⟨record, hmem, hnew, -, hstate⟩
          · rw [hactivity] at hmem
            exact absurd hmem hnew
          · rw [← hnewState, ← state_of_new_record hafter hmem hnew]
            exact hstate
      obtain ⟨proof, hproof, hverify, -⟩ := hresolved.proven hstate
      refine ⟨result, proof, pending, ?_, hproof, hhash, htaken, hverify⟩
      rcases hsettles with hpayload | ⟨hnone, -⟩
      · exact hpayload
      · rw [hproof] at hnone
        cases hnone

omit [Postcard] in
theorem Transition.Succeeds.eq_taken {t : Transition} {p pending : PendingOrderV1}
    {orderHash : Hash} (h : t.Succeeds p) (htaken : Taken t.before t.after orderHash pending)
    (hevent : ∀ event, t.event = some event → event.Reports p.order.hash →
      p.order.hash = orderHash) : p = pending := by
  rcases h with ⟨event, ht, hreports, hfind⟩ | ⟨hcount, -⟩
  · rw [hevent event ht hreports] at hfind
    exact Option.some.inj (hfind.symm.trans htaken.first)
  · exact htaken.eq_of_count_lt hcount

/-- A call takes an order with a payee address for paid only on a proof, unless it is a
downgrade. -/
theorem Transition.Performed.successProven_iff {t : Transition} (h : t.Performed target) :
    t.SuccessProven target ↔ ¬ t.Downgrade target := by
  constructor
  · rintro hproven ⟨self, parent, result, now, p, verified, mid, hcall, hstatus, hfind, hpayee,
      hverify⟩
    obtain ⟨app, hevent, happ, happStatus⟩ :=
      Downgrade.reports h hcall hstatus hfind hverify
    have hhash : p.order.hash = result.orderHash := by
      have := List.find?_some hfind
      simpa using this
    have hsucceeds : t.Succeeds p := by
      refine .inl ⟨_, hevent, ⟨happ.trans hhash.symm, happStatus⟩, ?_⟩
      rw [hhash]
      exact hfind
    obtain ⟨self', parent', result', now', proof, hcall', -⟩ :=
      hproven p (List.mem_of_find?_eq_some hfind) hpayee hsucceeds
    rw [hcall] at hcall'
    cases hcall'
  · intro hnot p hp hpayee hsucceeds
    obtain ⟨before, call, event, after⟩ := t
    rcases perform_cases h with ⟨hevent, hactivity, hsettlements, -⟩
      | ⟨self, current, payload, now, e, hcall, hevent, hreceived⟩
    · rcases hsucceeds with ⟨e, he, -⟩ | ⟨-, hrecords⟩
      · rw [hevent] at he
        cases he
      · exact absurd hrecords (not_records hactivity hsettlements _)
    · dsimp only at hcall hevent hreceived
      subst hcall hevent
      have hmessage := hreceived
      cases hreceived with
      | refused _ e _ hunmoved =>
          rcases hsucceeds with ⟨e', he, hreports, -⟩ | ⟨-, hrecords⟩
          · cases he
            exact hreports.elim
          · exact absurd hrecords (not_records hunmoved.activity hunmoved.settlements _)
      | receipt r _ _ _ hpending =>
          rcases hsucceeds with ⟨e', he, hreports, -⟩ | ⟨hcount, -⟩
          · cases he
            exact hreports.elim
          · dsimp only at hcount
            rw [hpending] at hcount
            exact absurd hcount (lt_irrefl _)
      | order result app pending _ hgenuine hoffered hbalance htaken hhash hstatus hsettlements
          hactivity hpins =>
          have heq : p = pending := by
            refine hsucceeds.eq_taken htaken ?_
            intro e' he hreports
            cases he
            exact hreports.1.symm.trans hhash
          subst heq
          have happ : app.status ≠ .rejected := by
            rcases hsucceeds with ⟨e', he, hreports, -⟩ | ⟨-, hrecords⟩
            · cases he
              exact hreports.2
            · intro hrejected
              exact not_records (hactivity hrejected) hsettlements _ hrecords
          have hreceive : tryRecvLedgerEvent target before self current
              (some (.orderResultV1 result)) now = some (.orderResult app, after) := by
            obtain ⟨e', he, hstep⟩ := tryRecv_of_perform h
            cases he
            exact hstep
          obtain ⟨parent, verified, mid, rfl, hverify⟩ := verifyOffered_of_orderResult hreceive
          exact absurd ⟨self, parent, result, now, p, verified, mid, rfl, hstatus ▸ happ,
            htaken.first, hpayee, hverify⟩ hnot
      | settlement payload _ app =>
          have hsuccess : (LedgerEvent.settlement app).Reports p.order.hash
              ∨ Transition.Records ⟨before, .receive self current (some payload) now,
                  some (.settlement app), after⟩ p.order.hash := by
            rcases hsucceeds with ⟨e', he, hreports, -⟩ | ⟨-, hrecords⟩
            · cases he
              exact .inl hreports
            · exact .inr hrecords
          obtain ⟨result, proof, pending, rfl, hproof, hhash, htaken, hverify⟩ :=
            proven_of_settlement hmessage hsuccess
          have heq : p = pending := by
            refine hsucceeds.eq_taken htaken ?_
            intro e' he hreports
            cases he
            exact hreports.1.symm.trans hhash
          subst heq
          refine ⟨self, current, result, now, proof, rfl, htaken.hash.symm, hproof, ?_⟩
          rw [htaken.hash]
          exact hverify

/-- The browser takes no order with a payee address for paid without a terminal proof that
passed verification, exactly in the runs without a downgrade to the first version. -/
theorem success_only_on_proof {calls : List ClientCall} {ts : List Transition}
    (hrun : runClient target s calls = some ts) :
    (∀ t ∈ ts, t.SuccessProven target) ↔ ∀ t ∈ ts, ¬ t.Downgrade target := by
  constructor
  · intro hproven t ht
    exact (performed_of_run hrun t ht).successProven_iff.mp (hproven t ht)
  · intro hnot t ht
    exact (performed_of_run hrun t ht).successProven_iff.mpr (hnot t ht)

end

section

open Concrete

/-- The payee of the order of five units, a user below the root. -/
def payeeW : OctAddr := OctAddr.root.child 2 two_le_maxSlot

def payerU : OctAddr := (OctAddr.root.child 1 one_le_maxSlot).child 1 one_le_maxSlot

def payFive : ClientCall :=
  .sendPayment fiveOrder (fiveOrder.authorize (3 : ℕ)) 1 payerU payeeW

def pendingFive : PendingOrderV1 where
  order := fiveOrder
  auth := fiveOrder.authorize (3 : ℕ)
  sentAt := 1
  payeeAddr := some payeeW
  payerLeaf := false
  pinnedLeaf := none

def receiveAtU (payload : VersionedLedgerPayload) : ClientCall :=
  .receive "u" (some "p") (some payload) 2

/-- A result of the first version that says the order applied. -/
def claimsApplied : OrderResultV1 where
  orderHash := fiveOrder.hash
  status := .applied
  entrySeq := none
  entryHash := none
  reason := none
  balance := none

/-- A result of the third version, with a proof of the order's terminal entry. -/
def provesApplied : OrderResultV3 where
  orderHash := fiveOrder.hash
  status := .applied 0 fiveHash
  balance := none
  proof := some (fiveProof (Crypto.sign (7 : ℕ) fiveCommitment.canonicalBytes))

/-- An order with a payee address is reported as applied without any proof. -/
theorem success_without_proof :
    ∃ ts, runClient .wasm32 joined [payFive, receiveAtU (.orderResultV1 claimsApplied)] = some ts
      ∧ ¬ ∀ t ∈ ts, t.SuccessProven .wasm32 := by
  have hreturns : (runClient .wasm32 joined
      [payFive, receiveAtU (.orderResultV1 claimsApplied)]).isSome = true := by
    decide +kernel
  obtain ⟨ts, hrun⟩ := Option.isSome_iff_exists.mp hreturns
  refine ⟨ts, hrun, ?_⟩
  intro hproven
  obtain ⟨event, after, rest, hsend, hrest, rfl⟩ := runClient_cons hrun
  obtain ⟨event', after', rest', -, -, rfl⟩ := runClient_cons hrest
  cases hsend
  let sent := sendPayment joined fiveOrder (fiveOrder.authorize (3 : ℕ)) 1 payerU payeeW
  let second : Transition :=
    { before := sent, call := receiveAtU (.orderResultV1 claimsApplied), event := event'
      after := after' }
  have hfind : sent.pending.find? (fun q => q.order.hash == claimsApplied.orderHash)
      = some pendingFive := by
    decide +kernel
  have hdowngrade : second.Downgrade .wasm32 :=
    ⟨"u", "p", claimsApplied, 2, pendingFive, none, sent, rfl, by decide, hfind, rfl, rfl⟩
  have hmem : second ∈ Transition.mk joined payFive none sent :: second :: rest' :=
    List.mem_cons_of_mem _ List.mem_cons_self
  exact (performed_of_run hrun second hmem).successProven_iff.mp (hproven second hmem) hdowngrade

/-- A run whose result comes with a proof takes nothing for paid without one. -/
theorem success_only_on_proof_five :
    ∃ ts, runClient .wasm32 joined [payFive, receiveAtU (.orderResultV3 provesApplied)] = some ts
      ∧ ∀ t ∈ ts, t.SuccessProven .wasm32 := by
  have hreturns : (runClient .wasm32 joined
      [payFive, receiveAtU (.orderResultV3 provesApplied)]).isSome = true := by
    decide +kernel
  obtain ⟨ts, hrun⟩ := Option.isSome_iff_exists.mp hreturns
  refine ⟨ts, hrun, (success_only_on_proof hrun).mpr ?_⟩
  rintro t ht ⟨self, parent, result, now, p, verified, mid, hcall, -⟩
  have hmem := call_mem_of_run hrun t ht
  rw [hcall] at hmem
  rcases List.mem_cons.mp hmem with heq | hmem
  · cases heq
  · cases List.mem_singleton.mp hmem

end

end Cawala
