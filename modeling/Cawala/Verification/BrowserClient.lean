import Cawala.Library.Except
import Cawala.Model.BrowserClient

/-! # What one call of a browser client does -/

namespace Cawala

open Library

variable [Crypto] {target : Target} {s s' : LedgerStateV1} {selfNode parent : NodeId}

/-! ## Receipts -/

/-- Everything but the pin of the routing leaf and the recorded key changes is as before. -/
structure Unmoved (s s' : LedgerStateV1) : Prop where
  balance : s'.balance = s.balance
  activity : s'.activity = s.activity
  pending : s'.pending = s.pending
  settlements : s'.settlements = s.settlements
  pinnedLeafKeys : s'.pinnedLeafKeys = s.pinnedLeafKeys

theorem Unmoved.refl (s : LedgerStateV1) : Unmoved s s := ⟨rfl, rfl, rfl, rfl, rfl⟩

/-- The receipt offered in a step, if any, verifies under the key that is then pinned. -/
structure Genuine (target : Target) (s s' : LedgerStateV1) (offered : Option BalanceReceiptV1) :
    Prop where
  attested : ∀ receipt, offered = some receipt →
    verifyBalanceAttestation target receipt.attestation receipt.commitment receipt.ledgerPubkey
      = some (.ok ())
  pinned : ∀ receipt, offered = some receipt → s'.pinnedLedger = some receipt.ledgerPubkey
  keeps : ∀ key, s.pinnedLedger = some key → s'.pinnedLedger = some key

theorem genuine_none (h : s'.pinnedLedger = s.pinnedLedger) : Genuine target s s' none where
  attested receipt hreceipt := by cases hreceipt
  pinned receipt hreceipt := by cases hreceipt
  keeps key hkey := h.trans hkey

theorem genuine_some {receipt : BalanceReceiptV1}
    (h : verifyBalanceAttestation target receipt.attestation receipt.commitment
      receipt.ledgerPubkey = some (.ok ()))
    (hpin : s'.pinnedLedger = some receipt.ledgerPubkey)
    (hbefore : ∀ key, s.pinnedLedger = some key → key = receipt.ledgerPubkey) :
    Genuine target s s' (some receipt) where
  attested r hr := by
    cases hr
    exact h
  pinned r hr := by
    cases hr
    exact hpin
  keeps key hkey := by
    rw [hbefore key hkey]
    exact hpin

theorem Genuine.congr {mid : LedgerStateV1} {offered : Option BalanceReceiptV1}
    (h : Genuine target s mid offered) (hledger : s'.pinnedLedger = mid.pinnedLedger) :
    Genuine target s s' offered where
  attested := h.attested
  pinned receipt hreceipt := hledger.trans (h.pinned receipt hreceipt)
  keeps key hkey := hledger.trans (h.keeps key hkey)

/-- How the check of an offered receipt ends. -/
inductive Vetted (target : Target) (s : LedgerStateV1) (offered : Option BalanceReceiptV1) :
    Except LedgerRefusal (Option VerifiedBalanceV1) → LedgerStateV1 → Prop
  | refused (e : LedgerRefusal) (s' : LedgerStateV1) (unmoved : Unmoved s s')
      (pinned : s'.pinnedLedger = s.pinnedLedger) : Vetted target s offered (.error e) s'
  | accepted (s' : LedgerStateV1) (unmoved : Unmoved s s')
      (genuine : Genuine target s s' offered) :
      Vetted target s offered (.ok (offered.map BalanceReceiptV1.verified)) s'

theorem verifyReceipt_vetted {receipt : BalanceReceiptV1}
    {answer : Except LedgerRefusal VerifiedBalanceV1}
    (h : verifyReceipt target s receipt selfNode parent = some (answer, s')) :
    Vetted target s (some receipt) (answer.map some) s' := by
  rw [verifyReceipt] at h
  cases hcheck : checkReceipt receipt selfNode parent with
  | error e =>
      simp only [hcheck, Option.some.injEq, Prod.mk.injEq] at h
      obtain ⟨rfl, rfl⟩ := h
      exact .refused e s (.refl s) rfl
  | ok _ =>
      simp only [hcheck] at h
      cases hpin : s.pinnedLedger with
      | some pinned =>
          simp only [hpin] at h
          by_cases hkey : pinned = receipt.ledgerPubkey
          · subst hkey
            rw [if_neg (not_not.mpr rfl)] at h
            rcases hverify : verifyBalanceAttestation target receipt.attestation
              receipt.commitment receipt.ledgerPubkey with _ | e | _
            · simp [hverify] at h
            · simp only [hverify, Option.some.injEq, Prod.mk.injEq] at h
              obtain ⟨rfl, rfl⟩ := h
              exact .refused _ s (.refl s) rfl
            · simp only [hverify, Option.some.injEq, Prod.mk.injEq] at h
              obtain ⟨rfl, rfl⟩ := h
              refine .accepted s (.refl s) (genuine_some hverify hpin ?_)
              intro key hkey
              rw [hpin, Option.some.injEq] at hkey
              exact hkey.symm
          · rw [if_pos hkey] at h
            simp only [Option.some.injEq, Prod.mk.injEq] at h
            obtain ⟨rfl, rfl⟩ := h
            exact .refused _ _ ⟨rfl, rfl, rfl, rfl, rfl⟩ rfl
      | none =>
          simp only [hpin] at h
          rcases hverify : verifyBalanceAttestation target receipt.attestation
            receipt.commitment receipt.ledgerPubkey with _ | e | _
          · simp [hverify] at h
          · simp only [hverify, Option.some.injEq, Prod.mk.injEq] at h
            obtain ⟨rfl, rfl⟩ := h
            exact .refused _ _ ⟨rfl, rfl, rfl, rfl, rfl⟩ hpin.symm
          · simp only [hverify, Option.some.injEq, Prod.mk.injEq] at h
            obtain ⟨rfl, rfl⟩ := h
            refine .accepted _ ⟨rfl, rfl, rfl, rfl, rfl⟩ (genuine_some hverify rfl ?_)
            intro key hkey
            rw [hpin] at hkey
            cases hkey

theorem verifyOffered_vetted {offered : Option BalanceReceiptV1}
    {answer : Except LedgerRefusal (Option VerifiedBalanceV1)}
    (h : verifyOffered target s offered selfNode parent = some (answer, s')) :
    Vetted target s offered answer s' := by
  cases offered with
  | none =>
      simp only [verifyOffered, Option.some.injEq, Prod.mk.injEq] at h
      obtain ⟨rfl, rfl⟩ := h
      exact .accepted s (.refl s) (genuine_none rfl)
  | some receipt =>
      rw [verifyOffered] at h
      rcases hverify : verifyReceipt target s receipt selfNode parent with _ | ⟨e | v, mid⟩
      · simp [hverify] at h
      · simp only [hverify, Option.some.injEq, Prod.mk.injEq] at h
        obtain ⟨rfl, rfl⟩ := h
        exact verifyReceipt_vetted hverify
      · simp only [hverify, Option.some.injEq, Prod.mk.injEq] at h
        obtain ⟨rfl, rfl⟩ := h
        exact verifyReceipt_vetted hverify

theorem installBalance_balance (s : LedgerStateV1) (verified : Option VerifiedBalanceV1) :
    (s.installBalance verified).balance = verified.or s.balance := by
  cases verified <;> rfl

@[simp] theorem installBalance_pending (s : LedgerStateV1) (verified) :
    (s.installBalance verified).pending = s.pending := by
  cases verified <;> rfl

@[simp] theorem installBalance_activity (s : LedgerStateV1) (verified) :
    (s.installBalance verified).activity = s.activity := by
  cases verified <;> rfl

@[simp] theorem installBalance_settlements (s : LedgerStateV1) (verified) :
    (s.installBalance verified).settlements = s.settlements := by
  cases verified <;> rfl

@[simp] theorem installBalance_pinnedLeafKeys (s : LedgerStateV1) (verified) :
    (s.installBalance verified).pinnedLeafKeys = s.pinnedLeafKeys := by
  cases verified <;> rfl

@[simp] theorem installBalance_pinnedLedger (s : LedgerStateV1) (verified) :
    (s.installBalance verified).pinnedLedger = s.pinnedLedger := by
  cases verified <;> rfl

/-! ## The pending order a result is about -/

structure Taken (s s' : LedgerStateV1) (orderHash : Hash) (pending : PendingOrderV1) : Prop where
  first : s.pending.find? (fun p => p.order.hash == orderHash) = some pending
  erased : ∃ index, s.pending[index]? = some pending ∧ s'.pending = s.pending.eraseIdx index

theorem pendingIndex_spec {orderHash : Hash} {index : ℕ}
    (h : s.pendingIndex orderHash = some index) :
    ∃ pending, s.pending[index]? = some pending
      ∧ s.pending.find? (fun p => p.order.hash == orderHash) = some pending := by
  obtain ⟨hlt, hfind⟩ := List.findIdx?_eq_some_iff_findIdx_eq.mp h
  refine ⟨s.pending[index], List.getElem?_eq_getElem hlt, ?_⟩
  rw [List.find?_eq_getElem?_findIdx, hfind, List.getElem?_eq_getElem hlt]

theorem Taken.hash {orderHash : Hash} {pending : PendingOrderV1}
    (h : Taken s s' orderHash pending) : pending.order.hash = orderHash := by
  have := List.find?_some h.first
  simpa using this

/-- Only the record that was taken is there less often. -/
theorem Taken.eq_of_count_lt {orderHash : Hash} {pending p : PendingOrderV1}
    (h : Taken s s' orderHash pending) (hcount : s'.pending.count p < s.pending.count p) :
    p = pending := by
  obtain ⟨index, hindex, herase⟩ := h.erased
  by_contra hne
  obtain ⟨hlt, hget⟩ := List.getElem?_eq_some_iff.mp hindex
  have hsplit : s.pending = s.pending.take index ++ pending :: s.pending.drop (index + 1) := by
    rw [← hget, List.getElem_cons_drop, List.take_append_drop]
  have hcons : (pending :: s.pending.drop (index + 1)).count p
      = (s.pending.drop (index + 1)).count p := List.count_cons_of_ne (Ne.symm hne)
  have hbefore : s.pending.count p = s'.pending.count p := by
    rw [herase, List.eraseIdx_eq_take_drop_succ, List.count_append, ← hcons,
      ← List.count_append, ← hsplit]
  omega

/-! ## What an inbound message does -/

/-- The states that stand for a completed payment. -/
def SettlementStateV1.Success (state : SettlementStateV1) : Prop :=
  state = .applied ∨ state = .duplicate

theorem recordActivity_unmoved (s : LedgerStateV1) (entry : ActivityEntryV1) :
    (s.recordActivity entry).pending = s.pending
      ∧ (s.recordActivity entry).settlements = s.settlements
      ∧ (s.recordActivity entry).pinnedLeafKeys = s.pinnedLeafKeys
      ∧ (s.recordActivity entry).pinnedLedger = s.pinnedLedger
      ∧ (s.recordActivity entry).balance = s.balance := by
  by_cases h : s.activity.any (fun existing => existing.entryHash == entry.entryHash) = true
  · simp [LedgerStateV1.recordActivity, h]
  · simp [LedgerStateV1.recordActivity, h]

theorem foldl_recordActivity_unmoved (notices : List ValueNoticeV1) (s : LedgerStateV1) :
    let after := notices.foldl (fun s notice => s.recordActivity (activityFromNotice notice)) s
    after.pending = s.pending ∧ after.settlements = s.settlements
      ∧ after.pinnedLeafKeys = s.pinnedLeafKeys ∧ after.pinnedLedger = s.pinnedLedger
      ∧ after.balance = s.balance := by
  induction notices generalizing s with
  | nil => exact ⟨rfl, rfl, rfl, rfl, rfl⟩
  | cons notice notices ih =>
      obtain ⟨h₁, h₂, h₃, h₄, h₅⟩ := recordActivity_unmoved s (activityFromNotice notice)
      obtain ⟨g₁, g₂, g₃, g₄, g₅⟩ := ih (s.recordActivity (activityFromNotice notice))
      exact ⟨g₁.trans h₁, g₂.trans h₂, g₃.trans h₃, g₄.trans h₄, g₅.trans h₅⟩

variable [Postcard]

structure Resolved (target : Target) (s : LedgerStateV1) (pending : PendingOrderV1)
    (orderHash : Hash) (proof : Option EntryProofV1) (state : SettlementStateV1)
    (pins : List PinnedLeafKeyV1) : Prop where
  proven : state.Success → ∃ p, proof = some p
    ∧ verifySettlementProof target s pending orderHash p = some (.ok ())
    ∧ pins = (s.pinFirstUse p.signer).pinnedLeafKeys
  unproven : ¬ state.Success → pins = s.pinnedLeafKeys

/-- What an inbound message does, by the event it is reported as. -/
inductive Received (target : Target) (s : LedgerStateV1) :
    Option VersionedLedgerPayload → LedgerEvent → LedgerStateV1 → Prop
  | refused (payload : Option VersionedLedgerPayload) (e : LedgerRefusal) (s' : LedgerStateV1)
      (unmoved : Unmoved s s') (pinned : s'.pinnedLedger = s.pinnedLedger) :
      Received target s payload (.invalid e) s'
  | receipt (r : BalanceReceiptV1) (s' : LedgerStateV1)
      (genuine : Genuine target s s' (some r)) (balance : s'.balance = some r.verified)
      (pending : s'.pending = s.pending) (settlements : s'.settlements = s.settlements)
      (pins : s'.pinnedLeafKeys = s.pinnedLeafKeys) :
      Received target s (some (.balanceReceiptV1 r)) (.balanceReceipt r.verified) s'
  | order (result : OrderResultV1) (app : OrderResultApplication) (pending : PendingOrderV1)
      (s' : LedgerStateV1) (genuine : Genuine target s s' result.balance)
      (offered : app.balance = result.balance.map BalanceReceiptV1.verified)
      (balance : s'.balance = app.balance.or s.balance)
      (taken : Taken s s' result.orderHash pending) (hash : app.orderHash = result.orderHash)
      (status : app.status = result.status) (settlements : s'.settlements = s.settlements)
      (activity : app.status = .rejected → s'.activity = s.activity)
      (pins : s'.pinnedLeafKeys = s.pinnedLeafKeys) :
      Received target s (some (.orderResultV1 result)) (.orderResult app) s'
  | settlement (payload : VersionedLedgerPayload) (result : OrderResultV3)
      (app : SettlementApplication) (pending : PendingOrderV1) (s' : LedgerStateV1)
      (settles : payload = .orderResultV3 result
        ∨ result.proof = none ∧ payload = .orderResultV2
            { orderHash := result.orderHash, status := result.status, balance := result.balance })
      (genuine : Genuine target s s' result.balance)
      (offered : app.balance = result.balance.map BalanceReceiptV1.verified)
      (balance : s'.balance = app.balance.or s.balance)
      (taken : Taken s s' result.orderHash pending) (hash : app.orderHash = result.orderHash)
      (resolved : Resolved target s pending result.orderHash result.proof app.state
        s'.pinnedLeafKeys)
      (activity : s'.activity = s.activity)
      (settlements : ∃ record, record.orderHash = result.orderHash ∧ record.state = app.state
        ∧ s'.settlements = (s.recordSettlement record).settlements) :
      Received target s (some payload) (.settlement app) s'

/-- A terminal proof is judged by the pinned leaf keys alone. -/
theorem verifySettlementProof_congr (h : s'.pinnedLeafKeys = s.pinnedLeafKeys)
    (pending : PendingOrderV1) (orderHash : Hash) (proof : EntryProofV1) :
    verifySettlementProof target s' pending orderHash proof
      = verifySettlementProof target s pending orderHash proof := by
  have hpin : ∀ signer key, s'.checkLeafPin pending signer key
      = s.checkLeafPin pending signer key := by
    intro signer key
    simp only [LedgerStateV1.checkLeafPin, LedgerStateV1.pinnedLeafKey, h]
  simp only [verifySettlementProof, hpin]

omit [Postcard] in
theorem pinFirstUse_congr (h : s'.pinnedLeafKeys = s.pinnedLeafKeys) (signer : PeerKeys) :
    (s'.pinFirstUse signer).pinnedLeafKeys = (s.pinFirstUse signer).pinnedLeafKeys := by
  have hpin : s'.pinnedLeafKey signer.nodeId = s.pinnedLeafKey signer.nodeId := by
    simp only [LedgerStateV1.pinnedLeafKey, h]
  simp only [LedgerStateV1.pinFirstUse, hpin]
  cases signer.ledger with
  | none => exact h
  | some ledger =>
      cases s.pinnedLeafKey signer.nodeId with
      | some pinned => exact h
      | none =>
          simp only [LedgerStateV1.pinLeafKeyUnconfirmed, LedgerStateV1.setLeafKey, h]

omit [Postcard] in
theorem surfaceLeafKey_unmoved (s : LedgerStateV1) (signer : PeerKeys) :
    Unmoved s (s.surfaceLeafKey signer)
      ∧ (s.surfaceLeafKey signer).pinnedLedger = s.pinnedLedger := by
  unfold LedgerStateV1.surfaceLeafKey
  cases signer.ledger with
  | none => exact ⟨.refl s, rfl⟩
  | some ledger =>
      cases s.pinnedLeafKey signer.nodeId with
      | none => exact ⟨.refl s, rfl⟩
      | some pinned =>
          dsimp only
          by_cases h : pinned ≠ ledger
          · rw [if_pos h]
            exact ⟨⟨rfl, rfl, rfl, rfl, rfl⟩, rfl⟩
          · rw [if_neg h]
            exact ⟨.refl s, rfl⟩

/-- A resolution moves nothing but the leaf pins and the recorded key changes. -/
structure Settles (s s' : LedgerStateV1) : Prop where
  balance : s'.balance = s.balance
  activity : s'.activity = s.activity
  pending : s'.pending = s.pending
  settlements : s'.settlements = s.settlements
  pinnedLedger : s'.pinnedLedger = s.pinnedLedger

omit [Postcard] in
theorem Settles.refl (s : LedgerStateV1) : Settles s s := ⟨rfl, rfl, rfl, rfl, rfl⟩

omit [Postcard] in
theorem settles_pinFirstUse (s : LedgerStateV1) (signer : PeerKeys) :
    Settles s (s.pinFirstUse signer) := by
  unfold LedgerStateV1.pinFirstUse
  cases signer.ledger with
  | none => exact .refl s
  | some ledger =>
      cases s.pinnedLeafKey signer.nodeId with
      | some pinned => exact .refl s
      | none => exact ⟨rfl, rfl, rfl, rfl, rfl⟩

theorem resolveTerminal_resolved {pending : PendingOrderV1} {orderHash : Hash}
    {proof : Option EntryProofV1} {success : SettlementStateV1} (hsuccess : success.Success)
    {entrySeq : UInt64} {resolution : Resolution}
    (h : resolveTerminal target s pending orderHash proof success entrySeq
      = some (resolution, s')) :
    Settles s s'
      ∧ Resolved target s pending orderHash proof resolution.state s'.pinnedLeafKeys := by
  have hunverified : ∀ reason, ¬ (SettlementStateV1.unverified reason).Success := by
    intro reason hstate
    rcases hstate with hstate | hstate <;> cases hstate
  cases proof with
  | none =>
      simp only [resolveTerminal, terminalSettlementState, Option.some.injEq, Prod.mk.injEq] at h
      obtain ⟨rfl, rfl⟩ := h
      exact ⟨.refl s, fun hstate => absurd hstate (hunverified _), fun _ => rfl⟩
  | some p =>
      rcases hverify : verifySettlementProof target s pending orderHash p with _ | reason | _
      · simp [resolveTerminal, terminalSettlementState, hverify] at h
      · simp only [resolveTerminal, terminalSettlementState, hverify, Option.some.injEq,
          Prod.mk.injEq] at h
        obtain ⟨rfl, rfl⟩ := h
        obtain ⟨hunmoved, hpinned⟩ := surfaceLeafKey_unmoved s p.signer
        refine ⟨⟨hunmoved.balance, hunmoved.activity, hunmoved.pending, hunmoved.settlements,
          hpinned⟩, fun hstate => absurd hstate (hunverified _), fun _ => ?_⟩
        exact hunmoved.pinnedLeafKeys
      · have hresult : resolution.state = success ∧ s' = s.pinFirstUse p.signer := by
          rcases hsuccess with rfl | rfl
          · simp only [resolveTerminal, terminalSettlementState, hverify, Option.some.injEq,
              Prod.mk.injEq] at h
            exact ⟨by rw [← h.1], h.2.symm⟩
          · simp only [resolveTerminal, terminalSettlementState, hverify, Option.some.injEq,
              Prod.mk.injEq] at h
            exact ⟨by rw [← h.1], h.2.symm⟩
        obtain ⟨hstate, rfl⟩ := hresult
        refine ⟨settles_pinFirstUse s p.signer, fun _ => ⟨p, rfl, hverify, rfl⟩, ?_⟩
        intro hnot
        rw [hstate] at hnot
        exact absurd hsuccess hnot

theorem resolveStatus_resolved {pending : PendingOrderV1} {orderHash : Hash}
    {proof : Option EntryProofV1} {status : SettlementStatusV2} {resolution : Resolution}
    (h : resolveStatus target s pending orderHash proof status = some (resolution, s')) :
    Settles s s'
      ∧ Resolved target s pending orderHash proof resolution.state s'.pinnedLeafKeys := by
  have hkept : ∀ state, ¬ state.Success → resolution.state = state → s' = s → Settles s s'
      ∧ Resolved target s pending orderHash proof resolution.state s'.pinnedLeafKeys := by
    intro state hnot hstate hs
    subst hs
    rw [hstate]
    exact ⟨.refl s', fun hyes => absurd hyes hnot, fun _ => rfl⟩
  cases status with
  | applied entrySeq entryHash => exact resolveTerminal_resolved (.inl rfl) h
  | duplicate entrySeq entryHash => exact resolveTerminal_resolved (.inr rfl) h
  | partially failedAt reason =>
      simp only [resolveStatus, Option.some.injEq, Prod.mk.injEq] at h
      exact hkept (.partially failedAt) (by simp [SettlementStateV1.Success]) (by rw [← h.1])
        h.2.symm
  | rejected reason =>
      simp only [resolveStatus, Option.some.injEq, Prod.mk.injEq] at h
      exact hkept (.rejected reason) (by simp [SettlementStateV1.Success]) (by rw [← h.1])
        h.2.symm
  | indeterminate reason =>
      simp only [resolveStatus, Option.some.injEq, Prod.mk.injEq] at h
      exact hkept (.indeterminate reason) (by simp [SettlementStateV1.Success]) (by rw [← h.1])
        h.2.symm

theorem applyBalanceReceipt_received {receipt : BalanceReceiptV1}
    {answer : Except LedgerRefusal VerifiedBalanceV1}
    (h : applyBalanceReceipt target s receipt selfNode parent = some (answer, s')) :
    (∃ e, answer = .error e ∧ Unmoved s s' ∧ s'.pinnedLedger = s.pinnedLedger)
      ∨ ∃ v, answer = .ok v
        ∧ Received target s (some (.balanceReceiptV1 receipt)) (.balanceReceipt v) s' := by
  rw [applyBalanceReceipt] at h
  by_cases hbound : (!receipt.historyWithinBound) = true
  · rw [if_pos hbound] at h
    simp only [Option.some.injEq, Prod.mk.injEq] at h
    obtain ⟨rfl, rfl⟩ := h
    exact .inl ⟨_, rfl, .refl s, rfl⟩
  · rw [if_neg hbound] at h
    rcases hverify : verifyReceipt target s receipt selfNode parent with _ | ⟨e | v, mid⟩
    · simp [hverify] at h
    · simp only [hverify, Option.some.injEq, Prod.mk.injEq] at h
      obtain ⟨rfl, rfl⟩ := h
      cases verifyReceipt_vetted hverify with
      | refused _ _ hunmoved hpinned => exact .inl ⟨e, rfl, hunmoved, hpinned⟩
    · simp only [hverify, Option.some.injEq, Prod.mk.injEq] at h
      obtain ⟨rfl, rfl⟩ := h
      have hvetted := verifyReceipt_vetted hverify
      obtain ⟨hpending, hsettlements, hpins, hledger, -⟩ :=
        foldl_recordActivity_unmoved (receipt.notice.toList ++ receipt.history) mid
      generalize List.foldl _ mid _ = after at hpending hsettlements hpins hledger ⊢
      have hv : v = receipt.verified := by
        generalize hoffer : Except.map some (Except.ok v) = offer at hvetted
        cases hvetted with
        | refused => cases hoffer
        | accepted => exact Option.some.inj (Except.ok.inj hoffer)
      subst hv
      cases hvetted with
      | accepted _ hunmoved hgenuine =>
          refine .inr ⟨_, rfl, .receipt receipt _ ?_ rfl ?_ ?_ ?_⟩
          · exact hgenuine.congr (by rw [installBalance_pinnedLedger, hledger])
          · rw [installBalance_pending, hpending, hunmoved.pending]
          · rw [installBalance_settlements, hsettlements, hunmoved.settlements]
          · rw [installBalance_pinnedLeafKeys, hpins, hunmoved.pinnedLeafKeys]

omit [Postcard] in
theorem directActivity_rejected {pending : PendingOrderV1} {result : OrderResultV1}
    {now : UInt64} (h : result.status = .rejected) : directActivity pending result now = none := by
  simp [directActivity, h]

omit [Postcard] in
/-- The state an order result leaves behind the check of its receipt. -/
theorem applyOrderResult_ok {result : OrderResultV1} {now : UInt64} {index : ℕ}
    {pending : PendingOrderV1} {verified : Option VerifiedBalanceV1} {mid : LedgerStateV1}
    (hindex : s.pendingIndex result.orderHash = some index)
    (hverify : verifyOffered target s result.balance selfNode parent = some (.ok verified, mid))
    (hpending : mid.pending[index]? = some pending) :
    applyOrderResult target s result selfNode parent now
      = some (.ok
          { status := result.status, reason := result.reason, orderHash := result.orderHash
            amount := pending.order.amount, counterparty := pending.order.to_
            entrySeq := result.entrySeq, balance := verified },
          ((directActivity pending result now).elim (mid.removePending index)
            (mid.removePending index).recordActivity).installBalance verified) := by
  simp only [applyOrderResult, hindex, hverify, hpending]
  cases directActivity pending result now <;> rfl

theorem applyOrderResult_received {result : OrderResultV1} {now : UInt64}
    {answer : Except LedgerRefusal OrderResultApplication}
    (h : applyOrderResult target s result selfNode parent now = some (answer, s')) :
    (∃ e, answer = .error e ∧ Unmoved s s' ∧ s'.pinnedLedger = s.pinnedLedger)
      ∨ ∃ app, answer = .ok app
        ∧ Received target s (some (.orderResultV1 result)) (.orderResult app) s' := by
  cases hindex : s.pendingIndex result.orderHash with
  | none =>
      simp only [applyOrderResult, hindex, Option.some.injEq, Prod.mk.injEq] at h
      obtain ⟨rfl, rfl⟩ := h
      exact .inl ⟨_, rfl, .refl s, rfl⟩
  | some index =>
      rcases hverify : verifyOffered target s result.balance selfNode parent
        with _ | ⟨e | verified, mid⟩
      · simp [applyOrderResult, hindex, hverify] at h
      · simp only [applyOrderResult, hindex, hverify, Option.some.injEq, Prod.mk.injEq] at h
        obtain ⟨rfl, rfl⟩ := h
        cases verifyOffered_vetted hverify with
        | refused _ _ hunmoved hpinned => exact .inl ⟨e, rfl, hunmoved, hpinned⟩
      · obtain ⟨pending, hget, hfirst⟩ := pendingIndex_spec hindex
        cases verifyOffered_vetted hverify with
        | accepted _ hunmoved hgenuine =>
            have hmid : mid.pending[index]? = some pending := by rw [hunmoved.pending, hget]
            rw [applyOrderResult_ok hindex hverify hmid, Option.some.injEq, Prod.mk.injEq] at h
            obtain ⟨rfl, rfl⟩ := h
            refine .inr ⟨_, rfl, ?_⟩
            have hafter : ∀ after, (directActivity pending result now).elim
                (mid.removePending index) (mid.removePending index).recordActivity = after →
                after.pending = s.pending.eraseIdx index ∧ after.settlements = s.settlements
                ∧ after.pinnedLeafKeys = s.pinnedLeafKeys
                ∧ after.pinnedLedger = mid.pinnedLedger ∧ after.balance = s.balance
                ∧ (result.status = .rejected → after.activity = s.activity) := by
              intro after heq
              have hremoved : (mid.removePending index).pending = s.pending.eraseIdx index := by
                rw [LedgerStateV1.removePending, hunmoved.pending]
              cases hactivity : directActivity pending result now with
              | none =>
                  rw [hactivity, Option.elim_none] at heq
                  subst heq
                  exact ⟨hremoved, hunmoved.settlements, hunmoved.pinnedLeafKeys, rfl,
                    hunmoved.balance, fun _ => hunmoved.activity⟩
              | some entry =>
                  rw [hactivity, Option.elim_some] at heq
                  subst heq
                  obtain ⟨h₁, h₂, h₃, h₄, h₅⟩ :=
                    recordActivity_unmoved (mid.removePending index) entry
                  refine ⟨h₁.trans hremoved, h₂.trans hunmoved.settlements,
                    h₃.trans hunmoved.pinnedLeafKeys, h₄, h₅.trans hunmoved.balance, ?_⟩
                  intro hstatus
                  rw [directActivity_rejected hstatus] at hactivity
                  cases hactivity
            obtain ⟨h₁, h₂, h₃, h₄, h₅, h₆⟩ := hafter _ rfl
            refine .order result _ pending _ ?_ rfl ?_ ⟨hfirst, index, hget, ?_⟩ rfl rfl ?_ ?_ ?_
            · exact hgenuine.congr (by rw [installBalance_pinnedLedger, h₄])
            · rw [installBalance_balance, h₅]
            · rw [installBalance_pending, h₁]
            · rw [installBalance_settlements, h₂]
            · intro hstatus
              rw [installBalance_activity, h₆ hstatus]
            · rw [installBalance_pinnedLeafKeys, h₃]

theorem applySettlementResultInner_received {payload : VersionedLedgerPayload}
    {result : OrderResultV3} {answer : Except LedgerRefusal SettlementApplication}
    (hpayload : payload = .orderResultV3 result
      ∨ result.proof = none ∧ payload = .orderResultV2
          { orderHash := result.orderHash, status := result.status, balance := result.balance })
    (h : applySettlementResultInner target s result.orderHash result.status result.balance
      result.proof selfNode parent = some (answer, s')) :
    (∃ e, answer = .error e ∧ Unmoved s s' ∧ s'.pinnedLedger = s.pinnedLedger)
      ∨ ∃ app, answer = .ok app ∧ Received target s (some payload) (.settlement app) s' := by
  cases hindex : s.pendingIndex result.orderHash with
  | none =>
      simp only [applySettlementResultInner, hindex, Option.some.injEq, Prod.mk.injEq] at h
      obtain ⟨rfl, rfl⟩ := h
      exact .inl ⟨_, rfl, .refl s, rfl⟩
  | some index =>
      obtain ⟨pending, hget, hfirst⟩ := pendingIndex_spec hindex
      rcases hverify : verifyOffered target s result.balance selfNode parent
        with _ | ⟨e | verified, mid⟩
      · simp [applySettlementResultInner, hindex, hget, hverify] at h
      · simp only [applySettlementResultInner, hindex, hget, hverify, Option.some.injEq,
          Prod.mk.injEq] at h
        obtain ⟨rfl, rfl⟩ := h
        cases verifyOffered_vetted hverify with
        | refused _ _ hunmoved hpinned => exact .inl ⟨e, rfl, hunmoved, hpinned⟩
      · rcases hresolve : resolveStatus target mid pending result.orderHash result.proof
          result.status with _ | ⟨resolution, after⟩
        · simp [applySettlementResultInner, hindex, hget, hverify, hresolve] at h
        · simp only [applySettlementResultInner, hindex, hget, hverify, hresolve,
            Option.some.injEq, Prod.mk.injEq] at h
          obtain ⟨rfl, rfl⟩ := h
          obtain ⟨hsettles, hresolved⟩ := resolveStatus_resolved hresolve
          cases verifyOffered_vetted hverify with
          | accepted _ hunmoved hgenuine =>
              refine .inr ⟨_, rfl, ?_⟩
              refine .settlement payload result _ pending _ hpayload ?_ rfl ?_
                ⟨hfirst, index, hget, ?_⟩ rfl ⟨?_, ?_⟩ ?_
                ⟨{ orderHash := result.orderHash, state := resolution.state
                   amount := some pending.order.amount, counterparty := some pending.order.to_
                   entrySeq := resolution.entrySeq }, rfl, rfl, ?_⟩
              · refine hgenuine.congr ?_
                change (LedgerStateV1.installBalance _ _).pinnedLedger = _
                rw [installBalance_pinnedLedger]
                exact hsettles.pinnedLedger
              · change (LedgerStateV1.installBalance _ _).balance = _
                rw [installBalance_balance]
                exact congrArg _ (hsettles.balance.trans hunmoved.balance)
              · change (LedgerStateV1.installBalance _ _).pending = _
                rw [installBalance_pending]
                exact congrArg (fun l => l.eraseIdx index)
                  (hsettles.pending.trans hunmoved.pending)
              · intro hsuccess
                obtain ⟨p, hp, hproof, hpins⟩ := hresolved.proven hsuccess
                refine ⟨p, hp, ?_, ?_⟩
                · rw [← verifySettlementProof_congr hunmoved.pinnedLeafKeys]
                  exact hproof
                · rw [← pinFirstUse_congr hunmoved.pinnedLeafKeys]
                  change (LedgerStateV1.installBalance _ _).pinnedLeafKeys = _
                  rw [installBalance_pinnedLeafKeys]
                  exact hpins
              · intro hnot
                change (LedgerStateV1.installBalance _ _).pinnedLeafKeys = _
                rw [installBalance_pinnedLeafKeys]
                exact (hresolved.unproven hnot).trans hunmoved.pinnedLeafKeys
              · change (LedgerStateV1.installBalance _ _).activity = _
                rw [installBalance_activity]
                exact hsettles.activity.trans hunmoved.activity
              · have hafter : ((after.removePending index).installBalance
                    (result.balance.map BalanceReceiptV1.verified)).settlements
                    = s.settlements := by
                  rw [installBalance_settlements]
                  exact hsettles.settlements.trans hunmoved.settlements
                simp only [LedgerStateV1.recordSettlement, hafter]

theorem event_received {α : Type} {answer : Answer α} {report : α → LedgerEvent}
    {payload : Option VersionedLedgerPayload} {event : LedgerEvent}
    (h : answer.event report = some (event, s'))
    (hanswer : ∀ result, answer = some (result, s') →
      (∃ e, result = .error e ∧ Unmoved s s' ∧ s'.pinnedLedger = s.pinnedLedger)
      ∨ ∃ a, result = .ok a ∧ Received target s payload (report a) s') :
    Received target s payload event s' := by
  rcases answer with _ | ⟨e | a, after⟩
  · cases h
  · simp only [Answer.event, Option.some.injEq, Prod.mk.injEq] at h
    obtain ⟨rfl, rfl⟩ := h
    rcases hanswer _ rfl with ⟨e', -, hunmoved, hpinned⟩ | ⟨a, hcontra, -⟩
    · exact .refused payload e after hunmoved hpinned
    · cases hcontra
  · simp only [Answer.event, Option.some.injEq, Prod.mk.injEq] at h
    obtain ⟨rfl, rfl⟩ := h
    rcases hanswer _ rfl with ⟨e, hcontra, -⟩ | ⟨a', ha, hreceived⟩
    · cases hcontra
    · cases ha
      exact hreceived

/-- Every inbound message is refused or does what its event says. -/
theorem tryRecvLedgerEvent_received {current : Option NodeId}
    {payload : Option VersionedLedgerPayload} {now : UInt64} {event : LedgerEvent}
    (h : tryRecvLedgerEvent target s selfNode current payload now = some (event, s')) :
    Received target s payload event s' := by
  have hinvalid : ∀ e, some (LedgerEvent.invalid e, s) = some (event, s') →
      Received target s payload event s' := by
    intro e he
    simp only [Option.some.injEq, Prod.mk.injEq] at he
    obtain ⟨rfl, rfl⟩ := he
    exact .refused payload e s (.refl s) rfl
  cases payload with
  | none => exact hinvalid _ h
  | some payload =>
      cases current with
      | none => cases payload <;> exact hinvalid _ h
      | some parent =>
          cases payload with
          | other => exact hinvalid _ h
          | orderResultV1 result =>
              exact event_received h fun _ => applyOrderResult_received
          | balanceReceiptV1 receipt =>
              exact event_received h fun _ => applyBalanceReceipt_received
          | orderResultV2 result =>
              let withoutProof : OrderResultV3 :=
                { orderHash := result.orderHash, status := result.status
                  balance := result.balance, proof := none }
              refine event_received h fun _ hstep => ?_
              have hinner : applySettlementResultInner target s withoutProof.orderHash
                  withoutProof.status withoutProof.balance withoutProof.proof selfNode parent
                  = some (_, s') := hstep
              exact applySettlementResultInner_received (.inr ⟨rfl, rfl⟩) hinner
          | orderResultV3 result =>
              exact event_received h fun _ => applySettlementResultInner_received (.inl rfl)

end Cawala
