import Cawala.Verification.BrowserPayments

/-! # What a pinned leaf binds -/

namespace Cawala

open Library

section

variable [Crypto] {target : Target} {s : LedgerStateV1} {leaf : NodeId} {key : LedgerPubKey}

/-! ## The table of pins -/

/-- The table is full, its oldest pin is that of the leaf, and a pin of a leaf that had none
drives it out. -/
def DrivenOut (leaf : NodeId) (s s' : LedgerStateV1) : Prop :=
  s.pinnedLeafKeys.length = maxPinnedLeafKeys
    ∧ (∃ oldest, s.pinnedLeafKeys.head? = some oldest ∧ oldest.nodeId = leaf)
    ∧ ∃ new : PinnedLeafKeyV1, s.pinnedLeafKey new.nodeId = none
      ∧ s'.pinnedLeafKeys = s.pinnedLeafKeys.tail ++ [new]

def KeepsPin (leaf : NodeId) (s s' : LedgerStateV1) : Prop :=
  s'.pinnedLeafKeys.length ≤ maxPinnedLeafKeys
    ∧ (s'.pinnedLeafKey leaf = s.pinnedLeafKey leaf ∨ DrivenOut leaf s s')

theorem KeepsPin.of_eq {s' : LedgerStateV1} (hlen : s.pinnedLeafKeys.length ≤ maxPinnedLeafKeys)
    (h : s'.pinnedLeafKeys = s.pinnedLeafKeys) : KeepsPin leaf s s' := by
  refine ⟨h ▸ hlen, .inl ?_⟩
  rw [LedgerStateV1.pinnedLeafKey, h, LedgerStateV1.pinnedLeafKey]

theorem setLeafKey_keepsPin (hlen : s.pinnedLeafKeys.length ≤ maxPinnedLeafKeys)
    {nodeId : NodeId} (hne : nodeId ≠ leaf) (ledger : LedgerPubKey) (trust : PinTrust) :
    KeepsPin leaf s (s.setLeafKey nodeId ledger trust) := by
  refine ⟨Fifo.length_put_le hlen, ?_⟩
  have hkind : ∀ a : PinnedLeafKeyV1, (a.nodeId == nodeId) = true →
      (a.nodeId == leaf) = false ∧ (a.nodeId == leaf) = false := by
    intro a ha
    rw [beq_iff_eq] at ha
    simp [ha, hne]
  have hnew : (nodeId == leaf) = false := by simp [hne]
  rcases Fifo.find?_put (q := fun entry : PinnedLeafKeyV1 => entry.nodeId == leaf)
    (x := ⟨nodeId, ledger, trust⟩) (f := fun entry => { entry with ledger, trust })
    hkind hnew hlen with hfind | ⟨hnone, hfull, oldest, hhead, holdest⟩
  · left
    rw [LedgerStateV1.pinnedLeafKey, LedgerStateV1.setLeafKey, hfind,
      LedgerStateV1.pinnedLeafKey]
  · right
    refine ⟨hfull, ⟨oldest, hhead, beq_iff_eq.mp holdest⟩, ⟨nodeId, ledger, trust⟩, ?_, ?_⟩
    · rw [LedgerStateV1.pinnedLeafKey, Option.map_eq_none_iff, List.find?_eq_none]
      simpa using hnone
    · rw [LedgerStateV1.setLeafKey, Fifo.put, if_neg (by simp [hnone]),
        Fifo.push_of_full hfull (by decide)]

theorem pinFirstUse_keepsPin (hlen : s.pinnedLeafKeys.length ≤ maxPinnedLeafKeys)
    (hpin : s.pinnedLeafKey leaf = some key) (signer : PeerKeys) :
    KeepsPin leaf s (s.pinFirstUse signer) := by
  rw [LedgerStateV1.pinFirstUse]
  cases hledger : signer.ledger with
  | none => exact .of_eq hlen rfl
  | some ledger =>
      cases hsigner : s.pinnedLeafKey signer.nodeId with
      | some pinned => exact .of_eq hlen rfl
      | none =>
          refine setLeafKey_keepsPin hlen ?_ ledger .unconfirmed
          intro heq
          rw [heq, hpin] at hsigner
          cases hsigner

theorem recordLeafKeyChange_keepsPin (hlen : s.pinnedLeafKeys.length ≤ maxPinnedLeafKeys)
    (nodeId : NodeId) (pinned presented : LedgerPubKey) :
    KeepsPin leaf s (s.recordLeafKeyChange nodeId pinned presented) := .of_eq hlen rfl

theorem confirmLeafPin_keepsPin (hlen : s.pinnedLeafKeys.length ≤ maxPinnedLeafKeys)
    (nodeId : NodeId) : KeepsPin leaf s (s.confirmLeafPin nodeId).2 := by
  refine ⟨(Fifo.length_replaceFirst).trans_le hlen, .inl ?_⟩
  exact Fifo.find?_replaceFirst_map (fun _ => rfl) (fun _ => rfl)

theorem confirmPin_keepsPin (hlen : s.pinnedLeafKeys.length ≤ maxPinnedLeafKeys)
    (parent : Option NodeId) (nodeId : NodeId) : KeepsPin leaf s (confirmPin s parent nodeId) := by
  have hrouting : (if parent = some nodeId then (s.confirmPinnedLedger nodeId).2
      else s).pinnedLeafKeys = s.pinnedLeafKeys := by
    by_cases hparent : parent = some nodeId
    · rw [if_pos hparent, LedgerStateV1.confirmPinnedLedger]
      by_cases hpin : s.pinnedLedger.isSome = true
      · simp [hpin, LedgerStateV1.clearLeafKeyChanges]
      · simp [hpin, LedgerStateV1.clearLeafKeyChanges]
    · rw [if_neg hparent]
  rw [confirmPin]
  generalize (if parent = some nodeId then (s.confirmPinnedLedger nodeId).2 else s) = mid
    at hrouting
  have hkeeps : KeepsPin leaf mid (mid.confirmLeafPin nodeId).2 :=
    confirmLeafPin_keepsPin (hrouting ▸ hlen) nodeId
  simpa only [KeepsPin, DrivenOut, LedgerStateV1.pinnedLeafKey, hrouting] using hkeeps

theorem acceptPinChange_keepsPin (hlen : s.pinnedLeafKeys.length ≤ maxPinnedLeafKeys)
    (parent : Option NodeId) {nodeId : NodeId} (hne : nodeId ≠ leaf) :
    KeepsPin leaf s (acceptPinChange s parent nodeId) := by
  have hrouting : (if parent = some nodeId then (s.acceptPinnedLedgerChange nodeId).2
      else s).pinnedLeafKeys = s.pinnedLeafKeys := by
    by_cases hparent : parent = some nodeId
    · rw [if_pos hparent, LedgerStateV1.acceptPinnedLedgerChange]
      cases s.leafKeyChange nodeId <;> rfl
    · rw [if_neg hparent]
  rw [acceptPinChange]
  generalize (if parent = some nodeId then (s.acceptPinnedLedgerChange nodeId).2 else s) = mid
    at hrouting
  have hkeeps : KeepsPin leaf mid (mid.acceptLeafKeyChange nodeId).2 := by
    rw [LedgerStateV1.acceptLeafKeyChange]
    cases mid.leafKeyChange nodeId with
    | none => exact .of_eq (hrouting ▸ hlen) rfl
    | some change =>
        exact setLeafKey_keepsPin (hrouting ▸ hlen) hne change.presented .confirmed
  simpa only [KeepsPin, DrivenOut, LedgerStateV1.pinnedLeafKey, hrouting] using hkeeps

/-! ## Runs -/

/-- An explicit accept or re-pin of the leaf. -/
def ClientCall.Repins (leaf : NodeId) : ClientCall → Prop
  | .pinPayeeLeaf nodeId _ => nodeId = leaf
  | .acceptPinChange _ nodeId => nodeId = leaf
  | _ => False

variable [Postcard]

theorem received_keepsPin (hlen : s.pinnedLeafKeys.length ≤ maxPinnedLeafKeys)
    (hpin : s.pinnedLeafKey leaf = some key) {payload : Option VersionedLedgerPayload}
    {event : LedgerEvent} {s' : LedgerStateV1} (h : Received target s payload event s') :
    KeepsPin leaf s s' := by
  cases h with
  | refused _ _ _ hunmoved => exact .of_eq hlen hunmoved.pinnedLeafKeys
  | receipt _ _ _ _ _ _ hpins => exact .of_eq hlen hpins
  | order _ _ _ _ _ _ _ _ _ _ _ _ hpins => exact .of_eq hlen hpins
  | settlement _ _ app pending _ _ _ _ _ _ _ hresolved =>
      by_cases hsuccess : app.state.Success
      · obtain ⟨proof, -, -, hpins⟩ := hresolved.proven hsuccess
        have hkeeps : KeepsPin leaf s (s.pinFirstUse proof.signer) :=
          pinFirstUse_keepsPin hlen hpin proof.signer
        simpa only [KeepsPin, DrivenOut, LedgerStateV1.pinnedLeafKey, hpins] using hkeeps
      · exact .of_eq hlen (hresolved.unproven hsuccess)

/-- A call that does not accept or re-pin the leaf keeps its key, or drives it out. -/
theorem Transition.Performed.keepsPin {t : Transition} (h : t.Performed target)
    (hlen : t.before.pinnedLeafKeys.length ≤ maxPinnedLeafKeys)
    (hpin : t.before.pinnedLeafKey leaf = some key) (hcall : ¬ t.call.Repins leaf) :
    KeepsPin leaf t.before t.after := by
  obtain ⟨before, call, event, after⟩ := t
  cases call with
  | sendPayment order auth now selfAddr payeeAddr =>
      simp only [Transition.Performed, ClientCall.perform, Option.some.injEq,
        Prod.mk.injEq] at h
      obtain ⟨-, rfl⟩ := h
      exact .of_eq hlen rfl
  | pinPayeeLeaf nodeId ledger =>
      simp only [Transition.Performed, ClientCall.perform, Option.some.injEq,
        Prod.mk.injEq] at h
      obtain ⟨-, rfl⟩ := h
      dsimp only at hlen ⊢
      rw [LedgerStateV1.pinLeafKeyFromReceive]
      cases before.pinnedLeafKey nodeId with
      | none => exact setLeafKey_keepsPin hlen hcall ledger .confirmed
      | some existing =>
          dsimp only
          by_cases heq : existing = ledger
          · rw [if_pos heq]
            exact setLeafKey_keepsPin hlen hcall ledger .confirmed
          · rw [if_neg heq]
            exact recordLeafKeyChange_keepsPin hlen nodeId existing ledger
  | confirmPin parent nodeId =>
      simp only [Transition.Performed, ClientCall.perform, Option.some.injEq,
        Prod.mk.injEq] at h
      obtain ⟨-, rfl⟩ := h
      exact confirmPin_keepsPin hlen parent nodeId
  | acceptPinChange parent nodeId =>
      simp only [Transition.Performed, ClientCall.perform, Option.some.injEq,
        Prod.mk.injEq] at h
      obtain ⟨-, rfl⟩ := h
      exact acceptPinChange_keepsPin hlen parent hcall
  | rebindParent ledger =>
      simp only [Transition.Performed, ClientCall.perform, Option.some.injEq,
        Prod.mk.injEq] at h
      obtain ⟨-, rfl⟩ := h
      exact .of_eq hlen rfl
  | clearParentBinding =>
      simp only [Transition.Performed, ClientCall.perform, Option.some.injEq,
        Prod.mk.injEq] at h
      obtain ⟨-, rfl⟩ := h
      exact .of_eq hlen rfl
  | receive selfNode parent payload now =>
      obtain ⟨e, -, hreceive⟩ := tryRecv_of_perform h
      exact received_keepsPin hlen hpin (tryRecvLedgerEvent_received hreceive)

/-- Along a run, the key of the leaf stays throughout, or up to the call that drives its pin
out of the full table. -/
theorem run_keepsPin {calls : List ClientCall} {ts : List Transition}
    (hlen : s.pinnedLeafKeys.length ≤ maxPinnedLeafKeys) (hpin : s.pinnedLeafKey leaf = some key)
    (hcalls : ∀ call ∈ calls, ¬ call.Repins leaf) (hrun : runClient target s calls = some ts) :
    (∀ t ∈ ts, t.after.pinnedLeafKey leaf = some key)
      ∨ ∃ front t rest, ts = front ++ t :: rest
        ∧ (∀ u ∈ front, u.after.pinnedLeafKey leaf = some key)
        ∧ DrivenOut leaf t.before t.after := by
  induction calls generalizing s ts with
  | nil =>
      cases hrun
      left
      intro t ht
      cases ht
  | cons call calls ih =>
      obtain ⟨event, after, rest, hstep, hrest, rfl⟩ := runClient_cons hrun
      have hperformed : Transition.Performed target { before := s, call, event, after } := hstep
      obtain ⟨hlen', hkeeps⟩ :=
        hperformed.keepsPin hlen hpin (hcalls call List.mem_cons_self)
      rcases hkeeps with hsame | hdriven
      · have hafter : after.pinnedLeafKey leaf = some key := hsame.trans hpin
        rcases ih hlen' hafter (fun c hc => hcalls c (List.mem_cons_of_mem _ hc)) hrest
          with hall | ⟨front, t, tail, rfl, hfront, hdriven⟩
        · left
          intro t ht
          rcases List.mem_cons.mp ht with rfl | ht
          · exact hafter
          · exact hall t ht
        · right
          refine ⟨_ :: front, t, tail, rfl, ?_, hdriven⟩
          intro u hu
          rcases List.mem_cons.mp hu with rfl | hu
          · exact hafter
          · exact hfront u hu
      · right
        refine ⟨[], _, rest, rfl, ?_, hdriven⟩
        intro u hu
        cases hu

/-! ## The signer of a terminal entry -/

theorem checkSettlementProof_ok {pending : PendingOrderV1} {orderHash : Hash}
    {proof : EntryProofV1} {ledger : LedgerPubKey}
    (h : checkSettlementProof pending orderHash proof = .ok ledger) :
    proof.signer.ledger = some ledger ∧ proof.entry.verify ledger = .ok () := by
  unfold checkSettlementProof at h
  cases hvalidate : proof.validate with
  | error text => simp [hvalidate] at h
  | ok _ =>
      simp only [hvalidate, ite_error_eq_ok] at h
      obtain ⟨-, -, -, h⟩ := h
      cases happlied : verifyAppliedEntry proof.entry pending.order pending.payerLeaf with
      | error e => simp [happlied] at h
      | ok _ =>
          simp only [happlied, ite_error_eq_ok] at h
          obtain ⟨-, h⟩ := h
          cases hledger : proof.signer.ledger with
          | none => simp [hledger] at h
          | some signerLedger =>
              simp only [hledger] at h
              cases hverify : proof.entry.verify signerLedger with
              | error e => simp [hverify] at h
              | ok _ =>
                  simp only [hverify, ite_error_eq_ok, Except.ok.injEq] at h
                  obtain ⟨-, -, -, -, rfl⟩ := h
                  exact ⟨rfl, hverify⟩

theorem signed_of_verifySettlementProof {pending : PendingOrderV1} {orderHash : Hash}
    {proof : EntryProofV1}
    (h : verifySettlementProof target s pending orderHash proof = some (.ok ()))
    (hpin : s.pinnedLeafKey proof.signer.nodeId = some key) :
    proof.entry.verify key = .ok () := by
  rw [verifySettlementProof] at h
  cases hcheck : checkSettlementProof pending orderHash proof with
  | error e => simp [hcheck] at h
  | ok ledger =>
      rcases hverify : verifyEntryInclusion target proof.entry proof.inclusion
        proof.commitment.commitment.entryRoot with _ | included
      · simp [hcheck, hverify] at h
      · cases included with
        | false => simp [hcheck, hverify] at h
        | true =>
            simp only [hcheck, hverify, Option.some.injEq, LedgerStateV1.checkLeafPin, hpin,
              ite_error_eq_ok, not_not] at h
            rw [h.1]
            exact (checkSettlementProof_ok hcheck).2

omit [Postcard] in
theorem pinLeafKeyFromReceive_pins (hlen : s.pinnedLeafKeys.length ≤ maxPinnedLeafKeys)
    {outcome : LeafPinOutcome} {pinned : LedgerStateV1}
    (hpin : s.pinLeafKeyFromReceive leaf key = (outcome, pinned))
    (houtcome : outcome = .pinned ∨ outcome = .alreadyPinned) :
    pinned.pinnedLeafKeys.length ≤ maxPinnedLeafKeys ∧ pinned.pinnedLeafKey leaf = some key := by
  have hset : ∀ trust, (s.setLeafKey leaf key trust).pinnedLeafKeys.length ≤ maxPinnedLeafKeys
      ∧ (s.setLeafKey leaf key trust).pinnedLeafKey leaf = some key := by
    intro trust
    refine ⟨Fifo.length_put_le hlen, ?_⟩
    have hself : ∀ a : PinnedLeafKeyV1, (a.nodeId == leaf) = true →
        { a with ledger := key, trust } = PinnedLeafKeyV1.mk leaf key trust := by
      intro a ha
      rw [← beq_iff_eq.mp ha]
    have hfind : (s.setLeafKey leaf key trust).pinnedLeafKeys.find?
        (fun entry => entry.nodeId == leaf) = some ⟨leaf, key, trust⟩ :=
      Fifo.find?_put_self (by decide) (beq_self_eq_true leaf) (fun _ ha => ha) hself
    rw [LedgerStateV1.pinnedLeafKey, hfind]
    rfl
  rw [LedgerStateV1.pinLeafKeyFromReceive] at hpin
  cases hexisting : s.pinnedLeafKey leaf with
  | none =>
      simp only [hexisting, Prod.mk.injEq] at hpin
      obtain ⟨-, rfl⟩ := hpin
      exact hset .confirmed
  | some existing =>
      simp only [hexisting] at hpin
      by_cases heq : existing = key
      · rw [if_pos heq, Prod.mk.injEq] at hpin
        obtain ⟨-, rfl⟩ := hpin
        exact hset .confirmed
      · rw [if_neg heq, Prod.mk.injEq] at hpin
        obtain ⟨rfl, -⟩ := hpin
        rcases houtcome with houtcome | houtcome <;> cases houtcome

/-- While the pin of a leaf stands, a result whose proof names that leaf as its signer counts
as paid only if its terminal entry is signed by the pinned key; and the pin stands until it
is the oldest of a full table and a leaf without a pin gets one. -/
theorem pinned_leaf_binding (hlen : s.pinnedLeafKeys.length ≤ maxPinnedLeafKeys)
    {outcome : LeafPinOutcome} {pinned : LedgerStateV1}
    (hpin : s.pinLeafKeyFromReceive leaf key = (outcome, pinned))
    (houtcome : outcome = .pinned ∨ outcome = .alreadyPinned) {calls : List ClientCall}
    {ts : List Transition} (hcalls : ∀ call ∈ calls, ¬ call.Repins leaf)
    (hrun : runClient target pinned calls = some ts) :
    ((∀ t ∈ ts, t.after.pinnedLeafKey leaf = some key)
      ∨ ∃ front t rest, ts = front ++ t :: rest
        ∧ (∀ u ∈ front, u.after.pinnedLeafKey leaf = some key)
        ∧ DrivenOut leaf t.before t.after)
    ∧ ∀ t ∈ ts, t.before.pinnedLeafKey leaf = some key →
      ∀ selfNode parent result now proof,
        t.call = .receive selfNode parent (some (.orderResultV3 result)) now →
        result.proof = some proof → proof.signer.nodeId = leaf →
        ((∃ event, t.event = some event ∧ event.Reports result.orderHash)
          ∨ t.Records result.orderHash) →
        proof.entry.verify key = .ok () := by
  obtain ⟨hlen', hkey⟩ := pinLeafKeyFromReceive_pins hlen hpin houtcome
  refine ⟨run_keepsPin hlen' hkey hcalls hrun, ?_⟩
  intro t ht hbefore selfNode parent result now proof hcall hproof hsigner hsuccess
  have hperformed := performed_of_run hrun t ht
  obtain ⟨before, call, event, after⟩ := t
  dsimp only at hcall hbefore
  subst hcall
  obtain ⟨e, hevent, hreceive⟩ := tryRecv_of_perform hperformed
  have hreceived := tryRecvLedgerEvent_received hreceive
  dsimp only at hevent
  subst hevent
  have hmessage := hreceived
  cases hreceived with
  | refused _ e _ hunmoved =>
      rcases hsuccess with ⟨e', he, hreports⟩ | hrecords
      · cases he
        exact hreports.elim
      · exact absurd hrecords (not_records hunmoved.activity hunmoved.settlements _)
  | settlement _ _ app =>
      have hpaid : (LedgerEvent.settlement app).Reports result.orderHash
          ∨ Transition.Records ⟨before, .receive selfNode parent (some (.orderResultV3 result)) now,
              some (.settlement app), after⟩ result.orderHash := by
        rcases hsuccess with ⟨e', he, hreports⟩ | hrecords
        · cases he
          exact .inl hreports
        · exact .inr hrecords
      obtain ⟨result', proof', pending, hresult, hproof', -, -, hverify⟩ :=
        proven_of_settlement hmessage hpaid
      cases hresult
      rw [hproof, Option.some.injEq] at hproof'
      subst hproof'
      exact signed_of_verifySettlementProof hverify (hsigner ▸ hbefore)

end

section

open Concrete

/-- A browser with a full table of pins, the oldest of them that of the payee's leaf. -/
def crowded : LedgerStateV1 :=
  { joined with
    pinnedLeafKeys := { nodeId := "leaf", ledger := (9 : ℕ), trust := .confirmed }
      :: (List.range 127).map fun i =>
        { nodeId := toString i, ledger := (100 + i : ℕ), trust := .confirmed } }

/-- A proof signed by another node counts as paid, and drives the payee's leaf out. -/
theorem pinned_leaf_bypassed :
    (crowded.pinLeafKeyFromReceive "leaf" (9 : ℕ)).1 = .alreadyPinned
    ∧ (runClient .wasm32 (crowded.pinLeafKeyFromReceive "leaf" (9 : ℕ)).2
        [payFive, receiveAtU (.orderResultV3 provesApplied)]).map
        (fun ts => ts.map fun t =>
          (t.after.settlements.map SettlementRecordV1.state, t.after.pinnedLeafKey "leaf"))
      = some [([], some (9 : ℕ)), ([.applied], none)]
    ∧ fiveEntry.verify (9 : ℕ) ≠ .ok () := by
  decide +kernel

/-- A browser whose pin of the signer's leaf stands. -/
theorem pinned_leaf_binding_five :
    ∃ ts, runClient .wasm32 (joined.pinLeafKeyFromReceive "l" (7 : ℕ)).2
        [payFive, receiveAtU (.orderResultV3 provesApplied)] = some ts
      ∧ ((∀ t ∈ ts, t.after.pinnedLeafKey "l" = some (7 : ℕ))
        ∨ ∃ front t rest, ts = front ++ t :: rest
          ∧ (∀ u ∈ front, u.after.pinnedLeafKey "l" = some (7 : ℕ))
          ∧ DrivenOut "l" t.before t.after) := by
  have hreturns : (runClient .wasm32 (joined.pinLeafKeyFromReceive "l" (7 : ℕ)).2
      [payFive, receiveAtU (.orderResultV3 provesApplied)]).isSome = true := by
    decide +kernel
  obtain ⟨ts, hrun⟩ := Option.isSome_iff_exists.mp hreturns
  have hlen : joined.pinnedLeafKeys.length ≤ maxPinnedLeafKeys := by decide
  have hpin : joined.pinLeafKeyFromReceive "l" (7 : ℕ)
      = (.pinned, (joined.pinLeafKeyFromReceive "l" (7 : ℕ)).2) := rfl
  have hcalls : ∀ call ∈ [payFive, receiveAtU (.orderResultV3 provesApplied)],
      ¬ call.Repins "l" := by
    intro call hcall hrepins
    rcases List.mem_cons.mp hcall with rfl | hcall
    · exact hrepins.elim
    · rw [List.mem_singleton.mp hcall] at hrepins
      exact hrepins.elim
  exact ⟨ts, hrun, (pinned_leaf_binding hlen hpin (.inl rfl) hcalls hrun).1⟩

end

end Cawala
