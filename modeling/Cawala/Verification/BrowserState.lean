import Cawala.Model.BrowserBlob
import Cawala.Verification.BrowserPayments

/-! # What inbound messages leave of a browser's state

Every call is a sequence of edits of the ledger state. The edits keep its lists bounded and
their keys apart, so the state can always be read back from its blob. -/

namespace Cawala

open Library

section

variable [Crypto] {target : Target} {s s' mid : LedgerStateV1} {selfNode parent : NodeId}

/-! ## Edits -/

inductive Edit : LedgerStateV1 → LedgerStateV1 → Prop
  | pushPending (s : LedgerStateV1) (pending : PendingOrderV1) : Edit s (s.pushPendingWith pending)
  | dropPending (s : LedgerStateV1) (pending : List PendingOrderV1)
      (sublist : pending.Sublist s.pending) : Edit s { s with pending }
  | balance (s : LedgerStateV1) (balance : Option VerifiedBalanceV1) : Edit s { s with balance }
  | routingPin (s : LedgerStateV1) (pin : Option LedgerPubKey) (trust : PinTrust)
      (fresh : pin = none → trust = .unconfirmed) :
      Edit s { s with pinnedLedger := pin, pinnedLedgerTrust := trust }
  | setLeafKey (s : LedgerStateV1) (nodeId : NodeId) (ledger : LedgerPubKey) (trust : PinTrust) :
      Edit s (s.setLeafKey nodeId ledger trust)
  | confirmLeafKey (s : LedgerStateV1) (nodeId : NodeId) :
      Edit s { s with
        pinnedLeafKeys := Fifo.replaceFirst (fun entry => entry.nodeId == nodeId)
          (fun entry => { entry with trust := .confirmed }) s.pinnedLeafKeys }
  | recordLeafKeyChange (s : LedgerStateV1) (nodeId : NodeId) (pinned presented : LedgerPubKey) :
      Edit s (s.recordLeafKeyChange nodeId pinned presented)
  | clearLeafKeyChanges (s : LedgerStateV1) (nodeId : NodeId) :
      Edit s (s.clearLeafKeyChanges nodeId)
  | recordActivity (s : LedgerStateV1) (entry : ActivityEntryV1) : Edit s (s.recordActivity entry)
  | recordSettlement (s : LedgerStateV1) (new : SettlementRecordV1) :
      Edit s (s.recordSettlement new)

abbrev Edits : LedgerStateV1 → LedgerStateV1 → Prop := Relation.ReflTransGen Edit

theorem Edit.edits (h : Edit s s') : Edits s s' := .single h

structure LedgerStateV1.WithinBounds (s : LedgerStateV1) : Prop where
  pending : s.pending.length ≤ maxPendingOrders
  activity : s.activity.length ≤ maxActivityEntries
  settlements : s.settlements.length ≤ maxSettlementRecords
  pinnedLeafKeys : s.pinnedLeafKeys.length ≤ maxPinnedLeafKeys
  leafKeyChanges : s.leafKeyChanges.length ≤ maxLeafKeyChanges

/-- No list that is looked up by a key has a key twice. -/
structure LedgerStateV1.KeysUnique (s : LedgerStateV1) : Prop where
  activity : (s.activity.map ActivityEntryV1.entryHash).Nodup
  settlements : (s.settlements.map SettlementRecordV1.orderHash).Nodup
  pinnedLeafKeys : (s.pinnedLeafKeys.map PinnedLeafKeyV1.nodeId).Nodup
  leafKeyChanges : (s.leafKeyChanges.map LeafKeyChangeV1.nodeId).Nodup

/-- What holds of the state of a browser at any time. -/
structure LedgerStateV1.Sound (s : LedgerStateV1) : Prop where
  bounds : s.WithinBounds
  unique : s.KeysUnique
  trust : s.pinnedLedger = none → s.pinnedLedgerTrust = .unconfirmed

theorem sound_new : LedgerStateV1.new.Sound :=
  ⟨⟨Nat.zero_le _, Nat.zero_le _, Nat.zero_le _, Nat.zero_le _, Nat.zero_le _⟩,
    ⟨List.nodup_nil, List.nodup_nil, List.nodup_nil, List.nodup_nil⟩, fun _ => rfl⟩

/-- The bounds are the ones the state had, up to the list an edit is about. -/
theorem Edit.withinBounds (h : Edit s s') (hs : s.WithinBounds) : s'.WithinBounds := by
  obtain ⟨hpending, hactivity, hsettlements, hpins, hchanges⟩ := hs
  cases h with
  | pushPending pending =>
      exact ⟨Fifo.length_push_le, hactivity, hsettlements, hpins, hchanges⟩
  | dropPending pending hsub =>
      exact ⟨hsub.length_le.trans hpending, hactivity, hsettlements, hpins, hchanges⟩
  | balance | routingPin => exact ⟨hpending, hactivity, hsettlements, hpins, hchanges⟩
  | setLeafKey nodeId ledger trust =>
      exact ⟨hpending, hactivity, hsettlements, Fifo.length_put_le hpins, hchanges⟩
  | confirmLeafKey nodeId =>
      exact ⟨hpending, hactivity, hsettlements, Fifo.length_replaceFirst.trans_le hpins, hchanges⟩
  | recordLeafKeyChange nodeId pinned presented =>
      exact ⟨hpending, hactivity, hsettlements, hpins, Fifo.length_put_le hchanges⟩
  | clearLeafKeyChanges nodeId =>
      exact ⟨hpending, hactivity, hsettlements, hpins, (List.length_filter_le _ _).trans hchanges⟩
  | recordActivity entry =>
      by_cases hseen : s.activity.any (fun existing => existing.entryHash == entry.entryHash) = true
      · rw [LedgerStateV1.recordActivity, if_pos hseen]
        exact ⟨hpending, hactivity, hsettlements, hpins, hchanges⟩
      · rw [LedgerStateV1.recordActivity, if_neg hseen]
        refine ⟨hpending, ?_, hsettlements, hpins, hchanges⟩
        dsimp only
        exact Fifo.length_push_le
  | recordSettlement new =>
      exact ⟨hpending, hactivity, Fifo.length_put_le hsettlements, hpins, hchanges⟩

theorem Edit.keysUnique (h : Edit s s') (hs : s.KeysUnique) : s'.KeysUnique := by
  obtain ⟨hactivity, hsettlements, hpins, hchanges⟩ := hs
  cases h with
  | pushPending | dropPending | balance | routingPin =>
      exact ⟨hactivity, hsettlements, hpins, hchanges⟩
  | setLeafKey nodeId ledger trust =>
      refine ⟨hactivity, hsettlements, Fifo.nodup_map_put ?_ (fun _ => rfl) hpins, hchanges⟩
      intro entry hentry
      exact beq_iff_eq.mpr hentry
  | confirmLeafKey nodeId =>
      refine ⟨hactivity, hsettlements, ?_, hchanges⟩
      have hids : ∀ entry : PinnedLeafKeyV1,
          ({ entry with trust := .confirmed } : PinnedLeafKeyV1).nodeId = entry.nodeId :=
        fun _ => rfl
      dsimp only
      rw [Fifo.map_replaceFirst hids]
      exact hpins
  | recordLeafKeyChange nodeId pinned presented =>
      refine ⟨hactivity, hsettlements, hpins, Fifo.nodup_map_put ?_ (fun _ => rfl) hchanges⟩
      intro change hchange
      exact beq_iff_eq.mpr hchange
  | clearLeafKeyChanges nodeId =>
      exact ⟨hactivity, hsettlements, hpins, hchanges.sublist (List.filter_sublist.map _)⟩
  | recordActivity entry =>
      by_cases hseen : s.activity.any (fun existing => existing.entryHash == entry.entryHash) = true
      · rw [LedgerStateV1.recordActivity, if_pos hseen]
        exact ⟨hactivity, hsettlements, hpins, hchanges⟩
      · rw [LedgerStateV1.recordActivity, if_neg hseen]
        refine ⟨?_, hsettlements, hpins, hchanges⟩
        dsimp only
        refine Fifo.nodup_map_push hactivity ?_
        intro hmem
        obtain ⟨existing, hexisting, hhash⟩ := List.mem_map.mp hmem
        exact hseen (List.any_eq_true.mpr ⟨existing, hexisting, beq_iff_eq.mpr hhash⟩)
  | recordSettlement new =>
      refine ⟨hactivity, Fifo.nodup_map_put ?_ (fun _ => rfl) hsettlements, hpins, hchanges⟩
      intro record hrecord
      exact beq_iff_eq.mpr hrecord

theorem Edit.trust (h : Edit s s')
    (hs : s.pinnedLedger = none → s.pinnedLedgerTrust = .unconfirmed) :
    s'.pinnedLedger = none → s'.pinnedLedgerTrust = .unconfirmed := by
  cases h with
  | routingPin pin trust hfresh => exact hfresh
  | recordActivity entry =>
      rw [LedgerStateV1.recordActivity]
      split <;> exact hs
  | _ => exact hs

theorem Edit.sound (h : Edit s s') (hs : s.Sound) : s'.Sound :=
  ⟨h.withinBounds hs.bounds, h.keysUnique hs.unique, h.trust hs.trust⟩

theorem Edits.sound (h : Edits s s') (hs : s.Sound) : s'.Sound := by
  induction h with
  | refl => exact hs
  | tail _ hedit ih => exact hedit.sound ih

/-! ## Calls as edits -/

theorem removePending_edits (s : LedgerStateV1) (index : ℕ) : Edits s (s.removePending index) :=
  (Edit.dropPending s _ (List.eraseIdx_sublist _ _)).edits

theorem installBalance_edits (s : LedgerStateV1) (verified : Option VerifiedBalanceV1) :
    Edits s (s.installBalance verified) := by
  cases verified with
  | none => exact .refl
  | some balance => exact (Edit.balance s (some balance)).edits

theorem recordNotices_edits (notices : List ValueNoticeV1) (s : LedgerStateV1) :
    Edits s (notices.foldl (fun s notice => s.recordActivity (activityFromNotice notice)) s) := by
  induction notices generalizing s with
  | nil => exact .refl
  | cons notice notices ih => exact .head (.recordActivity s _) (ih _)

theorem surfaceLeafKey_edits (s : LedgerStateV1) (signer : PeerKeys) :
    Edits s (s.surfaceLeafKey signer) := by
  unfold LedgerStateV1.surfaceLeafKey
  split
  · split
    · exact (Edit.recordLeafKeyChange s _ _ _).edits
    · exact .refl
  · exact .refl

theorem pinFirstUse_edits (s : LedgerStateV1) (signer : PeerKeys) :
    Edits s (s.pinFirstUse signer) := by
  unfold LedgerStateV1.pinFirstUse
  split
  · exact (Edit.setLeafKey s _ _ _).edits
  · exact .refl

theorem pinLeafKeyFromReceive_edits (s : LedgerStateV1) (nodeId : NodeId)
    (ledger : LedgerPubKey) : Edits s (s.pinLeafKeyFromReceive nodeId ledger).2 := by
  rw [LedgerStateV1.pinLeafKeyFromReceive]
  cases s.pinnedLeafKey nodeId with
  | none => exact (Edit.setLeafKey s _ _ _).edits
  | some existing =>
      by_cases heq : existing = ledger
      · simp only [if_pos heq]
        exact (Edit.setLeafKey s _ _ _).edits
      · simp only [if_neg heq]
        exact (Edit.recordLeafKeyChange s _ _ _).edits

theorem confirmPin_edits (s : LedgerStateV1) (current : Option NodeId) (nodeId : NodeId) :
    Edits s (confirmPin s current nodeId) := by
  have hleaf : ∀ s : LedgerStateV1, Edits s (s.confirmLeafPin nodeId).2 := fun s =>
    (Edit.confirmLeafKey s nodeId).edits.tail (.clearLeafKeyChanges _ nodeId)
  rw [confirmPin]
  by_cases hparent : current = some nodeId
  · rw [if_pos hparent, LedgerStateV1.confirmPinnedLedger]
    by_cases hpin : s.pinnedLedger.isSome = true
    · simp only [if_pos hpin]
      have hfresh : s.pinnedLedger = none → PinTrust.confirmed = .unconfirmed := by
        intro hnone
        rw [hnone] at hpin
        cases hpin
      have hconfirm : Edits s { s with pinnedLedgerTrust := .confirmed } :=
        (Edit.routingPin s s.pinnedLedger .confirmed hfresh).edits
      exact (hconfirm.tail (.clearLeafKeyChanges _ nodeId)).trans (hleaf _)
    · simp only [if_neg hpin]
      exact (Edit.clearLeafKeyChanges s nodeId).edits.trans (hleaf _)
  · rw [if_neg hparent]
    exact hleaf s

theorem acceptPinChange_edits (s : LedgerStateV1) (current : Option NodeId) (nodeId : NodeId) :
    Edits s (acceptPinChange s current nodeId) := by
  have hleaf : ∀ s : LedgerStateV1, Edits s (s.acceptLeafKeyChange nodeId).2 := by
    intro s
    rw [LedgerStateV1.acceptLeafKeyChange]
    cases s.leafKeyChange nodeId with
    | none => exact .refl
    | some change =>
        exact (Edit.setLeafKey s _ _ _).edits.tail (.clearLeafKeyChanges _ nodeId)
  rw [acceptPinChange]
  by_cases hparent : current = some nodeId
  · rw [if_pos hparent, LedgerStateV1.acceptPinnedLedgerChange]
    cases s.leafKeyChange nodeId with
    | none => exact hleaf s
    | some change =>
        have hadopt : Edits s { s with
            pinnedLedger := some change.presented, pinnedLedgerTrust := .confirmed } :=
          (Edit.routingPin s _ .confirmed (by simp)).edits
        exact (hadopt.tail (.clearLeafKeyChanges _ nodeId)).trans (hleaf _)
  · rw [if_neg hparent]
    exact hleaf s

/-! ## Refused messages -/

/-- Nothing but the list of recorded key changes is different. -/
def OnlyKeyChanges (s s' : LedgerStateV1) : Prop :=
  s' = { s with leafKeyChanges := s'.leafKeyChanges }

theorem OnlyKeyChanges.refl (s : LedgerStateV1) : OnlyKeyChanges s s := rfl

/-- How a message that was answered leaves the state: edited, and a refusal moves nothing but
the recorded key changes. -/
structure Replied {α : Type} (s : LedgerStateV1) (answer : Except LedgerRefusal α)
    (s' : LedgerStateV1) : Prop where
  edits : Edits s s'
  refused : s.Sound → ∀ e, answer = .error e → OnlyKeyChanges s s'

theorem Replied.unchanged {α : Type} (s : LedgerStateV1) (answer : Except LedgerRefusal α) :
    Replied s answer s := ⟨.refl, fun _ _ _ => .refl s⟩

theorem Replied.accepted {α : Type} {a : α} (h : Edits s s') : Replied s (.ok a) s' := by
  refine ⟨h, ?_⟩
  intro _ e he
  cases he

theorem Replied.passed {α β : Type} {e : LedgerRefusal}
    (h : Replied s (.error e : Except LedgerRefusal α) s') :
    Replied s (.error e : Except LedgerRefusal β) s' :=
  ⟨h.edits, fun hsound _ _ => h.refused hsound e rfl⟩

theorem verifyReceipt_replied {receipt : BalanceReceiptV1}
    {answer : Except LedgerRefusal VerifiedBalanceV1}
    (h : verifyReceipt target s receipt selfNode parent = some (answer, s')) :
    Replied s answer s' := by
  rw [verifyReceipt] at h
  cases hcheck : checkReceipt receipt selfNode parent with
  | error e =>
      simp only [hcheck, Option.some.injEq, Prod.mk.injEq] at h
      obtain ⟨-, rfl⟩ := h
      exact .unchanged s _
  | ok _ =>
      cases hpin : s.pinnedLedger with
      | some pinned =>
          by_cases hkey : pinned ≠ receipt.ledgerPubkey
          · simp only [hcheck, hpin, if_pos hkey, Option.some.injEq, Prod.mk.injEq] at h
            obtain ⟨-, rfl⟩ := h
            exact ⟨(Edit.recordLeafKeyChange s _ _ _).edits, fun _ _ _ => rfl⟩
          · rcases hverify : verifyBalanceAttestation target receipt.attestation
              receipt.commitment pinned with _ | e | _
            · simp [hcheck, hpin, hkey, hverify] at h
            · simp only [hcheck, hpin, if_neg hkey, hverify, Option.some.injEq,
                Prod.mk.injEq] at h
              obtain ⟨-, rfl⟩ := h
              exact .unchanged s _
            · simp only [hcheck, hpin, if_neg hkey, hverify, Option.some.injEq,
                Prod.mk.injEq] at h
              obtain ⟨-, rfl⟩ := h
              exact .unchanged s _
      | none =>
          simp only [hcheck, hpin] at h
          rcases hverify : verifyBalanceAttestation target receipt.attestation
            receipt.commitment receipt.ledgerPubkey with _ | e | _
          · simp [hverify] at h
          · simp only [hverify, Option.some.injEq, Prod.mk.injEq] at h
            obtain ⟨-, rfl⟩ := h
            refine ⟨(Edit.routingPin s none .unconfirmed fun _ => rfl).edits, ?_⟩
            -- the roll-back restores the pin and its trust, as none of them was there
            intro hsound _ _
            have htrust := hsound.trust hpin
            rw [OnlyKeyChanges, ← hpin, ← htrust]
          · simp only [hverify, Option.some.injEq, Prod.mk.injEq] at h
            obtain ⟨rfl, rfl⟩ := h
            exact .accepted (Edit.routingPin s _ .unconfirmed fun _ => rfl).edits

theorem verifyOffered_replied {offered : Option BalanceReceiptV1}
    {answer : Except LedgerRefusal (Option VerifiedBalanceV1)}
    (h : verifyOffered target s offered selfNode parent = some (answer, s')) :
    Replied s answer s' := by
  cases offered with
  | none =>
      simp only [verifyOffered, Option.some.injEq, Prod.mk.injEq] at h
      obtain ⟨-, rfl⟩ := h
      exact .unchanged s _
  | some receipt =>
      rw [verifyOffered] at h
      rcases hverify : verifyReceipt target s receipt selfNode parent with _ | ⟨e | v, mid⟩
      · simp [hverify] at h
      · simp only [hverify, Option.some.injEq, Prod.mk.injEq] at h
        obtain ⟨rfl, rfl⟩ := h
        exact (verifyReceipt_replied hverify).passed
      · simp only [hverify, Option.some.injEq, Prod.mk.injEq] at h
        obtain ⟨rfl, rfl⟩ := h
        exact .accepted (verifyReceipt_replied hverify).edits

/-- How a drained message leaves the state, by the event that it is reported as. -/
structure Drained (s : LedgerStateV1) (event : LedgerEvent) (s' : LedgerStateV1) : Prop where
  edits : Edits s s'
  refused : s.Sound → ∀ e, event = .invalid e → OnlyKeyChanges s s'

theorem Drained.unchanged (s : LedgerStateV1) (event : LedgerEvent) : Drained s event s :=
  ⟨.refl, fun _ _ _ => .refl s⟩

theorem drained_of_answer {α : Type} {answer : Answer α} {report : α → LedgerEvent}
    {event : LedgerEvent} (h : answer.event report = some (event, s'))
    (hreport : ∀ a e, report a ≠ .invalid e)
    (hanswer : ∀ result, answer = some (result, s') → Replied s result s') :
    Drained s event s' := by
  rcases answer with _ | ⟨e | a, after⟩
  · cases h
  · simp only [Answer.event, Option.some.injEq, Prod.mk.injEq] at h
    obtain ⟨rfl, rfl⟩ := h
    have hanswered := hanswer _ rfl
    exact ⟨hanswered.edits, fun hsound _ _ => hanswered.refused hsound e rfl⟩
  · simp only [Answer.event, Option.some.injEq, Prod.mk.injEq] at h
    obtain ⟨rfl, rfl⟩ := h
    exact ⟨(hanswer _ rfl).edits, fun _ e he => absurd he (hreport a e)⟩

theorem applyBalanceReceipt_replied {receipt : BalanceReceiptV1}
    {answer : Except LedgerRefusal VerifiedBalanceV1}
    (h : applyBalanceReceipt target s receipt selfNode parent = some (answer, s')) :
    Replied s answer s' := by
  rw [applyBalanceReceipt] at h
  by_cases hbound : (!receipt.historyWithinBound) = true
  · rw [if_pos hbound] at h
    simp only [Option.some.injEq, Prod.mk.injEq] at h
    obtain ⟨-, rfl⟩ := h
    exact .unchanged s _
  · rw [if_neg hbound] at h
    rcases hverify : verifyReceipt target s receipt selfNode parent with _ | ⟨e | v, mid⟩
    · simp [hverify] at h
    · simp only [hverify, Option.some.injEq, Prod.mk.injEq] at h
      obtain ⟨rfl, rfl⟩ := h
      exact (verifyReceipt_replied hverify).passed
    · simp only [hverify, Option.some.injEq, Prod.mk.injEq] at h
      obtain ⟨rfl, rfl⟩ := h
      exact .accepted (((verifyReceipt_replied hverify).edits.trans
        (recordNotices_edits _ mid)).trans (installBalance_edits _ (some v)))

theorem applyOrderResult_replied {result : OrderResultV1} {now : UInt64}
    {answer : Except LedgerRefusal OrderResultApplication}
    (h : applyOrderResult target s result selfNode parent now = some (answer, s')) :
    Replied s answer s' := by
  cases hindex : s.pendingIndex result.orderHash with
  | none =>
      simp only [applyOrderResult, hindex, Option.some.injEq, Prod.mk.injEq] at h
      obtain ⟨-, rfl⟩ := h
      exact .unchanged s _
  | some index =>
      rcases hverify : verifyOffered target s result.balance selfNode parent
        with _ | ⟨e | verified, mid⟩
      · simp [applyOrderResult, hindex, hverify] at h
      · simp only [applyOrderResult, hindex, hverify, Option.some.injEq, Prod.mk.injEq] at h
        obtain ⟨rfl, rfl⟩ := h
        exact (verifyOffered_replied hverify).passed
      · cases hpending : mid.pending[index]? with
        | none => simp [applyOrderResult, hindex, hverify, hpending] at h
        | some pending =>
            rw [applyOrderResult_ok hindex hverify hpending, Option.some.injEq,
              Prod.mk.injEq] at h
            obtain ⟨rfl, rfl⟩ := h
            have hremoved : Edits s (mid.removePending index) :=
              (verifyOffered_replied hverify).edits.trans (removePending_edits mid index)
            refine .accepted (.trans ?_ (installBalance_edits _ verified))
            cases directActivity pending result now with
            | none => exact hremoved
            | some entry => exact hremoved.tail (.recordActivity _ entry)

variable [Postcard]

theorem resolveTerminal_edits {pending : PendingOrderV1} {orderHash : Hash}
    {proof : Option EntryProofV1} {success : SettlementStateV1} {entrySeq : UInt64}
    {resolution : Resolution}
    (h : resolveTerminal target s pending orderHash proof success entrySeq
      = some (resolution, s')) : Edits s s' := by
  have hterminal : ∀ state after, terminalSettlementState target s pending orderHash proof success
      = some (state, after) → Edits s after := by
    intro state after hstate
    cases proof with
    | none =>
        cases hstate
        exact .refl
    | some proof =>
        rcases hverify : verifySettlementProof target s pending orderHash proof
          with _ | reason | _
        · simp [terminalSettlementState, hverify] at hstate
        · simp only [terminalSettlementState, hverify, Option.some.injEq, Prod.mk.injEq] at hstate
          exact hstate.2 ▸ surfaceLeafKey_edits s proof.signer
        · simp only [terminalSettlementState, hverify, Option.some.injEq, Prod.mk.injEq] at hstate
          exact hstate.2 ▸ pinFirstUse_edits s proof.signer
  rw [resolveTerminal] at h
  split at h
  · cases h
  · next hstate =>
      cases h
      exact hterminal _ _ hstate
  · next hstate =>
      cases h
      exact hterminal _ _ hstate

theorem resolveStatus_edits {pending : PendingOrderV1} {orderHash : Hash}
    {proof : Option EntryProofV1} {status : SettlementStatusV2} {resolution : Resolution}
    (h : resolveStatus target s pending orderHash proof status = some (resolution, s')) :
    Edits s s' := by
  cases status with
  | applied | duplicate => exact resolveTerminal_edits h
  | partially | rejected | indeterminate =>
      cases h
      exact .refl

theorem applySettlementResultInner_replied {orderHash : Hash} {status : SettlementStatusV2}
    {balance : Option BalanceReceiptV1} {proof : Option EntryProofV1}
    {answer : Except LedgerRefusal SettlementApplication}
    (h : applySettlementResultInner target s orderHash status balance proof selfNode parent
      = some (answer, s')) :
    Replied s answer s' := by
  cases hindex : s.pendingIndex orderHash with
  | none =>
      simp only [applySettlementResultInner, hindex, Option.some.injEq, Prod.mk.injEq] at h
      obtain ⟨-, rfl⟩ := h
      exact .unchanged s _
  | some index =>
      obtain ⟨pending, hget, -⟩ := pendingIndex_spec hindex
      rcases hverify : verifyOffered target s balance selfNode parent
        with _ | ⟨e | verified, mid⟩
      · simp [applySettlementResultInner, hindex, hget, hverify] at h
      · simp only [applySettlementResultInner, hindex, hget, hverify, Option.some.injEq,
          Prod.mk.injEq] at h
        obtain ⟨rfl, rfl⟩ := h
        exact (verifyOffered_replied hverify).passed
      · rcases hresolve : resolveStatus target mid pending orderHash proof status
          with _ | ⟨resolution, after⟩
        · simp [applySettlementResultInner, hindex, hget, hverify, hresolve] at h
        · simp only [applySettlementResultInner, hindex, hget, hverify, hresolve,
            Option.some.injEq, Prod.mk.injEq] at h
          obtain ⟨rfl, rfl⟩ := h
          have hresolved : Edits s after :=
            (verifyOffered_replied hverify).edits.trans (resolveStatus_edits hresolve)
          exact .accepted (((hresolved.trans (removePending_edits after index)).trans
            (installBalance_edits _ verified)).tail (.recordSettlement _ _))

/-- A drained message edits the state, and a refused one moves nothing but key changes. -/
theorem tryRecvLedgerEvent_drained {current : Option NodeId}
    {payload : Option VersionedLedgerPayload} {now : UInt64} {event : LedgerEvent}
    (h : tryRecvLedgerEvent target s selfNode current payload now = some (event, s')) :
    Drained s event s' := by
  rcases payload with _ | payload
  · cases h
    exact .unchanged s _
  · rcases current with _ | parent
    · cases payload <;> cases h <;> exact .unchanged s _
    · cases payload with
      | other =>
          cases h
          exact .unchanged s _
      | orderResultV1 result =>
          refine drained_of_answer h (by simp) ?_
          exact fun _ happly => applyOrderResult_replied happly
      | balanceReceiptV1 receipt =>
          refine drained_of_answer h (by simp) ?_
          exact fun _ happly => applyBalanceReceipt_replied happly
      | orderResultV2 result =>
          refine drained_of_answer h (by simp) ?_
          exact fun _ happly => applySettlementResultInner_replied happly
      | orderResultV3 result =>
          refine drained_of_answer h (by simp) ?_
          exact fun _ happly => applySettlementResultInner_replied happly

theorem perform_edits {call : ClientCall} {event : Option LedgerEvent}
    (h : call.perform target s = some (event, s')) : Edits s s' := by
  cases call with
  | sendPayment order auth now selfAddr payeeAddr =>
      cases h
      exact (Edit.pushPending s _).edits
  | pinPayeeLeaf nodeId ledger =>
      cases h
      exact pinLeafKeyFromReceive_edits s nodeId ledger
  | confirmPin parent nodeId =>
      cases h
      exact confirmPin_edits s parent nodeId
  | acceptPinChange parent nodeId =>
      cases h
      exact acceptPinChange_edits s parent nodeId
  | rebindParent ledger =>
      cases h
      have hpin := Edit.routingPin s (some ledger) .confirmed (by simp)
      exact (hpin.edits.tail (.balance _ none)).tail (.dropPending _ [] (List.nil_sublist _))
  | clearParentBinding =>
      cases h
      have hpin := Edit.routingPin s none .unconfirmed fun _ => rfl
      exact (hpin.edits.tail (.balance _ none)).tail (.dropPending _ [] (List.nil_sublist _))
  | receive selfNode parent payload now =>
      obtain ⟨e, -, hreceive⟩ := tryRecv_of_perform h
      exact (tryRecvLedgerEvent_drained hreceive).edits

/-! ## Blobs -/

variable [StatePostcard]

omit [Postcard] in
/-- A state within its bounds is read back from its blob. -/
theorem fromBytes_toBytes (hbounds : s.WithinBounds) (hdecodes : StatePostcard.Decodes s.stored) :
    LedgerStateV1.fromBytes s.toBytes = .ok s := by
  have htake : StatePostcard.takeFromBytes s.toBytes = .ok (s.stored, []) := hdecodes
  simp only [LedgerStateV1.fromBytes, htake, LedgerStateV1.stored, ne_eq, not_true_eq_false,
    if_false, if_neg (not_lt.mpr hbounds.pending), if_neg (not_lt.mpr hbounds.activity),
    if_neg (not_lt.mpr hbounds.settlements), if_neg (not_lt.mpr hbounds.pinnedLeafKeys),
    if_neg (not_lt.mpr hbounds.leafKeyChanges)]

/-- One step keeps the state sound, if a reload finds the state it stored. -/
theorem BrowserStep.perform_sound {step : BrowserStep} (h : step.perform target s = some s')
    (hs : s.Sound) (hdecodes : StatePostcard.Decodes s.stored) : s'.Sound := by
  cases step with
  | call c =>
      rcases hcall : c.perform target s with _ | ⟨event, after⟩
      · simp [BrowserStep.perform, hcall] at h
      · simp only [BrowserStep.perform, hcall, Option.some.injEq] at h
        subst h
        exact (perform_edits hcall).sound hs
  | reload =>
      rw [BrowserStep.perform, LedgerStateV1.restore, fromBytes_toBytes hs.bounds hdecodes,
        Option.some.injEq] at h
      exact h ▸ hs

theorem browserStates_sound {steps : List BrowserStep} {states : List LedgerStateV1}
    (hs : s.Sound) (hrun : browserStates target s steps = some states)
    (hdecodes : ∀ t ∈ states, StatePostcard.Decodes t.stored) : ∀ t ∈ states, t.Sound := by
  induction steps generalizing s states with
  | nil =>
      cases hrun
      intro t ht
      rw [List.mem_singleton.mp ht]
      exact hs
  | cons step steps ih =>
      rw [browserStates] at hrun
      cases hstep : step.perform target s with
      | none => simp [hstep] at hrun
      | some after =>
          simp only [hstep, Option.map_eq_some_iff] at hrun
          obtain ⟨rest, hrest, rfl⟩ := hrun
          have hafter := step.perform_sound hstep hs (hdecodes s List.mem_cons_self)
          intro t ht
          rcases List.mem_cons.mp ht with rfl | ht
          · exact hs
          · exact ih hafter hrest (fun t ht => hdecodes t (List.mem_cons_of_mem _ ht)) t ht

/-- A message that is refused changes nothing but the list of recorded key changes. -/
def LedgerStateV1.Undamaged (target : Target) (s : LedgerStateV1) : Prop :=
  ∀ selfNode current payload now e s',
    tryRecvLedgerEvent target s selfNode current payload now = some (.invalid e, s') →
    OnlyKeyChanges s s'

/-- At every state of every run from a fresh client, refused messages change nothing but the
recorded key changes, the lists are bounded with their keys apart, and the state is read back
from its blob. -/
theorem browser_state_kept {steps : List BrowserStep} {states : List LedgerStateV1}
    (hrun : browserStates target .new steps = some states)
    (hdecodes : ∀ s ∈ states, StatePostcard.Decodes s.stored) :
    ∀ s ∈ states, s.Undamaged target ∧ s.WithinBounds ∧ s.KeysUnique
      ∧ LedgerStateV1.fromBytes s.toBytes = .ok s := by
  intro s hs
  have hsound := browserStates_sound sound_new hrun hdecodes s hs
  refine ⟨?_, hsound.bounds, hsound.unique, fromBytes_toBytes hsound.bounds (hdecodes s hs)⟩
  intro selfNode current payload now e s' hreceive
  exact (tryRecvLedgerEvent_drained hreceive).refused hsound e rfl

end

section

open Concrete

/-- A browser that joins, is told about an order it never sent, and is reloaded. -/
def reloadedSteps : List BrowserStep :=
  [.call (.rebindParent (7 : ℕ)), .call (receiveAtU (.orderResultV1 claimsApplied)), .reload]

theorem browser_state_kept_reloaded :
    browserStates .wasm32 .new reloadedSteps = some [.new, joined, joined, joined]
      ∧ ∀ s ∈ [LedgerStateV1.new, joined, joined, joined],
        s.Undamaged .wasm32 ∧ s.WithinBounds ∧ s.KeysUnique
          ∧ LedgerStateV1.fromBytes s.toBytes = .ok s := by
  have hrun : browserStates .wasm32 .new reloadedSteps = some [.new, joined, joined, joined] := by
    decide +kernel
  refine ⟨hrun, browser_state_kept hrun ?_⟩
  have hnew : StatePostcard.Decodes LedgerStateV1.new.stored := by rfl
  have hjoined : StatePostcard.Decodes joined.stored := by rfl
  simp [hnew, hjoined]

end

end Cawala
