import Cawala.Verification.Network

/-! # The id of a node

A service keeps the id it was opened with through every transaction, and a restart opens it with
the same id. -/

namespace Cawala

open Library Library.Transaction

variable [Crypto] [Postcard]

/-! ## Transactions -/

def Desk.Of (id : NodeId) (desk : Desk) : Prop := desk.service.nodeId = id

section Transactions

variable {id : NodeId} {env : TxEnv} {entry : Entry} {child : NodeId} {kind : ChildKind}
  {amount : Amount} {operator : OperatorSecretKey} {nonce now : UInt64}
  {registry : LedgerService → Except ServiceError PeerRegistry}
  {verify : SignedEntry → PeerRegistry → Except LedgerError Unit}

theorem beginTransaction_of : Keeps (Desk.Of id) (beginTransaction env) := by
  refine Keeps.bind (Keeps.refuseIf _ _) fun _ => Keeps.get_bind fun desk hdesk => ?_
  exact Keeps.bind (Keeps.ofExcept _) fun _ _ _ => hdesk

theorem appendSigned_of {signed : SignedEntry} :
    Keeps (Desk.Of id) (appendSigned env signed) := by
  refine Keeps.get_bind fun desk hdesk => Keeps.bind (Keeps.ofExcept _) fun _ => ?_
  exact Keeps.bind (Keeps.ofExcept _) fun _ _ _ => hdesk

theorem signAndAppend_of : Keeps (Desk.Of id) (signAndAppend env entry registry verify) := by
  refine Keeps.bind Keeps.get fun _ => Keeps.bind (Keeps.ofExcept _) fun _ =>
    Keeps.bind (Keeps.ofExcept _) fun _ => Keeps.bind (Keeps.ofExcept _) fun _ =>
    Keeps.bind (Keeps.ofExcept _) fun _ => ?_
  exact Keeps.bind appendSigned_of fun _ => Keeps.pure _

omit [Postcard] in
theorem consume_of {paymentId : Hash} {applied : UInt64 × Hash} :
    Keeps (Desk.Of id) (consume paymentId applied) := Keeps.modify fun _ hdesk => hdesk

theorem ensureAccountOpenInner_of : Keeps (Desk.Of id) (ensureAccountOpenInner env child kind) := by
  refine Keeps.bind Keeps.get fun desk => ?_
  split
  · exact Keeps.pure _
  · refine Keeps.bind (Keeps.ofExcept _) fun _ => ?_
    exact Keeps.bind appendSigned_of fun _ => Keeps.pure _

theorem applyIssue_of : Keeps (Desk.Of id) (applyIssue env child amount operator nonce now) := by
  refine Keeps.bind Keeps.get fun _ => Keeps.bind (Keeps.ofExcept _) fun _ => ?_
  exact Keeps.bind signAndAppend_of fun _ => Keeps.pure _

theorem applyBurn_of : Keeps (Desk.Of id) (applyBurn env child amount operator nonce now) := by
  refine Keeps.bind Keeps.get fun _ => Keeps.bind (Keeps.refuseIf _ _) fun _ =>
    Keeps.bind (Keeps.ofExcept _) fun _ => ?_
  exact Keeps.bind signAndAppend_of fun _ => Keeps.pure _

omit [Postcard] in
theorem recordValue_of {direction : ValueDirection} {applied : (UInt64 × Hash) × Hash} :
    Keeps (Desk.Of id) (recordValue direction child amount operator nonce applied) := by
  refine Keeps.bind (Keeps.modify fun _ hdesk => hdesk) fun _ => ?_
  exact Keeps.bind Keeps.get fun _ => Keeps.pure _

theorem transferOnce_of {order : PaymentOrder} {auth : AuthRef} {role : HopRole}
    {first second : AccountRef} :
    Keeps (Desk.Of id) (transferOnce env order auth role first second registry now) := by
  refine Keeps.bind Keeps.get fun desk => ?_
  split
  · exact Keeps.pure _
  · refine Keeps.bind (Keeps.ofExcept _) fun _ => Keeps.bind signAndAppend_of fun _ => ?_
    exact Keeps.bind consume_of fun _ => Keeps.pure _

theorem adminValueApply_of {direction : ValueDirection} {controller : OperatorPubKey}
    {requestId : Vector UInt8 16} : Keeps (Desk.Of id)
      (adminValueApply env direction child kind amount controller requestId now) := by
  refine Keeps.bind (Keeps.refuseIf _ _) fun _ => Keeps.bind beginTransaction_of fun _ =>
    Keeps.bind (Keeps.ofExcept _) fun operator => Keeps.bind Keeps.get fun desk => ?_
  split
  · exact Keeps.ofExcept _
  · cases direction with
    | issue =>
        refine Keeps.bind ensureAccountOpenInner_of fun _ => ?_
        exact Keeps.bind applyIssue_of fun _ => recordValue_of
    | burn => exact Keeps.bind applyBurn_of fun _ => recordValue_of

theorem prefund_of : Keeps (Desk.Of id) (prefund env child kind amount operator nonce now) := by
  refine Keeps.bind (Keeps.refuseIf _ _) fun _ => Keeps.bind beginTransaction_of fun _ =>
    Keeps.bind Keeps.get fun _ => Keeps.bind (Keeps.refuseIf _ _) fun _ =>
    Keeps.bind (Keeps.refuseIf _ _) fun _ => Keeps.bind ensureAccountOpenInner_of fun _ =>
    Keeps.bind (Keeps.ofExcept _) fun _ => Keeps.bind Keeps.get fun _ => ?_
  exact Keeps.bind signAndAppend_of fun _ => Keeps.bind consume_of fun _ => Keeps.pure _

theorem edgeClose_of : Keeps (Desk.Of id) (edgeClose env operator nonce now) := by
  refine Keeps.bind beginTransaction_of fun _ => Keeps.bind Keeps.get fun desk => ?_
  dsimp only
  split
  · exact Keeps.pure _
  · refine Keeps.bind (Keeps.refuseIf _ _) fun _ => Keeps.bind (Keeps.ofExcept _) fun _ => ?_
    exact Keeps.bind signAndAppend_of fun _ => Keeps.pure _

theorem balanceReceipt_of {record : NodeRecord} {notice : Option ValueNoticeV1} :
    Keeps (Desk.Of id) (balanceReceipt env child record notice) := by
  refine Keeps.bind beginTransaction_of fun _ => Keeps.bind (Keeps.refuseIf _ _) fun _ => ?_
  exact Keeps.bind Keeps.get fun _ => Keeps.ofExcept _

end Transactions

/-! ## Operations -/

section Operations

variable {id : NodeId} {desk : Desk}

theorem applyOrder_of (h : desk.Of id) (env : TxEnv) (order : PaymentOrder) (auth : AuthRef)
    (sender : NodeId) (record : NodeRecord) (now : UInt64) :
    (applyOrder env order auth sender record now desk).2.Of id := by
  rw [applyOrder_desk]
  refine Keeps.exec (x := applyOrderTx env order auth sender record now) ?_ h
  refine Keeps.bind beginTransaction_of fun _ => Keeps.bind (Keeps.refuseIf _ _) fun _ => ?_
  exact Keeps.bind (Keeps.refuseIf _ _) fun _ => transferOnce_of

theorem applyHop_of (h : desk.Of id) (env : TxEnv) (order : PaymentOrder) (auth : AuthRef)
    (role : HopRole) (first second : AccountRef) (registry : PeerRegistry) (now : UInt64) :
    (applyHop env order auth role first second registry now desk).2.Of id := by
  rw [applyHop_desk]
  refine Keeps.exec (x := applyHopTx env order auth role first second registry now) ?_ h
  refine Keeps.bind beginTransaction_of fun _ => Keeps.bind (Keeps.refuseIf _ _) fun _ => ?_
  exact transferOnce_of

/-- No operation changes the id of the service it runs on. -/
theorem perform_of (h : desk.Of id) (env : TxEnv) (op : Operation) :
    (op.perform env desk).Of id := by
  cases op with
  | ensureAccountOpen child kind =>
      exact Keeps.exec (Keeps.bind beginTransaction_of fun _ => ensureAccountOpenInner_of) h
  | fund to_ kind amount operator nonce now =>
      have hkeeps : Keeps (Desk.Of id) (fund env to_ kind amount operator nonce now) := by
        refine Keeps.bind (Keeps.refuseIf _ _) fun _ => Keeps.bind beginTransaction_of fun _ => ?_
        refine Keeps.bind ensureAccountOpenInner_of fun _ => ?_
        exact Keeps.bind applyIssue_of fun _ => Keeps.pure _
      exact hkeeps.exec h
  | burn from_ amount operator nonce now =>
      have hkeeps : Keeps (Desk.Of id) (burn env from_ amount operator nonce now) := by
        refine Keeps.bind (Keeps.refuseIf _ _) fun _ => Keeps.bind beginTransaction_of fun _ => ?_
        refine Keeps.bind applyBurn_of fun _ => ?_
        exact Keeps.bind recordValue_of fun _ => Keeps.pure _
      exact hkeeps.exec h
  | adminValueApply direction account kind amount controller requestId now =>
      exact Keeps.exec adminValueApply_of h
  | prefund child kind amount operator nonce now => exact Keeps.exec prefund_of h
  | edgeClose operator nonce now => exact Keeps.exec edgeClose_of h
  | applyOrder order auth sender record now => exact applyOrder_of h ..
  | applyHop order auth role first second registry now => exact applyHop_of h ..

end Operations

/-! ## Dispatch -/

section Dispatch

variable {id : NodeId} {desk : Desk} {node : LedgerNode}

theorem freshReceipt_of (h : desk.Of id) (env : TxEnv) (record : NodeRecord) (user : NodeId)
    (notice : Option ValueNoticeV1) : (freshReceipt env record user notice desk).2.Of id :=
  balanceReceipt_of.exec h

theorem timeoutResult_of (h : desk.Of id) (env : TxEnv) (record : Option NodeRecord)
    (pending : PendingSettlement) : (timeoutResult env record pending desk).2.Of id := by
  unfold timeoutResult
  split
  · cases record with
    | none => exact h
    | some record => exact freshReceipt_of h ..
  · exact h

theorem timeoutResults_of (h : desk.Of id) (record : Option NodeRecord) (receipts : ℕ → TxEnv)
    (expired : List (PendingSettlement × ℕ)) :
    (timeoutResults record receipts expired desk).2.Of id := by
  induction expired generalizing desk with
  | nil => exact h
  | cons head rest ih => exact ih (timeoutResult_of h ..)

theorem sameLeafOutcome_of (h : desk.Of id) (env : DispatchEnv) (sender : NodeId)
    (record : NodeRecord) (order : PaymentOrder) (auth : AuthRef)
    (recovered : Option EthAddress) :
    (sameLeafOutcome env sender record order auth recovered desk).2.Of id := by
  unfold sameLeafOutcome
  split
  · exact h
  · split
    · exact h
    · exact applyOrder_of h ..

theorem applySameLeafOrder_of (h : node.desk.Of id) (env : DispatchEnv) (e : LedgerEnvelope)
    (record : NodeRecord) (order : PaymentOrder) (auth : AuthRef) (replyV2 : Bool)
    (recovered : Option EthAddress) :
    (applySameLeafOrder env e record order auth replyV2 recovered node).2.desk.Of id := by
  have hmid := sameLeafOutcome_of h env e.src.node record order auth recovered
  unfold applySameLeafOrder
  simp only
  split
  · exact hmid
  · exact freshReceipt_of hmid ..

theorem reserveHop_of (h : desk.Of id) (env : DispatchEnv) (order : PaymentOrder)
    (auth : AuthRef) (derived : DerivedHop) :
    (reserveHop env order auth derived desk).2.2.2.Of id := by
  unfold reserveHop
  split
  · exact h
  · split
    · exact h
    · exact applyHop_of h ..

theorem answerDuplicate_of (h : node.desk.Of id) (env : DispatchEnv) (e : LedgerEnvelope)
    (record : NodeRecord) (order : PaymentOrder) (seq : UInt64) (hash : Hash) :
    (answerDuplicate env e record order seq hash node).2.desk.Of id := by
  unfold answerDuplicate
  simp only
  split
  · exact h
  · exact freshReceipt_of h ..

theorem startSettlement_of (h : node.desk.Of id) (env : DispatchEnv) (e : LedgerEnvelope)
    (record : NodeRecord) (pending : PendingSettlement) (forward : SettleForwardV3)
    (signers : List OctAddr) :
    (startSettlement env e record pending forward signers node).2.desk.Of id := by
  unfold startSettlement
  split
  · exact h
  · cases hreserve : node.manager.reserve pending with
    | mk evicted manager =>
        cases evicted with
        | none => exact h
        | some evicted => exact timeoutResult_of h ..

theorem handleSettlementOrder_of (h : node.desk.Of id) (env : DispatchEnv) (e : LedgerEnvelope)
    (record : NodeRecord) (order : PaymentOrder) (auth : AuthRef) (payeeAddr : OctAddr)
    (recovered : Option EthAddress) :
    (handleSettlementOrder env e record order auth payeeAddr recovered node).2.desk.Of id := by
  unfold handleSettlementOrder
  split
  · exact h
  · split
    · split
      · split
        · exact h
        · split
          · exact h
          · rename_i derived _
            have hmid := reserveHop_of h env order auth derived
            generalize reserveHop env order auth derived node.desk = reserved at hmid ⊢
            obtain ⟨outcome, payerKey, entry, desk⟩ := reserved
            -- what follows the reservation starts from its desk
            cases outcome with
            | applied seq hash =>
                cases payerKey with
                | none => exact hmid
                | some payerKey =>
                    cases entry with
                    | none => exact hmid
                    | some entry => exact startSettlement_of hmid ..
            | duplicate seq hash => exact answerDuplicate_of hmid ..
            | rejected reason => exact hmid
      · exact h
    · exact h

theorem resultReceipt_of (h : desk.Of id) (env : DispatchEnv) (pending : PendingSettlement)
    (status : SettlementStatusV2) : (resultReceipt env pending status desk).2.Of id := by
  unfold resultReceipt
  split
  · exact h
  · exact h
  · exact freshReceipt_of h ..

theorem handleSettleResult_of (h : node.desk.Of id) {target : Target} {env : DispatchEnv}
    {src : PeerRef} {result : SettleResultV3} {outputs : List NodeOutput} {after : LedgerNode}
    (hresult : handleSettleResult target env src result node = some (outputs, after)) :
    after.desk.Of id := by
  unfold handleSettleResult at hresult
  split at hresult
  · cases hresult
    exact h
  · split at hresult
    · cases hresult
      exact h
    · split at hresult
      · cases hresult
        exact h
      · obtain ⟨verdict, -, hanswer⟩ := Option.bind_eq_some_iff.mp hresult
        cases hanswer
        exact resultReceipt_of h ..

theorem sweepSettlements_of (h : node.desk.Of id) (env : DispatchEnv) :
    (sweepSettlements env node).2.desk.Of id := timeoutResults_of h ..

theorem applyForwardHop_of (h : desk.Of id) (env : DispatchEnv) (forward : SettleForwardV3)
    (place : SignerPlace) (derived : DerivedHop) :
    (applyForwardHop env forward place derived desk).2.Of id := by
  unfold applyForwardHop
  split
  · exact h
  · split
    · exact h
    · exact applyHop_of h ..

variable [SettlePostcard]

theorem passOn_of (h : desk.Of id) (env : DispatchEnv) (e : Envelope) (record : NodeRecord)
    (forward : SettleForwardV3) (place : SignerPlace) (seq : UInt64) (hash : Hash) :
    (passOn env e record forward place seq hash desk).2.Of id := by
  unfold passOn
  simp only
  split
  · split
    · exact h
    · exact freshReceipt_of h ..
  · exact h

theorem handleSettleForward_of (h : node.desk.Of id) (env : DispatchEnv) (e : Envelope)
    (forward : SettleForwardV3) : (handleSettleForward env e forward node).2.desk.Of id := by
  unfold handleSettleForward
  simp only
  split
  · rename_i place record _ _
    split
    · exact h
    · split
      · exact h
      · split
        · exact h
        · rename_i derived _
          have hmid := applyForwardHop_of h env forward place derived
          generalize applyForwardHop env forward place derived node.desk = applied at hmid ⊢
          obtain ⟨outcome, desk⟩ := applied
          split
          · exact hmid
          · exact hmid
          · exact passOn_of hmid ..
  · exact h

/-! ## Runs -/

variable [EthPrimitives] [HashBytes]

omit [SettlePostcard] in
theorem dispatchLedgerEnvelope_of (h : node.desk.Of id) (env : DispatchEnv) (e : LedgerEnvelope) :
    (dispatchLedgerEnvelope env e node).2.desk.Of id := by
  have haddressed : ∀ order auth payeeAddr recovered,
      (dispatchAddressedOrder env e order auth payeeAddr recovered node).2.desk.Of id := by
    intro order auth payeeAddr recovered
    unfold dispatchAddressedOrder
    split
    · exact h
    · split
      · exact h
      · split
        · exact applySameLeafOrder_of h ..
        · exact handleSettlementOrder_of h ..
  unfold dispatchLedgerEnvelope
  split
  · split
    · exact h
    · exact applySameLeafOrder_of h ..
  · exact haddressed ..
  · split
    · exact h
    · exact haddressed ..
  · unfold answerBalanceQuery
    split
    · exact h
    · split
      · exact h
      · exact freshReceipt_of h ..
  · exact h

omit [SettlePostcard] [EthPrimitives] [HashBytes] in
theorem open_nodeId {env : TxEnv} {key : LedgerSecretKey} {frames : List SignedEntry}
    {service : LedgerService} (h : LedgerService.open_ env id key frames = .ok service) :
    service.nodeId = id := by
  simp only [LedgerService.open_, bind_eq_ok, pure_eq_ok] at h
  obtain ⟨⟨ledger, consumed, valueIndex⟩, -, rfl⟩ := h
  rfl

theorem LedgerNode.step_of {target : Target} {key : LedgerSecretKey} (h : node.desk.Of id)
    (action : NodeAction) : (node.step target key action).2.desk.Of id := by
  cases action with
  | ledger env e => exact dispatchLedgerEnvelope_of h env e
  | settle env e =>
      change ((dispatchSettleEnvelope target env e node).getD ([], node)).2.desk.Of id
      cases hdispatch : dispatchSettleEnvelope target env e node with
      | none => exact h
      | some result =>
          obtain ⟨outputs, after⟩ := result
          unfold dispatchSettleEnvelope at hdispatch
          split at hdispatch
          · cases hdispatch
            exact h
          · exact handleSettleResult_of h hdispatch
          · next forward _ =>
              have hafter : (handleSettleForward env e forward node).2 = after :=
                congrArg Prod.snd (Option.some.inj hdispatch)
              exact hafter ▸ handleSettleForward_of h env e forward
  | sweep env => exact sweepSettlements_of h env
  | operate env op => exact perform_of h env op
  | share service env op => exact h
  | restart env =>
      simp only [LedgerNode.step]
      split
      · rename_i service hopen
        exact (open_nodeId hopen).trans h
      · exact h

theorem Network.run_of (target : Target) (keys : OctAddr → LedgerSecretKey)
    (ids : OctAddr → NodeId) (events : List NetworkEvent) (a : OctAddr) :
    ((Network.run target keys ids events).node a).desk.Of (ids a) := by
  induction events using List.reverseRecOn with
  | nil => rfl
  | append_singleton events ev ih =>
      rw [Network.run_concat]
      by_cases hplace : a = ev.place
      · subst hplace
        rw [Network.step_node_self]
        exact LedgerNode.step_of ih ev.event
      · rw [Network.step_node_of_ne ev hplace]
        exact ih

end Dispatch

end Cawala
