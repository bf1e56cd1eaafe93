import Cawala.Verification.ExactlyOnce

/-! # Payments without an order

The operations of a node's operator append no transfer of an order: the only payments they add
are prefunds. -/

namespace Cawala

open Library Library.Transaction

variable [Crypto] [Postcard]

/-- The operations that a node's operator runs; orders and hops come from envelopes only. -/
def Operation.Administrative : Operation → Prop
  | .applyOrder .. | .applyHop .. => False
  | _ => True

/-- An entry that an operator makes moves no payment, or is a prefund that it signs for. -/
def Entry.Operated (entry : Entry) : Prop :=
  entry.body.payment = none ∨ ∃ (r : PrefundRequest) (operator : OperatorSecretKey),
    entry.body.payment = some r.hash ∧ entry.auth = some (r.authorize operator)

/-- The entries of a log that are not in an older one are the operator's. -/
def OnlyPrefunds (base : List SignedEntry) (desk : Desk) : Prop :=
  ∀ s ∈ desk.frames, s ∈ base ∨ s.entry.Operated

section Prefunds

variable {base : List SignedEntry} {env : TxEnv}

omit [Postcard] in
theorem OnlyPrefunds.push {desk : Desk} (h : OnlyPrefunds base desk) {signed : SignedEntry}
    {ledger : Ledger} (hsigned : signed.entry.Operated) :
    OnlyPrefunds base (desk.push signed ledger) := by
  intro s hs
  rcases List.mem_append.mp hs with hs | hs
  · exact h s hs
  · rw [List.mem_singleton.mp hs]
    exact Or.inr hsigned

theorem appendSigned_onlyPrefunds {signed : SignedEntry} (h : signed.entry.Operated) :
    Keeps (OnlyPrefunds base) (appendSigned env signed) := by
  refine Meets.pointwise fun desk hdesk => (appendSigned_meets signed).mono (fun _ => id) ?_ ?_
  · intro _ after hafter
    obtain ⟨ledger, -, rfl⟩ := hafter
    exact hdesk.push h
  · intro _ after hafter
    exact hafter ▸ hdesk

theorem signAndAppend_onlyPrefunds {entry : Entry}
    {registry : LedgerService → Except ServiceError PeerRegistry}
    {verify : SignedEntry → PeerRegistry → Except LedgerError Unit} (h : entry.Operated) :
    Keeps (OnlyPrefunds base) (signAndAppend env entry registry verify) := by
  refine Meets.pointwise fun desk hdesk => signAndAppend_meets.mono (fun _ => id) ?_ ?_
  · intro applied after hafter
    obtain ⟨signed, happended⟩ := hafter
    obtain ⟨ledger, -, rfl⟩ := happended.pushed
    exact hdesk.push (happended.entry ▸ h)
  · intro _ after hafter
    exact hafter ▸ hdesk

theorem beginTransaction_onlyPrefunds : Keeps (OnlyPrefunds base) (beginTransaction env) := by
  refine Keeps.bind (Keeps.refuseIf _ _) fun _ => ?_
  refine Meets.get_bind fun desk hdesk => ?_
  refine Meets.bind (Meets.ofExcept fun _ _ h => h.1) fun loaded => ?_
  intro desk' hdesk'
  exact hdesk

theorem ensureAccountOpenInner_onlyPrefunds {child : NodeId} {kind : ChildKind} :
    Keeps (OnlyPrefunds base) (ensureAccountOpenInner env child kind) := by
  refine Keeps.bind Keeps.get fun desk => ?_
  split
  · exact Keeps.pure _
  · refine Meets.bind (Meets.ofExcept fun _ _ h => h) fun signed => Meets.of_and fun hsign => ?_
    have hentry := sign_entry (tagged_eq_ok.mp hsign)
    exact (appendSigned_onlyPrefunds (hentry ▸ Or.inl rfl)).bind fun _ => Keeps.pure _

theorem applyIssue_onlyPrefunds {account : NodeId} {amount : Amount}
    {operator : OperatorSecretKey} {nonce now : UInt64} :
    Keeps (OnlyPrefunds base) (applyIssue env account amount operator nonce now) :=
  Keeps.bind Keeps.get fun _ => Keeps.bind (Keeps.ofExcept _) fun _ =>
    Keeps.bind (signAndAppend_onlyPrefunds (Or.inl rfl)) fun _ => Keeps.pure _

theorem applyBurn_onlyPrefunds {account : NodeId} {amount : Amount}
    {operator : OperatorSecretKey} {nonce now : UInt64} :
    Keeps (OnlyPrefunds base) (applyBurn env account amount operator nonce now) :=
  Keeps.bind Keeps.get fun _ => Keeps.bind (Keeps.refuseIf _ _) fun _ =>
    Keeps.bind (Keeps.ofExcept _) fun _ =>
      Keeps.bind (signAndAppend_onlyPrefunds (Or.inl rfl)) fun _ => Keeps.pure _

omit [Postcard] in
theorem recordValue_onlyPrefunds {direction : ValueDirection} {account : NodeId} {amount : Amount}
    {operator : OperatorSecretKey} {nonce : UInt64} {applied : (UInt64 × Hash) × Hash} :
    Keeps (OnlyPrefunds base) (recordValue direction account amount operator nonce applied) :=
  Keeps.bind (Keeps.modify fun _ h => h) fun _ => Keeps.bind Keeps.get fun _ => Keeps.pure _

theorem adminValueApply_onlyPrefunds {direction : ValueDirection} {account : NodeId}
    {kind : ChildKind} {amount : Amount} {controller : OperatorPubKey}
    {requestId : Vector UInt8 16} {now : UInt64} : Keeps (OnlyPrefunds base)
      (adminValueApply env direction account kind amount controller requestId now) := by
  refine Keeps.bind (Keeps.refuseIf _ _) fun _ => Keeps.bind beginTransaction_onlyPrefunds
    fun _ => Keeps.bind (Keeps.ofExcept _) fun operator => Keeps.bind Keeps.get fun desk => ?_
  cases desk.service.valueIndex[toLex (Crypto.pubKey operator,
      deriveValueNonce controller requestId)]? with
  | some prior => exact Keeps.ofExcept _
  | none =>
      cases direction with
      | issue =>
          exact Keeps.bind ensureAccountOpenInner_onlyPrefunds fun _ =>
            Keeps.bind applyIssue_onlyPrefunds fun _ => recordValue_onlyPrefunds
      | burn => exact Keeps.bind applyBurn_onlyPrefunds fun _ => recordValue_onlyPrefunds

theorem prefund_onlyPrefunds {child : NodeId} {kind : ChildKind} {amount : Amount}
    {operator : OperatorSecretKey} {nonce now : UInt64} :
    Keeps (OnlyPrefunds base) (prefund env child kind amount operator nonce now) := by
  refine Keeps.bind (Keeps.refuseIf _ _) fun _ => Keeps.bind beginTransaction_onlyPrefunds
    fun _ => Keeps.bind Keeps.get fun desk => Keeps.bind (Keeps.refuseIf _ _) fun _ =>
    Keeps.bind (Keeps.refuseIf _ _) fun _ => Keeps.bind ensureAccountOpenInner_onlyPrefunds
    fun _ => Keeps.bind (Keeps.ofExcept _) fun delta => Keeps.bind Keeps.get fun opened => ?_
  exact Keeps.bind (signAndAppend_onlyPrefunds (Or.inr ⟨_, _, rfl, rfl⟩)) fun applied =>
    Keeps.bind (Keeps.modify fun _ h => h) fun _ => Keeps.pure _

theorem edgeClose_onlyPrefunds {operator : OperatorSecretKey} {nonce now : UInt64} :
    Keeps (OnlyPrefunds base) (edgeClose env operator nonce now) := by
  refine Keeps.bind beginTransaction_onlyPrefunds fun _ => Keeps.bind Keeps.get fun desk => ?_
  by_cases hzero : desk.service.ledger.balances.parentBalance = 0
  · simp only [hzero, ↓reduceIte]
    exact Keeps.pure _
  · simp only [hzero, ↓reduceIte]
    exact Keeps.bind (Keeps.refuseIf _ _) fun _ => Keeps.bind (Keeps.ofExcept _) fun _ =>
      Keeps.bind (signAndAppend_onlyPrefunds (Or.inl rfl)) fun _ => Keeps.pure _

theorem Operation.Administrative.onlyPrefunds {op : Operation} (h : op.Administrative)
    {desk : Desk} : OnlyPrefunds desk.frames (op.perform env desk) := by
  have hself : OnlyPrefunds desk.frames desk := fun _ hs => Or.inl hs
  cases op with
  | ensureAccountOpen child kind =>
      exact Keeps.exec (Keeps.bind beginTransaction_onlyPrefunds fun _ =>
        ensureAccountOpenInner_onlyPrefunds) hself
  | fund to_ kind amount operator nonce now =>
      exact Keeps.exec (Keeps.bind (Keeps.refuseIf _ _) fun _ =>
        Keeps.bind beginTransaction_onlyPrefunds fun _ =>
        Keeps.bind ensureAccountOpenInner_onlyPrefunds fun _ =>
        Keeps.bind applyIssue_onlyPrefunds fun _ => Keeps.pure _) hself
  | burn from_ amount operator nonce now =>
      exact Keeps.exec (Keeps.bind (Keeps.refuseIf _ _) fun _ =>
        Keeps.bind beginTransaction_onlyPrefunds fun _ =>
        Keeps.bind applyBurn_onlyPrefunds fun _ =>
        Keeps.bind recordValue_onlyPrefunds fun _ => Keeps.pure _) hself
  | adminValueApply direction account kind amount controller requestId now =>
      exact Keeps.exec adminValueApply_onlyPrefunds hself
  | prefund child kind amount operator nonce now => exact Keeps.exec prefund_onlyPrefunds hself
  | edgeClose operator nonce now => exact Keeps.exec edgeClose_onlyPrefunds hself
  | applyOrder order auth sender record now => exact h.elim
  | applyHop order auth role first second registry now => exact h.elim

end Prefunds

omit [Postcard] in
theorem order_hash_ne_prefund (hfree : Crypto.CollisionFree) (order : PaymentOrder)
    (r : PrefundRequest) : r.hash ≠ order.hash := by
  intro h
  obtain ⟨hcontext, -⟩ := hfree _ _ _ _ h
  exact absurd hcontext (by decide)

end Cawala
