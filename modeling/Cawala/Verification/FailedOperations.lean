import Cawala.Verification.ValueRequests

/-! # Failed value operations

An operation of the operator that fails leaves what the refresh at its start read. Those that
credit a child open its account first: if they fail after that, the account stays open, with
a zero balance. -/

namespace Cawala

open Std (ExtTreeMap)
open Library Library.Transaction

section

variable [Crypto]

/-- An operation that creates, moves or destroys value, with its arguments. -/
inductive ValueCall where
  | fund (to_ : NodeId) (kind : ChildKind) (amount : Amount) (operator : OperatorSecretKey)
      (nonce now : UInt64)
  | prefund (child : NodeId) (kind : ChildKind) (amount : Amount) (operator : OperatorSecretKey)
      (nonce now : UInt64)
  | burn (from_ : NodeId) (amount : Amount) (operator : OperatorSecretKey) (nonce now : UInt64)
  | edgeClose (operator : OperatorSecretKey) (nonce now : UInt64)
  | adminValueApply (direction : ValueDirection) (account : NodeId) (kind : ChildKind)
      (amount : Amount) (controller : OperatorPubKey) (requestId : Vector UInt8 16)
      (now : UInt64)

namespace ValueCall

def opens : ValueCall → Option (NodeId × ChildKind)
  | .fund to_ kind .. => some (to_, kind)
  | .prefund child kind .. => some (child, kind)
  | .adminValueApply .issue account kind .. => some (account, kind)
  | _ => none

def amount? : ValueCall → Option Amount
  | .fund _ _ amount .. | .prefund _ _ amount .. | .burn _ amount ..
  | .adminValueApply _ _ _ amount .. => some amount
  | .edgeClose .. => none

variable [Postcard]

def attempt (env : TxEnv) : ValueCall → Tx PUnit
  | .fund to_ kind amount operator nonce now => do
      let _ ← Cawala.fund env to_ kind amount operator nonce now
  | .prefund child kind amount operator nonce now => do
      let _ ← Cawala.prefund env child kind amount operator nonce now
  | .burn from_ amount operator nonce now => do
      let _ ← Cawala.burn env from_ amount operator nonce now
  | .edgeClose operator nonce now => do
      let _ ← Cawala.edgeClose env operator nonce now
  | .adminValueApply direction account kind amount controller requestId now => do
      let _ ← Cawala.adminValueApply env direction account kind amount controller requestId now

end ValueCall

/-- The refusals that an operation decides on before it touches an account. -/
def ServiceError.early : ServiceError → Bool
  | .zeroAmount | .contended | .unreadable | .corrupt | .replay _ | .root | .attached
  | .alreadyApplied _ | .insufficientBalance | .requestIdConflict => true
  | _ => false

variable [Postcard]

/-- A desk on which one account has been opened, and nothing else done. -/
structure AccountOpened (env : TxEnv) (child : NodeId) (kind : ChildKind) (before after : Desk) :
    Prop where
  fresh : child ∉ before.service.ledger.balances.children
  pushed : ∃ signed ledger,
    signed.entry = before.service.nextEntry env.clock (.openAccount child kind) [] none
      ∧ before.service.ledger.append signed = .ok ledger ∧ after = before.push signed ledger
  children : ∀ id, id ∈ after.service.ledger.balances.children
    ↔ id ∈ before.service.ledger.balances.children ∨ id = child
  balance : ∀ a, after.service.ledger.balances.balance a = before.service.ledger.balances.balance a
  consumed : after.service.consumed = before.service.consumed
  valueIndex : after.service.valueIndex = before.service.valueIndex

/-- What a failed operation leaves of a refreshed desk. -/
def LeftBy (env : TxEnv) (opens : Option (NodeId × ChildKind)) (refreshed : Desk)
    (e : ServiceError) (after : Desk) : Prop :=
  after = refreshed ∨ (e.early = false
    ∧ ∃ child kind, opens = some (child, kind) ∧ AccountOpened env child kind refreshed after)

variable {env : TxEnv} {desk : Desk}

/-! ## The steps -/

/-- An append of an account adds it, with a zero balance. -/
theorem accountOpened_of_append {child : NodeId} {kind : ChildKind} {signed : SignedEntry}
    {ledger : Ledger}
    (hentry : signed.entry = desk.service.nextEntry env.clock (.openAccount child kind) [] none)
    (happend : desk.service.ledger.append signed = .ok ledger) :
    AccountOpened env child kind desk (desk.push signed ledger) := by
  have hspec := append_spec happend
  have heffect := hspec.effect
  have hopens : ∀ id, signed.entry.opens id ↔ id = child := by
    intro id
    rw [hentry]
    simp [Entry.opens, LedgerService.nextEntry, eq_comm]
  refine ⟨(heffect.fresh child ((hopens child).mpr rfl)).1, ⟨signed, ledger, hentry, happend, rfl⟩,
    ?_, ?_, rfl, rfl⟩
  · intro id
    rw [← hopens id]
    exact heffect.children id
  · intro a
    have hbalance := heffect.balance a
    rw [hentry] at hbalance
    simp only [LedgerService.nextEntry, postedDelta, List.map_nil, List.filter_nil,
      List.sum_nil, add_zero] at hbalance
    exact hbalance

omit [Postcard] in
theorem tagged_eq_error {α : Type} {tag : LedgerError → ServiceError} {x : Except LedgerError α}
    {e : ServiceError} (h : tagged tag x = .error e) : ∃ cause, e = tag cause := by
  cases x with
  | ok a => cases h
  | error cause => exact ⟨cause, (Except.error.inj h).symm⟩

omit [Postcard] in
theorem effectiveRegistry_late {s : LedgerService} {e : ServiceError}
    (h : s.effectiveRegistry env = .error e) : e.early = false := by
  unfold LedgerService.effectiveRegistry at h
  split at h
  · cases h
    rfl
  · cases h
    rfl
  · split at h
    · split at h
      · cases h
        rfl
      · cases h
    · obtain ⟨cause, rfl⟩ := tagged_eq_error h
      rfl

/-- A late failure of a step, which has no effect. -/
def FailsLate (desk : Desk) (e : ServiceError) (after : Desk) : Prop :=
  after = desk ∧ e.early = false

theorem appendSigned_late (signed : SignedEntry) :
    Meets (· = desk) (appendSigned env signed)
      (fun _ after => ∃ ledger, desk.service.ledger.append signed = .ok ledger
        ∧ after = desk.push signed ledger) (FailsLate desk) := by
  unfold appendSigned
  apply Meets.get_bind_at
  apply Meets.ofExcept_bind_at
  · intro e he
    obtain ⟨cause, rfl⟩ := tagged_eq_error he
    exact ⟨rfl, rfl⟩
  · intro ledger hledger
    apply Meets.ofExcept_bind_at
    · intro e he
      split at he
      · cases he
        exact ⟨rfl, rfl⟩
      · cases he
    · intro _ _ s hs
      subst hs
      exact ⟨ledger, tagged_eq_ok.mp hledger, rfl⟩

theorem signAndAppend_late {entry : Entry}
    {verify : SignedEntry → PeerRegistry → Except LedgerError Unit} :
    Meets (· = desk) (signAndAppend env entry (·.effectiveRegistry env) verify)
      (fun _ _ => True) (FailsLate desk) := by
  unfold signAndAppend
  apply Meets.get_bind_at
  apply Meets.ofExcept_bind_at
  · intro e he
    obtain ⟨cause, rfl⟩ := tagged_eq_error he
    exact ⟨rfl, rfl⟩
  intro signed _
  apply Meets.ofExcept_bind_at
  · intro e he
    exact ⟨rfl, effectiveRegistry_late he⟩
  intro peers _
  apply Meets.ofExcept_bind_at
  · intro e he
    obtain ⟨cause, rfl⟩ := tagged_eq_error he
    exact ⟨rfl, rfl⟩
  intro _ _
  apply Meets.ofExcept_bind_at
  · intro e he
    obtain ⟨cause, rfl⟩ := tagged_eq_error he
    exact ⟨rfl, rfl⟩
  intro hash _
  exact (appendSigned_late signed).bind fun _ => Meets.pure fun _ _ => trivial

/-- Opening an account does so at most once, and fails without effect. -/
theorem ensureAccountOpenInner_opened {child : NodeId} {kind : ChildKind} :
    Meets (· = desk) (ensureAccountOpenInner env child kind)
      (fun _ after => after = desk ∨ AccountOpened env child kind desk after)
      (FailsLate desk) := by
  unfold ensureAccountOpenInner
  apply Meets.get_bind_at
  by_cases hopen : isOpened desk.service.ledger.balances (.child child) = true
  · rw [if_pos hopen]
    exact Meets.pure fun _ h => Or.inl h
  · rw [if_neg hopen]
    apply Meets.ofExcept_bind_at
    · intro e he
      obtain ⟨cause, rfl⟩ := tagged_eq_error he
      exact ⟨rfl, rfl⟩
    · intro signed hsigned
      have hentry := sign_entry (tagged_eq_ok.mp hsigned)
      refine (appendSigned_late signed).bind fun _ => Meets.pure ?_
      intro after hpushed
      obtain ⟨ledger, happend, rfl⟩ := hpushed
      exact Or.inr (accountOpened_of_append hentry happend)

section Bodies

variable {account : NodeId} {amount : Amount} {operator : OperatorSecretKey} {nonce now : UInt64}

omit [Postcard] in
theorem signedRange_late {e : ServiceError} {a : Amount} {err : ServiceError}
    (h : signedRange e a = .error err) : err = e := by
  obtain ⟨-, rfl⟩ := tagged_eq_error h
  rfl

theorem applyIssue_late :
    Meets (· = desk) (applyIssue env account amount operator nonce now) (fun _ _ => True)
      (FailsLate desk) := by
  unfold applyIssue
  apply Meets.get_bind_at
  apply Meets.ofExcept_bind_at
  · intro e he
    rw [signedRange_late he]
    exact ⟨rfl, rfl⟩
  · intro delta _
    exact signAndAppend_late.bind fun _ => Meets.pure fun _ _ => trivial

theorem applyBurn_fails :
    Meets (· = desk) (applyBurn env account amount operator nonce now) (fun _ _ => True)
      (fun _ after => after = desk) := by
  unfold applyBurn
  apply Meets.get_bind_at
  apply Meets.refuseIf_bind_at
  · intro _
    rfl
  · intro _
    apply Meets.ofExcept_bind_at
    · intro _ _
      rfl
    · intro delta _
      exact (signAndAppend_meets.mono (fun _ => id) (fun _ _ _ => trivial) (fun _ _ => id)).bind
        fun _ => Meets.pure fun _ _ => trivial

omit [Postcard] in
theorem recordValue_succeeds {direction : ValueDirection} {applied : (UInt64 × Hash) × Hash}
    {E : ServiceError → Desk → Prop} :
    Meets (fun _ => True) (recordValue direction account amount operator nonce applied)
      (fun _ _ => True) E := by
  intro s _
  rw [recordValue, exec_bind, exec_modify]
  trivial

omit [Postcard] in
theorem consume_succeeds {paymentId : Hash} {applied : UInt64 × Hash}
    {E : ServiceError → Desk → Prop} :
    Meets (fun _ => True) (consume paymentId applied) (fun _ _ => True) E := by
  intro s _
  rw [consume, exec_modify]
  trivial

theorem opened_then_late {α : Type} {kind : ChildKind} {opens : Option (NodeId × ChildKind)}
    {x : Tx α} (hopens : opens = some (account, kind))
    (hx : ∀ s, Meets (· = s) x (fun _ _ => True) (FailsLate s)) :
    Meets (· = desk) (ensureAccountOpenInner env account kind >>= fun _ => x)
      (fun _ _ => True) (LeftBy env opens desk) := by
  have hopen : Meets (· = desk) (ensureAccountOpenInner env account kind)
      (fun _ after => after = desk ∨ AccountOpened env account kind desk after)
      (LeftBy env opens desk) :=
    ensureAccountOpenInner_opened.mono (fun _ => id) (fun _ _ => id) (fun _ _ h => Or.inl h.1)
  refine hopen.bind fun _ => Meets.pointwise fun s hs => ?_
  refine (hx s).mono (fun _ => id) (fun _ _ => id) ?_
  intro e after hfail
  obtain ⟨rfl, hlate⟩ := hfail
  rcases hs with rfl | hs
  · exact Or.inl rfl
  · exact Or.inr ⟨hlate, account, kind, hopens, hs⟩

end Bodies

/-! ## The operations -/

/-- How an operation fails: it refuses a zero amount, it cannot refresh, or it leaves what the
refresh read, up to an opened account. -/
def FailedFrom (env : TxEnv) (call : ValueCall) (desk : Desk) (e : ServiceError) (after : Desk) :
    Prop :=
  (call.amount? = some 0 ∧ e = .zeroAmount ∧ after = desk)
    ∨ (exec (beginTransaction env) desk = (.error e, desk) ∧ after = desk)
    ∨ ∃ refreshed, exec (beginTransaction env) desk = (.ok ⟨⟩, refreshed)
        ∧ LeftBy env call.opens refreshed e after

theorem beginTransaction_fails :
    Meets (· = desk) (beginTransaction env)
      (fun _ refreshed => exec (beginTransaction env) desk = (.ok ⟨⟩, refreshed))
      (fun e after => exec (beginTransaction env) desk = (.error e, desk) ∧ after = desk) := by
  intro s hs
  subst hs
  have hexec := exec_beginTransaction env s
  split_ifs at hexec with hlocked
  · rw [hexec]
    exact ⟨rfl, rfl⟩
  · cases hload : load env s.service.key s.frames with
    | error e =>
        rw [hload] at hexec
        rw [hexec]
        exact ⟨rfl, rfl⟩
    | ok loaded =>
        rw [hload] at hexec
        rw [hexec]

variable {call : ValueCall}

/-- An operation whose body leaves what it was given fails as described. -/
theorem failedFrom_of_body {α : Type} {body : Tx α}
    (hbody : ∀ s, Meets (· = s) body (fun _ _ => True) (LeftBy env call.opens s)) :
    Meets (· = desk) (beginTransaction env >>= fun _ => body) (fun _ _ => True)
      (FailedFrom env call desk) := by
  have hbegin : Meets (· = desk) (beginTransaction env)
      (fun _ refreshed => exec (beginTransaction env) desk = (.ok ⟨⟩, refreshed))
      (FailedFrom env call desk) :=
    beginTransaction_fails.mono (fun _ => id) (fun _ _ => id) (fun _ _ h => Or.inr (Or.inl h))
  refine hbegin.bind fun _ => Meets.pointwise fun refreshed hrefreshed => ?_
  exact (hbody refreshed).mono (fun _ => id) (fun _ _ => id)
    (fun _ _ h => Or.inr (Or.inr ⟨refreshed, hrefreshed, h⟩))

theorem failedFrom_of_amount {α : Type} {amount : Amount} {x : Tx α}
    (hamount : call.amount? = some amount)
    (hx : Meets (· = desk) x (fun _ _ => True) (FailedFrom env call desk)) :
    Meets (· = desk) (refuseIf (amount = 0) .zeroAmount >>= fun _ => x) (fun _ _ => True)
      (FailedFrom env call desk) := by
  apply Meets.refuseIf_bind_at
  · intro hzero
    exact Or.inl ⟨hzero ▸ hamount, rfl, rfl⟩
  · intro _
    exact hx

theorem fund_fails {to_ : NodeId} {kind : ChildKind} {amount : Amount}
    {operator : OperatorSecretKey} {nonce now : UInt64} :
    Meets (· = desk) (fund env to_ kind amount operator nonce now) (fun _ _ => True)
      (FailedFrom env (.fund to_ kind amount operator nonce now) desk) := by
  unfold fund
  apply failedFrom_of_amount rfl
  apply failedFrom_of_body
  intro s
  apply opened_then_late rfl
  intro t
  exact applyIssue_late.bind fun _ => Meets.pure fun _ _ => trivial

theorem prefund_fails {child : NodeId} {kind : ChildKind} {amount : Amount}
    {operator : OperatorSecretKey} {nonce now : UInt64} :
    Meets (· = desk) (prefund env child kind amount operator nonce now) (fun _ _ => True)
      (FailedFrom env (.prefund child kind amount operator nonce now) desk) := by
  unfold prefund
  apply failedFrom_of_amount rfl
  apply failedFrom_of_body
  intro s
  apply Meets.get_bind_at
  apply Meets.refuseIf_bind_at
  · intro _
    exact Or.inl rfl
  intro _
  apply Meets.refuseIf_bind_at
  · intro _
    exact Or.inl rfl
  intro _
  apply opened_then_late rfl
  intro t
  apply Meets.ofExcept_bind_at
  · intro e he
    rw [signedRange_late he]
    exact ⟨rfl, rfl⟩
  intro delta _
  apply Meets.get_bind_at
  refine signAndAppend_late.bind fun applied => ?_
  exact consume_succeeds.bind fun _ => Meets.pure fun _ _ => trivial

theorem burn_fails {from_ : NodeId} {amount : Amount} {operator : OperatorSecretKey}
    {nonce now : UInt64} :
    Meets (· = desk) (burn env from_ amount operator nonce now) (fun _ _ => True)
      (FailedFrom env (.burn from_ amount operator nonce now) desk) := by
  unfold burn
  apply failedFrom_of_amount rfl
  apply failedFrom_of_body
  intro s
  refine (applyBurn_fails.mono (fun _ => id) (fun _ _ => id) (fun _ _ => Or.inl)).bind fun _ => ?_
  exact recordValue_succeeds.bind fun _ => Meets.pure fun _ _ => trivial

theorem edgeClose_fails {operator : OperatorSecretKey} {nonce now : UInt64} :
    Meets (· = desk) (edgeClose env operator nonce now) (fun _ _ => True)
      (FailedFrom env (.edgeClose operator nonce now) desk) := by
  unfold edgeClose
  apply failedFrom_of_body
  intro s
  apply Meets.get_bind_at
  by_cases hzero : s.service.ledger.balances.parentBalance = 0
  · simp only [hzero, if_true]
    exact Meets.pure fun _ _ => trivial
  · simp only [hzero, if_false]
    apply Meets.refuseIf_bind_at
    · intro _
      exact Or.inl rfl
    intro _
    apply Meets.ofExcept_bind_at
    · intro _ _
      exact Or.inl rfl
    intro delta _
    exact (signAndAppend_meets.mono (fun _ => id) (fun _ _ _ => trivial)
      (fun _ _ => Or.inl)).bind fun _ => Meets.pure fun _ _ => trivial

theorem adminValueApply_fails {direction : ValueDirection} {account : NodeId} {kind : ChildKind}
    {amount : Amount} {controller : OperatorPubKey} {requestId : Vector UInt8 16} {now : UInt64} :
    Meets (· = desk) (adminValueApply env direction account kind amount controller requestId now)
      (fun _ _ => True) (FailedFrom env
        (.adminValueApply direction account kind amount controller requestId now) desk) := by
  unfold adminValueApply
  apply failedFrom_of_amount rfl
  apply failedFrom_of_body
  intro s
  apply Meets.ofExcept_bind_at
  · intro _ _
    exact Or.inl rfl
  intro operator _
  apply Meets.get_bind_at
  cases s.service.valueIndex[toLex (Crypto.pubKey operator,
      deriveValueNonce controller requestId)]? with
  | some prior =>
      exact (Meets.ofExcept fun _ _ h => Or.inl h).mono (fun _ => id) (fun _ _ _ => trivial)
        (fun _ _ => id)
  | none =>
      cases direction with
      | issue =>
          apply opened_then_late rfl
          intro t
          exact applyIssue_late.bind fun _ => recordValue_succeeds
      | burn =>
          exact (applyBurn_fails.mono (fun _ => id) (fun _ _ => id)
            (fun _ _ => Or.inl)).bind fun _ => recordValue_succeeds

/-- A failed operation leaves what the refresh at its start read, up to an opened account. -/
theorem failed_operation {e : ServiceError} {after : Desk}
    (h : exec (call.attempt env) desk = (.error e, after)) : FailedFrom env call desk e after := by
  have hmeets : Meets (· = desk) (call.attempt env) (fun _ _ => True)
      (FailedFrom env call desk) := by
    cases call with
    | fund => exact fund_fails.bind fun _ => Meets.pure fun _ _ => trivial
    | prefund => exact prefund_fails.bind fun _ => Meets.pure fun _ _ => trivial
    | burn => exact burn_fails.bind fun _ => Meets.pure fun _ _ => trivial
    | edgeClose => exact edgeClose_fails.bind fun _ => Meets.pure fun _ _ => trivial
    | adminValueApply => exact adminValueApply_fails.bind fun _ => Meets.pure fun _ _ => trivial
  have hexec := hmeets desk rfl
  rw [h] at hexec
  exact hexec

end

section Concrete

open Concrete

/-- A data directory without entries, and the service that has it open. -/
def freshDesk : Desk where
  frames := []
  service :=
    { nodeId := "n", ledger := Ledger.new (9 : ℕ), key := (9 : ℕ), isRoot := true
      consumed := ∅, valueIndex := ∅ }

/-- An issue of 2^63 units to a child without an account. -/
def issueBeyondRange : ValueCall := .fund "u" .user (2 ^ 63) (1 : ℕ) 7 100

theorem issueBeyondRange_fails :
    (exec (issueBeyondRange.attempt diskOk) freshDesk).1 = .error .amountRange := by
  decide +kernel

theorem failed_operation_issueBeyondRange :
    FailedFrom diskOk issueBeyondRange freshDesk .amountRange
      (exec (issueBeyondRange.attempt diskOk) freshDesk).2 := by
  apply failed_operation
  rw [← issueBeyondRange_fails]

/-- It fails, but the account has been opened: one entry is in the log. -/
theorem failed_operation_changes : ¬ ∀ (env : TxEnv) (call : ValueCall) (desk after : Desk)
    (e : ServiceError), (∀ n, env.writeError n = none) →
    exec (call.attempt env) desk = (.error e, after) →
    after = desk ∨ exec (beginTransaction env) desk = (.ok ⟨⟩, after) := by
  intro h
  have hlog : (exec (issueBeyondRange.attempt diskOk) freshDesk).2.frames.length = 1 := by
    decide +kernel
  have hexec : exec (issueBeyondRange.attempt diskOk) freshDesk
      = (.error .amountRange, (exec (issueBeyondRange.attempt diskOk) freshDesk).2) := by
    rw [← issueBeyondRange_fails]
  rcases h diskOk issueBeyondRange freshDesk _ _ (fun _ => rfl) hexec with hsame | hsame
  · rw [hsame] at hlog
    cases hlog
  · have hframes := (beginTransaction_indexes rfl hsame).1
    rw [hframes] at hlog
    cases hlog

end Concrete

end Cawala
