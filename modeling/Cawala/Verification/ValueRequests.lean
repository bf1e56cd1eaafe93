import Cawala.Model.Concrete
import Cawala.Verification.ExactlyOnce
import Cawala.Verification.ValueIndex

/-! # Delegated value operations are idempotent

A value request is recorded under a nonce derived from its controller and its id. Whatever the
processes of a node run in between, it is applied at most once, and a retry is answered from the
log: with the entry it was recorded by, or refused. -/

namespace Cawala

open Std (ExtTreeMap)
open Library Library.Transaction

section Requests

variable [Crypto]

/-! ## Requests and their keys -/

/-- A value request: its controller, and the id the controller gave it. -/
abbrev ValueRequest : Type := OperatorPubKey × Vector UInt8 16

def requestKey (operator : OperatorSecretKey) (q : ValueRequest) : ValueKey :=
  toLex (Crypto.pubKey operator, deriveValueNonce q.1 q.2)

def Operation.request : Operation → Option ValueRequest
  | .adminValueApply _ _ _ _ controller requestId _ => some (controller, requestId)
  | _ => none

/-- The key of a value operation that an operator runs at the node. -/
def Operation.cliKey : Operation → Option ValueKey
  | .fund _ _ _ operator nonce _ | .burn _ _ operator nonce _ =>
      some (toLex (Crypto.pubKey operator, nonce))
  | _ => none

def HostEvent.request : HostEvent → Option ValueRequest
  | .perform _ _ op => op.request
  | _ => none

/-- The node has one identity, which a process may fail to read. -/
def OneIdentity (operator : OperatorSecretKey) (events : List HostEvent) : Prop :=
  ∀ i env op, HostEvent.perform i env op ∈ events →
    env.operator = none ∨ env.operator = some operator

/-- The nonces of different requests differ, also from those the operator chooses. -/
structure NoncesApart (operator : OperatorSecretKey) (events : List HostEvent) : Prop where
  requests : ∀ e ∈ events, ∀ e' ∈ events, ∀ q q', e.request = some q → e'.request = some q' →
    deriveValueNonce q.1 q.2 = deriveValueNonce q'.1 q'.2 → q = q'
  operators : ∀ e ∈ events, ∀ i env op, HostEvent.perform i env op ∈ events →
    ∀ q, e.request = some q → op.cliKey ≠ some (requestKey operator q)

variable [Postcard]

/-- The issue and burn entries an event appends. -/
def Host.newValues (key : LedgerSecretKey) (host : Host) (event : HostEvent) :
    List SignedEntry :=
  ((host.step key event).frames.drop host.frames.length).filter fun s =>
    (valueOperation s.entry.body).isSome

/-- A run, with the issue and burn entries that one request appended. -/
def Host.runFor (key : LedgerSecretKey) (q : ValueRequest) (events : List HostEvent) :
    Host × List SignedEntry :=
  events.foldl (fun s event => (s.1.step key event,
    if event.request = some q then s.2 ++ s.1.newValues key event else s.2))
    (⟨[], fun _ => none⟩, [])

/-- The issue and burn entries that a request appended in a run. -/
def appendedFor (key : LedgerSecretKey) (q : ValueRequest) (events : List HostEvent) :
    List SignedEntry :=
  (Host.runFor key q events).2

theorem runFor_fst (key : LedgerSecretKey) (q : ValueRequest) (events : List HostEvent) :
    (Host.runFor key q events).1 = Host.run key events := by
  induction events using List.reverseRecOn with
  | nil => rfl
  | append_singleton events event ih =>
      rw [Host.runFor, Host.run, List.foldl_append, List.foldl_append]
      exact congrArg (Host.step key · event) ih

/-- The lock is free, the log can be read, and the identity is there. -/
structure Available (env : TxEnv) (operator : OperatorSecretKey) : Prop where
  locked : env.locked = true
  readable : env.readable = true
  identity : env.operator = some operator

/-- What a retry of a request does, after an entry was appended for it. -/
structure Retried (operator : OperatorSecretKey) (desk : Desk) (s : SignedEntry) (env : TxEnv)
    (direction : ValueDirection) (account : NodeId) (amount : Amount)
    (outcome : Except ServiceError ValueApplied × Desk) : Prop where
  unchanged : outcome.2.frames = desk.frames
  same : Available env operator →
    valueOperation s.entry.body = some (direction, account, amount) →
    ∃ hash auth, entryHash s.entry = .ok hash ∧ s.entry.auth = some auth
      ∧ outcome.1 = .ok { seq := s.entry.seq, entryHash := hash
                          balanceAfter := outcome.2.service.balanceOf account
                          orderHash := auth.orderHash, duplicate := true }
  different : Available env operator →
    valueOperation s.entry.body ≠ some (direction, account, amount) →
    outcome.1 = .error (if amount = 0 then .zeroAmount else .requestIdConflict)

/-! ## The keys an operation adds -/

section Operations

variable {env : TxEnv} {desk : Desk} {key : LedgerSecretKey} {operator : OperatorSecretKey}
  {q : ValueRequest}

def Operation.valueKey (env : TxEnv) : Operation → Option ValueKey
  | .adminValueApply _ _ _ _ controller requestId _ =>
      env.operator.map fun operator => requestKey operator (controller, requestId)
  | op => op.cliKey

theorem fund_addsKey {to_ : NodeId} {kind : ChildKind} {amount : Amount}
    {operator : OperatorSecretKey} {nonce now : UInt64} :
    AddsKey (some (toLex (Crypto.pubKey operator, nonce)))
      (fund env to_ kind amount operator nonce now) := by
  refine (keepsKeys_refuseIf _ _).bind_addsKey fun _ => ?_
  refine beginTransaction_keepsKeys.bind_addsKey fun _ => ?_
  refine ensureAccountOpenInner_keepsKeys.bind_addsKey fun _ => ?_
  exact applyIssue_addsKey.bind_keepsKeys fun _ => keepsKeys_pure _

theorem burn_addsKey {from_ : NodeId} {amount : Amount} {operator : OperatorSecretKey}
    {nonce now : UInt64} : AddsKey (some (toLex (Crypto.pubKey operator, nonce)))
      (burn env from_ amount operator nonce now) := by
  refine (keepsKeys_refuseIf _ _).bind_addsKey fun _ => ?_
  refine beginTransaction_keepsKeys.bind_addsKey fun _ => ?_
  refine applyBurn_addsKey.bind_keepsKeys fun _ => ?_
  exact recordValue_keepsKeys.bind fun _ => keepsKeys_pure _

theorem adminValueApply_addsKey {direction : ValueDirection} {account : NodeId}
    {kind : ChildKind} {amount : Amount} {controller : OperatorPubKey}
    {requestId : Vector UInt8 16} {now : UInt64} :
    AddsKey (env.operator.map fun operator => requestKey operator (controller, requestId))
      (adminValueApply env direction account kind amount controller requestId now) := by
  refine (keepsKeys_refuseIf _ _).bind_addsKey fun _ => ?_
  refine beginTransaction_keepsKeys.bind_addsKey fun _ => ?_
  cases hoperator : env.operator with
  | none => exact KeepsKeys.addsKey fun keys desk h => h
  | some operator =>
      change AddsKey _ (pure operator >>= fun operator => _)
      rw [pure_bind]
      refine keepsKeys_get.bind_addsKey fun desk => ?_
      cases desk.service.valueIndex[toLex (Crypto.pubKey operator,
          deriveValueNonce controller requestId)]? with
      | some prior => exact (keepsKeys_ofExcept _).addsKey
      | none =>
          cases direction with
          | issue =>
              refine ensureAccountOpenInner_keepsKeys.bind_addsKey fun _ => ?_
              exact applyIssue_addsKey.bind_keepsKeys fun _ => recordValue_keepsKeys
          | burn => exact applyBurn_addsKey.bind_keepsKeys fun _ => recordValue_keepsKeys

omit [Postcard] in
theorem AddsKey.exec {α : Type} {added : Option ValueKey} {x : Tx α} (h : AddsKey added x)
    (desk : Desk) :
    Adds added (valueKeys desk.frames) (valueKeys (Transaction.exec x desk).2.frames) :=
  Meets.exec (h (valueKeys desk.frames)) rfl

theorem perform_adds (op : Operation) :
    Adds (op.valueKey env) (valueKeys desk.frames) (valueKeys (op.perform env desk).frames) := by
  cases op with
  | ensureAccountOpen child kind =>
      exact ((beginTransaction_keepsKeys.bind fun _ =>
        ensureAccountOpenInner_keepsKeys).addsKey).exec desk
  | fund to_ kind amount operator nonce now => exact fund_addsKey.exec desk
  | burn from_ amount operator nonce now => exact burn_addsKey.exec desk
  | adminValueApply direction account kind amount controller requestId now =>
      exact adminValueApply_addsKey.exec desk
  | prefund child kind amount operator nonce now => exact prefund_keepsKeys.addsKey.exec desk
  | edgeClose operator nonce now => exact edgeClose_keepsKeys.addsKey.exec desk
  | applyOrder order auth sender record now =>
      rw [Operation.perform, applyOrder_desk]
      have hkeeps : KeepsKeys (applyOrderTx env order auth sender record now) :=
        beginTransaction_keepsKeys.bind fun _ => (keepsKeys_refuseIf _ _).bind fun _ =>
          (keepsKeys_refuseIf _ _).bind fun _ => transferOnce_keepsKeys
      exact hkeeps.addsKey.exec desk
  | applyHop order auth role first second registry now =>
      rw [Operation.perform, applyHop_desk]
      have hkeeps : KeepsKeys (applyHopTx env order auth role first second registry now) :=
        beginTransaction_keepsKeys.bind fun _ => (keepsKeys_refuseIf _ _).bind fun _ =>
          transferOnce_keepsKeys
      exact hkeeps.addsKey.exec desk

/-- A request whose key is in the log appends nothing, and is answered from the index. -/
theorem adminValueApply_known (hkey : desk.service.key = key)
    (hoperator : env.operator = none ∨ env.operator = some operator)
    (hknown : requestKey operator q ∈ valueKeys desk.frames) (direction : ValueDirection)
    (account : NodeId) (kind : ChildKind) (amount : Amount) (now : UInt64) :
    let outcome := exec (adminValueApply env direction account kind amount q.1 q.2 now) desk
    outcome.2.frames = desk.frames
      ∧ ∀ began, exec (beginTransaction env) desk = (.ok ⟨⟩, began) →
        env.operator = some operator → amount ≠ 0 →
        ∃ prior, began.service.valueIndex[requestKey operator q]? = some prior
          ∧ outcome = (answerValue prior direction account amount
            (began.service.balanceOf account), began) := by
  intro outcome
  by_cases hamount : amount = 0
  · have hrefused : outcome = (.error .zeroAmount, desk) := by
      simp only [outcome, adminValueApply, exec_refuseIf_bind, if_pos hamount]
    rw [hrefused]
    exact ⟨rfl, fun _ _ _ hne => absurd hamount hne⟩
  · cases hbegin : exec (beginTransaction env) desk with
    | mk r began =>
        obtain ⟨hframes, hindexes⟩ := beginTransaction_indexes hkey hbegin
        cases r with
        | error e =>
            have hfailed : outcome = (.error e, began) := by
              simp only [outcome, adminValueApply, exec_bind, exec_refuseIf, if_neg hamount, hbegin]
            rw [hfailed]
            exact ⟨hframes, fun _ h => by cases h⟩
        | ok u =>
            rcases hoperator with hoperator | hoperator
            · have hfailed : outcome = (.error .identity, began) := by
                simp only [outcome, adminValueApply, exec_bind, exec_refuseIf, if_neg hamount,
                  hbegin, hoperator, exec_ofExcept]
              rw [hfailed]
              exact ⟨hframes, fun _ _ h => by rw [hoperator] at h; cases h⟩
            · have hin := ((hindexes rfl).mem _).mpr hknown
              obtain ⟨prior, hprior⟩ := Option.isSome_iff_exists.mp
                (ExtTreeMap.mem_iff_isSome_getElem?.mp hin)
              have hanswered : outcome = (answerValue prior direction account amount
                  (began.service.balanceOf account), began) := by
                rw [requestKey] at hprior
                simp only [outcome, adminValueApply, exec_bind, exec_refuseIf, if_neg hamount,
                  hbegin, hoperator, exec_ofExcept, exec_get, hprior]
              rw [hanswered]
              refine ⟨hframes, fun began' h _ _ => ?_⟩
              obtain ⟨-, rfl⟩ := Prod.mk.inj h
              exact ⟨prior, hprior, rfl⟩

omit [Postcard] in
/-- Issue and burn entries are authorised, and of some value. -/
theorem valueOperation_conserved {e : Entry} {u : Unit} (h : e.checkConservation = .ok u)
    {direction : ValueDirection} {account : NodeId} {amount : Amount}
    (hoperation : valueOperation e.body = some (direction, account, amount)) :
    amount ≠ 0 ∧ ∃ auth, e.auth = some auth := by
  unfold Entry.checkConservation at h
  have hshape : ∀ deltas, e.validateShape deltas = .ok () → amount ≠ 0 := by
    intro deltas hvalid
    unfold Entry.validateShape at hvalid
    cases hbody : e.body with
    | issue child value =>
        simp only [hbody, valueOperation, Option.some.injEq, Prod.mk.injEq] at hoperation
        simp only [hbody, ite_error_eq_ok] at hvalid
        exact hoperation.2.2 ▸ hvalid.1
    | burn child value =>
        simp only [hbody, valueOperation, Option.some.injEq, Prod.mk.injEq] at hoperation
        simp only [hbody, ite_error_eq_ok] at hvalid
        exact hoperation.2.2 ▸ hvalid.1
    | _ => simp [hbody, valueOperation] at hoperation
  have hauth : e.requiresAuth = true := by
    unfold Entry.requiresAuth
    cases hbody : e.body with
    | openAccount child kind => simp [hbody, valueOperation] at hoperation
    | rotateLedgerKey => simp [hbody, valueOperation] at hoperation
    | _ => rfl
  cases hbody : e.body with
  | rotateLedgerKey => simp [hbody, valueOperation] at hoperation
  | _ =>
      simp only [hbody, ite_error_eq_ok, bind_eq_ok, hauth, Bool.true_and,
        Option.isNone_iff_eq_none] at h
      obtain ⟨hsome, _, -, deltas, -, _, -, hvalid⟩ := h
      exact ⟨hshape deltas hvalid, Option.ne_none_iff_exists'.mp hsome⟩

theorem operation_of_mem {frames : List SignedEntry} (hlog : LogSound key frames)
    {s : SignedEntry} (hs : s ∈ frames) {direction : ValueDirection} {account : NodeId}
    {amount : Amount}
    (hoperation : valueOperation s.entry.body = some (direction, account, amount)) :
    amount ≠ 0 ∧ ∃ auth, s.entry.auth = some auth := by
  obtain ⟨ledger, hopen⟩ := hlog.loads
  obtain ⟨l, l', happend⟩ := foldlM_step_of_mem (openLedger_eq_ok.mp hopen) hs
  exact valueOperation_conserved (append_spec happend).conserved hoperation

/-- In a log, the issue and burn entries are those with a key. -/
theorem isSome_valueOperation {frames : List SignedEntry} (hlog : LogSound key frames)
    {s : SignedEntry} (hs : s ∈ frames) :
    (valueOperation s.entry.body).isSome = s.valueKey.isSome := by
  unfold SignedEntry.valueKey Entry.valueKey
  cases hoperation : valueOperation s.entry.body with
  | none => rfl
  | some operation =>
      obtain ⟨-, auth, hauth⟩ := operation_of_mem hlog hs hoperation
      rw [hauth]
      rfl

end Operations

/-! ## Runs -/

section Runs

variable {key : LedgerSecretKey} {operator : OperatorSecretKey} {q : ValueRequest}

def entriesOf (k : ValueKey) (entries : List SignedEntry) : List SignedEntry :=
  entries.filter fun s => decide (s.valueKey = some k)

omit [Postcard] in
theorem length_entriesOf (k : ValueKey) (entries : List SignedEntry) :
    (entriesOf k entries).length = (valueKeys entries).count k := by
  induction entries using List.reverseRecOn with
  | nil => rfl
  | append_singleton entries s ih =>
      rw [entriesOf, List.filter_append, List.length_append, valueKeys_snoc, List.count_append,
        ← ih, entriesOf]
      congr 1
      cases hkey : s.valueKey with
      | none => simp [hkey]
      | some k' =>
          by_cases hk : k' = k
          · simp [hkey, hk]
          · simp [hkey, hk]

omit [Postcard] in
theorem Adds.append {added : Option ValueKey} {entries new : List SignedEntry}
    (h : Adds added (valueKeys entries) (valueKeys (entries ++ new))) :
    valueKeys new = [] ∨ ∃ k, added = some k ∧ valueKeys new = [k] := by
  have hsplit : valueKeys (entries ++ new) = valueKeys entries ++ valueKeys new :=
    List.filterMap_append
  rw [hsplit] at h
  rcases h with h | ⟨k, hk, h⟩
  · exact Or.inl (by simpa using h)
  · exact Or.inr ⟨k, hk, List.append_cancel_left h⟩

/-- What was appended for a request is what the log holds under its key: one entry at most. -/
structure RequestRecorded (operator : OperatorSecretKey) (q : ValueRequest)
    (frames done : List SignedEntry) : Prop where
  entries : done = entriesOf (requestKey operator q) frames
  once : (valueKeys frames).count (requestKey operator q) ≤ 1

/-- What a run must not do, one event at a time. -/
structure Apart (operator : OperatorSecretKey) (q : ValueRequest) (event : HostEvent) : Prop where
  identity : ∀ i env op, event = .perform i env op →
    env.operator = none ∨ env.operator = some operator
  request : ∀ q', event.request = some q' →
    deriveValueNonce q'.1 q'.2 = deriveValueNonce q.1 q.2 → q' = q
  operators : ∀ i env op, event = .perform i env op →
    op.cliKey ≠ some (requestKey operator q)

omit [Postcard] in
theorem requestKey_injective {q q' : ValueRequest}
    (h : requestKey operator q' = requestKey operator q) :
    deriveValueNonce q'.1 q'.2 = deriveValueNonce q.1 q.2 :=
  (Prod.mk.inj (toLex.injective h)).2

omit [Postcard] in
theorem Apart.request_of_valueKey {i : ℕ} {env : TxEnv} {op : Operation}
    (h : Apart operator q (.perform i env op))
    (hkey : op.valueKey env = some (requestKey operator q)) : op.request = some q := by
  have hcli := h.operators i env op rfl
  cases op with
  | adminValueApply direction account kind amount controller requestId now =>
      obtain ⟨operator', hoperator, hsame⟩ := Option.map_eq_some_iff.mp hkey
      rcases h.identity i env _ rfl with hnone | hsome
      · rw [hnone] at hoperator
        cases hoperator
      · obtain rfl := Option.some.inj (hsome.symm.trans hoperator)
        exact congrArg some (h.request _ rfl (requestKey_injective hsame))
  | _ => exact absurd hkey hcli

theorem Apart.request_known {i : ℕ} {env : TxEnv} {op : Operation} {desk : Desk}
    (h : Apart operator q (.perform i env op)) (hkey : desk.service.key = key)
    (hrequest : op.request = some q) :
    (requestKey operator q ∈ valueKeys desk.frames → (op.perform env desk).frames = desk.frames)
      ∧ ∀ k, op.valueKey env = some k → k = requestKey operator q := by
  cases op with
  | adminValueApply direction account kind amount controller requestId now =>
      obtain rfl := Option.some.inj hrequest
      have hoperator := h.identity i env _ rfl
      refine ⟨fun hknown => (adminValueApply_known hkey hoperator hknown ..).1, ?_⟩
      intro k hk
      obtain ⟨operator', hoperator', rfl⟩ := Option.map_eq_some_iff.mp hk
      rcases hoperator with hnone | hsome
      · rw [hnone] at hoperator'
        cases hoperator'
      · obtain rfl := Option.some.inj (hsome.symm.trans hoperator')
        rfl
  | _ => cases hrequest

theorem RequestRecorded.idle {frames done : List SignedEntry}
    (h : RequestRecorded operator q frames done)
    {host : Host} {event : HostEvent} (hframes : (host.step key event).frames = host.frames)
    (hhost : host.frames = frames) : RequestRecorded operator q (host.step key event).frames
      (if event.request = some q then done ++ host.newValues key event else done) := by
  have hnone : host.newValues key event = [] := by
    rw [Host.newValues, hframes, List.drop_length]
    rfl
  rw [hnone, List.append_nil, ite_self, hframes, hhost]
  exact h

omit [Postcard] in
theorem entriesOf_eq_nil {k : ValueKey} {entries : List SignedEntry}
    (h : k ∉ valueKeys entries) : entriesOf k entries = [] := by
  apply List.eq_nil_of_length_eq_zero
  rw [length_entriesOf]
  exact List.count_eq_zero.mpr h

/-- Entries with no other key are the issue and burn entries among them. -/
theorem filter_valueOperation {frames new : List SignedEntry} {k : ValueKey}
    (hlog : LogSound key (frames ++ new)) (hkeys : ∀ k' ∈ valueKeys new, k' = k) :
    new.filter (fun s => (valueOperation s.entry.body).isSome) = entriesOf k new := by
  apply List.filter_congr
  intro s hs
  rw [isSome_valueOperation hlog (List.mem_append_right frames hs)]
  cases hkey : s.valueKey with
  | none => rfl
  | some k' =>
      have hk : k' = k := hkeys k' (List.mem_filterMap.mpr ⟨s, hs, hkey⟩)
      simp [hk]

omit [Postcard] in
theorem RequestRecorded.append {frames new done : List SignedEntry}
    (h : RequestRecorded operator q frames done)
    (honce : (valueKeys (frames ++ new)).count (requestKey operator q) ≤ 1) :
    RequestRecorded operator q (frames ++ new) (done ++ entriesOf (requestKey operator q) new) where
  entries := by
    rw [h.entries, entriesOf, entriesOf, entriesOf, List.filter_append]
  once := honce

theorem RequestRecorded.step {host : Host} {done : List SignedEntry} (hsound : HostSound key host)
    (h : RequestRecorded operator q host.frames done) {event : HostEvent}
    (hapart : Apart operator q event) : RequestRecorded operator q (host.step key event).frames
      (if event.request = some q then done ++ host.newValues key event else done) := by
  cases event with
  | start i env nodeId =>
      refine h.idle ?_ rfl
      cases hopen : LedgerService.open_ env nodeId key host.frames <;> simp [Host.step, hopen]
  | stop i => exact h.idle rfl rfl
  | perform i env op =>
      cases hproc : host.procs i with
      | none => exact h.idle (by simp [Host.step, hproc]) rfl
      | some service =>
          have hservice := hsound.procs i service hproc
          have hstep : (host.step key (.perform i env op)).frames
              = (op.perform env ⟨host.frames, service⟩).frames := by
            simp only [Host.step, hproc]
          have hconcluded : Concluded key env op.Admitted ⟨host.frames, service⟩ _ :=
            perform_concluded op hsound.log hservice.sameKey
          have hlog := hconcluded.logSound hsound.log
          have hgrown : host.frames <+: (op.perform env ⟨host.frames, service⟩).frames := by
            rcases hconcluded with ⟨-, -, hsynced⟩ | ⟨-, hsame⟩
            · exact hsynced.grown
            · rw [hsame]
          obtain ⟨new, hnew⟩ := hgrown
          have hadds : Adds (op.valueKey env) (valueKeys host.frames)
              (valueKeys (op.perform env ⟨host.frames, service⟩).frames) := perform_adds op
          rw [← hnew] at hlog hadds
          have hkeys := hadds.append
          have hcount : (valueKeys (host.frames ++ new)).count (requestKey operator q)
              = (valueKeys host.frames).count (requestKey operator q)
                + (valueKeys new).count (requestKey operator q) := by
            rw [← List.count_append]
            exact congrArg _ List.filterMap_append
          have honce := h.once
          by_cases hrequest : op.request = some q
          · have hvalues : host.newValues key (.perform i env op)
                = new.filter fun s => (valueOperation s.entry.body).isSome := by
              rw [Host.newValues, hstep, ← hnew, List.drop_left]
            have hyes : (HostEvent.perform i env op).request = some q := hrequest
            have hfresh : valueKeys new = [] ∨ requestKey operator q ∉ valueKeys host.frames
                ∧ valueKeys new = [requestKey operator q] := by
              rcases hkeys with hnil | ⟨k, hk, hone⟩
              · exact Or.inl hnil
              · have hcoherent : (⟨host.frames, service⟩ : Desk).service.key = key :=
                  hservice.sameKey
                obtain ⟨hin, hkey⟩ := hapart.request_known hcoherent hrequest
                refine Or.inr ⟨?_, hkey k hk ▸ hone⟩
                intro hmem
                have hsame := hin hmem
                rw [← hnew] at hsame
                have hnil : new = [] := by simpa using hsame
                rw [hnil] at hone
                cases hone
            have happended := @RequestRecorded.append _ _ _ _ new _ h (by
              rw [hcount]
              rcases hfresh with hnil | ⟨hnot, hone⟩
              · rw [hnil]
                exact honce
              · rw [hone, List.count_eq_zero.mpr hnot]
                simp)
            rw [if_pos hyes, hvalues, hstep, ← hnew, filter_valueOperation hlog ?_]
            · exact happended
            · intro k hk
              rcases hfresh with hnil | ⟨-, hone⟩
              · rw [hnil] at hk
                cases hk
              · rw [hone] at hk
                exact List.mem_singleton.mp hk
          · -- another operation has another key
            have hother : requestKey operator q ∉ valueKeys new := by
              intro hmem
              rcases hkeys with hnil | ⟨k, hk, hone⟩
              · rw [hnil] at hmem
                cases hmem
              · rw [hone] at hmem
                obtain rfl := List.mem_singleton.mp hmem
                exact hrequest (hapart.request_of_valueKey hk)
            have happended := @RequestRecorded.append _ _ _ _ new _ h (by
              rw [hcount, List.count_eq_zero.mpr hother]
              exact honce)
            rw [entriesOf_eq_nil hother, List.append_nil] at happended
            rw [hstep, ← hnew]
            have hno : (HostEvent.perform i env op).request ≠ some q := hrequest
            rw [if_neg hno]
            exact happended

omit [Postcard] in
theorem apart_of_mem {events : List HostEvent} (hidentity : OneIdentity operator events)
    (hnonces : NoncesApart operator events) {e : HostEvent} (he : e ∈ events)
    (hq : e.request = some q) {event : HostEvent} (hevent : event ∈ events) :
    Apart operator q event where
  identity := by
    intro i env op heq
    exact hidentity i env op (heq ▸ hevent)
  request := by
    intro q' hq' hsame
    exact hnonces.requests event hevent e he q' q hq' hq hsame
  operators := by
    intro i env op heq
    exact hnonces.operators e he i env op (heq ▸ hevent) q hq

/-- A run appends for a request what the log then holds under its key. -/
theorem run_recorded {events : List HostEvent} (hidentity : OneIdentity operator events)
    (hnonces : NoncesApart operator events) {e : HostEvent} (he : e ∈ events)
    (hq : e.request = some q) (done : List HostEvent) (hdone : done ⊆ events) :
    RequestRecorded operator q (Host.run key done).frames (appendedFor key q done) := by
  induction done using List.reverseRecOn with
  | nil => exact ⟨rfl, Nat.zero_le _⟩
  | append_singleton done event ih =>
      have hevent : event ∈ events := hdone (by simp)
      have hrecorded := ih fun x hx => hdone (List.mem_append_left _ hx)
      have hstep := hrecorded.step (run_hostSound done)
        (apart_of_mem hidentity hnonces he hq hevent)
      have happended : appendedFor key q (done ++ [event]) = if event.request = some q then
          appendedFor key q done ++ (Host.run key done).newValues key event
          else appendedFor key q done := by
        rw [appendedFor, Host.runFor, List.foldl_append, ← runFor_fst key q done]
        rfl
      rw [happended, Host.run, List.foldl_append]
      exact hstep

theorem request_of_appended {events : List HostEvent} {s : SignedEntry}
    (hs : s ∈ appendedFor key q events) : ∃ e ∈ events, e.request = some q := by
  induction events using List.reverseRecOn with
  | nil => cases hs
  | append_singleton events event ih =>
      by_cases hq : event.request = some q
      · exact ⟨event, by simp, hq⟩
      · rw [appendedFor, Host.runFor, List.foldl_append, List.foldl_cons, List.foldl_nil,
          if_neg hq] at hs
        obtain ⟨e, he, hrequest⟩ := ih hs
        exact ⟨e, List.mem_append_left _ he, hrequest⟩

/-- What a retry is answered, given the entry its request was recorded by. -/
theorem retried {frames : List SignedEntry} {service : LedgerService} {s : SignedEntry}
    (hlog : LogSound key frames) (hservice : Coherent key service) (hs : s ∈ frames)
    (hkey : s.valueKey = some (requestKey operator q))
    (honce : (valueKeys frames).count (requestKey operator q) ≤ 1) {env : TxEnv}
    (hoperator : env.operator = none ∨ env.operator = some operator)
    (direction : ValueDirection) (account : NodeId) (kind : ChildKind) (amount : Amount)
    (now : UInt64) :
    Retried operator ⟨frames, service⟩ s env direction account amount
      (exec (adminValueApply env direction account kind amount q.1 q.2 now)
        ⟨frames, service⟩) := by
  have hknown : requestKey operator q ∈ valueKeys frames :=
    List.mem_filterMap.mpr ⟨s, hs, hkey⟩
  have hcoherent : (⟨frames, service⟩ : Desk).service.key = key := hservice.sameKey
  obtain ⟨hframes, hanswer⟩ :=
    adminValueApply_known hcoherent hoperator hknown direction account kind amount now
  -- the index names the entry: no other one has its key
  have hprior : Available env operator → amount ≠ 0 → ∃ began prior, Records s prior
      ∧ exec (adminValueApply env direction account kind amount q.1 q.2 now) ⟨frames, service⟩
        = (answerValue prior direction account amount (began.service.balanceOf account),
          began) := by
    intro havailable hamount
    obtain ⟨began, hbegin⟩ := @beginTransaction_exists _ _ _ _ ⟨frames, service⟩ hlog
      hcoherent havailable.locked havailable.readable
    obtain ⟨prior, hget, houtcome⟩ := hanswer began hbegin havailable.identity hamount
    obtain ⟨first, hfirst, hrecords⟩ :=
      ((beginTransaction_indexes hservice.sameKey hbegin).2 rfl).first _ prior hget
    obtain rfl := hfirst.unique hs hkey honce
    exact ⟨began, prior, hrecords, houtcome⟩
  refine ⟨hframes, ?_, ?_⟩
  · intro havailable hoperation
    obtain ⟨hamount, auth, hauth⟩ := operation_of_mem hlog hs hoperation
    obtain ⟨began, prior, hrecords, houtcome⟩ := hprior havailable hamount
    obtain ⟨hdirection, haccount, hvalue⟩ : prior.direction = direction
        ∧ prior.account = account ∧ prior.amount = amount := by
      have hsame := hrecords.operation.symm.trans hoperation
      simpa using hsame
    have horder := hrecords.order
    rw [hauth, Option.map_some, Option.some.injEq] at horder
    refine ⟨prior.entryHash, auth, hrecords.hash, hauth, ?_⟩
    rw [houtcome, answerValue, if_pos ⟨hdirection, haccount, hvalue⟩, hrecords.seq, horder]
  · intro havailable hoperation
    by_cases hamount : amount = 0
    · rw [if_pos hamount]
      simp only [adminValueApply, exec_bind, exec_refuseIf, if_pos hamount]
    · obtain ⟨began, prior, hrecords, houtcome⟩ := hprior havailable hamount
      rw [houtcome, answerValue, if_neg hamount, if_neg ?_]
      intro hsame
      obtain ⟨rfl, rfl, rfl⟩ := hsame
      exact hoperation hrecords.operation

/-- Delegated value operations are idempotent: in every run, a request appends one entry at most,
and once it did, a retry by any process appends nothing and is answered with that entry or
refused. -/
theorem value_requests_idempotent (key : LedgerSecretKey) (operator : OperatorSecretKey)
    (events : List HostEvent) (hidentity : OneIdentity operator events)
    (hnonces : NoncesApart operator events) (q : ValueRequest) :
    (appendedFor key q events).length ≤ 1
      ∧ ∀ s ∈ appendedFor key q events, ∀ i service,
        (Host.run key events).procs i = some service → ∀ env,
        env.operator = none ∨ env.operator = some operator →
        ∀ direction account kind amount now,
          Retried operator ⟨(Host.run key events).frames, service⟩ s env direction account amount
            (exec (adminValueApply env direction account kind amount q.1 q.2 now)
              ⟨(Host.run key events).frames, service⟩) := by
  by_cases hrequest : ∃ e ∈ events, e.request = some q
  · obtain ⟨e, he, hq⟩ := hrequest
    have hrecorded : RequestRecorded operator q (Host.run key events).frames
        (appendedFor key q events) :=
      run_recorded hidentity hnonces he hq events fun _ => id
    have hsound : HostSound key (Host.run key events) := run_hostSound events
    refine ⟨?_, ?_⟩
    · rw [hrecorded.entries, length_entriesOf]
      exact hrecorded.once
    · intro s hs i service hservice env hoperator direction account kind amount now
      rw [hrecorded.entries] at hs
      obtain ⟨hmem, hkey⟩ := List.mem_filter.mp hs
      exact retried hsound.log (hsound.procs i service hservice) hmem (of_decide_eq_true hkey)
        hrecorded.once hoperator direction account kind amount now
  · have hnone : ∀ s, s ∉ appendedFor key q events := fun s hs =>
      hrequest (request_of_appended hs)
    rw [List.eq_nil_iff_forall_not_mem.mpr hnone]
    exact ⟨Nat.zero_le _, fun s hs => by cases hs⟩

end Runs

end Requests

/-! ## A request of one unit -/

namespace Concrete

/-- Nothing fails; the identity of the node is 1. -/
def diskOk : TxEnv where
  locked := true
  readable := true
  isRoot := true
  peers := some PeerRegistry.new
  operator := some (1 : ℕ)
  writeError := fun _ => none
  clock := 100

def valueRequest : ValueRequest := ((7 : ℕ), Vector.replicate 16 3)

/-- A process starts and issues five units for the request. -/
def issueRun : List HostEvent :=
  [.start 0 diskOk "n",
    .perform 0 diskOk (.adminValueApply .issue "u" .user 5 valueRequest.1 valueRequest.2 150)]

theorem issueRun_perform {i : ℕ} {env : TxEnv} {op : Operation}
    (h : HostEvent.perform i env op ∈ issueRun) : env = diskOk
      ∧ op = .adminValueApply .issue "u" .user 5 valueRequest.1 valueRequest.2 150 := by
  simp only [issueRun, List.mem_cons, List.not_mem_nil, or_false] at h
  rcases h with h | h
  · cases h
  · injection h with _ henv hop
    exact ⟨henv, hop⟩

theorem issueRun_request {e : HostEvent} (he : e ∈ issueRun) {q : ValueRequest}
    (hq : e.request = some q) : q = valueRequest := by
  cases e with
  | perform i env op =>
      obtain ⟨-, rfl⟩ := issueRun_perform he
      exact (Option.some.inj hq).symm
  | start => cases hq
  | stop => cases hq

theorem issueRun_identity : OneIdentity (1 : ℕ) issueRun := by
  intro i env op h
  rw [(issueRun_perform h).1]
  exact Or.inr rfl

theorem issueRun_apart : NoncesApart (1 : ℕ) issueRun where
  requests := by
    intro e he e' he' q q' hq hq' _
    rw [issueRun_request he hq, issueRun_request he' hq']
  operators := by
    intro e he i env op h q hq hcli
    rw [(issueRun_perform h).2] at hcli
    cases hcli

theorem issueRun_appended : (appendedFor (9 : ℕ) valueRequest issueRun).length = 1 := by
  decide +kernel

theorem issueRun_open : ((Host.run (9 : ℕ) issueRun).procs 0).isSome = true := by
  decide +kernel

end Concrete

section Concrete

open Concrete

theorem value_requests_idempotent_issued : ∃ s service,
    appendedFor (9 : ℕ) valueRequest issueRun = [s]
      ∧ (Host.run (9 : ℕ) issueRun).procs 0 = some service
      ∧ ∀ direction account kind amount now,
        Retried (1 : ℕ) ⟨(Host.run (9 : ℕ) issueRun).frames, service⟩ s diskOk direction account
          amount (exec (adminValueApply diskOk direction account kind amount valueRequest.1
            valueRequest.2 now) ⟨(Host.run (9 : ℕ) issueRun).frames, service⟩) := by
  obtain ⟨s, hs⟩ := List.length_eq_one_iff.mp issueRun_appended
  obtain ⟨service, hservice⟩ := Option.isSome_iff_exists.mp issueRun_open
  obtain ⟨-, hretry⟩ := value_requests_idempotent (9 : ℕ) (1 : ℕ) issueRun issueRun_identity
    issueRun_apart valueRequest
  exact ⟨s, service, hs, hservice,
    hretry s (by rw [hs]; exact List.mem_singleton_self s) 0 service hservice diskOk (Or.inr rfl)⟩

/-- A retry with another amount is not always a conflict: the amount zero is refused before the
request id is looked at. -/
theorem zero_retry_no_conflict : ¬ ∀ (events : List HostEvent) (q : ValueRequest),
    OneIdentity (1 : ℕ) events → NoncesApart (1 : ℕ) events →
    ∀ s ∈ appendedFor (9 : ℕ) q events, ∀ i service,
      (Host.run (9 : ℕ) events).procs i = some service → ∀ env, Available env (1 : ℕ) →
      ∀ direction account kind amount now,
        valueOperation s.entry.body ≠ some (direction, account, amount) →
        (exec (adminValueApply env direction account kind amount q.1 q.2 now)
          ⟨(Host.run (9 : ℕ) events).frames, service⟩).1 = .error .requestIdConflict := by
  intro h
  obtain ⟨s, hs⟩ := List.length_eq_one_iff.mp issueRun_appended
  obtain ⟨service, hservice⟩ := Option.isSome_iff_exists.mp issueRun_open
  have hoperation : (appendedFor (9 : ℕ) valueRequest issueRun).map
      (fun s => valueOperation s.entry.body) = [some (.issue, "u", 5)] := by decide +kernel
  rw [hs, List.map_singleton, List.singleton_inj] at hoperation
  have hconflict := h issueRun valueRequest issueRun_identity issueRun_apart s
    (by rw [hs]; exact List.mem_singleton_self s) 0 service hservice diskOk ⟨rfl, rfl, rfl⟩
    .issue "u" .user 0 160 (by rw [hoperation]; decide)
  simp only [adminValueApply, exec_bind, exec_refuseIf, if_pos] at hconflict
  cases hconflict

end Concrete

end Cawala
