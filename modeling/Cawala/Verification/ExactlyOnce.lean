import Cawala.Verification.LedgerService

/-! # Runs of the processes of a node

Processes share one data directory and die and restart at any point between transactions.
Every interleaving of their operations executes each payment once. -/

namespace Cawala

open Library Library.Transaction

variable [Crypto]

/-- A mutating operation of the ledger service, with its arguments. -/
inductive Operation where
  | ensureAccountOpen (child : NodeId) (kind : ChildKind)
  | fund (to_ : NodeId) (kind : ChildKind) (amount : Amount) (operator : OperatorSecretKey)
      (nonce now : UInt64)
  | burn (from_ : NodeId) (amount : Amount) (operator : OperatorSecretKey) (nonce now : UInt64)
  | adminValueApply (direction : ValueDirection) (account : NodeId) (kind : ChildKind)
      (amount : Amount) (controller : OperatorPubKey) (requestId : Vector UInt8 16)
      (now : UInt64)
  | prefund (child : NodeId) (kind : ChildKind) (amount : Amount) (operator : OperatorSecretKey)
      (nonce now : UInt64)
  | edgeClose (operator : OperatorSecretKey) (nonce now : UInt64)
  | applyOrder (order : PaymentOrder) (auth : AuthRef) (sender : NodeId) (record : NodeRecord)
      (now : UInt64)
  | applyHop (order : PaymentOrder) (auth : AuthRef) (role : HopRole)
      (first second : AccountRef) (registry : PeerRegistry) (now : UInt64)

/-- The operations that refuse a zero amount before they take the lock. -/
def Operation.Admitted : Operation → Prop
  | .fund _ _ amount .. | .burn _ amount .. | .adminValueApply _ _ _ amount ..
  | .prefund _ _ amount .. => amount ≠ 0
  | _ => True

variable [Postcard]

def Operation.perform (env : TxEnv) (desk : Desk) : Operation → Desk
  | .ensureAccountOpen child kind =>
      ((Cawala.ensureAccountOpen env child kind).exec desk).2
  | .fund to_ kind amount operator nonce now =>
      ((Cawala.fund env to_ kind amount operator nonce now).exec desk).2
  | .burn from_ amount operator nonce now =>
      ((Cawala.burn env from_ amount operator nonce now).exec desk).2
  | .adminValueApply direction account kind amount controller requestId now =>
      ((Cawala.adminValueApply env direction account kind amount controller requestId now).exec
        desk).2
  | .prefund child kind amount operator nonce now =>
      ((Cawala.prefund env child kind amount operator nonce now).exec desk).2
  | .edgeClose operator nonce now => ((Cawala.edgeClose env operator nonce now).exec desk).2
  | .applyOrder order auth sender record now =>
      (Cawala.applyOrder env order auth sender record now desk).2
  | .applyHop order auth role first second registry now =>
      (Cawala.applyHop env order auth role first second registry now desk).2

/-- The frame log of a data directory and the processes that have it open. -/
structure Host where
  frames : List SignedEntry
  procs : ℕ → Option LedgerService

/-- What can happen on a host: a process starts, stops, or runs one operation. -/
inductive HostEvent where
  | start (i : ℕ) (env : TxEnv) (nodeId : NodeId)
  | stop (i : ℕ)
  | perform (i : ℕ) (env : TxEnv) (op : Operation)

/-- One event; a process that cannot open the ledger does not start. -/
def Host.step (key : LedgerSecretKey) (host : Host) : HostEvent → Host
  | .start i env nodeId =>
      match LedgerService.open_ env nodeId key host.frames with
      | .ok s => { host with procs := Function.update host.procs i (some s) }
      | .error _ => host
  | .stop i => { host with procs := Function.update host.procs i none }
  | .perform i env op =>
      match host.procs i with
      | some s =>
          let after := op.perform env ⟨host.frames, s⟩
          { frames := after.frames, procs := Function.update host.procs i (some after.service) }
      | none => host

/-- A run from an empty data directory. -/
def Host.run (key : LedgerSecretKey) (events : List HostEvent) : Host :=
  events.foldl (Host.step key) ⟨[], fun _ => none⟩

structure HostSound (key : LedgerSecretKey) (host : Host) : Prop where
  log : LogSound key host.frames
  procs : ∀ i s, host.procs i = some s → Coherent key s

/-! ## One operation -/

section Answers

variable {key : LedgerSecretKey} {env : TxEnv} {desk : Desk} {α : Type} {body : Tx α}
  {R : Desk → α → Desk → Prop}

/-- A body that answers from a synced desk, or fails without effect. -/
def Answers (key : LedgerSecretKey) (body : Tx α) (R : Desk → α → Desk → Prop) : Prop :=
  ∀ base began, Synced key base began → Meets (· = began) body
    (fun result after => Synced key base after ∧ R began result after)
    (fun _ after => after = began)

theorem Answers.refuseIf {c : Prop} [Decidable c] {e : ServiceError} (h : Answers key body R) :
    Answers key (refuseIf c e >>= fun _ => body) R := by
  intro base began hbegan
  refine Meets.bind (Meets.refuseIf fun _ hs _ => hs) fun _ => ?_
  exact (h base began hbegan).mono (fun _ h => h.1) (fun _ _ => id) (fun _ _ => id)

theorem Answers.transacts (h : Answers key body R) :
    Transacts key env True (beginTransaction env >>= fun _ => body) := by
  refine transacts_of_keeps fun base => Meets.pointwise fun began hbegan => ?_
  refine (h base began hbegan).mono (fun _ => id) (fun _ _ h => h.1) ?_
  intro e after hafter
  exact hafter ▸ hbegan

/-- An answer is given on the refreshed desk; a failure leaves the desk as refreshed. -/
theorem Answers.meets (h : Answers key body R) (hlog : LogSound key desk.frames)
    (hkey : desk.service.key = key) :
    Meets (· = desk) (beginTransaction env >>= fun _ => body)
      (fun result after => ∃ began, exec (beginTransaction env) desk = (.ok ⟨⟩, began)
        ∧ Synced key desk.frames began ∧ began.frames = desk.frames ∧ R began result after)
      (fun _ after => after = (exec (beginTransaction env) desk).2) := by
  intro s hs
  subst hs
  have hspec := beginTransaction_meets env hlog hkey s rfl
  rw [exec_bind]
  cases hbegin : exec (beginTransaction env) s with
  | mk r began =>
      rw [hbegin] at hspec
      cases r with
      | error e => rfl
      | ok _ =>
          have hbody := h s.frames began hspec.1 began rfl
          dsimp only
          cases hexec : exec body began with
          | mk r after =>
              rw [hexec] at hbody
              cases r with
              | ok result => exact ⟨began, rfl, hspec.1, hspec.2.1, hbody.2⟩
              | error e => exact hbody

end Answers

section Orders

variable {key : LedgerSecretKey} {env : TxEnv} {α : Type} {order : PaymentOrder}
  {auth : AuthRef} {now : UInt64}

/-- What a whole order or hop transaction does. -/
structure Answering (key : LedgerSecretKey) (env : TxEnv) (x : Tx α)
    (R : Desk → α → Desk → Prop) : Prop where
  transacts : Transacts key env True x
  meets : ∀ desk, LogSound key desk.frames → desk.service.key = key → Meets (· = desk) x
    (fun result after => ∃ began, exec (beginTransaction env) desk = (.ok ⟨⟩, began)
      ∧ Synced key desk.frames began ∧ began.frames = desk.frames ∧ R began result after)
    (fun _ after => after = (exec (beginTransaction env) desk).2)

theorem applyOrderTx_answering {sender : NodeId} {record : NodeRecord} :
    Answering key env (applyOrderTx env order auth sender record now)
      (Answered order auth .direct (.child order.from_) (.child order.to_)
        (·.effectiveRegistry env) now) :=
  ⟨(Answers.refuseIf (Answers.refuseIf fun _ _ h => transferOnce_meets h)).transacts,
    fun _ => (Answers.refuseIf (Answers.refuseIf fun _ _ h => transferOnce_meets h)).meets⟩

theorem applyHopTx_answering {role : HopRole} {first second : AccountRef}
    {registry : PeerRegistry} :
    Answering key env (applyHopTx env order auth role first second registry now)
      (Answered order auth role first second (fun _ => .ok registry) now) :=
  ⟨(Answers.refuseIf fun _ _ h => transferOnce_meets h).transacts,
    fun _ => (Answers.refuseIf fun _ _ h => transferOnce_meets h).meets⟩

/-- The entry a duplicate answer names: the first one of the payment. -/
def NamesFirst (frames : List SignedEntry) (paymentId : Hash) (seq : UInt64) (hash : Hash) :
    Prop :=
  ∃ s, FirstTransfer frames paymentId s ∧ s.entry.seq = seq ∧ entryHash s.entry = .ok hash

/-- A replay answers with the first entry of the payment, on the refreshed desk. -/
theorem Answered.duplicate {base : List SignedEntry} {began after : Desk} {role : HopRole}
    {first second : AccountRef} {registry : LedgerService → Except ServiceError PeerRegistry}
    {seq : UInt64} {hash : Hash} (hbegan : Synced key base began)
    (h : Answered order auth role first second registry now began (false, seq, hash) after) :
    after = began ∧ NamesFirst began.frames order.hash seq hash :=
  ⟨h.1, hbegan.guards.first _ _ _ h.2⟩

end Orders

/-! ## Every operation -/

/-- What one operation of a process does, from a desk whose log is sound. -/
structure Performed (key : LedgerSecretKey) (env : TxEnv) (desk : Desk) : Prop where
  concluded : ∀ op : Operation, Concluded key env op.Admitted desk (op.perform env desk)
  coherent : ∀ op : Operation, Coherent key (op.perform env desk).service
  orderDuplicate : ∀ order auth sender record now,
    (applyOrder env order auth sender record now desk).1.status = .duplicate →
      (applyOrder env order auth sender record now desk).2.frames = desk.frames
      ∧ ∃ seq hash, NamesFirst desk.frames order.hash seq hash
        ∧ (applyOrder env order auth sender record now desk).1.entrySeq = some seq
        ∧ (applyOrder env order auth sender record now desk).1.entryHash = some hash
  orderRejected : ∀ order auth sender record now,
    (applyOrder env order auth sender record now desk).1.status = .rejected →
      (applyOrder env order auth sender record now desk).2
        = (exec (beginTransaction env) desk).2
  hopDuplicate : ∀ order auth role first second registry now seq hash,
    (applyHop env order auth role first second registry now desk).1 = .duplicate seq hash →
      (applyHop env order auth role first second registry now desk).2.frames = desk.frames
      ∧ NamesFirst desk.frames order.hash seq hash
  hopRejected : ∀ order auth role first second registry now reason,
    (applyHop env order auth role first second registry now desk).1 = .rejected reason →
      (applyHop env order auth role first second registry now desk).2
        = (exec (beginTransaction env) desk).2

section Performed

variable {key : LedgerSecretKey} {env : TxEnv} {desk : Desk}

theorem Transacts.exec {α : Type} {c : Prop} {x : Tx α} (h : Transacts key env c x)
    (hlog : LogSound key desk.frames) (hkey : desk.service.key = key) :
    Concluded key env c desk (Transaction.exec x desk).2 := by
  have hmeets := h desk hlog hkey desk rfl
  cases hexec : Transaction.exec x desk with
  | mk r after =>
      rw [hexec] at hmeets
      cases r with
      | ok a => exact hmeets
      | error e => exact hmeets

theorem applyOrder_desk {order : PaymentOrder} {auth : AuthRef} {sender : NodeId}
    {record : NodeRecord} {now : UInt64} :
    (applyOrder env order auth sender record now desk).2
      = (exec (applyOrderTx env order auth sender record now) desk).2 := by
  unfold applyOrder
  rcases exec (applyOrderTx env order auth sender record now) desk with ⟨_ | _, after⟩ <;> rfl

theorem applyHop_desk {order : PaymentOrder} {auth : AuthRef} {role : HopRole}
    {first second : AccountRef} {registry : PeerRegistry} {now : UInt64} :
    (applyHop env order auth role first second registry now desk).2
      = (exec (applyHopTx env order auth role first second registry now) desk).2 := by
  unfold applyHop
  rcases exec (applyHopTx env order auth role first second registry now) desk
    with ⟨_ | ⟨_ | _, _⟩, after⟩ <;> rfl

variable (env) in
theorem applyOrder_cases (order : PaymentOrder) (auth : AuthRef) (sender : NodeId)
    (record : NodeRecord) (now : UInt64) (hlog : LogSound key desk.frames)
    (hkey : desk.service.key = key) :
    (∃ reason, applyOrder env order auth sender record now desk
      = (.rejected reason, (exec (beginTransaction env) desk).2))
    ∨ ∃ fresh seq hash began after, applyOrder env order auth sender record now desk
        = ({ status := if fresh then .applied else .duplicate, entrySeq := some seq
             entryHash := some hash, reason := none }, after)
      ∧ exec (beginTransaction env) desk = (.ok ⟨⟩, began) ∧ Synced key desk.frames began
      ∧ began.frames = desk.frames
      ∧ Answered order auth .direct (.child order.from_) (.child order.to_)
          (·.effectiveRegistry env) now began (fresh, seq, hash) after := by
  have hmeets : Meets (· = desk) (applyOrderTx env order auth sender record now) _ _ :=
    applyOrderTx_answering.meets desk hlog hkey
  have hexec := hmeets desk rfl
  unfold applyOrder
  cases h : exec (applyOrderTx env order auth sender record now) desk with
  | mk r after =>
      rw [h] at hexec
      cases r with
      | error e => exact Or.inl ⟨e.orderReject, by rw [hexec]⟩
      | ok result =>
          obtain ⟨began, hbegan⟩ := hexec
          exact Or.inr ⟨result.1, result.2.1, result.2.2, began, after, rfl, hbegan⟩

variable (env) in
theorem applyHop_cases (order : PaymentOrder) (auth : AuthRef) (role : HopRole)
    (first second : AccountRef) (registry : PeerRegistry) (now : UInt64)
    (hlog : LogSound key desk.frames) (hkey : desk.service.key = key) :
    (∃ reason, applyHop env order auth role first second registry now desk
      = (.rejected reason, (exec (beginTransaction env) desk).2))
    ∨ ∃ fresh seq hash began after, applyHop env order auth role first second registry now desk
        = (if fresh then .applied seq hash else .duplicate seq hash, after)
      ∧ exec (beginTransaction env) desk = (.ok ⟨⟩, began) ∧ Synced key desk.frames began
      ∧ began.frames = desk.frames
      ∧ Answered order auth role first second (fun _ => .ok registry) now began
          (fresh, seq, hash) after := by
  have hmeets : Meets (· = desk)
      (applyHopTx env order auth role first second registry now) _ _ :=
    applyHopTx_answering.meets desk hlog hkey
  have hexec := hmeets desk rfl
  unfold applyHop
  cases h : exec (applyHopTx env order auth role first second registry now) desk with
  | mk r after =>
      rw [h] at hexec
      cases r with
      | error e => exact Or.inl ⟨e.orderReject, by rw [hexec]⟩
      | ok result =>
          obtain ⟨fresh, seq, hash⟩ := result
          obtain ⟨began, hbegan⟩ := hexec
          refine Or.inr ⟨fresh, seq, hash, began, after, ?_, hbegan⟩
          cases fresh <;> rfl

theorem perform_concluded (op : Operation) (hlog : LogSound key desk.frames)
    (hkey : desk.service.key = key) :
    Concluded key env op.Admitted desk (op.perform env desk) := by
  cases op with
  | ensureAccountOpen child kind => exact ensureAccountOpen_transacts.exec hlog hkey
  | fund to_ kind amount operator nonce now => exact fund_transacts.exec hlog hkey
  | burn from_ amount operator nonce now => exact burn_transacts.exec hlog hkey
  | adminValueApply direction account kind amount controller requestId now =>
      exact adminValueApply_transacts.exec hlog hkey
  | prefund child kind amount operator nonce now => exact prefund_transacts.exec hlog hkey
  | edgeClose operator nonce now => exact edgeClose_transacts.exec hlog hkey
  | applyOrder order auth sender record now =>
      rw [Operation.perform, applyOrder_desk]
      exact applyOrderTx_answering.transacts.exec hlog hkey
  | applyHop order auth role first second registry now =>
      rw [Operation.perform, applyHop_desk]
      exact applyHopTx_answering.transacts.exec hlog hkey

theorem Concluded.coherent {c : Prop} {after : Desk} (h : Concluded key env c desk after)
    (hbefore : Coherent key desk.service) : Coherent key after.service := by
  cases h with
  | inl h => exact h.2.2.coherent
  | inr h => exact h.2 ▸ hbefore

theorem Concluded.logSound {c : Prop} {after : Desk} (h : Concluded key env c desk after)
    (hbefore : LogSound key desk.frames) : LogSound key after.frames := by
  cases h with
  | inl h => exact h.2.2.logSound
  | inr h => exact h.2 ▸ hbefore

variable (env) in
theorem performed (hlog : LogSound key desk.frames) (hservice : Coherent key desk.service) :
    Performed key env desk where
  concluded op := perform_concluded op hlog hservice.sameKey
  coherent op := (perform_concluded op hlog hservice.sameKey).coherent hservice
  orderDuplicate order auth sender record now hstatus := by
    cases applyOrder_cases env order auth sender record now hlog hservice.sameKey with
    | inl h =>
        obtain ⟨reason, h⟩ := h
        rw [h] at hstatus
        cases hstatus
    | inr h =>
        obtain ⟨fresh, seq, hash, began, after, h, -, hsynced, hframes, hanswer⟩ := h
        rw [h] at hstatus ⊢
        cases fresh with
        | true => cases hstatus
        | false =>
            obtain ⟨rfl, hfirst⟩ := hanswer.duplicate hsynced
            exact ⟨hframes, seq, hash, hframes ▸ hfirst, rfl, rfl⟩
  orderRejected order auth sender record now hstatus := by
    cases applyOrder_cases env order auth sender record now hlog hservice.sameKey with
    | inl h =>
        obtain ⟨reason, h⟩ := h
        rw [h]
    | inr h =>
        obtain ⟨fresh, seq, hash, began, after, h, -⟩ := h
        rw [h] at hstatus
        cases fresh <;> cases hstatus
  hopDuplicate order auth role first second registry now seq hash hstatus := by
    cases applyHop_cases env order auth role first second registry now hlog
      hservice.sameKey with
    | inl h =>
        obtain ⟨reason, h⟩ := h
        rw [h] at hstatus
        cases hstatus
    | inr h =>
        obtain ⟨fresh, seq', hash', began, after, h, -, hsynced, hframes, hanswer⟩ := h
        rw [h] at hstatus ⊢
        cases fresh with
        | true => cases hstatus
        | false =>
            cases hstatus
            obtain ⟨rfl, hfirst⟩ := hanswer.duplicate hsynced
            exact ⟨hframes, hframes ▸ hfirst⟩
  hopRejected order auth role first second registry now reason hstatus := by
    cases applyHop_cases env order auth role first second registry now hlog
      hservice.sameKey with
    | inl h =>
        obtain ⟨reason', h⟩ := h
        rw [h]
    | inr h =>
        obtain ⟨fresh, seq, hash, began, after, h, -⟩ := h
        rw [h] at hstatus
        cases fresh <;> cases hstatus

end Performed

/-! ## Runs -/

variable {key : LedgerSecretKey}

theorem open_coherent {env : TxEnv} {nodeId : NodeId} {frames : List SignedEntry}
    {s : LedgerService} (h : LedgerService.open_ env nodeId key frames = .ok s) :
    Coherent key s := by
  simp only [LedgerService.open_, bind_eq_ok, pure_eq_ok] at h
  obtain ⟨⟨ledger, consumed, valueIndex⟩, hload, rfl⟩ := h
  exact ⟨rfl, (load_eq_ok hload).2⟩

theorem HostSound.step {host : Host} (h : HostSound key host) (event : HostEvent) :
    HostSound key (host.step key event) := by
  have hupdate : ∀ {i : ℕ} {started : Option LedgerService},
      (∀ s, started = some s → Coherent key s) →
      ∀ j s, Function.update host.procs i started j = some s → Coherent key s := by
    intro i started hstarted j s hs
    by_cases hj : j = i
    · subst hj
      exact hstarted s (by simpa using hs)
    · exact h.procs j s (by simpa [hj] using hs)
  cases event with
  | start i env nodeId =>
      cases hopen : LedgerService.open_ env nodeId key host.frames with
      | error e => simpa only [Host.step, hopen] using h
      | ok s =>
          simp only [Host.step, hopen]
          exact ⟨h.log, hupdate fun t ht => Option.some.inj ht ▸ open_coherent hopen⟩
  | stop i => exact ⟨h.log, hupdate fun t ht => by cases ht⟩
  | perform i env op =>
      cases hproc : host.procs i with
      | none => simpa only [Host.step, hproc] using h
      | some s =>
          simp only [Host.step, hproc]
          have hbefore := h.procs i s hproc
          have hconcluded : Concluded key env op.Admitted ⟨host.frames, s⟩ _ :=
            perform_concluded op h.log hbefore.sameKey
          exact ⟨hconcluded.logSound h.log,
            hupdate fun t ht => Option.some.inj ht ▸ hconcluded.coherent hbefore⟩

theorem run_hostSound (events : List HostEvent) : HostSound key (Host.run key events) := by
  induction events using List.reverseRecOn with
  | nil => exact ⟨⟨⟨_, rfl⟩, List.nodup_nil⟩, fun i s hs => by cases hs⟩
  | append_singleton events event ih =>
      rw [Host.run, List.foldl_append]
      exact ih.step event

/-- Every interleaving of the operations of the processes of a node executes each payment at
most once, and keeps every replay guard equal to what its log rebuilds. -/
theorem exactly_once (key : LedgerSecretKey) (events : List HostEvent) :
    (payments (Host.run key events).frames).Nodup
    ∧ ∀ i s env, (Host.run key events).procs i = some s →
        Performed key env ⟨(Host.run key events).frames, s⟩ := by
  have h : HostSound key (Host.run key events) := run_hostSound events
  exact ⟨h.log.once, fun i s env hs => performed env h.log (h.procs i s hs)⟩

end Cawala
