import Cawala.Model.LedgerService
import Cawala.Verification.Auth
import Cawala.Verification.Ledger

/-! # Exactly-once execution

The replay guard in memory is what the log rebuilds, and no payment is in the log twice,
whatever transactions the processes of a node run. -/

namespace Cawala

open Std (ExtTreeMap)
open Library Library.Transaction

variable [Crypto]

/-! ## Replaying the log -/

def EntryBody.payment : EntryBody → Option Hash
  | .transfer paymentId .. => some paymentId
  | _ => none

def SignedEntry.payment (s : SignedEntry) : Option Hash := s.entry.body.payment

def payments (entries : List SignedEntry) : List Hash := entries.filterMap SignedEntry.payment

theorem payments_snoc (entries : List SignedEntry) (s : SignedEntry) :
    payments (entries ++ [s]) = payments entries ++ s.payment.toList := by
  rw [payments, List.filterMap_append]
  cases h : s.payment <;> simp [payments, h]

theorem tagged_eq_ok {α : Type} {tag : LedgerError → ServiceError} {x : Except LedgerError α}
    {a : α} : tagged tag x = .ok a ↔ x = .ok a := by
  cases x <;> simp [tagged]

variable [Postcard]

theorem parse_of_replay {key : LedgerPubKey} {frames : List SignedEntry} {l : Ledger}
    (h : frames.foldlM Ledger.append (Ledger.new key) = .ok l) :
    frames.foldlM parseFrame (0, Crypto.zero) = .ok (frames.length, l.log.head)
      ∧ l.log.entries = frames ∧ l.ledgerId = key ∧ l.ledgerPubkey = key := by
  refine foldlM_induction (P := fun done l =>
    done.foldlM parseFrame (0, Crypto.zero) = .ok (done.length, l.log.head)
      ∧ l.log.entries = done ∧ l.ledgerId = key ∧ l.ledgerPubkey = key) (d := []) ?_
    ⟨rfl, rfl, rfl, rfl⟩ h
  intro done s l l' hl happend
  obtain ⟨hparse, hentries, hid, hkey⟩ := hl
  have happ := append_spec happend
  refine ⟨?_, by rw [happ.entries, hentries], happ.sameId.trans hid, happ.sameKey.trans hkey⟩
  rw [List.foldlM_append, hparse]
  have hlen : l.len = done.length := by rw [Ledger.len, hentries]
  have hstep : parseFrame (done.length, l.log.head) s = .ok (done.length + 1, l'.log.head) := by
    unfold parseFrame
    rw [if_neg (by rw [happ.seq, hlen]; exact not_not.mpr rfl),
      if_neg (by rw [happ.prevHash]; exact not_not.mpr rfl), happ.head]
  simp [hstep, bind, Except.bind, pure, Except.pure]

theorem openLedger_eq_ok {key : LedgerSecretKey} {frames : List SignedEntry} {l : Ledger} :
    openLedger key frames = .ok l
      ↔ frames.foldlM Ledger.append (Ledger.new (Crypto.pubKey key)) = .ok l := by
  simp only [openLedger, bind_eq_ok, tagged_eq_ok]
  constructor
  · rintro ⟨_, -, h⟩
    exact h
  · intro h
    exact ⟨_, (parse_of_replay h).1, h⟩

theorem openLedger_snoc {key : LedgerSecretKey} {frames : List SignedEntry} {l l' : Ledger}
    {s : SignedEntry} (h : openLedger key frames = .ok l) (happend : l.append s = .ok l') :
    openLedger key (frames ++ [s]) = .ok l' := by
  rw [openLedger_eq_ok] at h ⊢
  rw [List.foldlM_append, h]
  simp [happend, bind, Except.bind, pure, Except.pure]

/-! ## The replay guard -/

structure FirstTransfer (entries : List SignedEntry) (paymentId : Hash) (s : SignedEntry) :
    Prop where
  split : ∃ before after, entries = before ++ s :: after ∧ paymentId ∉ payments before
  payment : s.payment = some paymentId

/-- What the replay guard says about a log. -/
structure Guards (entries : List SignedEntry) (consumed : ConsumedIndex) : Prop where
  mem : ∀ paymentId, paymentId ∈ consumed ↔ paymentId ∈ payments entries
  first : ∀ paymentId seq hash, consumed[paymentId]? = some (seq, hash) →
    ∃ s, FirstTransfer entries paymentId s ∧ s.entry.seq = seq ∧ entryHash s.entry = .ok hash

omit [Postcard] in
theorem FirstTransfer.snoc {entries : List SignedEntry} {paymentId : Hash} {s : SignedEntry}
    (h : FirstTransfer entries paymentId s) (s' : SignedEntry) :
    FirstTransfer (entries ++ [s']) paymentId s := by
  obtain ⟨before, after, rfl, hnot⟩ := h.split
  exact ⟨⟨before, after ++ [s'], by simp, hnot⟩, h.payment⟩

theorem consumeEntry_eq (consumed : ConsumedIndex) (s : SignedEntry) :
    consumeEntry consumed s = match s.payment with
      | none => .ok consumed
      | some paymentId => entryHash s.entry >>= fun hash =>
          pure (if consumed.contains paymentId then consumed
            else consumed.insert paymentId (s.entry.seq, hash)) := by
  unfold consumeEntry SignedEntry.payment EntryBody.payment
  cases s.entry.body <;> rfl

theorem consumeEntry_spec {consumed : ConsumedIndex} {s : SignedEntry} {next : ConsumedIndex}
    (h : consumeEntry consumed s = .ok next) :
    (s.payment = none ∧ next = consumed) ∨ ∃ paymentId hash, s.payment = some paymentId
      ∧ entryHash s.entry = .ok hash ∧ next = (if paymentId ∈ consumed then consumed
        else consumed.insert paymentId (s.entry.seq, hash)) := by
  rw [consumeEntry_eq] at h
  cases hpayment : s.payment with
  | none =>
      rw [hpayment, Except.ok.injEq] at h
      exact Or.inl ⟨rfl, h.symm⟩
  | some paymentId =>
      simp only [hpayment, bind_eq_ok, pure_eq_ok, ExtTreeMap.contains_iff_mem] at h
      obtain ⟨hash, hhash, rfl⟩ := h
      exact Or.inr ⟨paymentId, hash, rfl, hhash, rfl⟩

theorem guards_of_rebuild {entries : List SignedEntry} {consumed : ConsumedIndex}
    (h : entries.foldlM consumeEntry ∅ = .ok consumed) : Guards entries consumed := by
  refine foldlM_induction (P := Guards) (d := []) ?_ ⟨by simp [payments], by simp⟩ h
  intro done s consumed next hguards hstep
  have hmem := hguards.mem
  rcases consumeEntry_spec hstep with ⟨hnone, rfl⟩ | ⟨paymentId, hash, hsome, hhash, rfl⟩
  · refine ⟨?_, ?_⟩
    · intro id
      rw [payments_snoc, hnone, hmem]
      simp
    · intro id seq hash hid
      obtain ⟨s₀, hfirst, hrest⟩ := hguards.first id seq hash hid
      exact ⟨s₀, hfirst.snoc s, hrest⟩
  · by_cases hin : paymentId ∈ consumed
    · rw [if_pos hin]
      refine ⟨?_, ?_⟩
      · intro id
        rw [payments_snoc, hsome, hmem]
        simp only [Option.toList_some, List.mem_append, List.mem_singleton]
        constructor
        · exact Or.inl
        · rintro (hid | rfl)
          · exact hid
          · exact (hmem _).mp hin
      · intro id seq hash hid
        obtain ⟨s₀, hfirst, hrest⟩ := hguards.first id seq hash hid
        exact ⟨s₀, hfirst.snoc s, hrest⟩
    · rw [if_neg hin]
      refine ⟨?_, ?_⟩
      · intro id
        rw [payments_snoc, hsome, ExtTreeMap.mem_insert, hmem]
        simp only [compare_eq_iff_eq, Option.toList_some, List.mem_append, List.mem_singleton]
        tauto
      · intro id seq hash' hid
        rw [ExtTreeMap.getElem?_insert] at hid
        split at hid
        next heq =>
          rw [compare_eq_iff_eq] at heq
          subst heq
          simp only [Option.some.injEq, Prod.mk.injEq] at hid
          obtain ⟨rfl, rfl⟩ := hid
          exact ⟨s, ⟨⟨done, [], rfl, fun hp => hin ((hmem _).mpr hp)⟩, hsome⟩, rfl, hhash⟩
        next =>
          obtain ⟨s₀, hfirst, hrest⟩ := hguards.first id seq hash' hid
          exact ⟨s₀, hfirst.snoc s, hrest⟩

theorem rebuildConsumed_snoc {l l' : Ledger} {s : SignedEntry} {consumed : ConsumedIndex}
    (h : rebuildConsumed l = .ok consumed) (hentries : l'.log.entries = l.log.entries ++ [s]) :
    rebuildConsumed l' = consumeEntry consumed s := by
  unfold rebuildConsumed at h ⊢
  rw [hentries, List.foldlM_append, h]
  cases hstep : consumeEntry consumed s <;> simp [hstep, bind, Except.bind, pure, Except.pure]

/-! ## The invariant of a desk -/

/-- The log replays, and no payment is in it twice. -/
structure LogSound (key : LedgerSecretKey) (frames : List SignedEntry) : Prop where
  loads : ∃ l, openLedger key frames = .ok l
  once : (payments frames).Nodup

/-- The service in memory is the replay of the log on disk, which extends `base`. -/
structure Synced (key : LedgerSecretKey) (base : List SignedEntry) (desk : Desk) : Prop where
  sameKey : desk.service.key = key
  replayed : openLedger key desk.frames = .ok desk.service.ledger
  guard : rebuildConsumed desk.service.ledger = .ok desk.service.consumed
  once : (payments desk.frames).Nodup
  grown : base <+: desk.frames

/-- What holds of the service of a process between its transactions. -/
structure Coherent (key : LedgerSecretKey) (s : LedgerService) : Prop where
  sameKey : s.key = key
  guard : rebuildConsumed s.ledger = .ok s.consumed

variable {key : LedgerSecretKey} {base : List SignedEntry} {env : TxEnv} {desk : Desk}

theorem Synced.logSound (h : Synced key base desk) : LogSound key desk.frames :=
  ⟨⟨_, h.replayed⟩, h.once⟩

theorem Synced.coherent (h : Synced key base desk) : Coherent key desk.service :=
  ⟨h.sameKey, h.guard⟩

theorem Synced.entries (h : Synced key base desk) :
    desk.service.ledger.log.entries = desk.frames :=
  (parse_of_replay (openLedger_eq_ok.mp h.replayed)).2.1

theorem Synced.guards (h : Synced key base desk) : Guards desk.frames desk.service.consumed := by
  have hguards := guards_of_rebuild h.guard
  rwa [h.entries] at hguards

theorem load_eq_ok {frames : List SignedEntry} {ledger : Ledger} {consumed : ConsumedIndex}
    {valueIndex : ValueIndex} (h : load env key frames = .ok (ledger, consumed, valueIndex)) :
    openLedger key frames = .ok ledger ∧ rebuildConsumed ledger = .ok consumed := by
  simp only [load, ite_error_eq_ok, bind_eq_ok, tagged_eq_ok, pure_eq_ok, Prod.mk.injEq] at h
  obtain ⟨-, l, hl, c, hc, v, -, rfl, rfl, rfl⟩ := h
  exact ⟨hl, hc⟩

variable (env) in
theorem beginTransaction_meets (hlog : LogSound key desk.frames)
    (hkey : desk.service.key = key) :
    Meets (· = desk) (beginTransaction env)
      (fun _ after => Synced key desk.frames after ∧ after.frames = desk.frames
        ∧ after.service.nodeId = desk.service.nodeId)
      (fun _ after => after = desk) := by
  unfold beginTransaction
  refine Meets.bind (Meets.refuseIf fun _ hs _ => hs) fun _ => ?_
  unfold refreshFromDisk
  refine Meets.get_bind fun s hs => ?_
  obtain ⟨rfl, -⟩ := hs
  refine Meets.bind (Meets.ofExcept fun _ _ h => h.1.1) fun loaded => ?_
  intro s' hs'
  obtain ⟨⟨⟨rfl, -⟩, -⟩, hload⟩ := hs'
  rw [hkey] at hload
  obtain ⟨hopen, hrebuild⟩ := load_eq_ok hload
  exact ⟨⟨hkey, hopen, hrebuild, hlog.once, List.prefix_rfl⟩, rfl, rfl⟩

/-! ## Appending -/

/-- The desk after an append: the frame is on disk and the ledger in memory follows. -/
def Desk.push (desk : Desk) (signed : SignedEntry) (ledger : Ledger) : Desk :=
  { desk with frames := desk.frames ++ [signed], service := { desk.service with ledger } }

theorem appendSigned_meets (signed : SignedEntry) :
    Meets (· = desk) (appendSigned env signed)
      (fun _ after => ∃ ledger, desk.service.ledger.append signed = .ok ledger
        ∧ after = desk.push signed ledger)
      (fun _ after => after = desk) := by
  unfold appendSigned
  refine Meets.get_bind fun s hs => ?_
  obtain ⟨rfl, -⟩ := hs
  refine Meets.bind (Meets.ofExcept fun _ _ h => h.1) fun ledger => ?_
  refine Meets.bind (Meets.ofExcept fun _ _ h => h.1.1) fun _ => ?_
  intro s' hs'
  obtain ⟨⟨⟨rfl, -⟩, happend⟩, -⟩ := hs'
  exact ⟨ledger, tagged_eq_ok.mp happend, rfl⟩

structure Owes (key : LedgerSecretKey) (base : List SignedEntry) (paymentId : Hash)
    (applied : UInt64 × Hash) (desk : Desk) : Prop where
  sameKey : desk.service.key = key
  replayed : openLedger key desk.frames = .ok desk.service.ledger
  guard : rebuildConsumed desk.service.ledger
    = .ok (desk.service.consumed.insert paymentId applied)
  once : (payments desk.frames).Nodup
  grown : base <+: desk.frames

theorem consume_meets {paymentId : Hash} {applied : UInt64 × Hash}
    {E : ServiceError → Desk → Prop} :
    Meets (Owes key base paymentId applied) (consume paymentId applied)
      (fun _ => Synced key base) E := by
  intro desk h
  exact ⟨h.sameKey, h.replayed, h.guard, h.once, h.grown⟩

/-- An entry that is no transfer leaves the replay guard as it is. -/
theorem Synced.push {signed : SignedEntry} {ledger : Ledger} (h : Synced key base desk)
    (hnone : signed.payment = none) (happend : desk.service.ledger.append signed = .ok ledger) :
    Synced key base (desk.push signed ledger) := by
  refine ⟨h.sameKey, openLedger_snoc h.replayed happend, ?_, ?_, ?_⟩
  · have hrebuild := rebuildConsumed_snoc h.guard (append_spec happend).entries
    rw [consumeEntry_eq, hnone] at hrebuild
    exact hrebuild
  · rw [Desk.push, payments_snoc, hnone]
    simpa using h.once
  · exact h.grown.trans (List.prefix_append _ _)

/-- A transfer of a fresh payment is then owed to the replay guard. -/
theorem Synced.push_transfer {signed : SignedEntry} {ledger : Ledger} {paymentId hash : Hash}
    (h : Synced key base desk) (hsome : signed.payment = some paymentId)
    (hhash : entryHash signed.entry = .ok hash) (hfresh : paymentId ∉ payments desk.frames)
    (happend : desk.service.ledger.append signed = .ok ledger) :
    Owes key base paymentId (signed.entry.seq, hash) (desk.push signed ledger) := by
  have hnot : paymentId ∉ desk.service.consumed := fun hin =>
    hfresh ((h.guards.mem _).mp hin)
  refine ⟨h.sameKey, openLedger_snoc h.replayed happend, ?_, ?_, ?_⟩
  · have hrebuild := rebuildConsumed_snoc h.guard (append_spec happend).entries
    rw [consumeEntry_eq, hsome] at hrebuild
    change rebuildConsumed ledger = .ok (desk.service.consumed.insert paymentId _)
    simpa [hhash, hnot, bind, Except.bind, pure, Except.pure] using hrebuild
  · rw [Desk.push, payments_snoc, hsome]
    refine List.nodup_append.mpr ⟨h.once, List.nodup_singleton _, ?_⟩
    intro a ha b hb
    rw [List.mem_singleton.mp hb]
    rintro rfl
    exact hfresh ha
  · exact h.grown.trans (List.prefix_append _ _)

theorem sign_entry {entry : Entry} {signed : SignedEntry}
    (h : SignedEntry.sign entry key = .ok signed) : signed.entry = entry := by
  simp only [SignedEntry.sign, bind_eq_ok, pure_eq_ok] at h
  obtain ⟨bytes, -, rfl⟩ := h
  rfl

structure SignedAppend (env : TxEnv) (entry : Entry)
    (registry : LedgerService → Except ServiceError PeerRegistry)
    (verify : SignedEntry → PeerRegistry → Except LedgerError Unit) (before after : Desk)
    (applied : UInt64 × Hash) (signed : SignedEntry) : Prop where
  entry : signed.entry = entry
  verified : ∃ peers, registry before.service = .ok peers ∧ verify signed peers = .ok ()
  seq : applied.1 = signed.entry.seq
  hash : entryHash signed.entry = .ok applied.2
  pushed : ∃ ledger, before.service.ledger.append signed = .ok ledger
    ∧ after = before.push signed ledger

section SignAndAppend

variable {entry : Entry} {registry : LedgerService → Except ServiceError PeerRegistry}
  {verify : SignedEntry → PeerRegistry → Except LedgerError Unit}

/-- The spec lemma of `sign_and_append`: one verified entry, or no effect. -/
theorem signAndAppend_meets :
    Meets (· = desk) (signAndAppend env entry registry verify)
      (fun applied after => ∃ signed,
        SignedAppend env entry registry verify desk after applied signed)
      (fun _ after => after = desk) := by
  unfold signAndAppend
  refine Meets.get_bind fun s hs => ?_
  obtain ⟨rfl, -⟩ := hs
  refine Meets.bind (Meets.ofExcept fun _ _ h => h.1) fun signed => ?_
  refine Meets.bind (Meets.ofExcept fun _ _ h => h.1.1) fun peers => ?_
  refine Meets.bind (Meets.ofExcept fun _ _ h => h.1.1.1) fun _ => ?_
  refine Meets.bind (Meets.ofExcept fun _ _ h => h.1.1.1.1) fun hash => ?_
  refine Meets.pointwise fun s' hs' => ?_
  obtain ⟨⟨⟨⟨⟨rfl, -⟩, hsign⟩, hpeers⟩, hverify⟩, hhash⟩ := hs'
  have hentry := sign_entry (tagged_eq_ok.mp hsign)
  refine Meets.bind (appendSigned_meets signed) fun _ => Meets.pure ?_
  intro after hpushed
  exact ⟨signed, hentry, ⟨peers, hpeers, tagged_eq_ok.mp hverify⟩, by rw [hentry],
    tagged_eq_ok.mp hhash, hpushed⟩

theorem signAndAppend_keeps (hnone : entry.body.payment = none) :
    Keeps (Synced key base) (signAndAppend env entry registry verify) := by
  refine Meets.pointwise fun desk h => signAndAppend_meets.mono (fun _ => id) ?_ ?_
  · rintro applied after ⟨signed, happended⟩
    obtain ⟨ledger, happend, rfl⟩ := happended.pushed
    exact h.push (by rw [SignedEntry.payment, happended.entry, hnone]) happend
  · rintro e after rfl
    exact h

theorem signAndAppend_owes {paymentId : Hash} (hsome : entry.body.payment = some paymentId) :
    Meets (fun desk => Synced key base desk ∧ paymentId ∉ payments desk.frames)
      (signAndAppend env entry registry verify)
      (fun applied => Owes key base paymentId applied) (fun _ => Synced key base) := by
  refine Meets.pointwise fun desk h => signAndAppend_meets.mono (fun _ => id) ?_ ?_
  · rintro ⟨seq, hash⟩ after ⟨signed, happended⟩
    obtain ⟨ledger, happend, rfl⟩ := happended.pushed
    have hpayment : signed.payment = some paymentId := by
      rw [SignedEntry.payment, happended.entry, hsome]
    obtain rfl := happended.seq
    exact h.1.push_transfer hpayment happended.hash h.2 happend
  · rintro e after rfl
    exact h.1

end SignAndAppend

/-! ## The transactions -/

theorem ensureAccountOpenInner_meets {child : NodeId} {kind : ChildKind} {ids : List Hash} :
    Keeps (fun desk => Synced key base desk ∧ payments desk.frames = ids)
      (ensureAccountOpenInner env child kind) := by
  unfold ensureAccountOpenInner
  refine Meets.get_bind fun desk _ => ?_
  by_cases hopen : isOpened desk.service.ledger.balances (.child child) = true
  · rw [if_pos hopen]
    exact Meets.pure fun _ h => h.1
  · rw [if_neg hopen]
    refine Meets.bind (Meets.ofExcept fun _ _ h => h.1) fun signed => ?_
    refine Meets.pointwise fun s h => ?_
    have hsigned := sign_entry (tagged_eq_ok.mp h.2)
    have hnone : signed.payment = none := by
      rw [SignedEntry.payment, hsigned]
      rfl
    refine Meets.bind ((appendSigned_meets signed).mono (fun _ => id) (fun _ _ h' => h') ?_)
      fun _ => Meets.pure ?_
    · rintro e after rfl
      exact h.1.1
    · rintro after ⟨ledger, happend, rfl⟩
      refine ⟨h.1.1.1.push hnone happend, ?_⟩
      rw [Desk.push, payments_snoc, hnone, ← h.1.1.2]
      simp

theorem ensureAccountOpenInner_keeps {child : NodeId} {kind : ChildKind} :
    Keeps (Synced key base) (ensureAccountOpenInner env child kind) :=
  Meets.pointwise fun desk h => ensureAccountOpenInner_meets.mono
    (by rintro _ rfl; exact ⟨h, rfl⟩) (fun _ _ h => h.1) (fun _ _ h => h.1)

theorem applyIssue_keeps {account : NodeId} {amount : Amount} {operator : OperatorSecretKey}
    {nonce now : UInt64} :
    Keeps (Synced key base) (applyIssue env account amount operator nonce now) := by
  unfold applyIssue
  refine Keeps.bind Keeps.get fun desk => ?_
  refine Keeps.bind (Keeps.ofExcept _) fun delta => ?_
  exact Keeps.bind (signAndAppend_keeps rfl) fun _ => Keeps.pure _

theorem applyBurn_keeps {account : NodeId} {amount : Amount} {operator : OperatorSecretKey}
    {nonce now : UInt64} :
    Keeps (Synced key base) (applyBurn env account amount operator nonce now) := by
  unfold applyBurn
  refine Keeps.bind Keeps.get fun desk => ?_
  refine Keeps.bind (Keeps.refuseIf _ _) fun _ => ?_
  refine Keeps.bind (Keeps.ofExcept _) fun delta => ?_
  exact Keeps.bind (signAndAppend_keeps rfl) fun _ => Keeps.pure _

theorem recordValue_keeps {direction : ValueDirection} {account : NodeId} {amount : Amount}
    {operator : OperatorSecretKey} {nonce : UInt64} {applied : (UInt64 × Hash) × Hash} :
    Keeps (Synced key base) (recordValue direction account amount operator nonce applied) := by
  unfold recordValue
  intro desk h
  rw [exec_bind, exec_modify]
  exact ⟨h.sameKey, h.replayed, h.guard, h.once, h.grown⟩

/-- The lock is free and the log can be read. -/
def Began (env : TxEnv) (desk : Desk) : Prop :=
  ∃ began, exec (beginTransaction env) desk = (.ok ⟨⟩, began)

/-- The effect of a transaction that goes ahead under a condition: the service ends synced
with the log, and without the lock, the refresh or the condition nothing happens. -/
def Concluded (key : LedgerSecretKey) (env : TxEnv) (c : Prop) (desk after : Desk) : Prop :=
  (c ∧ Began env desk ∧ Synced key desk.frames after) ∨ (¬ (c ∧ Began env desk) ∧ after = desk)

def Transacts (key : LedgerSecretKey) (env : TxEnv) (c : Prop) {α : Type} (x : Tx α) : Prop :=
  ∀ desk, LogSound key desk.frames → desk.service.key = key →
    Meets (· = desk) x (fun _ => Concluded key env c desk) (fun _ => Concluded key env c desk)

/-- A transaction begins by locking and refreshing; its body keeps the log synced. -/
theorem transacts_of_keeps {α : Type} {body : Tx α}
    (hbody : ∀ base, Keeps (Synced key base) body) :
    Transacts key env True (beginTransaction env >>= fun _ => body) := by
  intro desk hlog hkey
  have hbegin : Meets (· = desk) (beginTransaction env)
      (fun _ after => Began env desk ∧ Synced key desk.frames after)
      (fun _ => Concluded key env True desk) := by
    intro s hs
    subst hs
    have hspec := beginTransaction_meets env hlog hkey s rfl
    cases h : exec (beginTransaction env) s with
    | mk r s' =>
        rw [h] at hspec
        cases r with
        | ok _ => exact ⟨⟨s', h⟩, hspec.1⟩
        | error e =>
            refine Or.inr ⟨?_, hspec⟩
            intro hbegan
            obtain ⟨-, d, hd⟩ := hbegan
            rw [h] at hd
            cases hd
  refine Meets.bind hbegin fun _ => Meets.pointwise fun s hs => ?_
  exact (hbody desk.frames).mono (fun t ht => ht ▸ hs.2) (fun _ _ h => Or.inl ⟨trivial, hs.1, h⟩)
    (fun _ _ h => Or.inl ⟨trivial, hs.1, h⟩)

theorem transacts_refuseIf {α : Type} {c : Prop} [Decidable c] {e : ServiceError} {x : Tx α}
    (hx : Transacts key env True x) :
    Transacts key env (¬ c) (refuseIf c e >>= fun _ => x) := by
  intro desk hlog hkey
  refine Meets.bind (Meets.refuseIf fun _ hs hc => Or.inr ⟨fun h => h.1 hc, hs⟩) fun _ => ?_
  refine Meets.pointwise fun s hs => ?_
  have hgo : ∀ after, Concluded key env True desk after → Concluded key env (¬ c) desk after := by
    intro after h
    refine h.imp (fun h => ⟨hs.2, h.2⟩) (fun h => ⟨fun hc => h.1 ⟨trivial, hc.2⟩, h.2⟩)
  exact (hx desk hlog hkey).mono (fun t ht => ht ▸ hs.1) (fun _ => hgo) (fun _ => hgo)

theorem ensureAccountOpen_transacts {child : NodeId} {kind : ChildKind} :
    Transacts key env True (ensureAccountOpen env child kind) :=
  transacts_of_keeps fun _ => ensureAccountOpenInner_keeps

theorem fund_transacts {to_ : NodeId} {kind : ChildKind} {amount : Amount}
    {operator : OperatorSecretKey} {nonce now : UInt64} :
    Transacts key env (amount ≠ 0) (fund env to_ kind amount operator nonce now) :=
  transacts_refuseIf (transacts_of_keeps fun _ =>
    Keeps.bind ensureAccountOpenInner_keeps fun _ =>
      Keeps.bind applyIssue_keeps fun _ => Keeps.pure _)

theorem burn_transacts {from_ : NodeId} {amount : Amount} {operator : OperatorSecretKey}
    {nonce now : UInt64} :
    Transacts key env (amount ≠ 0) (burn env from_ amount operator nonce now) :=
  transacts_refuseIf (transacts_of_keeps fun _ =>
    Keeps.bind applyBurn_keeps fun _ => Keeps.bind recordValue_keeps fun _ => Keeps.pure _)

theorem adminValueApply_transacts {direction : ValueDirection} {account : NodeId}
    {kind : ChildKind} {amount : Amount} {controller : OperatorPubKey}
    {requestId : Vector UInt8 16} {now : UInt64} :
    Transacts key env (amount ≠ 0)
      (adminValueApply env direction account kind amount controller requestId now) := by
  refine transacts_refuseIf (transacts_of_keeps fun base => ?_)
  refine Keeps.bind (Keeps.ofExcept _) fun operator => ?_
  refine Keeps.bind Keeps.get fun desk => ?_
  cases desk.service.valueIndex[toLex (Crypto.pubKey operator,
      deriveValueNonce controller requestId)]? with
  | some prior => exact Keeps.ofExcept _
  | none =>
      cases direction with
      | issue =>
          exact Keeps.bind ensureAccountOpenInner_keeps fun _ =>
            Keeps.bind applyIssue_keeps fun _ => recordValue_keeps
      | burn => exact Keeps.bind applyBurn_keeps fun _ => recordValue_keeps

theorem edgeClose_transacts {operator : OperatorSecretKey} {nonce now : UInt64} :
    Transacts key env True (edgeClose env operator nonce now) := by
  refine transacts_of_keeps fun base => ?_
  refine Keeps.bind Keeps.get fun desk => ?_
  by_cases hzero : desk.service.ledger.balances.parentBalance = 0
  · simp only [hzero, ↓reduceIte]
    exact Keeps.pure _
  · simp only [hzero, ↓reduceIte]
    refine Keeps.bind (Keeps.refuseIf _ _) fun _ => ?_
    refine Keeps.bind (Keeps.ofExcept _) fun delta => ?_
    exact Keeps.bind (signAndAppend_keeps rfl) fun _ => Keeps.pure _

theorem prefund_transacts {child : NodeId} {kind : ChildKind} {amount : Amount}
    {operator : OperatorSecretKey} {nonce now : UInt64} :
    Transacts key env (amount ≠ 0) (prefund env child kind amount operator nonce now) := by
  refine transacts_refuseIf (transacts_of_keeps fun base => ?_)
  refine Meets.get_bind fun desk hdesk => ?_
  refine Meets.bind (Meets.refuseIf fun _ h _ => h.1) fun _ => ?_
  refine Meets.bind (Meets.refuseIf fun _ h _ => h.1.1) fun _ => ?_
  -- From here on the payment of the request is not in the log.
  refine Meets.pointwise fun s h => ?_
  obtain ⟨⟨⟨hsynced, rfl⟩, -⟩, hnot⟩ := h
  have hfresh := fun hin => hnot ((hsynced.guards.mem _).mpr hin)
  have hopen : Keeps
      (fun after => Synced key base after ∧ payments after.frames = payments s.frames)
      (ensureAccountOpenInner env child kind) := ensureAccountOpenInner_meets
  refine Meets.bind (hopen.mono (fun _ h => ⟨h ▸ hsynced, h ▸ rfl⟩) (fun _ _ h => h)
    fun _ _ h => h.1) fun _ => ?_
  refine Meets.bind (Meets.ofExcept fun _ _ h => h.1) fun delta => ?_
  refine Meets.get_bind fun opened hopened => ?_
  refine Meets.bind ((signAndAppend_owes rfl).mono ?_ (fun _ _ h => h) fun _ _ h => h)
    fun applied => Meets.bind consume_meets fun _ => Meets.pure fun _ h => h
  intro after hafter
  obtain ⟨⟨⟨hsynced', hids⟩, -⟩, -⟩ := hafter
  exact ⟨hsynced', hids ▸ hfresh⟩

/-! ## Orders and hops -/

/-- The entry that applied an order: a verified transfer on top of the ledger. -/
structure TransferApplied (order : PaymentOrder) (auth : AuthRef) (role : HopRole)
    (first second : AccountRef) (registry : LedgerService → Except ServiceError PeerRegistry)
    (now : UInt64) (before after : Desk) (applied : UInt64 × Hash) (s : SignedEntry) : Prop where
  fresh : order.hash ∉ payments before.frames
  entry : ∃ amount, checkedI64 order.amount = .ok amount
    ∧ s.entry = before.service.nextEntry now (.transfer order.hash order.amount role)
        (hopPostings role first second amount) (some auth)
  verified : ∃ peers, registry before.service = .ok peers
    ∧ verifyTransfer s order peers now = .ok ()
  seq : s.entry.seq = applied.1
  hash : entryHash s.entry = .ok applied.2
  frames : after.frames = before.frames ++ [s]

/-- What an answered order or hop did: a replay answers from the guard, and a fresh payment
appends its one entry. -/
def Answered (order : PaymentOrder) (auth : AuthRef) (role : HopRole)
    (first second : AccountRef) (registry : LedgerService → Except ServiceError PeerRegistry)
    (now : UInt64) (before : Desk) : Bool × UInt64 × Hash → Desk → Prop
  | (false, applied), after =>
      after = before ∧ before.service.consumed[order.hash]? = some applied
  | (true, applied), after =>
      ∃ s, TransferApplied order auth role first second registry now before after applied s

theorem TransferApplied.payment {order : PaymentOrder} {auth : AuthRef} {role : HopRole}
    {first second : AccountRef} {registry : LedgerService → Except ServiceError PeerRegistry}
    {now : UInt64} {before after : Desk} {applied : UInt64 × Hash} {s : SignedEntry}
    (h : TransferApplied order auth role first second registry now before after applied s) :
    s.payment = some order.hash := by
  obtain ⟨amount, -, hentry⟩ := h.entry
  rw [SignedEntry.payment, hentry]
  rfl

section Orders

variable {order : PaymentOrder} {auth : AuthRef} {role : HopRole} {first second : AccountRef}
  {registry : LedgerService → Except ServiceError PeerRegistry} {now : UInt64}

theorem transferOnce_meets (hdesk : Synced key base desk) :
    Meets (· = desk) (transferOnce env order auth role first second registry now)
      (fun result after => Synced key base after
        ∧ Answered order auth role first second registry now desk result after)
      (fun _ after => after = desk) := by
  unfold transferOnce
  refine Meets.get_bind fun s hs => ?_
  subst hs
  cases hprior : s.service.consumed[order.hash]? with
  | some prior =>
      refine Meets.pure fun after h => ?_
      obtain ⟨rfl, -⟩ := h
      exact ⟨hdesk, rfl, hprior⟩
  | none =>
      have hfresh : order.hash ∉ payments s.frames := by
        intro hin
        have hmem := (hdesk.guards.mem _).mpr hin
        rw [ExtTreeMap.mem_iff_isSome_getElem?, hprior] at hmem
        cases hmem
      refine Meets.bind (Meets.ofExcept fun _ _ h => h.1) fun amount => ?_
      refine Meets.pointwise fun t ht => ?_
      obtain ⟨⟨rfl, -⟩, hamount⟩ := ht
      have happend : Meets (· = t) (signAndAppend env
          (t.service.nextEntry now (.transfer order.hash order.amount role)
            (hopPostings role first second amount) (some auth)) registry
            (verifyTransfer · order · now))
          (fun applied after => Owes key base order.hash applied after
            ∧ Answered order auth role first second registry now t (true, applied) after)
          (fun _ after => after = t) := by
        refine signAndAppend_meets.mono (fun _ => id) ?_ (fun _ _ => id)
        intro applied after h
        obtain ⟨signed, h⟩ := h
        obtain ⟨ledger, happend, rfl⟩ := h.pushed
        have hpayment : signed.payment = some order.hash := by
          rw [SignedEntry.payment, h.entry]
          rfl
        have howes := hdesk.push_transfer hpayment h.hash hfresh happend
        rw [← h.seq] at howes
        exact ⟨howes, signed, hfresh, ⟨amount, tagged_eq_ok.mp hamount, h.entry⟩, h.verified,
          h.seq.symm, h.hash, rfl⟩
      refine Meets.bind happend fun applied => ?_
      intro after h
      obtain ⟨howes, s, happlied⟩ := h
      exact ⟨⟨howes.sameKey, howes.replayed, howes.guard, howes.once, howes.grown⟩, s,
        { happlied with frames := happlied.frames }⟩

end Orders

end Cawala
