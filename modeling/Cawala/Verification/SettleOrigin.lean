import Cawala.Model.SettleOrigin
import Cawala.Verification.ExactlyOnce

/-! # Orders at their leaf

What the dispatch of an order does to the log of its leaf, and what its answers say about that
log. -/

namespace Cawala

open Std (ExtTreeMap)
open Library Library.Transaction

variable [Crypto] [Postcard]

/-! ## Desks between transactions -/

/-- What holds of a desk between the transactions of its process. -/
structure DeskSound (key : LedgerSecretKey) (desk : Desk) : Prop where
  log : LogSound key desk.frames
  service : Coherent key desk.service

/-- A desk after a transaction that appended nothing. -/
structure Reread (key : LedgerSecretKey) (desk after : Desk) : Prop where
  frames : after.frames = desk.frames
  sound : DeskSound key after

variable {key : LedgerSecretKey} {env : TxEnv} {desk after : Desk}

theorem DeskSound.reread (h : DeskSound key desk) : Reread key desk desk := ⟨rfl, h⟩

theorem Reread.trans {last : Desk} (h : Reread key desk after) (h' : Reread key after last) :
    Reread key desk last := ⟨h'.frames.trans h.frames, h'.sound⟩

theorem Synced.deskSound {base : List SignedEntry} (h : Synced key base desk) :
    DeskSound key desk := ⟨h.logSound, h.coherent⟩

variable (env) in
theorem beginTransaction_reread (h : DeskSound key desk) :
    Meets (· = desk) (beginTransaction env) (fun _ => Reread key desk)
      (fun _ => Reread key desk) := by
  refine (beginTransaction_meets env h.log h.service.sameKey).mono (fun _ => id) ?_ ?_
  · intro _ after hafter
    exact ⟨hafter.2.1, hafter.1.deskSound⟩
  · intro _ after hafter
    exact hafter ▸ h.reread

theorem beginTransaction_nodeId (h : DeskSound key desk)
    (hexec : exec (beginTransaction env) desk = (.ok ⟨⟩, after)) :
    after.service.nodeId = desk.service.nodeId := by
  have hmeets := beginTransaction_meets env h.log h.service.sameKey desk rfl
  rw [hexec] at hmeets
  exact hmeets.2.2

theorem balanceReceipt_reread (h : DeskSound key desk) {user : NodeId} {record : NodeRecord}
    {notice : Option ValueNoticeV1} :
    Reread key desk (exec (balanceReceipt env user record notice) desk).2 := by
  have hread : Keeps (Reread key desk) (do
      Transaction.refuseIf (childKind record user ≠ some .user) (.refused .notAChild)
      let desk ← get
      Transaction.ofExcept (tagged .hashing (do
        let attestation ← attestBalance desk.service.ledger desk.service.nodeId user
        let commitment ← buildCommitment desk.service.ledger Crypto.zero env.clock
        let commitment ← SignedCommitment.sign commitment desk.service.key
        let history ← receiptHistory desk.service.ledger user
        pure
          { ledgerPubkey := Crypto.pubKey desk.service.key, attestation, commitment, history
            notice : BalanceReceiptV1 }))) :=
    Keeps.bind (Keeps.refuseIf _ _) fun _ => Keeps.bind Keeps.get fun _ => Keeps.ofExcept _
  exact Meets.exec ((beginTransaction_reread env h).bind fun _ => hread) rfl

theorem freshReceipt_reread (h : DeskSound key desk) {user : NodeId} {record : NodeRecord}
    {notice : Option ValueNoticeV1} :
    Reread key desk (freshReceipt env record user notice desk).2 := balanceReceipt_reread h

theorem payerReceipt_reread (h : DeskSound key desk) {payer : NodeId} {record : NodeRecord} :
    Reread key desk (payerReceipt env record payer desk).2 := balanceReceipt_reread h

/-! ## One transfer -/

/-- A transfer of an order, verified and put on top of the log. -/
structure Booking (key : LedgerSecretKey) (order : PaymentOrder) (auth : AuthRef) (role : HopRole)
    (first second : AccountRef) (registry : LedgerService → Except ServiceError PeerRegistry)
    (now : UInt64) (desk after : Desk) (seq : UInt64) (hash : Hash) (s : SignedEntry) :
    Prop where
  synced : Synced key desk.frames after
  transfer : ∃ began, Synced key desk.frames began ∧ began.frames = desk.frames
    ∧ began.service.nodeId = desk.service.nodeId
    ∧ TransferApplied order auth role first second registry now began after (seq, hash) s

section Booking

variable {order : PaymentOrder} {auth : AuthRef} {role : HopRole} {first second : AccountRef}
  {registry : LedgerService → Except ServiceError PeerRegistry} {now seq : UInt64} {hash : Hash}
  {s : SignedEntry}

theorem Booking.frames
    (h : Booking key order auth role first second registry now desk after seq hash s) :
    after.frames = desk.frames ++ [s] := by
  obtain ⟨began, -, hframes, -, happlied⟩ := h.transfer
  rw [happlied.frames, hframes]

theorem Booking.fresh
    (h : Booking key order auth role first second registry now desk after seq hash s) :
    order.hash ∉ payments desk.frames := by
  obtain ⟨began, -, hframes, -, happlied⟩ := h.transfer
  exact hframes ▸ happlied.fresh

theorem Booking.payment
    (h : Booking key order auth role first second registry now desk after seq hash s) :
    s.payment = some order.hash := by
  obtain ⟨began, -, -, -, happlied⟩ := h.transfer
  exact happlied.payment

theorem Booking.namesFirst
    (h : Booking key order auth role first second registry now desk after seq hash s) :
    NamesFirst after.frames order.hash seq hash := by
  obtain ⟨began, -, -, -, happlied⟩ := h.transfer
  refine ⟨s, ⟨⟨desk.frames, [], h.frames, h.fresh⟩, h.payment⟩, happlied.seq, happlied.hash⟩

theorem Booking.mem_payments
    (h : Booking key order auth role first second registry now desk after seq hash s) {id : Hash}
    (hid : id ∈ payments after.frames) : id ∈ payments desk.frames ∨ id = order.hash := by
  rw [h.frames, payments_snoc, h.payment] at hid
  simpa using hid

/-- The appended entry can be read back. -/
theorem Booking.entryAt
    (h : Booking key order auth role first second registry now desk after seq hash s) :
    ∃ t, after.service.entryAt seq = .ok t := by
  obtain ⟨began, hbegan, hframes, -, happlied⟩ := h.transfer
  obtain ⟨_, -, hentry⟩ := happlied.entry
  have hlen : began.service.ledger.len = desk.frames.length := by
    rw [Ledger.len, hbegan.entries, hframes]
  have hat : s.entry.seq = seq := happlied.seq
  have hseq : seq.toNat ≤ desk.frames.length := by
    rw [← hat, hentry, LedgerService.nextEntry, hlen, UInt64.toNat_ofNat']
    exact Nat.mod_le _ _
  have hlt : seq.toNat < after.service.ledger.log.entries.length := by
    rw [h.synced.entries, h.frames, List.length_append]
    simpa [Nat.lt_succ_iff] using hseq
  refine ⟨after.service.ledger.log.entries[seq.toNat], ?_⟩
  rw [LedgerService.entryAt, Ledger.get?, List.getElem?_eq_getElem hlt]

end Booking

/-! ## The hop of an order -/

/-- An entry is the hop that a node derives for an order. -/
structure HopBooked (order : PaymentOrder) (derived : DerivedHop) (s : SignedEntry) : Prop where
  body : s.entry.body = .transfer order.hash order.amount derived.role
  postings : ∃ m, checkedI64 order.amount = .ok m
    ∧ s.entry.postings = hopPostings derived.role derived.first derived.second m

def HoldsHop (frames : List SignedEntry) (order : PaymentOrder) (derived : DerivedHop)
    (seq : UInt64) (hash : Hash) : Prop :=
  ∃ s, FirstTransfer frames order.hash s ∧ s.entry.seq = seq ∧ entryHash s.entry = .ok hash
    ∧ HopBooked order derived s

def PaymentOrder.directHop (order : PaymentOrder) : DerivedHop where
  role := .direct
  first := .child order.from_
  second := .child order.to_

section Hops

variable {key : LedgerSecretKey} {order : PaymentOrder} {auth : AuthRef} {derived : DerivedHop}
  {s t : SignedEntry} {frames frames' : List SignedEntry} {seq : UInt64} {hash : Hash}

omit [Postcard] in
theorem FirstTransfer.mono {paymentId : Hash} (h : FirstTransfer frames paymentId s)
    (hgrown : frames <+: frames') : FirstTransfer frames' paymentId s := by
  obtain ⟨rest, rfl⟩ := hgrown
  obtain ⟨before, after, rfl, hnot⟩ := h.split
  exact ⟨⟨before, after ++ rest, by simp, hnot⟩, h.payment⟩

theorem NamesFirst.mono {paymentId : Hash} (h : NamesFirst frames paymentId seq hash)
    (hgrown : frames <+: frames') : NamesFirst frames' paymentId seq hash := by
  obtain ⟨s, hfirst, hrest⟩ := h
  exact ⟨s, hfirst.mono hgrown, hrest⟩

theorem HoldsHop.mono (h : HoldsHop frames order derived seq hash) (hgrown : frames <+: frames') :
    HoldsHop frames' order derived seq hash := by
  obtain ⟨s, hfirst, hrest⟩ := h
  exact ⟨s, hfirst.mono hgrown, hrest⟩

theorem HoldsHop.namesFirst (h : HoldsHop frames order derived seq hash) :
    NamesFirst frames order.hash seq hash := by
  obtain ⟨s, hfirst, hseq, hhash, -⟩ := h
  exact ⟨s, hfirst, hseq, hhash⟩

omit [Postcard] in
theorem FirstTransfer.mem {paymentId : Hash} (h : FirstTransfer frames paymentId s) :
    s ∈ frames := by
  obtain ⟨before, after, rfl, -⟩ := h.split
  exact List.mem_append_right _ List.mem_cons_self

omit [Postcard] in
/-- In a log without repeated payments an entry is the only one of its payment. -/
theorem FirstTransfer.unique {paymentId : Hash} (honce : (payments frames).Nodup)
    (h : FirstTransfer frames paymentId s) (ht : t ∈ frames)
    (hpayment : t.payment = some paymentId) : t = s := by
  obtain ⟨before, after, rfl, hnot⟩ := h.split
  rcases List.mem_append.mp ht with ht | ht
  · exact absurd (List.mem_filterMap.mpr ⟨t, ht, hpayment⟩) hnot
  · rcases List.mem_cons.mp ht with rfl | ht
    · rfl
    · have hsecond : paymentId ∈ payments after := List.mem_filterMap.mpr ⟨t, ht, hpayment⟩
      have hsplit : payments (before ++ s :: after)
          = payments before ++ paymentId :: payments after := by
        simp [payments, List.filterMap_append, h.payment]
      rw [hsplit] at honce
      have htail := (List.nodup_append.mp honce).2.1
      exact absurd hsecond (List.nodup_cons.mp htail).1

theorem Booking.holdsHop {desk after : Desk}
    {registry : LedgerService → Except ServiceError PeerRegistry} {now : UInt64}
    (h : Booking key order auth derived.role derived.first derived.second registry now desk after
      seq hash s) : HoldsHop after.frames order derived seq hash := by
  obtain ⟨began, -, hframes, -, happlied⟩ := h.transfer
  obtain ⟨m, hm, hentry⟩ := happlied.entry
  refine ⟨s, ⟨⟨desk.frames, [], h.frames, h.fresh⟩, h.payment⟩, happlied.seq, happlied.hash, ?_,
    m, hm, ?_⟩
  · rw [hentry]
    rfl
  · rw [hentry]
    rfl

end Hops

/-- What an order or a hop did to a desk: it was refused, answered from the replay guard, or
entered. -/
inductive Applying (key : LedgerSecretKey) (order : PaymentOrder) (auth : AuthRef)
    (role : HopRole) (first second : AccountRef)
    (registry : LedgerService → Except ServiceError PeerRegistry) (now : UInt64) (desk : Desk) :
    HopOutcome → Desk → Prop where
  | rejected (reason after) (reread : Reread key desk after) :
      Applying key order auth role first second registry now desk (.rejected reason) after
  | duplicate (seq hash after) (synced : Synced key desk.frames after)
      (frames : after.frames = desk.frames)
      (names : NamesFirst desk.frames order.hash seq hash) :
      Applying key order auth role first second registry now desk (.duplicate seq hash) after
  | applied (seq hash s after)
      (entered : Booking key order auth role first second registry now desk after seq hash s) :
      Applying key order auth role first second registry now desk (.applied seq hash) after

section Applying

variable {order : PaymentOrder} {auth : AuthRef} {role : HopRole} {first second : AccountRef}
  {registry : LedgerService → Except ServiceError PeerRegistry} {now : UInt64}

/-- An answer that a transaction began for is one of the guard, or an entry. -/
theorem Applying.of_answered {began : Desk} {fresh : Bool} {seq : UInt64} {hash : Hash}
    (hbegan : Synced key desk.frames began) (hframes : began.frames = desk.frames)
    (hnode : began.service.nodeId = desk.service.nodeId) (hafter : Synced key desk.frames after)
    (h : Answered order auth role first second registry now began (fresh, seq, hash) after) :
    Applying key order auth role first second registry now desk
      (if fresh then .applied seq hash else .duplicate seq hash) after := by
  cases fresh with
  | true =>
      obtain ⟨s, happlied⟩ := h
      exact .applied seq hash s after ⟨hafter, began, hbegan, hframes, hnode, happlied⟩
  | false =>
      obtain ⟨rfl, hfirst⟩ := h.duplicate hbegan
      exact .duplicate seq hash after hafter hframes (hframes ▸ hfirst)

theorem Concluded.synced {c : Prop} {began : Desk} (h : Concluded key env c desk after) (hc : c)
    (hbegan : exec (beginTransaction env) desk = (.ok ⟨⟩, began)) :
    Synced key desk.frames after := by
  cases h with
  | inl h => exact h.2.2
  | inr h => exact absurd ⟨hc, began, hbegan⟩ h.1

variable (env) in
theorem applyHop_applying (h : DeskSound key desk) (order : PaymentOrder) (auth : AuthRef)
    (role : HopRole) (first second : AccountRef) (registry : PeerRegistry) (now : UInt64) :
    Applying key order auth role first second (fun _ => .ok registry) now desk
      (applyHop env order auth role first second registry now desk).1
      (applyHop env order auth role first second registry now desk).2 := by
  have hconcluded : Concluded key env True desk
      (applyHop env order auth role first second registry now desk).2 :=
    perform_concluded (.applyHop order auth role first second registry now) h.log
      h.service.sameKey
  cases applyHop_cases env order auth role first second registry now h.log h.service.sameKey with
  | inl hrejected =>
      obtain ⟨reason, heq⟩ := hrejected
      rw [heq]
      exact .rejected reason _ (Meets.exec (beginTransaction_reread env h) rfl)
  | inr hanswered =>
      obtain ⟨fresh, seq, hash, began, after, heq, hexec, hbegan, hframes, hanswer⟩ := hanswered
      rw [heq] at hconcluded ⊢
      exact .of_answered hbegan hframes (beginTransaction_nodeId h hexec)
        (hconcluded.synced trivial hexec) hanswer

/-- The outcome of a hop, as an order on one leaf reports it. -/
def HopOutcome.toApply : HopOutcome → ApplyOutcome
  | .applied seq hash =>
      { status := .applied, entrySeq := some seq, entryHash := some hash, reason := none }
  | .duplicate seq hash =>
      { status := .duplicate, entrySeq := some seq, entryHash := some hash, reason := none }
  | .rejected reason => .rejected reason

variable (env) in
theorem applyOrder_applying (h : DeskSound key desk) (order : PaymentOrder) (auth : AuthRef)
    (sender : NodeId) (record : NodeRecord) (now : UInt64) :
    ∃ outcome, (applyOrder env order auth sender record now desk).1 = outcome.toApply
      ∧ Applying key order auth .direct (.child order.from_) (.child order.to_)
          (·.effectiveRegistry env) now desk outcome
          (applyOrder env order auth sender record now desk).2 := by
  have hconcluded : Concluded key env True desk
      (applyOrder env order auth sender record now desk).2 :=
    perform_concluded (.applyOrder order auth sender record now) h.log h.service.sameKey
  cases applyOrder_cases env order auth sender record now h.log h.service.sameKey with
  | inl hrejected =>
      obtain ⟨reason, heq⟩ := hrejected
      rw [heq]
      exact ⟨.rejected reason, rfl,
        .rejected reason _ (Meets.exec (beginTransaction_reread env h) rfl)⟩
  | inr hanswered =>
      obtain ⟨fresh, seq, hash, began, after, heq, hexec, hbegan, hframes, hanswer⟩ := hanswered
      rw [heq] at hconcluded ⊢
      refine ⟨_, ?_, .of_answered hbegan hframes (beginTransaction_nodeId h hexec)
        (hconcluded.synced trivial hexec) hanswer⟩
      cases fresh <;> rfl

theorem applyOrder_sender {sender : NodeId} {record : NodeRecord} {order : PaymentOrder}
    {auth : AuthRef} {now : UInt64}
    (h : (applyOrder env order auth sender record now desk).1.status ≠ .rejected) :
    order.from_ = sender ∧ childKind record order.from_ = some .user
      ∧ childKind record order.to_ = some .user := by
  unfold applyOrder at h
  cases hexec : exec (applyOrderTx env order auth sender record now) desk with
  | mk r after =>
      cases r with
      | error e =>
          rw [hexec] at h
          exact absurd rfl h
      | ok result =>
          obtain ⟨_, _, -, hexec⟩ := exec_bind_eq_ok.mp hexec
          obtain ⟨_, _, hguard, hexec⟩ := exec_bind_eq_ok.mp hexec
          obtain ⟨_, _, hchildren, -⟩ := exec_bind_eq_ok.mp hexec
          have hsender := (exec_refuseIf_eq_ok.mp hguard).1
          have husers := (exec_refuseIf_eq_ok.mp hchildren).1
          simp only [not_or, ne_eq, not_not] at hsender husers
          exact ⟨hsender.1, husers⟩

end Applying

end Cawala
