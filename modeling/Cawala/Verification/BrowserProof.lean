import Cawala.Verification.BrowserPayments

/-! # The entry a browser records a settlement under

The status of a result claims the coordinates of a terminal entry, and the proof shows one. -/

namespace Cawala

open Library

section

variable [Crypto] {target : Target} {s : LedgerStateV1} {selfNode parent : NodeId}

/-- The status claims an applied entry by its sequence number and its hash. -/
def SettlementStatusV2.Claims (status : SettlementStatusV2) (seq : UInt64) (hash : Hash) : Prop :=
  status = .applied seq hash ∨ status = .duplicate seq hash

theorem SettlementStatusV2.Claims.unique {status : SettlementStatusV2} {seq seq' : UInt64}
    {hash hash' : Hash} (h : status.Claims seq hash) (h' : status.Claims seq' hash') :
    seq = seq' ∧ hash = hash' := by
  rcases h with rfl | rfl <;> rcases h' with h' | h' <;> cases h' <;> exact ⟨rfl, rfl⟩

theorem find?_recordSettlement (s : LedgerStateV1) {new : SettlementRecordV1} {orderHash : Hash}
    (h : new.orderHash = orderHash) :
    (s.recordSettlement new).settlements.find? (fun r => r.orderHash == orderHash)
      = some new := by
  subst h
  refine Fifo.find?_put_self (by decide) (beq_self_eq_true _) (fun _ h => h) ?_
  intro existing hsame
  rw [eq_of_beq hsame]

variable [Postcard]

/-- The proof shows the entry of that sequence number and hash in its committed tree. -/
structure EntryProofV1.Shows (target : Target) (proof : EntryProofV1) (seq : UInt64)
    (hash : Hash) : Prop where
  seq : proof.entry.entry.seq = seq
  hash : entryHash proof.entry.entry = .ok hash
  included : verifyEntryInclusion target proof.entry proof.inclusion
    proof.commitment.commitment.entryRoot = some true

theorem verifySettlementProof_included {pending : PendingOrderV1} {orderHash : Hash}
    {proof : EntryProofV1}
    (h : verifySettlementProof target s pending orderHash proof = some (.ok ())) :
    verifyEntryInclusion target proof.entry proof.inclusion
      proof.commitment.commitment.entryRoot = some true := by
  unfold verifySettlementProof at h
  cases hcheck : checkSettlementProof pending orderHash proof with
  | error e => simp [hcheck] at h
  | ok signerLedger =>
      rcases hincluded : verifyEntryInclusion target proof.entry proof.inclusion
        proof.commitment.commitment.entryRoot with _ | _ | _
      · simp [hcheck, hincluded] at h
      · simp [hcheck, hincluded] at h
      · rfl

/-! ## Resolution -/

/-- An accepted proof resolves a claim with the sequence number that the status names. -/
theorem resolveStatus_of_accepted {pending : PendingOrderV1} {orderHash : Hash}
    {proof : EntryProofV1} {status : SettlementStatusV2} {seq : UInt64} {hash : Hash}
    (hclaims : status.Claims seq hash)
    (hverify : verifySettlementProof target s pending orderHash proof = some (.ok ())) :
    ∃ resolution, resolveStatus target s pending orderHash (some proof) status
        = some (resolution, s.pinFirstUse proof.signer)
      ∧ resolution.state.Success ∧ resolution.entrySeq = some seq := by
  rcases hclaims with rfl | rfl
  · refine ⟨{ state := .applied, reason := none, entrySeq := some seq }, ?_, .inl rfl, rfl⟩
    simp only [resolveStatus, resolveTerminal, terminalSettlementState, hverify]
  · refine ⟨{ state := .duplicate, reason := none, entrySeq := some seq }, ?_, .inr rfl, rfl⟩
    simp only [resolveStatus, resolveTerminal, terminalSettlementState, hverify]

theorem resolveTerminal_entrySeq {pending : PendingOrderV1} {orderHash : Hash}
    {proof : Option EntryProofV1} {success : SettlementStateV1} {seq : UInt64}
    {resolution : Resolution} {after : LedgerStateV1}
    (h : resolveTerminal target s pending orderHash proof success seq = some (resolution, after))
    (hsuccess : resolution.state.Success) : resolution.entrySeq = some seq := by
  rw [resolveTerminal] at h
  split at h
  · cases h
  · cases h
    rcases hsuccess with hstate | hstate <;> cases hstate
  · cases h
    rfl

/-- A success is resolved from a claim, with the sequence number that the status names. -/
theorem resolveStatus_claims {pending : PendingOrderV1} {orderHash : Hash}
    {proof : Option EntryProofV1} {status : SettlementStatusV2} {resolution : Resolution}
    {after : LedgerStateV1}
    (h : resolveStatus target s pending orderHash proof status = some (resolution, after))
    (hsuccess : resolution.state.Success) :
    ∃ seq hash, status.Claims seq hash ∧ resolution.entrySeq = some seq := by
  cases status with
  | applied seq hash => exact ⟨seq, hash, .inl rfl, resolveTerminal_entrySeq h hsuccess⟩
  | duplicate seq hash => exact ⟨seq, hash, .inr rfl, resolveTerminal_entrySeq h hsuccess⟩
  | partially | rejected | indeterminate =>
      cases h
      rcases hsuccess with hstate | hstate <;> cases hstate

def Resolution.record (resolution : Resolution) (pending : PendingOrderV1) (orderHash : Hash) :
    SettlementRecordV1 where
  orderHash := orderHash
  state := resolution.state
  amount := some pending.order.amount
  counterparty := some pending.order.to_
  entrySeq := resolution.entrySeq

theorem applySettlementResult_ok {result : OrderResultV3} {index : ℕ} {pending : PendingOrderV1}
    {verified : Option VerifiedBalanceV1} {mid resolved : LedgerStateV1} {resolution : Resolution}
    (hindex : s.pendingIndex result.orderHash = some index)
    (hget : s.pending[index]? = some pending)
    (hoffered : verifyOffered target s result.balance selfNode parent = some (.ok verified, mid))
    (hresolve : resolveStatus target mid pending result.orderHash result.proof result.status
      = some (resolution, resolved)) :
    applySettlementResult target s result selfNode parent
      = some (.ok
          { state := resolution.state, reason := resolution.reason
            orderHash := result.orderHash, amount := pending.order.amount
            counterparty := pending.order.to_, entrySeq := resolution.entrySeq
            balance := verified },
          ((resolved.removePending index).installBalance verified).recordSettlement
            (resolution.record pending result.orderHash)) := by
  simp only [applySettlementResult, applySettlementResultInner, hindex, hget, hoffered, hresolve,
    Resolution.record]

/-! ## What is recorded -/

/-- Applying the result leaves its order recorded as applied or duplicate at an entry. -/
def RecordsEntry (target : Target) (s : LedgerStateV1) (result : OrderResultV3)
    (selfNode parent : NodeId) (seq : UInt64) : Prop :=
  ∃ app after record,
    applySettlementResult target s result selfNode parent = some (.ok app, after)
      ∧ after.settlements.find? (fun r => r.orderHash == result.orderHash) = some record
      ∧ record.state.Success ∧ record.entrySeq = some seq

/-- What the result leaves recorded is the entry its proof shows, under the hash that the
status names. -/
def RecordsProvenEntry (target : Target) (s : LedgerStateV1) (result : OrderResultV3)
    (selfNode parent : NodeId) : Prop :=
  ∀ seq, RecordsEntry target s result selfNode parent seq →
    ∃ proof hash, result.proof = some proof ∧ result.status.Claims seq hash
      ∧ proof.Shows target seq hash

/-- The order of the result is pending, the receipt that comes with it is accepted, if there
is one, and its proof passes verification. -/
def ProofAccepted (target : Target) (s : LedgerStateV1) (result : OrderResultV3)
    (selfNode parent : NodeId) (proof : EntryProofV1) : Prop :=
  ∃ pending verified mid,
    s.pending.find? (fun p => p.order.hash == result.orderHash) = some pending
      ∧ verifyOffered target s result.balance selfNode parent = some (.ok verified, mid)
      ∧ result.proof = some proof
      ∧ verifySettlementProof target s pending result.orderHash proof = some (.ok ())

def ClaimsOwnEntry (target : Target) (s : LedgerStateV1) (result : OrderResultV3)
    (selfNode parent : NodeId) : Prop :=
  ∀ proof seq hash, result.status.Claims seq hash →
    ProofAccepted target s result selfNode parent proof →
    proof.entry.entry.seq = seq ∧ entryHash proof.entry.entry = .ok hash

/-- An accepted result is recorded at the sequence number that its status names, whatever
the entry in its proof. -/
theorem recordsEntry_of_accepted {result : OrderResultV3} {proof : EntryProofV1} {seq : UInt64}
    {hash : Hash} (hclaims : result.status.Claims seq hash)
    (h : ProofAccepted target s result selfNode parent proof) :
    RecordsEntry target s result selfNode parent seq := by
  obtain ⟨pending, verified, mid, hfind, hoffered, hproof, hverify⟩ := h
  obtain ⟨index, hindex, hget⟩ := pendingIndex_of_find hfind
  have hpins : mid.pinnedLeafKeys = s.pinnedLeafKeys := by
    generalize hanswer : (Except.ok verified : Except LedgerRefusal _) = answer at hoffered
    cases verifyOffered_vetted hoffered with
    | refused => cases hanswer
    | accepted _ hunmoved => exact hunmoved.pinnedLeafKeys
  rw [← verifySettlementProof_congr hpins] at hverify
  obtain ⟨resolution, hresolve, hsuccess, hentry⟩ := resolveStatus_of_accepted hclaims hverify
  rw [← hproof] at hresolve
  exact ⟨_, _, resolution.record pending result.orderHash,
    applySettlementResult_ok hindex hget hoffered hresolve, find?_recordSettlement _ rfl,
    hsuccess, hentry⟩

theorem RecordsEntry.accepted {result : OrderResultV3} {seq : UInt64}
    (h : RecordsEntry target s result selfNode parent seq) :
    ∃ proof hash, result.status.Claims seq hash
      ∧ ProofAccepted target s result selfNode parent proof := by
  obtain ⟨app, after, record, happly, hrecord, hsuccess, hentry⟩ := h
  cases hindex : s.pendingIndex result.orderHash with
  | none => simp [applySettlementResult, applySettlementResultInner, hindex] at happly
  | some index =>
      obtain ⟨pending, hget, hfirst⟩ := pendingIndex_spec hindex
      rcases hoffered : verifyOffered target s result.balance selfNode parent
        with _ | ⟨e | verified, mid⟩
      · simp [applySettlementResult, applySettlementResultInner, hindex, hget, hoffered] at happly
      · simp [applySettlementResult, applySettlementResultInner, hindex, hget, hoffered] at happly
      · rcases hresolve : resolveStatus target mid pending result.orderHash result.proof
          result.status with _ | ⟨resolution, resolved⟩
        · simp [applySettlementResult, applySettlementResultInner, hindex, hget, hoffered,
            hresolve] at happly
        · rw [applySettlementResult_ok hindex hget hoffered hresolve, Option.some.injEq,
            Prod.mk.injEq] at happly
          obtain ⟨-, rfl⟩ := happly
          obtain rfl : resolution.record pending result.orderHash = record :=
            Option.some.inj ((find?_recordSettlement _ rfl).symm.trans hrecord)
          obtain ⟨seq', hash, hclaims, hentry'⟩ := resolveStatus_claims hresolve hsuccess
          have hseq : seq' = seq := Option.some.inj (hentry'.symm.trans hentry)
          subst hseq
          obtain ⟨proof, hproof, hverify, -⟩ := (resolveStatus_resolved hresolve).2.proven hsuccess
          refine ⟨proof, hash, hclaims, pending, verified, mid, hfirst, hoffered, hproof, ?_⟩
          generalize hanswer : (Except.ok verified : Except LedgerRefusal _) = answer at hoffered
          cases verifyOffered_vetted hoffered with
          | refused => cases hanswer
          | accepted _ hunmoved =>
              rw [← verifySettlementProof_congr hunmoved.pinnedLeafKeys]
              exact hverify

/-- The recorded entry is the proven one exactly when an accepted result claims the
coordinates of the entry in its own proof. -/
theorem recordsProvenEntry_iff (result : OrderResultV3) :
    RecordsProvenEntry target s result selfNode parent
      ↔ ClaimsOwnEntry target s result selfNode parent := by
  constructor
  · intro hproven proof seq hash hclaims haccepted
    obtain ⟨proof', hash', hproof', hclaims', hshows⟩ :=
      hproven seq (recordsEntry_of_accepted hclaims haccepted)
    obtain ⟨-, -, -, -, -, hproof, -⟩ := haccepted
    rw [hproof, Option.some.injEq] at hproof'
    subst hproof'
    obtain ⟨-, rfl⟩ := hclaims.unique hclaims'
    exact ⟨hshows.seq, hshows.hash⟩
  · intro hown seq hrecords
    obtain ⟨proof, hash, hclaims, haccepted⟩ := hrecords.accepted
    obtain ⟨hseq, hhash⟩ := hown proof seq hash hclaims haccepted
    obtain ⟨pending, verified, mid, -, -, hproof, hverify⟩ := haccepted
    exact ⟨proof, hash, hproof, hclaims, hseq, hhash, verifySettlementProof_included hverify⟩

end

section

open Concrete

/-- A result whose status places the proven entry at another position. -/
def claimsSeven : OrderResultV3 where
  orderHash := fiveOrder.hash
  status := .applied 7 fiveHash
  balance := none
  proof := some (fiveProof (Crypto.sign (7 : ℕ) fiveCommitment.canonicalBytes))

/-- The payer's state once the order is sent. -/
def sentFive : LedgerStateV1 :=
  sendPayment joined fiveOrder (fiveOrder.authorize (3 : ℕ)) 1 payerU payeeW

/-- The proof of the entry at position 0 leaves the order recorded at position 7. -/
theorem recorded_entry_not_proven :
    ¬ RecordsProvenEntry .wasm32 sentFive claimsSeven "u" "p" := by
  intro hproven
  have hrecords : RecordsEntry .wasm32 sentFive claimsSeven "u" "p" 7 := by
    refine recordsEntry_of_accepted (.inl rfl) ⟨pendingFive, none, sentFive, ?_, rfl, rfl, ?_⟩
    · decide +kernel
    · decide +kernel
  obtain ⟨proof, hash, hproof, -, hshows⟩ := hproven 7 hrecords
  cases hproof
  have hseq := hshows.seq
  revert hseq
  decide

end

end Cawala
