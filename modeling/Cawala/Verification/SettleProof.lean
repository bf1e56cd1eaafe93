import Cawala.Model.SettleProof
import Cawala.Verification.Inclusion

/-! # What an accepted settlement proof shows

The origin ties a presented entry to a commitment, but checks neither the signature of the
commitment nor that the proved position is the one the entry names. -/

namespace Cawala

open Library

section

variable [Crypto] [Postcard]

/-! ## Acceptance -/

/-- What the origin has checked of a proof it accepts. -/
structure ProofChecked (target : Target) (proof : EntryProofV1) (ledger : LedgerPubKey) :
    Prop where
  signer : proof.signer.ledger = some ledger
  entry : proof.entry.verify ledger = .ok ()
  named : proof.commitment.commitment.ledgerPubkey = ledger
  size : proof.inclusion.treeSize.toUInt64 = proof.commitment.commitment.entryCount
  included : verifyEntryInclusion target proof.entry proof.inclusion
    proof.commitment.commitment.entryRoot = some true

omit [Postcard] in
theorem validate_eq_ok {proof : EntryProofV1} (h : proof.validate = .ok ()) :
    proof.inclusion.treeSize.toUInt64 = proof.commitment.commitment.entryCount := by
  simp only [EntryProofV1.validate, ite_error_eq_ok, not_not] at h
  exact h.2.2.1

omit [Crypto] [Postcard] in
theorem ite_some_false_eq {c : Prop} [Decidable c] {x : Option Bool} :
    (if c then some false else x) = some true ↔ ¬ c ∧ x = some true := by
  by_cases h : c <;> simp [h]

theorem verifyTerminalProof_checked {target : Target} {proof : EntryProofV1}
    {order : PaymentOrder} {payeeLeafAddr : OctAddr} {terminalSeq : UInt64} {terminalHash : Hash}
    (h : verifyTerminalProof target proof order payeeLeafAddr terminalSeq terminalHash
      = some true) : ∃ ledger, ProofChecked target proof ledger := by
  unfold verifyTerminalProof at h
  rw [ite_some_false_eq] at h
  obtain ⟨-, h⟩ := h
  cases hhash : entryHash proof.entry.entry with
  | error e => simp [hhash] at h
  | ok hash =>
      simp only [hhash, ite_some_false_eq] at h
      obtain ⟨-, h⟩ := h
      cases happlied : verifyAppliedEntry proof.entry order false with
      | error e => simp [happlied] at h
      | ok _ =>
          simp only [happlied, ite_some_false_eq] at h
          obtain ⟨-, h⟩ := h
          cases hledger : proof.signer.ledger with
          | none => simp [hledger] at h
          | some ledger =>
              simp only [hledger] at h
              cases hverify : proof.entry.verify ledger with
              | error e => simp [hverify] at h
              | ok _ =>
                  simp only [hverify, ite_some_false_eq, not_not] at h
                  obtain ⟨hnamed, h⟩ := h
                  cases hvalidate : proof.validate with
                  | error e => simp [hvalidate] at h
                  | ok _ =>
                      simp only [hvalidate, ite_some_false_eq] at h
                      obtain ⟨-, -, -, hincluded⟩ := h
                      exact ⟨ledger, hledger, hverify, hnamed, validate_eq_ok hvalidate, hincluded⟩

omit [Crypto] [Postcard] in
theorem require_eq_ok {c : Prop} [Decidable c] {whichCheck : String} {node : Option NodeId}
    {hopIndex : ℕ} {u : Unit} : Audit.require c whichCheck node hopIndex = .ok u ↔ c := by
  by_cases h : c <;> simp [Audit.require, h]

omit [Crypto] [Postcard] in
theorem audit_bind_eq_ok {α β : Type} {x : Except IntermediateCheck α} {f : α → Audit β} {b : β} :
    ((ExceptT.mk (some x) : Audit α) >>= f) = (some (.ok b) : Option (Except _ _))
      ↔ ∃ a, x = .ok a ∧ f a = (some (.ok b) : Option (Except _ _)) := by
  cases x with
  | ok a =>
      constructor
      · intro h
        exact ⟨a, rfl, h⟩
      · intro h
        obtain ⟨_, ha, h⟩ := h
        cases ha
        exact h
  | error e =>
      constructor
      · intro h
        cases h
      · intro h
        obtain ⟨_, hx, -⟩ := h
        cases hx

theorem inclusion_eq_ok {target : Target} {proof result : EntryProofV1} {node : Option NodeId}
    {hopIndex : ℕ} (h : Audit.inclusion target proof node hopIndex = some (.ok result)) :
    result = proof ∧ verifyEntryInclusion target proof.entry proof.inclusion
      proof.commitment.commitment.entryRoot = some true := by
  unfold Audit.inclusion at h
  split at h
  · cases h
  next hverify =>
    cases h
    exact ⟨rfl, hverify⟩
  · cases h

omit [Crypto] [Postcard] in
theorem eq_ok_of_isOk {ε : Type} {x : Except ε Unit} (h : x.isOk = true) : x = .ok () := by
  cases x with
  | ok a => rfl
  | error e => cases h

/-- The audit of the parent's hop accepts a proof that passes the same checks, under the
registered key of the parent. -/
theorem checkParentHop_checked {target : Target} {terms : SettleTerms}
    {terminalProof proof : EntryProofV1} {hop : SettleHopV3} {alone : Bool}
    {nodeId : NodeId} {signer : OctAddr} {parent : NodeId} {parentLedger : LedgerPubKey}
    (h : checkParentHop target terms terminalProof hop alone nodeId signer parent parentLedger
      = some (.ok proof)) : ProofChecked target proof parentLedger := by
  unfold checkParentHop at h
  obtain ⟨found, hchecked, hincluded⟩ := audit_bind_eq_ok.mp h
  obtain ⟨rfl, hincluded⟩ := inclusion_eq_ok hincluded
  simp only [bind_eq_ok, pure_eq_ok, require_eq_ok, exists_const] at hchecked
  obtain ⟨role, -, -, hsigned, -, found, -, -, hentry, -, -, hledger, hnamed, hvalid, rfl⟩ :=
    hchecked
  have hverify := eq_ok_of_isOk hsigned
  rw [← hentry] at hverify
  exact ⟨hledger, hverify, hnamed, validate_eq_ok (eq_ok_of_isOk hvalid), hincluded⟩

/-- The origin accepts a proof: as the terminal proof, or as the proof of its parent's hop. -/
inductive OriginAccepts (target : Target) (proof : EntryProofV1) : Prop where
  | terminal (order : PaymentOrder) (payeeLeafAddr : OctAddr) (terminalSeq : UInt64)
      (terminalHash : Hash) (h : verifyTerminalProof target proof order payeeLeafAddr terminalSeq
        terminalHash = some true)
  | parentHop (terms : SettleTerms) (terminalProof : EntryProofV1) (hop : SettleHopV3)
      (alone : Bool) (nodeId : NodeId) (signer : OctAddr) (parent : NodeId)
      (parentLedger : LedgerPubKey)
      (h : checkParentHop target terms terminalProof hop alone nodeId signer parent parentLedger
        = some (.ok proof))

theorem OriginAccepts.checked {target : Target} {proof : EntryProofV1}
    (h : OriginAccepts target proof) : ∃ ledger, ProofChecked target proof ledger := by
  cases h with
  | terminal order payeeLeafAddr terminalSeq terminalHash h => exact verifyTerminalProof_checked h
  | parentHop terms terminalProof hop alone nodeId signer parent parentLedger h =>
      exact ⟨parentLedger, checkParentHop_checked h⟩

/-! ## What acceptance does not show -/

/-- The commitment carries a signature of the signer's ledger key. -/
def CommitmentSigned (proof : EntryProofV1) : Prop :=
  ∃ ledger, proof.signer.ledger = some ledger ∧ Crypto.verify ledger
    proof.commitment.commitment.canonicalBytes proof.commitment.signature = true

/-- A list of leaves is the tree a commitment commits to. -/
structure CommittedTree (c : Commitment) (leaves : List Hash) : Prop where
  size : leaves.length = c.entryCount.toNat
  root : root leaves = c.entryRoot

/-- The holder of the signer's key committed to the presented entry, at its own position. -/
def CommittedBySigner (proof : EntryProofV1) : Prop :=
  CommitmentSigned proof ∧ ∃ hash, entryHash proof.entry.entry = .ok hash
    ∧ ∀ leaves, CommittedTree proof.commitment.commitment leaves →
      leaves[proof.entry.entry.seq.toNat]? = some (leafHash hash)

/-- The position an inclusion proof is for holds the leaf of the position the entry names. -/
def PositionTied (proof : EntryProofV1) : Prop :=
  ∀ leaves, CommittedTree proof.commitment.commitment leaves →
    leaves[proof.inclusion.index.toNat]? = leaves[proof.entry.entry.seq.toNat]?

theorem verifyEntryInclusion_eq_true {target : Target} {signed : SignedEntry}
    {proof : EntryInclusionProof} {entryRoot : Hash}
    (h : verifyEntryInclusion target signed proof entryRoot = some true) :
    ∃ hash, entryHash signed.entry = .ok hash ∧ verifyInclusion target (leafHash hash)
      proof.index.toNat proof.treeSize.toNat proof.proof entryRoot = some true := by
  simp only [verifyEntryInclusion, ite_some_false_eq] at h
  obtain ⟨-, -, h⟩ := h
  cases hhash : entryHash signed.entry with
  | error e => simp [hhash] at h
  | ok hash => exact ⟨hash, rfl, by simpa [hhash] using h⟩

/-- The proved position of an accepted proof holds the presented entry, in every tree the
commitment can stand for. -/
theorem ProofChecked.leaf {target : Target} {proof : EntryProofV1} {ledger : LedgerPubKey}
    (hnode : NodeHashInjective) (h : ProofChecked target proof ledger) :
    ∃ hash, entryHash proof.entry.entry = .ok hash
      ∧ ∀ leaves, CommittedTree proof.commitment.commitment leaves →
        leaves[proof.inclusion.index.toNat]? = some (leafHash hash) := by
  obtain ⟨hash, hhash, hverify⟩ := verifyEntryInclusion_eq_true h.included
  refine ⟨hash, hhash, ?_⟩
  intro leaves htree
  have hsize : proof.inclusion.treeSize.toNat = leaves.length := by
    rw [htree.size, ← h.size, UInt32.toNat_toUInt64]
  rw [hsize, ← htree.root] at hverify
  exact (getElem?_of_verifyInclusion hnode hverify).2

/-- Of an accepted proof, the signer committed to the presented entry exactly when the
attached commitment is signed and the proved position is the one the entry names. -/
theorem terminal_proof_sound_iff (hnode : NodeHashInjective) {target : Target}
    {proof : EntryProofV1} (h : OriginAccepts target proof) :
    CommittedBySigner proof ↔ CommitmentSigned proof ∧ PositionTied proof := by
  obtain ⟨ledger, hchecked⟩ := h.checked
  obtain ⟨hash, hhash, hleaf⟩ := hchecked.leaf hnode
  constructor
  · intro hcommitted
    obtain ⟨hsigned, hash', hhash', hseq⟩ := hcommitted
    rw [hhash, Except.ok.injEq] at hhash'
    subst hhash'
    refine ⟨hsigned, ?_⟩
    intro leaves htree
    rw [hleaf leaves htree, hseq leaves htree]
  · intro htied
    refine ⟨htied.1, hash, hhash, ?_⟩
    intro leaves htree
    rw [← htied.2 leaves htree, hleaf leaves htree]

end

section

open Concrete

def fiveOrder : PaymentOrder where
  from_ := "u"
  to_ := "w"
  amount := 5
  nonce := 1
  expiry := 9

/-- The terminal entry of that order at a position of its log, signed by the ledger key 7. -/
def fiveEntryAt (seq : UInt64) : SignedEntry :=
  let e : Entry :=
    { ledgerId := (7 : ℕ), seq, height := 0, prevHash := (0 : ℕ), issuedAt := 1
      body := .transfer fiveOrder.hash 5 .descend
      postings := [⟨.parent, 5⟩, ⟨.child "w", 5⟩], auth := some (fiveOrder.authorize (3 : ℕ)) }
  { entry := e, signature := Crypto.sign (7 : ℕ) (.byte 4 :: Concrete.entry e) }

def fiveEntry : SignedEntry := fiveEntryAt 0

def fiveHash : Hash :=
  derive "cawala-ledger/entry/v1" [.byte 4 :: Concrete.entry fiveEntry.entry]

def fiveCommitment : Commitment where
  ledgerId := (7 : ℕ)
  ledgerPubkey := (7 : ℕ)
  height := 1
  entryCount := 1
  entryRoot := root [leafHash fiveHash]
  stateRoot := (0 : ℕ)
  prevCommitmentHash := (0 : ℕ)
  issuedAt := 1

def fiveProof (signature : Signature) : EntryProofV1 where
  entry := fiveEntry
  signer := { nodeId := "l", operator := (4 : ℕ), ledger := some (7 : ℕ), role := .node }
  leafAddr := .root
  commitment := { commitment := fiveCommitment, signature }
  inclusion := { index := 0, treeSize := 1, proof := [] }

/-- A proof whose commitment nobody signed is accepted. -/
theorem terminal_proof_unsigned :
    verifyTerminalProof .native64 (fiveProof ((0 : ℕ), (0 : ℕ))) fiveOrder .root 0
        fiveHash = some true
      ∧ ¬ CommittedBySigner (fiveProof ((0 : ℕ), (0 : ℕ))) := by
  refine ⟨by decide +kernel, ?_⟩
  intro hcommitted
  obtain ⟨⟨ledger, hledger, hverify⟩, -⟩ := hcommitted
  cases hledger
  revert hverify
  decide +kernel

/-! A log of three entries, with the terminal one in the middle. -/

def threeLeaves (seq : UInt64) : List ℕ :=
  [11, leafHash (derive "cawala-ledger/entry/v1"
    [.byte 4 :: Concrete.entry (fiveEntryAt seq).entry]),
    13]

def threeCommitment (seq : UInt64) : Commitment :=
  { fiveCommitment with entryCount := 3, entryRoot := root (threeLeaves seq) }

/-- A proof of the middle entry of that log, which says that it is at a position. -/
def threeProof (seq : UInt64) : EntryProofV1 where
  entry := fiveEntryAt seq
  signer := { nodeId := "l", operator := (4 : ℕ), ledger := some (7 : ℕ), role := .node }
  leafAddr := .root
  commitment :=
    { commitment := threeCommitment seq
      signature := Crypto.sign (7 : ℕ) (threeCommitment seq).canonicalBytes }
  inclusion := { index := 1, treeSize := 3, proof := [(11 : ℕ), (13 : ℕ)] }

/-- Signed proofs of the middle entry: one that says so shows that the signer committed to it
there, one that says it is the last does not. -/
theorem terminal_proof_sound_signed :
    CommittedBySigner (threeProof 1) ∧ ¬ CommittedBySigner (threeProof 2) := by
  have hnode := nodeHashInjective_of_collisionFree collisionFree
  refine ⟨?_, ?_⟩
  · have haccepts : OriginAccepts .native64 (threeProof 1) :=
      .terminal fiveOrder .root 1
        (derive "cawala-ledger/entry/v1" [.byte 4 :: Concrete.entry (fiveEntryAt 1).entry])
        (by decide +kernel)
    have hsigned : CommitmentSigned (threeProof 1) :=
      ⟨(7 : ℕ), rfl, signCorrect (7 : ℕ) (threeCommitment 1).canonicalBytes⟩
    refine (terminal_proof_sound_iff hnode haccepts).mpr ⟨hsigned, ?_⟩
    intro leaves htree
    rfl
  · have haccepts : OriginAccepts .native64 (threeProof 2) :=
      .terminal fiveOrder .root 2
        (derive "cawala-ledger/entry/v1" [.byte 4 :: Concrete.entry (fiveEntryAt 2).entry])
        (by decide +kernel)
    intro hcommitted
    have htied := ((terminal_proof_sound_iff hnode haccepts).mp hcommitted).2
    have hsame := htied (threeLeaves 2) ⟨rfl, rfl⟩
    revert hsame
    decide +kernel

end

end Cawala
