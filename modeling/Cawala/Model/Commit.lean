import Cawala.Model.Merkle

/-! # Commitments, attestations and entry proofs -/

namespace Cawala

/-- A parent/child edge that an attestation covers. -/
structure EdgeAccount where
  parent : NodeId
  child : NodeId
deriving DecidableEq, Repr

variable [Crypto]

/-- A point-in-time commitment to a ledger's entries and state. -/
structure Commitment where
  ledgerId : LedgerId
  ledgerPubkey : LedgerPubKey
  height : UInt64
  entryCount : UInt64
  entryRoot : Hash
  stateRoot : Hash
  prevCommitmentHash : Hash
  issuedAt : UInt64
deriving DecidableEq

def Commitment.canonicalBytes (c : Commitment) : Bytes :=
  [.key c.ledgerId, .key c.ledgerPubkey] ++ encodeU64 c.height ++ encodeU64 c.entryCount
    ++ [.digest c.entryRoot, .digest c.stateRoot, .digest c.prevCommitmentHash]
    ++ encodeU64 c.issuedAt

/-- A commitment together with its ledger signature. -/
structure SignedCommitment where
  commitment : Commitment
  signature : Signature
deriving DecidableEq

namespace SignedCommitment

def sign (commitment : Commitment) (key : LedgerSecretKey) :
    Except LedgerError SignedCommitment :=
  if commitment.ledgerId ≠ commitment.ledgerPubkey
      ∨ commitment.ledgerPubkey ≠ Crypto.pubKey key then .error .ledgerMismatch
  else .ok { commitment, signature := Crypto.sign key commitment.canonicalBytes }

def verify (s : SignedCommitment) (expected : LedgerPubKey) : Except LedgerError Unit :=
  if s.commitment.ledgerId ≠ s.commitment.ledgerPubkey
      ∨ s.commitment.ledgerPubkey ≠ expected then .error .ledgerMismatch
  else if Crypto.verify s.commitment.ledgerPubkey s.commitment.canonicalBytes s.signature then
    .ok ()
  else .error .invalidSignature

end SignedCommitment

def commitmentHash (c : Commitment) : Hash :=
  derive "cawala-ledger/commitment/v1" [c.canonicalBytes]

/-- `height` must equal `entry_count`. -/
def checkConsistentHeight (c : Commitment) : Except LedgerError Unit :=
  if c.height ≠ c.entryCount then .error (.invalidHeight c.entryCount c.height) else .ok ()

/-- The walk of `verify_chain` behind its first element. -/
def verifyChainFrom (expected : LedgerPubKey) :
    SignedCommitment → List SignedCommitment → Except LedgerError Unit
  | _, [] => .ok ()
  | prev, current :: rest => do
      current.verify expected
      checkConsistentHeight current.commitment
      if current.commitment.height ≤ prev.commitment.height then
        .error (.invalidHeight
          (if prev.commitment.height = UInt64.ofNat (2 ^ 64 - 1) then prev.commitment.height
            else prev.commitment.height + 1)
          current.commitment.height)
      else if current.commitment.prevCommitmentHash ≠ commitmentHash prev.commitment then
        .error (.prevHashMismatch (commitmentHash prev.commitment)
          current.commitment.prevCommitmentHash)
      else verifyChainFrom expected current rest

def verifyChain (chain : List SignedCommitment) (expected : LedgerPubKey) :
    Except LedgerError Unit :=
  match chain with
  | [] => .ok ()
  | first :: rest => do
      first.verify expected
      checkConsistentHeight first.commitment
      if first.commitment.prevCommitmentHash ≠ Crypto.zero then
        .error (.prevHashMismatch Crypto.zero first.commitment.prevCommitmentHash)
      else verifyChainFrom expected first rest

/-- Verify a signed commitment under the ledger key registered for its `ledger_pubkey`. -/
def PeerRegistry.verifyCommitment (r : PeerRegistry) (signed : SignedCommitment) :
    Except LedgerError PeerKeys :=
  match r.peerByLedger signed.commitment.ledgerPubkey with
  | none => .error .unauthorized
  | some peer =>
      match peer.ledger with
      | none => .error .unauthorized
      | some ledger => do
          signed.verify ledger
          pure peer

/-- A verifiable attestation of one child account's balance at a height. -/
structure BalanceAttestation where
  edge : EdgeAccount
  ledgerPubkey : LedgerPubKey
  balance : Amount
  height : UInt64
  stateRoot : Hash
  index : ℕ
  treeSize : ℕ
  proof : List Hash
deriving DecidableEq

/-- Attest the balance of `child` under `parent` from a ledger's current state. -/
def attestBalance (ledger : Ledger) (parent child : NodeId) :
    Except LedgerError BalanceAttestation := do
  let (index, proof) ← stateInclusionProof ledger.balances (.child child)
  pure
    { edge := { parent, child }
      ledgerPubkey := ledger.ledgerPubkey
      balance := ledger.balances.childBalance child
      height := UInt64.ofNat ledger.len
      stateRoot := stateRoot ledger.balances
      index
      treeSize := ledger.balances.accounts.length
      proof }

/-- The checks of `verify_balance_attestation` ahead of the inclusion proof. -/
def checkAttestation (a : BalanceAttestation) (commitment : SignedCommitment)
    (expected : LedgerPubKey) : Except LedgerError Unit := do
  commitment.verify expected
  if commitment.commitment.ledgerPubkey ≠ expected then .error .ledgerMismatch
  else if a.ledgerPubkey ≠ expected then .error .ledgerMismatch
  else if a.height ≠ commitment.commitment.height then
    .error (.invalidHeight commitment.commitment.height a.height)
  else if a.stateRoot ≠ commitment.commitment.stateRoot then .error .stateRootMismatch
  else .ok ()

/-- Verify a balance attestation against a signed commitment and an expected ledger key;
`none` when the proof verifier does not return. -/
def verifyBalanceAttestation (target : Target) (a : BalanceAttestation)
    (commitment : SignedCommitment) (expected : LedgerPubKey) :
    Option (Except LedgerError Unit) :=
  match checkAttestation a commitment expected with
  | .error e => some (.error e)
  | .ok () =>
      match verifyStateInclusion target (.child a.edge.child) a.balance.toNat a.index
          a.treeSize a.proof commitment.commitment.stateRoot with
      | none => none
      | some true => some (.ok ())
      | some false => some (.error .invalidProof)

/-- Maximum accepted audit-path length of an entry proof. -/
def maxEntryProof : ℕ := 64

/-- An inclusion proof for one signed ledger entry. -/
structure EntryInclusionProof where
  index : UInt32
  treeSize : UInt32
  proof : List Hash
deriving DecidableEq

/-- The terminal transfer entry must credit the order's payee. -/
def verifyAppliedEntry (signed : SignedEntry) (order : PaymentOrder) (payerLeaf : Bool) :
    Except LedgerError Unit :=
  match signed.entry.body with
  | .transfer paymentId amount role =>
      if paymentId ≠ order.hash ∨ amount ≠ order.amount then .error .invalidEntryShape
      else do
        let deltas ← aggregateDeltas signed.entry.postings
        if deltas.getD (.child order.to_) 0 ≠ amount.toNat then .error .invalidEntryShape
        else if payerLeaf then
          if role ≠ .direct then .error .invalidEntryShape
          else if deltas.getD (.child order.from_) 0 ≠ -amount.toNat then
            .error .invalidEntryShape
          else .ok ()
        else if role ≠ .descend then .error .invalidEntryShape
        else .ok ()
  | _ => .error .invalidEntryShape

variable [Postcard]

/-- Build the commitment for a ledger's current prefix. -/
def buildCommitment (ledger : Ledger) (prevCommitmentHash : Hash) (issuedAt : UInt64) :
    Except LedgerError Commitment := do
  let entryRoot ← entryRoot ledger.log.entries
  pure
    { ledgerId := ledger.ledgerId
      ledgerPubkey := ledger.ledgerPubkey
      height := UInt64.ofNat ledger.len
      entryCount := UInt64.ofNat ledger.len
      entryRoot
      stateRoot := stateRoot ledger.balances
      prevCommitmentHash
      issuedAt }

/-- Build the inclusion proof for the entry at a ledger sequence number. -/
def entryInclusionProof (ledger : Ledger) (seq : UInt64) :
    Except LedgerError EntryInclusionProof :=
  let index := seq.toNat
  if index ≥ ledger.len then .error .indexOutOfRange
  else if 2 ^ 32 ≤ index ∨ 2 ^ 32 ≤ ledger.len then .error .indexOutOfRange
  else match ledger.get? index with
    | none => .error (.missingEntry index)
    | some signed =>
        if signed.entry.seq ≠ seq then .error .indexOutOfRange
        else do
          let leaves ← entryLeaves ledger.log.entries
          let proof ← inclusionProof leaves index
          pure { index := UInt32.ofNat index, treeSize := UInt32.ofNat ledger.len, proof }

/-- Verify that an entry is included under an entry root; `none` when the proof verifier
does not return. -/
def verifyEntryInclusion (target : Target) (signed : SignedEntry) (proof : EntryInclusionProof)
    (entryRoot : Hash) : Option Bool :=
  if proof.proof.length > maxEntryProof then some false
  else if proof.index ≥ proof.treeSize then some false
  else match entryHash signed.entry with
    | .error _ => some false
    | .ok hash =>
        verifyInclusion target (leafHash hash) proof.index.toNat proof.treeSize.toNat
          proof.proof entryRoot

end Cawala
