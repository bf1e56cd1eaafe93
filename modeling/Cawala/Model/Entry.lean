import Cawala.Model.Account

/-! # Ledger entries

The signed, conserved units of the append-only log, with the append-time check of
their postings. -/

namespace Cawala

/-- The position of a transfer hop within the settlement cascade. -/
inductive HopRole where
  | ascend
  | lca
  | descend
  | direct
deriving DecidableEq, Repr

variable [Crypto]

/-- Operator authorisation attached to an entry. -/
structure AuthRef where
  operator : OperatorPubKey
  nonce : UInt64
  orderHash : Hash
  signature : Signature
deriving DecidableEq

inductive EntryBody where
  | openAccount (child : NodeId) (kind : ChildKind)
  | transfer (paymentId : Hash) (amount : Amount) (role : HopRole)
  | issue (child : NodeId) (amount : Amount)
  | burn (child : NodeId) (amount : Amount)
  | rotateLedgerKey (newKey : LedgerPubKey) (operatorSig : Signature)
  | edgeClose (amount : Amount)
deriving DecidableEq

/-- The posting rule a body must obey. -/
def EntryBody.postingRule : EntryBody → PostingRule
  | .issue .. | .burn .. => .boundary
  | .edgeClose _ => .boundaryParent
  | _ => .balanced

structure Entry where
  ledgerId : LedgerId
  seq : UInt64
  height : UInt64
  prevHash : Hash
  issuedAt : UInt64
  body : EntryBody
  postings : List Posting
  auth : Option AuthRef
deriving DecidableEq

/-- The postcard serializer, as far as it is applied to entries. -/
class Postcard where
  /-- `postcard::to_allocvec`; the error is the text of the codec's own error. -/
  toAllocvec : Entry → Except String Bytes

namespace Entry

def requiresAuth (e : Entry) : Bool :=
  match e.body with
  | .transfer .. | .issue .. | .burn .. | .edgeClose _ => true
  | _ => false

def childDeltas (deltas : Deltas) : List ℤ :=
  deltas.toList.filterMap fun (account, delta) =>
    match account with
    | .child _ => some delta
    | .parent => none

/-- The role-canonical shape of a transfer of `amount`. -/
def canonicalTransfer (deltas : Deltas) (amount : ℤ) (role : HopRole) : Bool :=
  let parent := deltas.getD .parent 0
  let children := childDeltas deltas
  match role with
  | .ascend =>
      deltas.size == 2 && parent == -amount && children.length == 1
        && children[0]? == some (-amount)
  | .descend =>
      deltas.size == 2 && parent == amount && children.length == 1
        && children[0]? == some amount
  | .direct | .lca =>
      deltas.size == 2 && children.length == 2
        && deltas.keys.all (fun account => match account with
            | .child _ => true
            | .parent => false)
        && (children.filter (· == amount)).length == 1
        && (children.filter (· == -amount)).length == 1

/-- Enforce the canonical posting shape for the declared body. -/
def validateShape (e : Entry) (deltas : Deltas) : Except LedgerError Unit :=
  match e.body with
  | .openAccount .. =>
      if e.postings.isEmpty then .ok () else .error .invalidEntryShape
  | .transfer _ amount role =>
      if amount = 0 then .error .invalidEntryShape
      else if canonicalTransfer deltas amount.toNat role then .ok ()
      else .error .invalidEntryShape
  | .issue child amount =>
      if amount = 0 then .error .invalidEntryShape
      else if deltas.size == 1 && deltas[AccountRef.child child]? == some (amount.toNat : ℤ)
        then .ok ()
      else .error .invalidEntryShape
  | .burn child amount =>
      if amount = 0 then .error .invalidEntryShape
      else if deltas.size == 1 && deltas[AccountRef.child child]? == some (-amount.toNat : ℤ)
        then .ok ()
      else .error .invalidEntryShape
  | .edgeClose amount =>
      if amount = 0 then .error .invalidEntryShape
      else if deltas.size == 1 && deltas[AccountRef.parent]? == some (-amount.toNat : ℤ)
        then .ok ()
      else .error .invalidEntryShape
  | .rotateLedgerKey .. => .error .unsupported

/-- A transfer's payment id must be the hash its operator authorised. -/
def checkPaymentId (e : Entry) : Except LedgerError Unit :=
  match e.body with
  | .transfer paymentId _ _ =>
      match e.auth with
      | none => .error .missingAuthorization
      | some auth =>
          if paymentId ≠ auth.orderHash then .error .invalidEntryShape else .ok ()
  | _ => .ok ()

/-- Validate the posting set against the per-entry rule and the canonical shape
declared by the body. -/
def checkConservation (e : Entry) : Except LedgerError Unit :=
  match e.body with
  | .rotateLedgerKey .. => .error .unsupported
  | _ =>
    if e.requiresAuth && e.auth.isNone then .error .missingAuthorization
    else do
      e.checkPaymentId
      let deltas ← aggregateDeltas e.postings
      checkPostingRule deltas e.body.postingRule
      e.validateShape deltas

variable [Postcard]

/-- The canonical signed bytes: the format version, then the postcard encoding. -/
def canonicalBytes (e : Entry) : Except LedgerError Bytes :=
  match Postcard.toAllocvec e with
  | .ok body => .ok (.byte 4 :: body)
  | .error detail => .error (.encode detail)

end Entry

/-- An entry together with its ledger signature. -/
structure SignedEntry where
  entry : Entry
  signature : Signature
deriving DecidableEq

variable [Postcard]

namespace SignedEntry

def sign (entry : Entry) (key : LedgerSecretKey) : Except LedgerError SignedEntry := do
  let bytes ← entry.canonicalBytes
  pure { entry, signature := Crypto.sign key bytes }

/-- Verify the signature under a key, rejecting an entry of another ledger first. -/
def verify (s : SignedEntry) (key : LedgerPubKey) : Except LedgerError Unit :=
  if s.entry.ledgerId ≠ key then .error .ledgerMismatch
  else do
    let bytes ← s.entry.canonicalBytes
    if Crypto.verify key bytes s.signature then .ok () else .error .invalidSignature

end SignedEntry

/-! ## Domain-separated hashes -/

/-- BLAKE3 derive-key hashing of a list of message parts. -/
def derive (context : String) (parts : List Bytes) : Hash :=
  Crypto.blake3 context parts.flatten

def entryHash (e : Entry) : Except LedgerError Hash := do
  let bytes ← e.canonicalBytes
  pure (derive "cawala-ledger/entry/v1" [bytes])

/-- Merkle leaf hash over an entry hash. -/
def leafHash (leaf : Hash) : Hash :=
  derive "cawala-ledger/leaf/v1" [[.digest leaf]]

/-- Merkle internal-node hash over two child hashes. -/
def nodeHash (left right : Hash) : Hash :=
  derive "cawala-ledger/node/v1" [[.digest left], [.digest right]]

/-- The message hashed for a state leaf: a tag, the length-prefixed child id, and the
balance as sixteen little-endian bytes. -/
def stateLeafBytes (account : AccountRef) (balance : ℤ) : Bytes :=
  (match account with
    | .parent => [.byte 0]
    | .child id => [.byte 1] ++ leBytes 4 (utf8 id).length ++ utf8 id)
    ++ leBytes 16 (balance.emod (2 ^ 128)).toNat

def stateLeafHash (account : AccountRef) (balance : ℤ) : Hash :=
  derive "cawala-ledger/state/v1" [stateLeafBytes account balance]

def emptyTreeRoot : Hash := derive "cawala-ledger/empty/v1" []

end Cawala
