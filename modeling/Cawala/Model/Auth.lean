import Cawala.Model.Ledger

/-! # Operator authorisation and the peer registry

Off-ledger orders and requests, their domain-separated hashes, and the checks that bind
a signed entry to one of them. -/

namespace Cawala

open Std (ExtTreeMap)

variable [Crypto]

/-! ## Orders and requests -/

def encodeNodeId (id : NodeId) : Bytes := leBytes 8 (utf8 id).length ++ utf8 id

/-- A little-endian `u64`. -/
def encodeU64 (n : UInt64) : Bytes := leBytes 8 n.toNat

/-- An operator-signed payment order. -/
structure PaymentOrder where
  from_ : NodeId
  to_ : NodeId
  amount : Amount
  nonce : UInt64
  expiry : UInt64
deriving DecidableEq, Repr

/-- An operator-signed request to issue value into an account. -/
structure IssueRequest where
  node : NodeId
  account : NodeId
  amount : Amount
  nonce : UInt64
  expiry : UInt64
deriving DecidableEq, Repr

/-- An operator-signed request to burn value from an account. -/
structure BurnRequest where
  node : NodeId
  account : NodeId
  amount : Amount
  nonce : UInt64
  expiry : UInt64
deriving DecidableEq, Repr

/-- An operator-signed request to prefund a child account. -/
structure PrefundRequest where
  node : NodeId
  child : NodeId
  amount : Amount
  nonce : UInt64
  expiry : UInt64
deriving DecidableEq, Repr

/-- An operator-signed request to write off the node's `Parent` asset. -/
structure EdgeCloseRequest where
  node : NodeId
  amount : Amount
  nonce : UInt64
  expiry : UInt64
deriving DecidableEq, Repr

/-- The encoding shared by the requests that name two nodes. -/
def encodeRequest (first second : NodeId) (amount : Amount) (nonce expiry : UInt64) : Bytes :=
  encodeNodeId first ++ encodeNodeId second ++ encodeU64 amount ++ encodeU64 nonce
    ++ encodeU64 expiry

/-- An authorisation of a request hash by an operator key. -/
def authorizeHash (operator : OperatorSecretKey) (nonce : UInt64) (orderHash : Hash) :
    AuthRef where
  operator := Crypto.pubKey operator
  nonce
  orderHash
  signature := Crypto.sign operator [.digest orderHash]

namespace PaymentOrder

def encode (o : PaymentOrder) : Bytes := encodeRequest o.from_ o.to_ o.amount o.nonce o.expiry

def hash (o : PaymentOrder) : Hash := derive "cawala-ledger/order/v1" [o.encode]

def authorize (o : PaymentOrder) (operator : OperatorSecretKey) : AuthRef :=
  authorizeHash operator o.nonce o.hash

end PaymentOrder

namespace IssueRequest

def encode (r : IssueRequest) : Bytes := encodeRequest r.node r.account r.amount r.nonce r.expiry

def hash (r : IssueRequest) : Hash := derive "cawala-ledger/issue-request/v1" [r.encode]

def authorize (r : IssueRequest) (operator : OperatorSecretKey) : AuthRef :=
  authorizeHash operator r.nonce r.hash

end IssueRequest

namespace BurnRequest

def encode (r : BurnRequest) : Bytes := encodeRequest r.node r.account r.amount r.nonce r.expiry

def hash (r : BurnRequest) : Hash := derive "cawala-ledger/burn-request/v1" [r.encode]

def authorize (r : BurnRequest) (operator : OperatorSecretKey) : AuthRef :=
  authorizeHash operator r.nonce r.hash

end BurnRequest

namespace PrefundRequest

def encode (r : PrefundRequest) : Bytes := encodeRequest r.node r.child r.amount r.nonce r.expiry

def hash (r : PrefundRequest) : Hash := derive "cawala-ledger/prefund-request/v1" [r.encode]

def authorize (r : PrefundRequest) (operator : OperatorSecretKey) : AuthRef :=
  authorizeHash operator r.nonce r.hash

end PrefundRequest

namespace EdgeCloseRequest

def encode (r : EdgeCloseRequest) : Bytes :=
  encodeNodeId r.node ++ encodeU64 r.amount ++ encodeU64 r.nonce ++ encodeU64 r.expiry

def hash (r : EdgeCloseRequest) : Hash := derive "cawala-ledger/edge-close-request/v1" [r.encode]

def authorize (r : EdgeCloseRequest) (operator : OperatorSecretKey) : AuthRef :=
  authorizeHash operator r.nonce r.hash

end EdgeCloseRequest

/-- An order is valid while `now` has not passed its expiry. -/
def requireNoExpiry (expiry now : UInt64) : Except LedgerError Unit :=
  if now > expiry then .error .orderExpired else .ok ()

/-! ## The peer registry -/

/-- Whether a peer is an internal node or a leaf user. -/
inductive PeerRole where
  | node
  | user
deriving DecidableEq, Repr

/-- A peer's public identity and keys. -/
structure PeerKeys where
  nodeId : NodeId
  operator : OperatorPubKey
  ledger : Option LedgerPubKey
  role : PeerRole
deriving DecidableEq

/-- A registry of known peers, keyed by node id. -/
structure PeerRegistry where
  peers : ExtTreeMap NodeId PeerKeys

namespace PeerRegistry

def new : PeerRegistry where
  peers := ∅

/-- The role and ledger rule of a row: exactly the nodes have a ledger key. -/
def roleLedgerOk (keys : PeerKeys) : Bool :=
  match keys.role, keys.ledger.isSome with
  | .node, true | .user, false => true
  | .node, false | .user, true => false

/-- The registered peers, in the order of their ids. -/
def rows (r : PeerRegistry) : List PeerKeys := r.peers.toList.map Prod.snd

def insert (r : PeerRegistry) (keys : PeerKeys) : Except LedgerError PeerRegistry :=
  if !roleLedgerOk keys then .error .invalidPeerKeys
  else if r.rows.any (fun peer => peer.operator == keys.operator) then
    .error .duplicateKey
  else if keys.ledger.isSome && r.rows.any (fun peer =>
      peer.ledger.isSome && peer.ledger == keys.ledger) then .error .duplicateKey
  else if r.peers.contains keys.nodeId then .error .duplicatePeer
  else .ok { peers := r.peers.insert keys.nodeId keys }

/-- The registries the crate can build: rows enter only through `insert`, also when a
registry is decoded. -/
inductive Built : PeerRegistry → Prop where
  | new : Built new
  | insert {r next : PeerRegistry} {keys : PeerKeys} (hr : Built r)
      (h : r.insert keys = .ok next) : Built next

def get (r : PeerRegistry) (id : NodeId) : Option PeerKeys := r.peers[id]?

/-- The registered operator key for a node, if known. -/
def operatorOf (r : PeerRegistry) (id : NodeId) : Option OperatorPubKey :=
  (r.get id).map (·.operator)

def ledgerOf (r : PeerRegistry) (id : NodeId) : Option LedgerPubKey :=
  (r.get id).bind (·.ledger)

def peerByLedger (r : PeerRegistry) (ledger : LedgerPubKey) : Option PeerKeys :=
  r.rows.find? fun peer => peer.ledger == some ledger

variable [Postcard]

/-- Verify a signed entry under the ledger key registered for its `ledger_id`. -/
def verifyEntry (r : PeerRegistry) (signed : SignedEntry) : Except LedgerError PeerKeys :=
  match r.peerByLedger signed.entry.ledgerId with
  | none => .error .unauthorized
  | some peer =>
      match peer.ledger with
      | none => .error .unauthorized
      | some ledger => do
          signed.verify ledger
          pure peer

end PeerRegistry

/-! ## Verification of authorised entries -/

/-- The debited and the credited child of a posting set, at most one of each. -/
def debitedCredited (deltas : Deltas) : Except LedgerError (Option NodeId × Option NodeId) :=
  deltas.toList.foldlM (fun (debited, credited) (account, delta) =>
    match account with
    | .parent => .ok (debited, credited)
    | .child id =>
        if delta < 0 then
          if debited.isSome then .error .invalidEntryShape else .ok (some id, credited)
        else if delta > 0 then
          if credited.isSome then .error .invalidEntryShape else .ok (debited, some id)
        else .ok (debited, credited)) (none, none)

/-- A direct transfer must debit the payer and credit the payee of its order. -/
def verifyDirectEndpoints (postings : List Posting) (order : PaymentOrder) :
    Except LedgerError Unit := do
  let deltas ← aggregateDeltas postings
  let (debited, credited) ← debitedCredited deltas
  if debited ≠ some order.from_ ∨ credited ≠ some order.to_ then .error .invalidEntryShape
  else .ok ()

/-- Check an operator signature over a request hash. -/
def verifyOperator (auth : AuthRef) (orderHash : Hash) : Except LedgerError Unit :=
  if Crypto.verify auth.operator [.digest orderHash] auth.signature then .ok ()
  else .error .invalidSignature

variable [Postcard]

/-- Verify that a signed transfer hop carries a valid authorisation for `order`. -/
def verifyTransfer (signed : SignedEntry) (order : PaymentOrder) (registry : PeerRegistry)
    (now : UInt64) : Except LedgerError Unit := do
  signed.entry.checkConservation
  let _ ← registry.verifyEntry signed
  match signed.entry.body with
  | .transfer paymentId amount role =>
      match signed.entry.auth with
      | none => .error .missingAuthorization
      | some auth =>
          match registry.operatorOf order.from_ with
          | none => .error .unauthorized
          | some payerOperator =>
              if auth.operator ≠ payerOperator then .error .unauthorized
              else if auth.orderHash ≠ order.hash ∨ auth.nonce ≠ order.nonce then
                .error .orderMismatch
              else do
                requireNoExpiry order.expiry now
                if paymentId ≠ order.hash ∨ amount ≠ order.amount then
                  .error .invalidEntryShape
                else do
                  if role = .direct then verifyDirectEndpoints signed.entry.postings order
                  verifyOperator auth order.hash
  | _ => .error .invalidEntryShape

/-- The steps shared by the node-level checks: the entry is signed by the ledger of
`node` and authorised by its operator. `shape` is the body pattern, `early` a binding
made before the hash comparison, `late` the payload comparison after it. -/
def verifyRequest (signed : SignedEntry) (registry : PeerRegistry) (now : UInt64)
    (node : NodeId) (requestHash : Hash) (nonce expiry : UInt64) (shape : Bool)
    (early late : Except LedgerError Unit) : Except LedgerError Unit := do
  signed.entry.checkConservation
  let signer ← registry.verifyEntry signed
  if signer.nodeId ≠ node then .error .ledgerMismatch
  else if !shape then .error .invalidEntryShape
  else match signed.entry.auth with
    | none => .error .missingAuthorization
    | some auth =>
        if auth.operator ≠ signer.operator then .error .unauthorized
        else do
          early
          if auth.orderHash ≠ requestHash ∨ auth.nonce ≠ nonce then .error .orderMismatch
          else do
            requireNoExpiry expiry now
            late
            verifyOperator auth requestHash

/-- A payload comparison of the `verify_*` functions. -/
def requireShape (ok : Bool) : Except LedgerError Unit :=
  if ok then .ok () else .error .invalidEntryShape

/-- Verify that a signed issue entry carries a valid authorisation for `request`. -/
def verifyIssue (signed : SignedEntry) (request : IssueRequest) (registry : PeerRegistry)
    (now : UInt64) : Except LedgerError Unit :=
  verifyRequest signed registry now request.node request.hash request.nonce request.expiry
    (match signed.entry.body with | .issue .. => true | _ => false)
    (.ok ())
    (match signed.entry.body with
      | .issue child amount =>
          requireShape (child == request.account && amount == request.amount)
      | _ => .ok ())

/-- Verify that a signed burn entry carries a valid authorisation for `request`. -/
def verifyBurn (signed : SignedEntry) (request : BurnRequest) (registry : PeerRegistry)
    (now : UInt64) : Except LedgerError Unit :=
  verifyRequest signed registry now request.node request.hash request.nonce request.expiry
    (match signed.entry.body with | .burn .. => true | _ => false)
    (.ok ())
    (match signed.entry.body with
      | .burn child amount =>
          requireShape (child == request.account && amount == request.amount)
      | _ => .ok ())

/-- Verify that a signed edge-close entry carries a valid authorisation for `request`. -/
def verifyEdgeClose (signed : SignedEntry) (request : EdgeCloseRequest)
    (registry : PeerRegistry) (now : UInt64) : Except LedgerError Unit :=
  verifyRequest signed registry now request.node request.hash request.nonce request.expiry
    (match signed.entry.body with | .edgeClose _ => true | _ => false)
    (.ok ())
    (match signed.entry.body with
      | .edgeClose amount => requireShape (amount == request.amount)
      | _ => .ok ())

/-- The single credited child of a prefund must be the requested one. -/
def verifyPrefundCredit (postings : List Posting) (request : PrefundRequest) :
    Except LedgerError Unit := do
  let deltas ← aggregateDeltas postings
  let credited ← deltas.toList.foldlM (fun credited (account, delta) =>
    match account with
    | .child id =>
        if delta > 0 then
          if credited.isSome then Except.error .invalidEntryShape else .ok (some id)
        else .ok credited
    | .parent => .ok credited) none
  requireShape (credited == some request.child)

/-- Verify that a signed prefund entry carries a valid authorisation for `request`. -/
def verifyPrefund (signed : SignedEntry) (request : PrefundRequest) (registry : PeerRegistry)
    (now : UInt64) : Except LedgerError Unit :=
  verifyRequest signed registry now request.node request.hash request.nonce request.expiry
    (match signed.entry.body with | .transfer _ _ .descend => true | _ => false)
    (match signed.entry.body with
      | .transfer paymentId _ _ => requireShape (paymentId == request.hash)
      | _ => .ok ())
    (match signed.entry.body with
      | .transfer _ amount _ => do
          verifyPrefundCredit signed.entry.postings request
          requireShape (amount == request.amount)
      | _ => .ok ())

end Cawala
