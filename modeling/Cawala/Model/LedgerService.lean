import Cawala.Library.Transaction
import Cawala.Model.SettleRoute

/-! # The ledger service of a node

Transactions on one data directory: each takes the exclusive ledger lock, replays the frame
log, and appends. Several processes may share the directory. -/

namespace Cawala

open Std (ExtTreeMap)
open Library

variable [Crypto]

inductive OrderStatus where
  | applied
  | duplicate
  | rejected
deriving DecidableEq, Repr

/-- The result of applying one order. -/
structure ApplyOutcome where
  status : OrderStatus
  entrySeq : Option UInt64
  entryHash : Option Hash
  reason : Option OrderReject
deriving DecidableEq

def ApplyOutcome.rejected (reason : OrderReject) : ApplyOutcome where
  status := .rejected
  entrySeq := none
  entryHash := none
  reason := some reason

/-- The result of applying one hop of a cascade. -/
inductive HopOutcome where
  | applied (seq : UInt64) (hash : Hash)
  | duplicate (seq : UInt64) (hash : Hash)
  | rejected (reason : OrderReject)
deriving DecidableEq

/-- Whether a value operation creates or destroys value. -/
inductive ValueDirection where
  | issue
  | burn
deriving DecidableEq, Repr

/-- One applied value operation. -/
structure ValueRecord where
  direction : ValueDirection
  account : NodeId
  amount : Amount
  seq : UInt64
  entryHash : Hash
  orderHash : Hash
deriving DecidableEq

/-- An applied or deduplicated value operation. -/
structure ValueApplied where
  seq : UInt64
  entryHash : Hash
  balanceAfter : Amount
  orderHash : Hash
  duplicate : Bool
deriving DecidableEq

/-- `payment_id -> (seq, entry hash)` for every applied transfer. -/
abbrev ConsumedIndex : Type := ExtTreeMap Hash (UInt64 × Hash)

/-- `(operator, nonce) -> record` for every applied issue and burn. -/
abbrev ValueIndex : Type := ExtTreeMap (OperatorPubKey ×ₗ UInt64) ValueRecord

/-- Why a transaction failed, by the step that failed. -/
inductive ServiceError where
  | contended
  | unreadable
  | corrupt
  | replay (e : LedgerError)
  | zeroAmount
  | root
  | attached
  | alreadyApplied (nonce : UInt64)
  | amountRange
  | insufficientBalance
  | requestIdConflict
  | identity
  | peers
  | selfRow
  | refused (reason : OrderReject)
  | signing (e : LedgerError)
  | verification (e : LedgerError)
  | hashing (e : LedgerError)
  | append (e : LedgerError)
deriving DecidableEq

/-- Tag a ledger error with the step it comes from. -/
def tagged {α : Type} (tag : LedgerError → ServiceError) : Except LedgerError α →
    Except ServiceError α
  | .ok a => .ok a
  | .error e => .error (tag e)

/-- The service of one process: the replayed ledger, its key, and the replay guards. -/
structure LedgerService where
  nodeId : NodeId
  ledger : Ledger
  key : LedgerSecretKey
  isRoot : Bool
  consumed : ConsumedIndex
  valueIndex : ValueIndex

/-- The frame log on disk, with the service of the process that runs a transaction. -/
structure Desk where
  frames : List SignedEntry
  service : LedgerService

/-- What the file system and the clock give one transaction: whether the lock is free and
the ledger files are readable, what the node record, the peer file and the identity hold,
and which frame writes fail. -/
structure TxEnv where
  locked : Bool
  readable : Bool
  isRoot : Bool
  peers : Option PeerRegistry
  operator : Option OperatorSecretKey
  writeError : ℕ → Option LedgerError
  clock : UInt64

abbrev Tx (α : Type) : Type := Transaction Desk ServiceError α

variable [Postcard]

/-! ## Loading -/

/-- The checks of `parse_frames` on the decoded frames: dense sequence, linked heads. -/
def parseFrame (parsed : ℕ × Hash) (signed : SignedEntry) : Except ServiceError (ℕ × Hash) :=
  if signed.entry.seq ≠ UInt64.ofNat parsed.1 then .error .corrupt
  else if signed.entry.prevHash ≠ parsed.2 then .error .corrupt
  else match entryHash signed.entry with
  | .ok head => .ok (parsed.1 + 1, head)
  | .error _ => .error .corrupt

def openLedger (key : LedgerSecretKey) (frames : List SignedEntry) :
    Except ServiceError Ledger := do
  let _ ← frames.foldlM parseFrame (0, Crypto.zero)
  tagged .replay (frames.foldlM Ledger.append (Ledger.new (Crypto.pubKey key)))

/-- One step of `rebuild_consumed`: the first transfer of a payment is kept. -/
def consumeEntry (consumed : ConsumedIndex) (signed : SignedEntry) :
    Except LedgerError ConsumedIndex :=
  match signed.entry.body with
  | .transfer paymentId .. => do
      let hash ← entryHash signed.entry
      pure (if consumed.contains paymentId then consumed
        else consumed.insert paymentId (signed.entry.seq, hash))
  | _ => pure consumed

/-- Rebuild `payment_id -> (seq, entry hash)` from every applied transfer. -/
def rebuildConsumed (ledger : Ledger) : Except LedgerError ConsumedIndex :=
  ledger.log.entries.foldlM consumeEntry ∅

def valueOperation : EntryBody → Option (ValueDirection × NodeId × Amount)
  | .issue child amount => some (.issue, child, amount)
  | .burn child amount => some (.burn, child, amount)
  | _ => none

/-- One step of `rebuild_value_index`. -/
def indexValue (index : ValueIndex) (signed : SignedEntry) : Except LedgerError ValueIndex :=
  match valueOperation signed.entry.body, signed.entry.auth with
  | some (direction, account, amount), some auth => do
      let hash ← entryHash signed.entry
      let key := toLex (auth.operator, auth.nonce)
      pure (if index.contains key then index
        else index.insert key
          { direction, account, amount, seq := signed.entry.seq, entryHash := hash
            orderHash := auth.orderHash })
  | _, _ => pure index

/-- Rebuild `(operator, nonce) -> record` from every applied issue and burn. -/
def rebuildValueIndex (ledger : Ledger) : Except LedgerError ValueIndex :=
  ledger.log.entries.foldlM indexValue ∅

/-- Replay the ledger of a data directory and rebuild the replay guards. -/
def load (env : TxEnv) (key : LedgerSecretKey) (frames : List SignedEntry) :
    Except ServiceError (Ledger × ConsumedIndex × ValueIndex) :=
  if !env.readable then .error .unreadable
  else do
    let ledger ← openLedger key frames
    let consumed ← tagged .replay (rebuildConsumed ledger)
    let valueIndex ← tagged .replay (rebuildValueIndex ledger)
    pure (ledger, consumed, valueIndex)

namespace LedgerService

def open_ (env : TxEnv) (nodeId : NodeId) (key : LedgerSecretKey) (frames : List SignedEntry) :
    Except ServiceError LedgerService := do
  let (ledger, consumed, valueIndex) ← load env key frames
  pure { nodeId, ledger, key, isRoot := env.isRoot, consumed, valueIndex }

/-- A copy of the accepted entry at a sequence number. -/
def entryAt (s : LedgerService) (seq : UInt64) : Except LedgerError SignedEntry :=
  match s.ledger.get? seq.toNat with
  | some signed => .ok signed
  | none => .error (.missingEntry seq.toNat)

/-- The current balance of a child's account. -/
def balanceOf (s : LedgerService) (child : NodeId) : Amount :=
  s.ledger.balances.childBalance child

def selfRow (s : LedgerService) (operator : OperatorSecretKey) : PeerKeys where
  nodeId := s.nodeId
  operator := Crypto.pubKey operator
  ledger := some (Crypto.pubKey s.key)
  role := .node

/-- The persisted peers plus the row of the node itself. -/
def effectiveRegistry (s : LedgerService) (env : TxEnv) : Except ServiceError PeerRegistry :=
  match env.peers, env.operator with
  | none, _ => .error .peers
  | some _, none => .error .identity
  | some registry, some operator =>
      match registry.get s.nodeId with
      | some existing =>
          if existing.role ≠ .node ∨ existing.operator ≠ Crypto.pubKey operator
              ∨ existing.ledger ≠ some (Crypto.pubKey s.key) then .error .selfRow
          else .ok registry
      | none => tagged (fun _ => .selfRow) (registry.insert (s.selfRow operator))

def nextEntry (s : LedgerService) (issuedAt : UInt64) (body : EntryBody)
    (postings : List Posting) (auth : Option AuthRef) : Entry where
  ledgerId := Crypto.pubKey s.key
  seq := UInt64.ofNat s.ledger.len
  height := UInt64.ofNat s.ledger.len
  prevHash := s.ledger.headHash
  issuedAt
  body
  postings
  auth

end LedgerService

/-! ## Steps of a transaction -/

/-- Re-read the ledger on disk, replacing the one in memory. -/
def refreshFromDisk (env : TxEnv) : Tx PUnit := do
  let desk ← get
  let (ledger, consumed, valueIndex) ←
    Transaction.ofExcept (load env desk.service.key desk.frames)
  set { desk with
    service := { desk.service with ledger, isRoot := env.isRoot, consumed, valueIndex } }

/-- Take the exclusive lock and refresh. -/
def beginTransaction (env : TxEnv) : Tx PUnit := do
  Transaction.refuseIf (env.locked = false) .contended
  refreshFromDisk env

/-- `Ledger::append` over the frame log: the entry is checked, its frame is written, and
the ledger in memory follows. -/
def appendSigned (env : TxEnv) (signed : SignedEntry) : Tx PUnit := do
  let desk ← get
  let ledger ← Transaction.ofExcept (tagged .append (desk.service.ledger.append signed))
  Transaction.ofExcept (match env.writeError desk.service.ledger.len with
    | some e => .error (.append e)
    | none => .ok ⟨⟩)
  set { desk with frames := desk.frames ++ [signed], service := { desk.service with ledger } }

def signAndAppend (env : TxEnv) (entry : Entry) (registry : LedgerService →
    Except ServiceError PeerRegistry) (verify : SignedEntry → PeerRegistry →
    Except LedgerError Unit) : Tx (UInt64 × Hash) := do
  let desk ← get
  let signed ← Transaction.ofExcept (tagged .signing (SignedEntry.sign entry desk.service.key))
  let peers ← Transaction.ofExcept (registry desk.service)
  Transaction.ofExcept (tagged .verification (verify signed peers))
  let hash ← Transaction.ofExcept (tagged .hashing (entryHash signed.entry))
  appendSigned env signed
  pure (entry.seq, hash)

/-- Record a payment in the replay guard. -/
def consume (paymentId : Hash) (applied : UInt64 × Hash) : Tx PUnit :=
  modify fun desk => { desk with
    service := { desk.service with
      consumed := desk.service.consumed.insert paymentId applied } }

def signedRange (e : ServiceError) (amount : Amount) : Except ServiceError SignedAmount :=
  tagged (fun _ => e) (checkedI64 amount)

/-- `now.saturating_add(3600)`. -/
def expiryAfter (now : UInt64) : UInt64 :=
  if now.toNat + 3600 < 2 ^ 64 then now + 3600 else UInt64.ofNat (2 ^ 64 - 1)

/-! ## Operator transactions -/

/-- Materialize a child's account, once; the ledger is already refreshed. -/
def ensureAccountOpenInner (env : TxEnv) (child : NodeId) (kind : ChildKind) : Tx Bool := do
  let desk ← get
  if isOpened desk.service.ledger.balances (.child child) then pure false
  else do
    let signed ← Transaction.ofExcept (tagged .signing (SignedEntry.sign
      (desk.service.nextEntry env.clock (.openAccount child kind) [] none) desk.service.key))
    appendSigned env signed
    pure true

def ensureAccountOpen (env : TxEnv) (child : NodeId) (kind : ChildKind) : Tx Bool := do
  beginTransaction env
  ensureAccountOpenInner env child kind

/-- Append an issue entry; returns its position and the request hash. -/
def applyIssue (env : TxEnv) (account : NodeId) (amount : Amount) (operator : OperatorSecretKey)
    (nonce now : UInt64) : Tx ((UInt64 × Hash) × Hash) := do
  let desk ← get
  let request : IssueRequest :=
    { node := desk.service.nodeId, account, amount, nonce, expiry := expiryAfter now }
  let delta ← Transaction.ofExcept (signedRange .amountRange amount)
  let applied ← signAndAppend env
    (desk.service.nextEntry now (.issue account amount) [⟨.child account, delta⟩]
      (some (request.authorize operator)))
    (·.effectiveRegistry env) (verifyIssue · request · now)
  pure (applied, request.hash)

def applyBurn (env : TxEnv) (account : NodeId) (amount : Amount) (operator : OperatorSecretKey)
    (nonce now : UInt64) : Tx ((UInt64 × Hash) × Hash) := do
  let desk ← get
  Transaction.refuseIf (desk.service.balanceOf account < amount) .insufficientBalance
  let request : BurnRequest :=
    { node := desk.service.nodeId, account, amount, nonce, expiry := expiryAfter now }
  let delta ← Transaction.ofExcept (signedRange .amountRange amount)
  let applied ← signAndAppend env
    (desk.service.nextEntry now (.burn account amount) [⟨.child account, -delta⟩]
      (some (request.authorize operator)))
    (·.effectiveRegistry env) (verifyBurn · request · now)
  pure (applied, request.hash)

def recordValue (direction : ValueDirection) (account : NodeId) (amount : Amount)
    (operator : OperatorSecretKey) (nonce : UInt64) (applied : (UInt64 × Hash) × Hash) :
    Tx ValueApplied := do
  let record : ValueRecord :=
    { direction, account, amount, seq := applied.1.1, entryHash := applied.1.2
      orderHash := applied.2 }
  modify fun desk => { desk with
    service := { desk.service with
      valueIndex := desk.service.valueIndex.insert (toLex (Crypto.pubKey operator, nonce))
        record } }
  let desk ← get
  pure { seq := record.seq, entryHash := record.entryHash
         balanceAfter := desk.service.balanceOf account
         orderHash := record.orderHash, duplicate := false }

/-- Issue value into a child's account, which is opened first if needed. -/
def fund (env : TxEnv) (to_ : NodeId) (kind : ChildKind) (amount : Amount)
    (operator : OperatorSecretKey) (nonce now : UInt64) : Tx (UInt64 × Hash) := do
  Transaction.refuseIf (amount = 0) .zeroAmount
  beginTransaction env
  let _ ← ensureAccountOpenInner env to_ kind
  let applied ← applyIssue env to_ amount operator nonce now
  pure applied.1

/-- Destroy value of a child's account. -/
def burn (env : TxEnv) (from_ : NodeId) (amount : Amount) (operator : OperatorSecretKey)
    (nonce now : UInt64) : Tx (UInt64 × Hash) := do
  Transaction.refuseIf (amount = 0) .zeroAmount
  beginTransaction env
  let applied ← applyBurn env from_ amount operator nonce now
  let _ ← recordValue .burn from_ amount operator nonce applied
  pure applied.1

/-- The ledger nonce of a value request, bound to its controller. -/
def deriveValueNonce (controller : OperatorPubKey) (requestId : Vector UInt8 16) : UInt64 :=
  Crypto.digestWord (Crypto.blake3 "cawala-node/admin-value/v1"
    (.key controller :: requestId.toList.map .byte))

def answerValue (prior : ValueRecord) (direction : ValueDirection) (account : NodeId)
    (amount balance : Amount) : Except ServiceError ValueApplied :=
  if prior.direction = direction ∧ prior.account = account ∧ prior.amount = amount then
    .ok { seq := prior.seq, entryHash := prior.entryHash, balanceAfter := balance
          orderHash := prior.orderHash, duplicate := true }
  else .error .requestIdConflict

/-- Apply one delegated value operation, at most once for each request id. -/
def adminValueApply (env : TxEnv) (direction : ValueDirection) (account : NodeId)
    (kind : ChildKind) (amount : Amount) (controller : OperatorPubKey)
    (requestId : Vector UInt8 16) (now : UInt64) : Tx ValueApplied := do
  Transaction.refuseIf (amount = 0) .zeroAmount
  beginTransaction env
  let operator ← Transaction.ofExcept (match env.operator with
    | some operator => .ok operator
    | none => .error .identity)
  let nonce := deriveValueNonce controller requestId
  let desk ← get
  match desk.service.valueIndex[toLex (Crypto.pubKey operator, nonce)]? with
  | some prior =>
      Transaction.ofExcept
        (answerValue prior direction account amount (desk.service.balanceOf account))
  | none =>
      match direction with
      | .issue => do
          let _ ← ensureAccountOpenInner env account kind
          let applied ← applyIssue env account amount operator nonce now
          recordValue .issue account amount operator nonce applied
      | .burn => do
          let applied ← applyBurn env account amount operator nonce now
          recordValue .burn account amount operator nonce applied

/-- Extend value from the `Parent` account into a child's account. A replay is refused
before anything is appended. -/
def prefund (env : TxEnv) (child : NodeId) (kind : ChildKind) (amount : Amount)
    (operator : OperatorSecretKey) (nonce now : UInt64) : Tx (UInt64 × Hash) := do
  Transaction.refuseIf (amount = 0) .zeroAmount
  beginTransaction env
  let desk ← get
  Transaction.refuseIf (desk.service.isRoot = true) .root
  let request : PrefundRequest :=
    { node := desk.service.nodeId, child, amount, nonce, expiry := expiryAfter now }
  Transaction.refuseIf (request.hash ∈ desk.service.consumed) (.alreadyApplied nonce)
  let _ ← ensureAccountOpenInner env child kind
  let delta ← Transaction.ofExcept (signedRange .amountRange amount)
  let desk ← get
  let applied ← signAndAppend env
    (desk.service.nextEntry now (.transfer request.hash amount .descend)
      [⟨.parent, delta⟩, ⟨.child child, delta⟩] (some (request.authorize operator)))
    (·.effectiveRegistry env) (verifyPrefund · request · now)
  consume request.hash applied
  pure applied

/-- Write off the node's `Parent` asset. -/
def edgeClose (env : TxEnv) (operator : OperatorSecretKey) (nonce now : UInt64) :
    Tx (Option (UInt64 × Hash)) := do
  beginTransaction env
  let desk ← get
  let amount := desk.service.ledger.balances.parentBalance
  if amount = 0 then pure none
  else do
    Transaction.refuseIf (desk.service.isRoot = false) .attached
    let request : EdgeCloseRequest :=
      { node := desk.service.nodeId, amount, nonce, expiry := expiryAfter now }
    let delta ← Transaction.ofExcept (signedRange .amountRange amount)
    let applied ← signAndAppend env
      (desk.service.nextEntry now (.edgeClose amount) [⟨.parent, -delta⟩]
        (some (request.authorize operator)))
      (·.effectiveRegistry env) (verifyEdgeClose · request · now)
    pure (some applied)

/-! ## Orders and hops -/

def childKind (record : NodeRecord) (id : NodeId) : Option ChildKind :=
  (record.children.find? fun child => child.childId == id).map (·.kind)

def rejectReason : LedgerError → OrderReject
  | .insufficientBalance => .insufficientBalance
  | .accountNotOpened _ => .accountNotOpened
  | .orderExpired => .expired
  | .orderMismatch | .invalidEntryShape => .badRequest
  | .unauthorized | .missingAuthorization | .invalidSignature => .unauthorized
  | _ => .internal

/-- The wire reason for a failed order or hop transaction. -/
def ServiceError.orderReject : ServiceError → OrderReject
  | .refused reason => reason
  | .verification e | .append e => rejectReason e
  | _ => .internal

/-- Answer from the replay guard, or apply a transfer of the order and record it. -/
def transferOnce (env : TxEnv) (order : PaymentOrder) (auth : AuthRef) (role : HopRole)
    (first second : AccountRef) (registry : LedgerService → Except ServiceError PeerRegistry)
    (now : UInt64) : Tx (Bool × UInt64 × Hash) := do
  let desk ← get
  match desk.service.consumed[order.hash]? with
  | some prior => pure (false, prior)
  | none => do
      let amount ← Transaction.ofExcept (signedRange (.refused .badRequest) order.amount)
      let applied ← signAndAppend env
        (desk.service.nextEntry now (.transfer order.hash order.amount role)
          (hopPostings role first second amount) (some auth))
        registry (verifyTransfer · order · now)
      consume order.hash applied
      pure (true, applied)

/-- Verify and apply a same-leaf order. -/
def applyOrderTx (env : TxEnv) (order : PaymentOrder) (auth : AuthRef) (sender : NodeId)
    (record : NodeRecord) (now : UInt64) : Tx (Bool × UInt64 × Hash) := do
  beginTransaction env
  Transaction.refuseIf (order.from_ ≠ sender ∨ order.from_ = order.to_ ∨ order.amount = 0)
    (.refused .badRequest)
  Transaction.refuseIf (childKind record order.from_ ≠ some .user
    ∨ childKind record order.to_ ≠ some .user) (.refused .notAChild)
  transferOnce env order auth .direct (.child order.from_) (.child order.to_)
    (·.effectiveRegistry env) now

/-- Apply one hop of a cross-subtree cascade. -/
def applyHopTx (env : TxEnv) (order : PaymentOrder) (auth : AuthRef) (role : HopRole)
    (first second : AccountRef) (registry : PeerRegistry) (now : UInt64) :
    Tx (Bool × UInt64 × Hash) := do
  beginTransaction env
  Transaction.refuseIf (order.amount = 0 ∨ order.from_ = order.to_) (.refused .badRequest)
  transferOnce env order auth role first second (fun _ => .ok registry) now

/-- `apply_order`: the outcome, and the frames and the service it leaves. -/
def applyOrder (env : TxEnv) (order : PaymentOrder) (auth : AuthRef) (sender : NodeId)
    (record : NodeRecord) (now : UInt64) (desk : Desk) : ApplyOutcome × Desk :=
  match (applyOrderTx env order auth sender record now).exec desk with
  | (.ok (fresh, seq, hash), after) =>
      ({ status := if fresh then .applied else .duplicate, entrySeq := some seq
         entryHash := some hash, reason := none }, after)
  | (.error e, after) => (.rejected e.orderReject, after)

/-- `apply_hop`: the outcome, and the frames and the service it leaves. -/
def applyHop (env : TxEnv) (order : PaymentOrder) (auth : AuthRef) (role : HopRole)
    (first second : AccountRef) (registry : PeerRegistry) (now : UInt64) (desk : Desk) :
    HopOutcome × Desk :=
  match (applyHopTx env order auth role first second registry now).exec desk with
  | (.ok (true, seq, hash), after) => (.applied seq hash, after)
  | (.ok (false, seq, hash), after) => (.duplicate seq hash, after)
  | (.error e, after) => (.rejected e.orderReject, after)

end Cawala
