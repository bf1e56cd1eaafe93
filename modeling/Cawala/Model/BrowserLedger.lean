import Cawala.Library.Fifo
import Cawala.Model.LedgerPayload

/-! # The ledger state of a browser

What a joined browser keeps of its payments: the pinned keys, the last verified balance, and
the orders in flight. Every call leaves a state, also when it refuses its input. -/

namespace Cawala

open Library

variable [Crypto]

/-- Maximum number of in-flight orders retained; older ones are evicted. -/
def maxPendingOrders : ℕ := 32

/-- Maximum number of settlement outcomes retained; older ones are evicted. -/
def maxSettlementRecords : ℕ := 64

/-- Maximum number of activity entries retained; older ones are evicted. -/
def maxActivityEntries : ℕ := 200

/-- Maximum number of pinned leaf keys retained; older ones are evicted. -/
def maxPinnedLeafKeys : ℕ := 128

/-- Maximum number of detected pin changes retained; older ones are evicted. -/
def maxLeafKeyChanges : ℕ := 32

/-- Maximum accepted length of the proof of a balance attestation. -/
def maxAttestationProof : ℕ := 64

/-! ## The state -/

/-- A balance that has been verified against the pinned ledger key. -/
structure VerifiedBalanceV1 where
  amount : Amount
  height : UInt64
  stateRoot : Hash
deriving DecidableEq

/-- One value movement recorded in the local activity log. -/
structure ActivityEntryV1 where
  entrySeq : UInt64
  entryHash : Hash
  paymentId : Hash
  from_ : NodeId
  to_ : NodeId
  amount : Amount
  role : HopRole
  issuedAt : UInt64
deriving DecidableEq

/-- An order sent to the routing leaf that has not been resolved. -/
structure PendingOrderV1 where
  order : PaymentOrder
  auth : AuthRef
  sentAt : UInt64
  payeeAddr : Option OctAddr
  payerLeaf : Bool
  pinnedLeaf : Option (NodeId × LedgerPubKey)
deriving DecidableEq

/-- Why a terminal proof was not accepted. -/
inductive ProofRefusal where
  | missingProof
  | proofInvalid (text : String)
  | proofTooLong
  | leafAddressMismatch
  | orderHashMismatch
  | terminalEntryShape (err : LedgerError)
  | signerNotNode
  | signerWithoutLedger
  | terminalEntrySignature (err : LedgerError)
  | commitmentKeyMismatch
  | entryCountMismatch
  | indexOutOfRange
  | entrySeqOutOfRange
  | inclusionFailed
  | pinnedLeafKeyMismatch
  | receiveUriPinMismatch
deriving DecidableEq

inductive SettlementStateV1 where
  | applied
  | duplicate
  | partially (failedAt : NodeId)
  | rejected (reason : OrderReject)
  | indeterminate (reason : OrderReject)
  | unverified (reason : ProofRefusal)
deriving DecidableEq

/-- A remembered settlement outcome. -/
structure SettlementRecordV1 where
  orderHash : Hash
  state : SettlementStateV1
  amount : Option Amount
  counterparty : Option NodeId
  entrySeq : Option UInt64
deriving DecidableEq

inductive PinTrust where
  | unconfirmed
  | confirmed
deriving DecidableEq, Repr

structure PinnedLeafKeyV1 where
  nodeId : NodeId
  ledger : LedgerPubKey
  trust : PinTrust
deriving DecidableEq

/-- A different key presented for a leaf that is pinned. -/
structure LeafKeyChangeV1 where
  nodeId : NodeId
  pinned : LedgerPubKey
  presented : LedgerPubKey
deriving DecidableEq

/-- The outcome of pinning the key of a receive URI. -/
inductive LeafPinOutcome where
  | pinned
  | alreadyPinned
  | conflict (change : LeafKeyChangeV1)
deriving DecidableEq

structure LedgerStateV1 where
  pinnedLedger : Option LedgerPubKey
  pinnedLedgerTrust : PinTrust
  balance : Option VerifiedBalanceV1
  activity : List ActivityEntryV1
  pending : List PendingOrderV1
  settlements : List SettlementRecordV1
  pinnedLeafKeys : List PinnedLeafKeyV1
  leafKeyChanges : List LeafKeyChangeV1
deriving DecidableEq

namespace LedgerStateV1

def new : LedgerStateV1 where
  pinnedLedger := none
  pinnedLedgerTrust := .unconfirmed
  balance := none
  activity := []
  pending := []
  settlements := []
  pinnedLeafKeys := []
  leafKeyChanges := []

/-- Retain one more in-flight order with its terminal-verification binding. -/
def pushPendingWith (s : LedgerStateV1) (pending : PendingOrderV1) : LedgerStateV1 :=
  { s with pending := Fifo.push maxPendingOrders s.pending pending }

/-! ## Pins -/

/-- Insert or replace one leaf pin, in place. -/
def setLeafKey (s : LedgerStateV1) (nodeId : NodeId) (ledger : LedgerPubKey) (trust : PinTrust) :
    LedgerStateV1 :=
  { s with
    pinnedLeafKeys := Fifo.put maxPinnedLeafKeys (fun entry => entry.nodeId == nodeId)
      (fun entry => { entry with ledger, trust }) { nodeId, ledger, trust } s.pinnedLeafKeys }

/-- Pin a leaf key from a first verified terminal proof. -/
def pinLeafKeyUnconfirmed (s : LedgerStateV1) (nodeId : NodeId) (ledger : LedgerPubKey) :
    LedgerStateV1 := s.setLeafKey nodeId ledger .unconfirmed

def pinnedLeafKey (s : LedgerStateV1) (nodeId : NodeId) : Option LedgerPubKey :=
  (s.pinnedLeafKeys.find? fun entry => entry.nodeId == nodeId).map PinnedLeafKeyV1.ledger

def leafKeyChange (s : LedgerStateV1) (nodeId : NodeId) : Option LeafKeyChangeV1 :=
  s.leafKeyChanges.find? fun change => change.nodeId == nodeId

def recordLeafKeyChange (s : LedgerStateV1) (nodeId : NodeId)
    (pinned presented : LedgerPubKey) : LedgerStateV1 :=
  { s with
    leafKeyChanges := Fifo.put maxLeafKeyChanges (fun change => change.nodeId == nodeId)
      (fun change => { change with pinned, presented }) { nodeId, pinned, presented }
      s.leafKeyChanges }

/-- Drop any recorded pin change of a leaf. -/
def clearLeafKeyChanges (s : LedgerStateV1) (nodeId : NodeId) : LedgerStateV1 :=
  { s with leafKeyChanges := s.leafKeyChanges.filter fun change => change.nodeId != nodeId }

/-- Pin a leaf key presented by a receive URI; a different key is recorded, not adopted. -/
def pinLeafKeyFromReceive (s : LedgerStateV1) (nodeId : NodeId) (ledger : LedgerPubKey) :
    LeafPinOutcome × LedgerStateV1 :=
  match s.pinnedLeafKey nodeId with
  | some existing =>
      if existing = ledger then (.alreadyPinned, s.setLeafKey nodeId ledger .confirmed)
      else (.conflict { nodeId, pinned := existing, presented := ledger },
        s.recordLeafKeyChange nodeId existing ledger)
  | none => (.pinned, s.setLeafKey nodeId ledger .confirmed)

/-- Adopt the presented key of a recorded change of a leaf. -/
def acceptLeafKeyChange (s : LedgerStateV1) (nodeId : NodeId) :
    Option LedgerPubKey × LedgerStateV1 :=
  match s.leafKeyChange nodeId with
  | none => (none, s)
  | some change =>
      (some change.presented,
        (s.setLeafKey nodeId change.presented .confirmed).clearLeafKeyChanges nodeId)

/-- Adopt the presented key of a recorded change of the routing leaf. -/
def acceptPinnedLedgerChange (s : LedgerStateV1) (parent : NodeId) :
    Option LedgerPubKey × LedgerStateV1 :=
  match s.leafKeyChange parent with
  | none => (none, s)
  | some change =>
      let adopted : LedgerStateV1 :=
        { s with pinnedLedger := some change.presented, pinnedLedgerTrust := .confirmed }
      (some change.presented, adopted.clearLeafKeyChanges parent)

def confirmLeafPin (s : LedgerStateV1) (nodeId : NodeId) : Bool × LedgerStateV1 :=
  let confirmed := Fifo.replaceFirst (fun entry : PinnedLeafKeyV1 => entry.nodeId == nodeId)
    (fun entry => { entry with trust := .confirmed }) s.pinnedLeafKeys
  (s.pinnedLeafKeys.any (fun entry => entry.nodeId == nodeId),
    clearLeafKeyChanges { s with pinnedLeafKeys := confirmed } nodeId)

def confirmPinnedLedger (s : LedgerStateV1) (parent : NodeId) : Bool × LedgerStateV1 :=
  let confirmed : LedgerStateV1 :=
    if s.pinnedLedger.isSome then { s with pinnedLedgerTrust := .confirmed } else s
  (s.pinnedLedger.isSome, confirmed.clearLeafKeyChanges parent)

/-- Pin the ledger key of a newly approved parent and drop the parent-scoped state. -/
def rebindParent (s : LedgerStateV1) (ledger : LedgerPubKey) : LedgerStateV1 :=
  { s with
    pinnedLedger := some ledger, pinnedLedgerTrust := .confirmed, balance := none, pending := [] }

def clearParentBinding (s : LedgerStateV1) : LedgerStateV1 :=
  { s with
    pinnedLedger := none, pinnedLedgerTrust := .unconfirmed, balance := none, pending := [] }

/-! ## Records -/

def recordActivity (s : LedgerStateV1) (entry : ActivityEntryV1) : LedgerStateV1 :=
  if s.activity.any (fun existing => existing.entryHash == entry.entryHash) then s
  else { s with activity := Fifo.push maxActivityEntries s.activity entry }

/-- Record a terminal settlement outcome, replacing the record of the same order. -/
def recordSettlement (s : LedgerStateV1) (new : SettlementRecordV1) : LedgerStateV1 :=
  { s with
    settlements := Fifo.put maxSettlementRecords
      (fun existing => existing.orderHash == new.orderHash)
      (fun existing => { new with orderHash := existing.orderHash }) new s.settlements }

/-- The position of the first pending order of a hash. -/
def pendingIndex (s : LedgerStateV1) (orderHash : Hash) : Option ℕ :=
  s.pending.findIdx? fun pending => pending.order.hash == orderHash

def removePending (s : LedgerStateV1) (index : ℕ) : LedgerStateV1 :=
  { s with pending := s.pending.eraseIdx index }

end LedgerStateV1

def activityFromNotice (notice : ValueNoticeV1) : ActivityEntryV1 where
  entrySeq := notice.entrySeq
  entryHash := notice.entryHash
  paymentId := notice.paymentId
  from_ := notice.from_
  to_ := notice.to_
  amount := notice.amount
  role := notice.role
  issuedAt := notice.issuedAt

end Cawala
