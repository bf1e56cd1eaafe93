import Cawala.Library.LazyQueue
import Cawala.Model.Message
import Cawala.Model.SettleProof

/-! # The settlements of an origin

What an origin remembers of the cascades it started: the ones in flight, and the outcomes of
those that ended. Both maps are bounded, and each has a queue of its keys. -/

namespace Cawala

open Std (ExtTreeMap)
open Library

variable [Crypto]

/-- Maximum number of settlements in flight. -/
def maxPending : ℕ := 256

/-- Maximum number of outcomes remembered. -/
def maxTerminal : ℕ := 1024

inductive SettleOutcomeV3 where
  | applied (terminalSeq : UInt64) (terminalHash : Hash) (proof : EntryProofV1)
      (intermediates : List SettleHopV3)
  | rejected (reason : SettleReject)
deriving DecidableEq

structure PendingSettlement where
  browser : PeerRef
  browserMsgId : MsgId
  order : PaymentOrder
  auth : AuthRef
  payerAddr : OctAddr
  payeeAddr : OctAddr
  payeeLeafAddr : OctAddr
  localSeq : UInt64
  localHash : Hash
  /-- Unix seconds after which the origin synthesizes a timeout. -/
  deadlineSecs : UInt64
  replyV2 : Bool
deriving DecidableEq

def PendingSettlement.paymentId (p : PendingSettlement) : Hash := p.order.hash

/-- A completed outcome, remembered for duplicate answers. -/
structure TerminalRecord where
  browser : PeerRef
  browserMsgId : MsgId
  order : PaymentOrder
  outcome : SettleOutcomeV3
  degraded : Bool
  terminalEntry : Option SignedEntry
  proof : Option EntryProofV1
deriving DecidableEq

/-- Origin-side settlement bookkeeping. -/
structure SettlementManager where
  pending : ExtTreeMap Hash PendingSettlement
  /-- The keys of `pending` in the order of insertion. -/
  pendingOrder : List Hash
  terminal : ExtTreeMap Hash TerminalRecord
  /-- The keys of `terminal` in the order of insertion. -/
  terminalOrder : List Hash

namespace SettlementManager

def new : SettlementManager where
  pending := ∅
  pendingOrder := []
  terminal := ∅
  terminalOrder := []

def pendingQueue (m : SettlementManager) : LazyQueue Hash PendingSettlement :=
  ⟨m.pending, m.pendingOrder⟩

def terminalQueue (m : SettlementManager) : LazyQueue Hash TerminalRecord :=
  ⟨m.terminal, m.terminalOrder⟩

/-- Reserve a settlement in flight. Returns the settlement evicted for it. -/
def reserve (m : SettlementManager) (p : PendingSettlement) :
    Option PendingSettlement × SettlementManager :=
  let (evicted, q) := m.pendingQueue.put maxPending p.paymentId p
  (evicted, { m with pending := q.entries, pendingOrder := q.order })

/-- Remove and return a settlement in flight. Its key stays in the queue. -/
def takePending (m : SettlementManager) (paymentId : Hash) :
    Option PendingSettlement × SettlementManager :=
  (m.pending[paymentId]?, { m with pending := m.pending.erase paymentId })

/-- The settlements whose deadline has passed, in the order of their ids. -/
def expired (m : SettlementManager) (now : UInt64) : List Hash :=
  (m.pending.toList.filter fun e => decide (e.2.deadlineSecs ≤ now)).map Prod.fst

/-- Remove and return every settlement whose deadline has passed. -/
def sweepExpired (m : SettlementManager) (now : UInt64) :
    List PendingSettlement × SettlementManager :=
  let (swept, rest) := LazyQueue.removeAll (m.expired now) m.pending
  (swept, { m with pending := rest })

/-- Remember an outcome, and forget the oldest if there are too many. -/
def recordTerminal (m : SettlementManager) (paymentId : Hash) (record : TerminalRecord) :
    SettlementManager :=
  let (_, q) := m.terminalQueue.put maxTerminal paymentId record
  { m with terminal := q.entries, terminalOrder := q.order }

/-- The number of items in the four collections. -/
def total (m : SettlementManager) : ℕ :=
  m.pending.size + m.pendingOrder.length + m.terminal.size + m.terminalOrder.length

end SettlementManager

/-! ## Runs -/

inductive SettlementCall where
  | reserve (p : PendingSettlement)
  | takePending (paymentId : Hash)
  | sweepExpired (now : UInt64)
  | recordTerminal (paymentId : Hash) (record : TerminalRecord)

namespace SettlementCall

/-- Run a call: the settlements it returns, and the manager after it. -/
def perform (m : SettlementManager) : SettlementCall → List PendingSettlement × SettlementManager
  | .reserve p => ((m.reserve p).1.toList, (m.reserve p).2)
  | .takePending paymentId => ((m.takePending paymentId).1.toList, (m.takePending paymentId).2)
  | .sweepExpired now => m.sweepExpired now
  | .recordTerminal paymentId record => ([], m.recordTerminal paymentId record)

def reserved? : SettlementCall → Option PendingSettlement
  | .reserve p => some p
  | _ => none

def reserved (calls : List SettlementCall) : List PendingSettlement := calls.filterMap reserved?

def run (calls : List SettlementCall) : List PendingSettlement × SettlementManager :=
  calls.foldl (fun s call => (s.1 ++ (call.perform s.2).1, (call.perform s.2).2))
    ([], SettlementManager.new)

end SettlementCall

end Cawala
