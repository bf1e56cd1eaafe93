import Cawala.Model.LedgerService
import Cawala.Model.SettleProof

/-! # Ledger payloads

What a routing leaf sends to a browser: balance receipts and the results of orders, in
three versions. -/

namespace Cawala

variable [Crypto]

/-- Maximum length of the history of a receipt. -/
def maxReceiptHistory : ℕ := 64

/-- One value movement in the history of a receipt. -/
structure ValueNoticeV1 where
  entrySeq : UInt64
  entryHash : Hash
  paymentId : Hash
  from_ : NodeId
  to_ : NodeId
  amount : Amount
  role : HopRole
  issuedAt : UInt64
deriving DecidableEq

/-- A signed, verifiable balance receipt. -/
structure BalanceReceiptV1 where
  ledgerPubkey : LedgerPubKey
  attestation : BalanceAttestation
  commitment : SignedCommitment
  history : List ValueNoticeV1
  notice : Option ValueNoticeV1
deriving DecidableEq

/-- Whether the history fits its bound. -/
def BalanceReceiptV1.historyWithinBound (r : BalanceReceiptV1) : Bool :=
  r.history.length ≤ maxReceiptHistory

/-- The result of an order that names no payee address. -/
structure OrderResultV1 where
  orderHash : Hash
  status : OrderStatus
  entrySeq : Option UInt64
  entryHash : Option Hash
  reason : Option OrderReject
  balance : Option BalanceReceiptV1
deriving DecidableEq

/-- The terminal state of an order and its settlement. -/
inductive SettlementStatusV2 where
  | applied (entrySeq : UInt64) (entryHash : Hash)
  | duplicate (entrySeq : UInt64) (entryHash : Hash)
  | partially (failedAt : NodeId) (reason : OrderReject)
  | rejected (reason : OrderReject)
  | indeterminate (reason : OrderReject)
deriving DecidableEq

/-- The outcome of an order with a payee address. -/
structure OrderResultV2 where
  orderHash : Hash
  status : SettlementStatusV2
  balance : Option BalanceReceiptV1
deriving DecidableEq

/-- The outcome of an order with a payee address, with the evidence of its terminal hop. -/
structure OrderResultV3 where
  orderHash : Hash
  status : SettlementStatusV2
  balance : Option BalanceReceiptV1
  proof : Option EntryProofV1
deriving DecidableEq

/-- A decoded payload; `other` is every payload a browser does not expect. -/
inductive VersionedLedgerPayload where
  | orderResultV1 (result : OrderResultV1)
  | balanceReceiptV1 (receipt : BalanceReceiptV1)
  | orderResultV2 (result : OrderResultV2)
  | orderResultV3 (result : OrderResultV3)
  | other
deriving DecidableEq

end Cawala
