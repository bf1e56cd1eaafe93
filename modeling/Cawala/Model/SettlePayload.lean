import Cawala.Model.Eth
import Cawala.Model.LedgerPayload
import Cawala.Model.SettlementManager

/-! # Settlement payloads

What the nodes of a cascade send each other: a forward that collects the signed hops on its way
to the payee's leaf, and the result that goes back to the payer's leaf. -/

namespace Cawala

variable [Crypto]

/-- Wire version of the settlement payload. -/
def settlePayloadVersion : UInt8 := 3

/-- Maximum number of signers of a cascade. -/
def maxSettleHops : ℕ := maxHops

/-- A cascade on its way to the next signer. -/
structure SettleForwardV3 where
  order : PaymentOrder
  auth : AuthRef
  payerKey : PeerKeys
  payerAddr : OctAddr
  payeeAddr : OctAddr
  /-- The hops signed so far. -/
  hops : List SettleHopV3
deriving DecidableEq

/-- Whether the hops fit their bound. -/
def SettleForwardV3.hopsWithinBound (f : SettleForwardV3) : Bool := f.hops.length ≤ maxSettleHops

/-- The answer of a cascade. -/
structure SettleResultV3 where
  paymentId : Hash
  outcome : SettleOutcomeV3
deriving DecidableEq

/-- Whether the echoed intermediates fit the signer bound. -/
def SettleResultV3.intermediatesWithinBound (r : SettleResultV3) : Bool :=
  match r.outcome with
  | .applied _ _ _ intermediates => intermediates.length ≤ maxSettleHops - 2
  | .rejected _ => true

inductive SettlePayloadV3 where
  | forward (forward : SettleForwardV3)
  | result (result : SettleResultV3)
deriving DecidableEq

/-- The postcard codec of settlement payloads; what follows the body is handed back. -/
class SettlePostcard where
  toAllocvec : SettlePayloadV3 → Option (List UInt8)
  takeFromBytes : List UInt8 → Option (SettlePayloadV3 × List UInt8)

/-- What was encoded is decoded, and nothing is left over. -/
def SettlePostcard.RoundTrip [SettlePostcard] : Prop :=
  ∀ p body, toAllocvec p = some body → takeFromBytes body = some (p, [])

/-- Errors of settlement framing. -/
inductive SettlePayloadError where
  | unsupportedVersion (version : UInt8)
  | empty
  | body
  | trailing (bytes : ℕ)
deriving DecidableEq, Repr

namespace SettlePayloadV3

variable [SettlePostcard]

def toBytes (p : SettlePayloadV3) : Option (List UInt8) :=
  (SettlePostcard.toAllocvec p).map (settlePayloadVersion :: ·)

/-- Decode a payload: the version, the body, and nothing after it. -/
def fromBytes : List UInt8 → Except SettlePayloadError SettlePayloadV3
  | [] => .error .empty
  | version :: body =>
      if version ≠ settlePayloadVersion then .error (.unsupportedVersion version)
      else match SettlePostcard.takeFromBytes body with
      | some (p, []) => .ok p
      | some (_, rest) => .error (.trailing rest.length)
      | none => .error .body

end SettlePayloadV3

/-- The order of a ledger payload. Version 1 names no payee address, and version 4 carries an
Ethereum identity. -/
inductive OrderPayload where
  | v1 (order : PaymentOrder) (auth : AuthRef)
  | v2 (order : PaymentOrder) (auth : AuthRef) (payeeAddr : OctAddr)
  | v4 (order : PaymentOrder) (auth : AuthRef) (payeeAddr : OctAddr) (eth : EthIdentity)
deriving DecidableEq

def OrderPayload.order : OrderPayload → PaymentOrder
  | .v1 order _ | .v2 order _ _ | .v4 order _ _ _ => order

/-- The address that an order names for its payee. -/
def OrderPayload.payeeAddr? : OrderPayload → Option OctAddr
  | .v1 _ _ => none
  | .v2 _ _ payeeAddr | .v4 _ _ payeeAddr _ => some payeeAddr

/-- A ledger payload that a leaf receives; `other` is a reply meant for a browser. -/
inductive LedgerRequest where
  | order (payload : OrderPayload)
  | balanceQuery (queryId : UInt64)
  | other
deriving DecidableEq

def LedgerRequest.order? : LedgerRequest → Option PaymentOrder
  | .order payload => some payload.order
  | _ => none

/-- The address that a request names for a payee, if it does. -/
def LedgerRequest.payeeAddr? : LedgerRequest → Option OctAddr
  | .order payload => payload.payeeAddr?
  | _ => none

end Cawala
