import Cawala.Model.MsgHandler
import Cawala.Model.SettleOrigin

/-! # The signers of a cascade

What a node does with a forward that is delivered to it: the checks of the route and of the hops
carried so far, its own hop, and the forward or the result it sends on. -/

namespace Cawala

open Library

variable [Crypto] [Postcard]

/-! ## Carried hops -/

/-- The direct neighbors of a node, by address. -/
def Routable.neighborIds (r : Routable) : List (OctAddr × NodeId) :=
  (r.parent.toList ++ r.children).map fun neighbor => (neighbor.addr, neighbor.node)

/-- The registered ledger key of a neighbor at an address. -/
def neighborKey (neighbors : List (OctAddr × NodeId)) (registry : PeerRegistry)
    (addr : OctAddr) : Option LedgerPubKey := do
  let neighbor ← neighbors.find? fun neighbor => neighbor.1 == addr
  registry.ledgerOf neighbor.2

/-- Whether a carried entry is the hop of a signer: a canonical transfer of the order in the
signer's role, signed by the key it names. -/
def carriedEntryMatches (payerAddr payeeAddr signer : OctAddr) (order : PaymentOrder)
    (signed : SignedEntry) : Bool :=
  match signed.entry.body with
  | .transfer paymentId amount role =>
      decide (some role = classifyHop payerAddr payeeAddr signer) && decide (paymentId = order.hash)
        && decide (amount = order.amount) && signed.entry.checkConservation.toBool
        && (signed.verify signed.entry.ledgerId).toBool
        && (entryHopAccounts signed.entry role).toBool
  | _ => false

/-- Whether a carried entry is signed by the key its signer is known by, if it is known. -/
def carriedKeyMatches (thisAddr : OctAddr) (selfKey : LedgerPubKey)
    (neighbors : List (OctAddr × NodeId)) (registry : PeerRegistry) (hop : SettleHopV3) : Bool :=
  if hop.signerAddr = thisAddr then
    decide (hop.entry.entry.ledgerId = selfKey) && (hop.entry.verify selfKey).toBool
  else match neighborKey neighbors registry hop.signerAddr with
  | some key => (hop.entry.verify key).toBool
  | none => true

/-- Check the hops a forward carries against its route. -/
def carriedHopsMatch (hops : List SettleHopV3) (signers : List OctAddr)
    (payerAddr payeeAddr thisAddr : OctAddr) (order : PaymentOrder) (selfKey : LedgerPubKey)
    (neighbors : List (OctAddr × NodeId)) (registry : PeerRegistry) : Bool :=
  hops.zipIdx.all fun (hop, index) =>
    match signers[index]? with
    | none => false
    | some signer =>
        decide (hop.signerAddr = signer)
          && carriedEntryMatches payerAddr payeeAddr signer order hop.entry
          && carriedKeyMatches thisAddr selfKey neighbors registry hop

/-- Whether an entry that a replay was answered with is the hop this node derives. -/
def entryMatchesHop (signed : SignedEntry) (order : PaymentOrder) (derived : DerivedHop) : Bool :=
  match signed.entry.body, checkedI64 order.amount with
  | .transfer paymentId amount role, .ok m =>
      decide (paymentId = order.hash) && decide (amount = order.amount)
        && decide (role = derived.role)
        && decide (signed.entry.postings = hopPostings derived.role derived.first derived.second m)
  | _, _ => false

/-! ## One signer -/

/-- What a signer reads off an admitted forward: the route, and its own place on it. -/
structure SignerPlace where
  signers : List OctAddr
  index : ℕ
deriving DecidableEq

/-- The last signer credits the payee. -/
def SignerPlace.isTerminal (place : SignerPlace) : Bool :=
  place.index + 1 == place.signers.length

/-- The route of a forward, if it is this node's turn and the hop chain of the envelope is the
route up to here. -/
def admitForward (this : OctAddr) (env : Envelope) (forward : SettleForwardV3) :
    Option SignerPlace :=
  if !forward.hopsWithinBound then none
  else match routeSigners forward.payerAddr forward.payeeAddr with
  | none => none
  | some signers =>
      let index := forward.hops.length
      if signers.length > maxSettleHops then none
      else if signers[index]? ≠ some this then none
      else if env.hopChain.length ≠ index then none
      else if env.hopChain.map (·.addr) ≠ signers.take index then none
      -- without a previous hop nobody has handed the cascade on
      else if env.hopChain.isEmpty then none
      else some { signers, index }

/-- Send a result to the origin of a cascade. -/
def settleResult (place : SignerPlace) (paymentId : Hash) (outcome : SettleOutcomeV3) :
    List NodeOutput :=
  (place.signers[0]?.map fun origin =>
    NodeOutput.settle origin (.result { paymentId, outcome })).toList

def refuseHop (this : NodeId) (place : SignerPlace) (paymentId : Hash) (reason : OrderReject) :
    List NodeOutput :=
  settleResult place paymentId (.rejected (.intermediateRejected this reason))

/-- Check the carried hops and apply this node's own. -/
def applyForwardHop (env : DispatchEnv) (forward : SettleForwardV3) (place : SignerPlace)
    (derived : DerivedHop) (desk : Desk) : HopOutcome × Desk :=
  match assembleSettlementRegistry desk.service env.assembly forward.payerKey forward.order
      forward.auth with
  | .error reason => (.rejected reason, desk)
  | .ok registry =>
      if !carriedHopsMatch forward.hops place.signers forward.payerAddr forward.payeeAddr
          env.snapshot.this.addr forward.order (Crypto.pubKey desk.service.key)
          env.snapshot.neighborIds registry then (.rejected .unauthorized, desk)
      else
        applyHop env.apply forward.order forward.auth derived.role derived.first derived.second
          registry env.now desk

/-- The position and the hash of this node's hop; a replay must be the hop it derives. -/
def settledHop (forward : SettleForwardV3) (derived : DerivedHop) (service : LedgerService) :
    HopOutcome → Option (UInt64 × Hash)
  | .applied seq hash => some (seq, hash)
  | .duplicate seq hash =>
      match service.entryAt seq with
      | .ok entry => if entryMatchesHop entry forward.order derived then some (seq, hash) else none
      | .error _ => none
  | .rejected _ => none

def pushPayeeReceipt (env : DispatchEnv) (record : NodeRecord) (forward : SettleForwardV3)
    (entrySeq : UInt64) (entryHash : Hash) (desk : Desk) : List NodeOutput × Desk :=
  let (receipt, desk) := freshReceipt (env.receipts 0) record forward.order.to_
    (some { entrySeq, entryHash, paymentId := forward.order.hash, from_ := forward.order.from_
            to_ := forward.order.to_, amount := forward.order.amount, role := .descend
            issuedAt := env.now }) desk
  (receipt.toList.map fun receipt => .ledger
    { dst := forward.payeeAddr, replyTo := none, queryId := none
      payload := .balanceReceiptV1 receipt }, desk)

/-- The hops with this node's own, unless its entry is missing or its address has one. -/
def withOwnHop (this : OctAddr) (hops : List SettleHopV3) (entry : Option SignedEntry)
    (proof : Option EntryProofV1) : List SettleHopV3 :=
  match entry with
  | some entry =>
      if hops.any fun hop => hop.signerAddr == this then hops
      else hops ++ [{ signerAddr := this, entry, proof }]
  | none => hops

variable [SettlePostcard]

/-- Send the cascade on to the next signer, with this node's hop on the envelope. -/
def relayForward (env : DispatchEnv) (e : Envelope) (place : SignerPlace)
    (forward : SettleForwardV3) : List NodeOutput :=
  match place.signers[place.index + 1]?, (SettlePayloadV3.forward forward).toBytes with
  | some next, some payload =>
      ((relaySettleForward env.snapshot.this e next payload).map NodeOutput.relay).toList
  | _, _ => []

/-- What follows a settled hop: the last signer reports it to the origin and to the payee, any
other one relays the cascade. -/
def passOn (env : DispatchEnv) (e : Envelope) (record : NodeRecord) (forward : SettleForwardV3)
    (place : SignerPlace) (seq : UInt64) (hash : Hash) (desk : Desk) : List NodeOutput × Desk :=
  let this := env.snapshot.this
  let entry := (desk.service.entryAt seq).toOption
  let proof := (buildEntryProof desk.service env.evidence seq this.addr).toOption
  if place.isTerminal then
    match proof with
    | none => ([], desk)
    | some proof =>
        let (receipt, desk) := pushPayeeReceipt env record forward seq hash desk
        (settleResult place forward.order.hash (.applied seq hash proof (forward.hops.drop 1))
          ++ receipt, desk)
  else
    (relayForward env e place
      { forward with hops := withOwnHop this.addr forward.hops entry proof }, desk)

/-- Handle a forward at an intermediate or at the terminal signer. -/
def handleSettleForward (env : DispatchEnv) (e : Envelope) (forward : SettleForwardV3)
    (node : LedgerNode) : List NodeOutput × LedgerNode :=
  let this := env.snapshot.this
  match admitForward this.addr e forward, env.record with
  | some place, some record =>
      let refuse := refuseHop this.node place forward.order.hash
      -- a payer's leaf must hold the payer
      if place.signers[0]? = some this.addr
          ∧ userChildAddress record forward.order.from_ ≠ some forward.payerAddr then ([], node)
      else if place.isTerminal
          ∧ userChildAddress record forward.order.to_ ≠ some forward.payeeAddr then
        (refuse .notAChild, node)
      else match deriveHop record this.addr forward.payerAddr forward.payeeAddr with
      | .error _ => (settleResult place forward.order.hash (.rejected .malformed), node)
      | .ok derived =>
          let (outcome, desk) := applyForwardHop env forward place derived node.desk
          match outcome, settledHop forward derived desk.service outcome with
          | .rejected reason, _ => (refuse reason, { node with desk })
          | _, none => ([], { node with desk })
          | _, some (seq, hash) =>
              let (outputs, desk) := passOn env e record forward place seq hash desk
              (.journal forward.order :: outputs, { node with desk })
  | _, _ => ([], node)

/-- Process one locally delivered settlement envelope; `none` when a proof verifier does not
return. -/
def dispatchSettleEnvelope (target : Target) (env : DispatchEnv) (e : Envelope)
    (node : LedgerNode) : Option (List NodeOutput × LedgerNode) :=
  match SettlePayloadV3.fromBytes e.payload with
  | .error _ => some ([], node)
  | .ok (.result result) => handleSettleResult target env e.src result node
  | .ok (.forward forward) => some (handleSettleForward env e forward node)

end Cawala
