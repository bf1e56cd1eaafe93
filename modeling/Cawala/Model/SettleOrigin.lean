import Cawala.Library.Transaction
import Cawala.Model.ControlNode
import Cawala.Model.SettlePayload

/-! # The origin of a settlement

What a leaf does with the orders of its users. An order between two of its users is applied at
once; any other one is reserved here and sent along its route, and the answer of the route is
passed on to the browser. -/

namespace Cawala

open Library

/-- Seconds an origin waits for the answer of a route. -/
def settleTimeoutSecs : UInt64 := 30

variable [Crypto]

class HashBytes where
  asBytes : Hash → List UInt8

/-- A payload for a browser, and the message and the query it answers. -/
structure LedgerMessage where
  dst : OctAddr
  replyTo : Option MsgId
  queryId : Option UInt64
  payload : VersionedLedgerPayload
deriving DecidableEq

/-- What a dispatch does beside changing its node: it journals an order, notes a degraded audit,
and sends messages. -/
inductive NodeOutput where
  | journal (order : PaymentOrder)
  | audit (paymentId : Hash) (hop : Option SettleHopV3) (check : IntermediateCheck)
  | ledger (message : LedgerMessage)
  | settle (dst : OctAddr) (payload : SettlePayloadV3)
  | relay (env : Envelope)

/-- What the files, the clock and the routing view give one dispatch. Each read of the record,
each registry and each transaction has its own view of the files. -/
structure DispatchEnv where
  record : Option NodeRecord
  auditRecord : Option NodeRecord
  receiptRecord : Option NodeRecord
  snapshot : Routable
  lookup : TxEnv
  assembly : TxEnv
  apply : TxEnv
  evidence : TxEnv
  receipts : ℕ → TxEnv
  now : UInt64

/-- The ledger of a node, and the settlements it waits on. -/
structure LedgerNode where
  desk : Desk
  manager : SettlementManager

/-- A ledger envelope, as far as its dispatch reads it. -/
structure LedgerEnvelope where
  src : PeerRef
  msgId : MsgId
  payload : LedgerRequest

/-! ## Senders and registries -/

def userChildAddress (record : NodeRecord) (childId : NodeId) : Option OctAddr := do
  let address ← record.address
  let child ← record.children.find? fun child =>
    child.kind == .user && child.childId == childId
  childAddress address child.slot

def isUserChild (record : NodeRecord) (childId : NodeId) : Bool :=
  record.children.any fun child => child.kind == .user && child.childId == childId

/-- The registry of a settlement hop: the node's own and the carried row of the payer. -/
def assembleSettlementRegistry (service : LedgerService) (env : TxEnv) (payerKey : PeerKeys)
    (order : PaymentOrder) (auth : AuthRef) : Except OrderReject PeerRegistry :=
  if payerKey.nodeId ≠ order.from_ ∨ payerKey.role ≠ .user ∨ payerKey.ledger.isSome
      ∨ payerKey.operator ≠ auth.operator then .error .unauthorized
  else
    match service.effectiveRegistry env with
    | .error _ => .error .internal
    | .ok registry =>
        match registry.get order.from_ with
        | some existing =>
            if existing.operator ≠ auth.operator ∨ existing.role ≠ .user
                ∨ existing.ledger.isSome then .error .unauthorized
            else .ok registry
        | none =>
            match registry.insert payerKey with
            | .ok registry => .ok registry
            | .error _ => .error .unauthorized

/-- The digest that a user signs to authorize an order. -/
def orderDigest [EthPrimitives] [HashBytes] (order : PaymentOrder) (payeeAddr : OctAddr) :
    Vector UInt8 32 :=
  eip712Digest cawalaDomainSeparator
    (eip712HashStruct "CawalaOrder(bytes32 orderHash,string payeeAddr)"
      (HashBytes.asBytes order.hash ++ abiEncodeString payeeAddr.display))

def v4RecoveredAddress [EthPrimitives] [HashBytes] (order : PaymentOrder) (payeeAddr : OctAddr)
    (eth : EthIdentity) : Option EthAddress :=
  match recoverAddress (orderDigest order payeeAddr) eth.signature with
  | .ok recovered => if recovered = eth.address then some recovered else none
  | .error _ => none

def settleRejectToStatus : SettleReject → SettlementStatusV2
  | .intermediateRejected failedAt reason => .partially failedAt reason
  | .malformed => .indeterminate .badRequest
  | .payerRejected | .routeTooDeep => .rejected .badRequest

/-- The status and the reason that a version 1 result gives for a settlement. -/
def settlementStatusToV1 : SettlementStatusV2 → OrderStatus × Option OrderReject
  | .applied _ _ => (.applied, none)
  | .duplicate _ _ => (.duplicate, none)
  | .partially _ reason | .rejected reason | .indeterminate reason => (.rejected, some reason)

/-! ## Answers -/

/-- The result of a settlement: the successes carry their proof. -/
def settlementReply (browser : PeerRef) (replyTo : MsgId) (orderHash : Hash)
    (status : SettlementStatusV2) (balance : Option BalanceReceiptV1)
    (proof : Option EntryProofV1) : NodeOutput :=
  .ledger
    { dst := browser.addr, replyTo := some replyTo, queryId := none
      payload := match status with
        | .applied _ _ | .duplicate _ _ => .orderResultV3 { orderHash, status, balance, proof }
        | _ => .orderResultV2 { orderHash, status, balance } }

def orderResultV1 (browser : PeerRef) (replyTo : MsgId) (result : OrderResultV1) : NodeOutput :=
  .ledger
    { dst := browser.addr, replyTo := some replyTo, queryId := none
      payload := .orderResultV1 result }

def settlementReject (e : LedgerEnvelope) (orderHash : Hash) (reason : OrderReject) :
    NodeOutput := settlementReply e.src e.msgId orderHash (.rejected reason) none none

/-! ## Evidence -/

variable [Postcard]

/-- The debited and the credited child of a direct transfer, if there is exactly one of each. -/
def directEndpoints (postings : List Posting) : Option (NodeId × NodeId) := do
  let step (found : Option NodeId × Option NodeId) (posting : Posting) :
      Option (Option NodeId × Option NodeId) :=
    match posting.account with
    | .child id =>
        if posting.delta < 0 then
          if found.1.isSome then none else some (some id, found.2)
        else if 0 < posting.delta then
          if found.2.isSome then none else some (found.1, some id)
        else some found
    | _ => some found
  let (debit, credit) ← postings.foldlM step (none, none)
  pure (← debit, ← credit)

def receiptNotice (user : NodeId) (signed : SignedEntry) :
    Except LedgerError (Option ValueNoticeV1) :=
  match signed.entry.body with
  | .transfer paymentId amount .direct =>
      match directEndpoints signed.entry.postings with
      | none => .ok none
      | some (from_, to_) =>
          if from_ ≠ user ∧ to_ ≠ user then .ok none
          else do
            let hash ← entryHash signed.entry
            pure (some
              { entrySeq := signed.entry.seq, entryHash := hash, paymentId, from_, to_, amount
                role := .direct, issuedAt := signed.entry.issuedAt })
  | _ => .ok none

/-- The most recent movements of a user. -/
def receiptHistory (ledger : Ledger) (user : NodeId) : Except LedgerError (List ValueNoticeV1) := do
  let notices ← ledger.log.entries.mapM (receiptNotice user)
  let notices := notices.filterMap id
  pure (notices.drop (notices.length - maxReceiptHistory))

/-- A signed receipt of a user's balance, from the ledger as it is on disk. -/
def balanceReceipt (env : TxEnv) (user : NodeId) (record : NodeRecord)
    (notice : Option ValueNoticeV1) : Tx BalanceReceiptV1 := do
  beginTransaction env
  Transaction.refuseIf (childKind record user ≠ some .user) (.refused .notAChild)
  let desk ← get
  let service := desk.service
  Transaction.ofExcept (tagged .hashing (do
    let attestation ← attestBalance service.ledger service.nodeId user
    let commitment ← buildCommitment service.ledger Crypto.zero env.clock
    let commitment ← SignedCommitment.sign commitment service.key
    let history ← receiptHistory service.ledger user
    pure
      { ledgerPubkey := Crypto.pubKey service.key, attestation, commitment, history, notice }))

def buildEntryProof (service : LedgerService) (env : TxEnv) (seq : UInt64) (leafAddr : OctAddr) :
    Except ServiceError EntryProofV1 := do
  let entry ← tagged .hashing (service.entryAt seq)
  let registry ← service.effectiveRegistry env
  match registry.get service.nodeId with
  | none => .error .selfRow
  | some signer =>
      tagged .hashing (do
        let inclusion ← entryInclusionProof service.ledger seq
        let commitment ← buildCommitment service.ledger Crypto.zero env.clock
        let commitment ← SignedCommitment.sign commitment service.key
        pure { entry, signer, leafAddr, commitment, inclusion })

def freshReceipt (env : TxEnv) (record : NodeRecord) (user : NodeId)
    (notice : Option ValueNoticeV1) (desk : Desk) : Option BalanceReceiptV1 × Desk :=
  let (receipt, desk) := (balanceReceipt env user record notice).exec desk
  (receipt.toOption, desk)

def payerReceipt (env : TxEnv) (record : NodeRecord) (payer : NodeId) (desk : Desk) :
    Option BalanceReceiptV1 × Desk := freshReceipt env record payer none desk

/-- The answer for a settlement that timed out or was evicted. -/
def timeoutResult (env : TxEnv) (record : Option NodeRecord) (pending : PendingSettlement)
    (desk : Desk) : NodeOutput × Desk :=
  if pending.replyV2 then
    let (balance, desk) := match record with
      | some record => payerReceipt env record pending.order.from_ desk
      | none => (none, desk)
    (settlementReply pending.browser pending.browserMsgId pending.order.hash
      (.indeterminate .internal) balance none, desk)
  else
    (orderResultV1 pending.browser pending.browserMsgId
      { orderHash := pending.order.hash, status := .rejected, entrySeq := none
        entryHash := none, reason := some .internal, balance := none }, desk)

/-! ## Orders between two users of the leaf -/

/-- The order is applied unless its sender is no user of the leaf or fails the anchor gate. -/
def sameLeafOutcome (env : DispatchEnv) (sender : NodeId) (record : NodeRecord)
    (order : PaymentOrder) (auth : AuthRef) (recovered : Option EthAddress) (desk : Desk) :
    ApplyOutcome × Desk :=
  if !isUserChild record sender then (.rejected .notAChild, desk)
  else
    match anchorGate record sender recovered with
    | .error reason => (.rejected reason, desk)
    | .ok _ => applyOrder env.apply order auth sender record env.now desk

/-- The status of an order that was applied on this leaf. -/
def ApplyOutcome.settlementStatus (outcome : ApplyOutcome) : SettlementStatusV2 :=
  match outcome.status with
  | .applied => .applied (outcome.entrySeq.getD 0) (outcome.entryHash.getD Crypto.zero)
  | .duplicate => .duplicate (outcome.entrySeq.getD 0) (outcome.entryHash.getD Crypto.zero)
  | .rejected => .rejected (outcome.reason.getD .badRequest)

/-- The proof of the entry that an order was applied by. -/
def sameLeafProof (env : DispatchEnv) (record : NodeRecord) (outcome : ApplyOutcome)
    (desk : Desk) : Option EntryProofV1 := do
  let seq ← outcome.entrySeq
  let leafAddr ← record.address
  (buildEntryProof desk.service env.evidence seq leafAddr).toOption

/-- The same-leaf path. A success without its proof is reported as undetermined. -/
def applySameLeafOrder (env : DispatchEnv) (e : LedgerEnvelope) (record : NodeRecord)
    (order : PaymentOrder) (auth : AuthRef) (replyV2 : Bool) (recovered : Option EthAddress)
    (node : LedgerNode) : List NodeOutput × LedgerNode :=
  let (outcome, desk) := sameLeafOutcome env e.src.node record order auth recovered node.desk
  if outcome.status = .rejected then
    ([if replyV2 then settlementReply e.src e.msgId order.hash outcome.settlementStatus none none
      else orderResultV1 e.src e.msgId
        { orderHash := order.hash, status := outcome.status, entrySeq := outcome.entrySeq
          entryHash := outcome.entryHash, reason := outcome.reason, balance := none }],
      { node with desk })
  else
    let proof := if replyV2 then sameLeafProof env record outcome desk else none
    let (balance, desk) := payerReceipt (env.receipts 0) record order.from_ desk
    let reply :=
      if replyV2 then
        let status := if proof.isNone then .indeterminate .internal else outcome.settlementStatus
        settlementReply e.src e.msgId order.hash status balance proof
      else orderResultV1 e.src e.msgId
        { orderHash := order.hash, status := outcome.status, entrySeq := outcome.entrySeq
          entryHash := outcome.entryHash, reason := outcome.reason, balance }
    ([.journal order, reply], { node with desk })

/-! ## Orders that leave the leaf -/

/-- Reserve the payer's hop; the row of the payer and the entry come with it. -/
def reserveHop (env : DispatchEnv) (order : PaymentOrder) (auth : AuthRef) (derived : DerivedHop)
    (desk : Desk) : HopOutcome × Option PeerKeys × Option SignedEntry × Desk :=
  match (desk.service.effectiveRegistry env.lookup).toOption.bind (·.get order.from_) with
  | none => (.rejected .unauthorized, none, none, desk)
  | some payerKey =>
      match assembleSettlementRegistry desk.service env.assembly payerKey order auth with
      | .error reason => (.rejected reason, none, none, desk)
      | .ok registry =>
          let (outcome, desk) := applyHop env.apply order auth derived.role derived.first
            derived.second registry env.now desk
          let entry := match outcome with
            | .applied seq _ | .duplicate seq _ => (desk.service.entryAt seq).toOption
            | .rejected _ => none
          (outcome, some payerKey, entry, desk)

/-- The status that answers a retry: the remembered outcome of the cascade, else the entry of
the reservation. -/
def duplicateStatus (terminal : Option TerminalRecord) (seq : UInt64) (hash : Hash) :
    SettlementStatusV2 :=
  match terminal with
  | some term =>
      match term.outcome with
      | .applied terminalSeq terminalHash _ _ => .duplicate terminalSeq terminalHash
      | .rejected reason => settleRejectToStatus reason
  | none => .duplicate seq hash

/-- A retry is answered from memory; a settlement in flight is not answered. -/
def answerDuplicate (env : DispatchEnv) (e : LedgerEnvelope) (record : NodeRecord)
    (order : PaymentOrder) (seq : UInt64) (hash : Hash) (node : LedgerNode) :
    List NodeOutput × LedgerNode :=
  let terminal := node.manager.terminal[order.hash]?
  if terminal.isNone ∧ node.manager.pending[order.hash]?.isSome then ([], node)
  else
    let (balance, desk) := payerReceipt (env.receipts 0) record order.from_ node.desk
    ([settlementReply e.src e.msgId order.hash (duplicateStatus terminal seq hash) balance
        (terminal.bind (·.proof))], { node with desk })

/-- Remember the reserved settlement, and send it to the next signer of its route. -/
def startSettlement (env : DispatchEnv) (e : LedgerEnvelope) (record : NodeRecord)
    (pending : PendingSettlement) (forward : SettleForwardV3) (signers : List OctAddr)
    (node : LedgerNode) : List NodeOutput × LedgerNode :=
  if !forward.hopsWithinBound then
    ([settlementReject e pending.order.hash .badRequest], node)
  else
    let (evicted, manager) := node.manager.reserve pending
    let (timeouts, desk) := match evicted with
      | some evicted =>
          let (message, desk) := timeoutResult (env.receipts 0) (some record) evicted node.desk
          ([message], desk)
      | none => ([], node.desk)
    let sent := (signers[1]?.map fun signer => NodeOutput.settle signer (.forward forward)).toList
    (.journal pending.order :: (timeouts ++ sent), { desk, manager })

/-- Start a settlement at the payer's leaf. -/
def handleSettlementOrder (env : DispatchEnv) (e : LedgerEnvelope) (record : NodeRecord)
    (order : PaymentOrder) (auth : AuthRef) (payeeAddr : OctAddr)
    (recovered : Option EthAddress) (node : LedgerNode) : List NodeOutput × LedgerNode :=
  match anchorGate record e.src.node recovered with
  | .error reason => ([settlementReject e order.hash reason], node)
  | .ok _ =>
  match userChildAddress record e.src.node, record.address with
  | some payerAddr, some thisAddr =>
    match payeeAddr.parent, routeSigners payerAddr payeeAddr with
    | some payeeLeafAddr, some signers =>
      if signers.length > maxSettleHops then
        ([settlementReject e order.hash .badRequest], node)
      else match deriveHop record thisAddr payerAddr payeeAddr with
      | .error _ => ([settlementReject e order.hash .badRequest], node)
      | .ok derived =>
        let (outcome, payerKey, entry, desk) := reserveHop env order auth derived node.desk
        let node := { node with desk }
        match outcome with
        | .applied seq hash =>
            match payerKey, entry with
            | some payerKey, some entry =>
                startSettlement env e record
                  { browser := e.src, browserMsgId := e.msgId, order, auth, payerAddr
                    payeeAddr, payeeLeafAddr, localSeq := seq, localHash := hash
                    deadlineSecs := env.now + settleTimeoutSecs, replyV2 := true }
                  { order, auth, payerKey, payerAddr, payeeAddr
                    hops := [{ signerAddr := thisAddr, entry, proof := none }] }
                  signers node
            | _, _ => ([settlementReject e order.hash .internal], node)
        | .duplicate seq hash => answerDuplicate env e record order seq hash node
        | .rejected reason => ([settlementReject e order.hash reason], node)
    | _, _ => ([settlementReject e order.hash .badRequest], node)
  | _, _ => ([], node)

/-! ## Results -/

/-- Whether a result comes from where it may: a success from the payee's leaf, a refusal from a
signer of the route. -/
def resultExpected (src : OctAddr) (pending : PendingSettlement) : SettleOutcomeV3 → Bool
  | .applied .. => src == pending.payeeLeafAddr
  | .rejected _ =>
      match routeSigners pending.payerAddr pending.payeeAddr with
      | some signers => signers.contains src
      | none => false

/-- What the origin makes of a result: the status it reports with which proof, whether the result
is remembered, and the notes of its audit. -/
structure Verdict where
  status : SettlementStatusV2
  proof : Option EntryProofV1
  resolved : Bool
  degraded : Bool
  notes : List NodeOutput

/-- What the origin keeps of a settlement, as far as its audit reads it. -/
def PendingSettlement.terms (p : PendingSettlement) : SettleTerms where
  order := p.order
  payerAddr := p.payerAddr
  payeeAddr := p.payeeAddr
  payeeLeafAddr := p.payeeLeafAddr

/-- Audit the echoed intermediates: whether they are degraded, and the note that is kept of it. -/
def auditIntermediates (target : Target) (env : DispatchEnv) (pending : PendingSettlement)
    (proof : EntryProofV1) (intermediates : List SettleHopV3) (service : LedgerService) :
    Option (Bool × List NodeOutput) :=
  match service.effectiveRegistry env.lookup with
  | .error _ =>
      some (true, [.audit pending.order.hash intermediates.head?
        { whichCheck := "registry", expectedNodeId := none, hopIndex := 1 }])
  | .ok registry => do
      let checked ← (intermediatesCheck target pending.terms proof intermediates env.auditRecord
        service.nodeId registry).run
      match checked with
      | .ok () => some (false, [])
      | .error check =>
          let hop := if check.hopIndex = 0 then none else intermediates[check.hopIndex - 1]?
          some (true, [.audit pending.order.hash hop check])

/-- Judge a result. A success without a valid proof is undetermined, and is not remembered. -/
def judgeResult (target : Target) (env : DispatchEnv) (pending : PendingSettlement)
    (service : LedgerService) : SettleOutcomeV3 → Option Verdict
  | .applied terminalSeq terminalHash proof intermediates => do
      let verified ← verifyTerminalProof target proof pending.order pending.payeeLeafAddr
        terminalSeq terminalHash
      if verified then do
        let (degraded, notes) ←
          auditIntermediates target env pending proof intermediates service
        some { status := .applied terminalSeq terminalHash, proof := some proof
               resolved := true, degraded, notes }
      else some { status := .indeterminate .internal, proof := none, resolved := false
                  degraded := false, notes := [] }
  | .rejected reason =>
      some { status := settleRejectToStatus reason, proof := none, resolved := true
             degraded := false, notes := [] }

def terminalRecord (pending : PendingSettlement) (outcome : SettleOutcomeV3) (verdict : Verdict) :
    TerminalRecord where
  browser := pending.browser
  browserMsgId := pending.browserMsgId
  order := pending.order
  outcome
  degraded := verdict.degraded
  terminalEntry := match outcome with
    | .applied _ _ proof _ => some proof.entry
    | .rejected _ => none
  proof := verdict.proof

def SettlementStatusV2.entry? : SettlementStatusV2 → Option (UInt64 × Hash)
  | .applied seq hash | .duplicate seq hash => some (seq, hash)
  | _ => none

def answerSettlement (pending : PendingSettlement) (verdict : Verdict)
    (balance : Option BalanceReceiptV1) : NodeOutput :=
  if pending.replyV2 then
    settlementReply pending.browser pending.browserMsgId pending.order.hash verdict.status balance
      verdict.proof
  else
    let (status, reason) := settlementStatusToV1 verdict.status
    orderResultV1 pending.browser pending.browserMsgId
      { orderHash := pending.order.hash, status, entrySeq := verdict.status.entry?.map Prod.fst
        entryHash := verdict.status.entry?.map Prod.snd, reason, balance }

/-- A fresh receipt for every answer but a refusal. -/
def resultReceipt (env : DispatchEnv) (pending : PendingSettlement) (status : SettlementStatusV2)
    (desk : Desk) : Option BalanceReceiptV1 × Desk :=
  match status, env.receiptRecord with
  | .rejected _, _ | _, none => (none, desk)
  | _, some record => payerReceipt (env.receipts 0) record pending.order.from_ desk

/-- Handle the result of a settlement at its origin; `none` when the proof verifier does not
return. -/
def handleSettleResult (target : Target) (env : DispatchEnv) (src : PeerRef)
    (result : SettleResultV3) (node : LedgerNode) : Option (List NodeOutput × LedgerNode) :=
  if !result.intermediatesWithinBound then some ([], node)
  else match node.manager.pending[result.paymentId]? with
  | none => some ([], node)
  | some pending =>
      if !resultExpected src.addr pending result.outcome then some ([], node)
      else do
        let verdict ← judgeResult target env pending node.desk.service result.outcome
        let (_, manager) := node.manager.takePending result.paymentId
        let manager := if verdict.resolved then
          manager.recordTerminal result.paymentId (terminalRecord pending result.outcome verdict)
          else manager
        let (balance, desk) := resultReceipt env pending verdict.status node.desk
        some (verdict.notes ++ [answerSettlement pending verdict balance], { desk, manager })

def timeoutResults (record : Option NodeRecord) (receipts : ℕ → TxEnv) :
    List (PendingSettlement × ℕ) → Desk → List NodeOutput × Desk
  | [], desk => ([], desk)
  | (pending, index) :: rest, desk =>
      let (message, desk) := timeoutResult (receipts index) record pending desk
      let (messages, desk) := timeoutResults record receipts rest desk
      (message :: messages, desk)

/-- Sweep the settlements that timed out, and notify their browsers. -/
def sweepSettlements (env : DispatchEnv) (node : LedgerNode) : List NodeOutput × LedgerNode :=
  let (expired, manager) := node.manager.sweepExpired env.now
  let (messages, desk) := timeoutResults env.record env.receipts expired.zipIdx node.desk
  (messages, { desk, manager })

/-! ## Dispatch of ledger envelopes -/

def answerBalanceQuery (env : DispatchEnv) (e : LedgerEnvelope) (queryId : UInt64)
    (node : LedgerNode) : List NodeOutput × LedgerNode :=
  match env.record with
  | none => ([], node)
  | some record =>
      if userChildAddress record e.src.node ≠ some e.src.addr then ([], node)
      else
        let (receipt, desk) := freshReceipt (env.receipts 0) record e.src.node none node.desk
        (receipt.toList.map fun receipt => .ledger
          { dst := e.src.addr, replyTo := some e.msgId, queryId := some queryId
            payload := .balanceReceiptV1 receipt }, { node with desk })

variable [EthPrimitives] [HashBytes]

/-- An order with a payee address: the sender must be a user at the address it claims, and the
payee decides the path. -/
def dispatchAddressedOrder (env : DispatchEnv) (e : LedgerEnvelope) (order : PaymentOrder)
    (auth : AuthRef) (payeeAddr : OctAddr) (recovered : Option EthAddress) (node : LedgerNode) :
    List NodeOutput × LedgerNode :=
  match env.record with
  | none => ([], node)
  | some record =>
      if userChildAddress record e.src.node ≠ some e.src.addr then
        ([settlementReject e order.hash .notAChild], node)
      else if isUserChild record order.to_ then
        applySameLeafOrder env e record order auth true recovered node
      else handleSettlementOrder env e record order auth payeeAddr recovered node

/-- Process one locally delivered ledger envelope. -/
def dispatchLedgerEnvelope (env : DispatchEnv) (e : LedgerEnvelope) (node : LedgerNode) :
    List NodeOutput × LedgerNode :=
  match e.payload with
  | .order (.v1 order auth) =>
      match env.record with
      | none => ([], node)
      | some record => applySameLeafOrder env e record order auth false none node
  | .order (.v2 order auth payeeAddr) =>
      dispatchAddressedOrder env e order auth payeeAddr none node
  | .order (.v4 order auth payeeAddr eth) =>
      match v4RecoveredAddress order payeeAddr eth with
      | none => ([settlementReject e order.hash .unauthorized], node)
      | some recovered =>
          dispatchAddressedOrder env e order auth payeeAddr (some recovered) node
  | .balanceQuery queryId => answerBalanceQuery env e queryId node
  | .other => ([], node)

end Cawala
