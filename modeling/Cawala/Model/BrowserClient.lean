import Cawala.Model.BrowserLedger

/-! # The calls of a browser client

Receipts and results as they are verified and applied, and the calls that reach the ledger
state. -/

namespace Cawala

open Library

variable [Crypto]

/-- Why an inbound message was refused. -/
inductive LedgerRefusal where
  | wrongEdgeParent
  | wrongEdgeChild
  | ledgerKeyMismatch
  | proofTooLong
  | attestationInvalid (err : LedgerError)
  | historyTooLong
  | unknownOrder
  | notJoined
  | malformedPayload
  | unexpectedPayload
deriving DecidableEq

/-- What a call answers and the state it leaves; `none` when it does not return. -/
abbrev Answer (α : Type) : Type := Option (Except LedgerRefusal α × LedgerStateV1)

/-! ## Receipts -/

def BalanceReceiptV1.verified (receipt : BalanceReceiptV1) : VerifiedBalanceV1 where
  amount := receipt.attestation.balance
  height := receipt.commitment.commitment.height
  stateRoot := receipt.commitment.commitment.stateRoot

def checkReceipt (receipt : BalanceReceiptV1) (selfNode expectedParent : NodeId) :
    Except LedgerRefusal Unit :=
  if receipt.attestation.edge.parent ≠ expectedParent then .error .wrongEdgeParent
  else if receipt.attestation.edge.child ≠ selfNode then .error .wrongEdgeChild
  else if receipt.attestation.ledgerPubkey ≠ receipt.ledgerPubkey
      ∨ receipt.commitment.commitment.ledgerPubkey ≠ receipt.ledgerPubkey
      ∨ receipt.commitment.commitment.ledgerId ≠ receipt.ledgerPubkey then
    .error .ledgerKeyMismatch
  else if receipt.attestation.proof.length > maxAttestationProof then .error .proofTooLong
  else .ok ()

def verifyReceipt (target : Target) (s : LedgerStateV1) (receipt : BalanceReceiptV1)
    (selfNode expectedParent : NodeId) : Answer VerifiedBalanceV1 :=
  match checkReceipt receipt selfNode expectedParent with
  | .error e => some (.error e, s)
  | .ok () =>
      match s.pinnedLedger with
      | some pinned =>
          if pinned ≠ receipt.ledgerPubkey then
            some (.error .ledgerKeyMismatch,
              s.recordLeafKeyChange expectedParent pinned receipt.ledgerPubkey)
          else
            match verifyBalanceAttestation target receipt.attestation receipt.commitment
                pinned with
            | none => none
            | some (.error e) => some (.error (.attestationInvalid e), s)
            | some (.ok ()) => some (.ok receipt.verified, s)
      | none =>
          -- trust on first use; a failure rolls the pin and its trust back
          match verifyBalanceAttestation target receipt.attestation receipt.commitment
              receipt.ledgerPubkey with
          | none => none
          | some (.error e) =>
              some (.error (.attestationInvalid e),
                { s with pinnedLedger := none, pinnedLedgerTrust := .unconfirmed })
          | some (.ok ()) =>
              some (.ok receipt.verified,
                { s with
                  pinnedLedger := some receipt.ledgerPubkey
                  pinnedLedgerTrust := .unconfirmed })

def verifyOffered (target : Target) (s : LedgerStateV1) (offered : Option BalanceReceiptV1)
    (selfNode expectedParent : NodeId) : Answer (Option VerifiedBalanceV1) :=
  match offered with
  | none => some (.ok none, s)
  | some receipt =>
      match verifyReceipt target s receipt selfNode expectedParent with
      | none => none
      | some (.error e, s) => some (.error e, s)
      | some (.ok verified, s) => some (.ok (some verified), s)

def LedgerStateV1.installBalance (s : LedgerStateV1) (verified : Option VerifiedBalanceV1) :
    LedgerStateV1 :=
  match verified with
  | none => s
  | some balance => { s with balance := some balance }

def applyBalanceReceipt (target : Target) (s : LedgerStateV1) (receipt : BalanceReceiptV1)
    (selfNode expectedParent : NodeId) : Answer VerifiedBalanceV1 :=
  if !receipt.historyWithinBound then some (.error .historyTooLong, s)
  else match verifyReceipt target s receipt selfNode expectedParent with
    | none => none
    | some (.error e, s) => some (.error e, s)
    | some (.ok verified, s) =>
        let notices := receipt.notice.toList ++ receipt.history
        let s := notices.foldl (fun s notice => s.recordActivity (activityFromNotice notice)) s
        some (.ok verified, s.installBalance verified)

/-! ## Results without a payee address -/

structure OrderResultApplication where
  status : OrderStatus
  reason : Option OrderReject
  orderHash : Hash
  amount : Amount
  counterparty : NodeId
  entrySeq : Option UInt64
  balance : Option VerifiedBalanceV1
deriving DecidableEq

def directActivity (pending : PendingOrderV1) (result : OrderResultV1) (now : UInt64) :
    Option ActivityEntryV1 :=
  match result.status, result.entrySeq, result.entryHash with
  | .rejected, _, _ => none
  | _, some entrySeq, some entryHash =>
      some
        { entrySeq, entryHash, paymentId := pending.order.hash, from_ := pending.order.from_
          to_ := pending.order.to_, amount := pending.order.amount, role := .direct
          issuedAt := now }
  | _, _, _ => none

def applyOrderResult (target : Target) (s : LedgerStateV1) (result : OrderResultV1)
    (selfNode expectedParent : NodeId) (now : UInt64) : Answer OrderResultApplication :=
  match s.pendingIndex result.orderHash with
  | none => some (.error .unknownOrder, s)
  | some index =>
      match verifyOffered target s result.balance selfNode expectedParent with
      | none => none
      | some (.error e, s) => some (.error e, s)
      | some (.ok verified, s) =>
          match s.pending[index]? with
          | none => none
          | some pending =>
              let s := s.removePending index
              let s := match directActivity pending result now with
                | none => s
                | some entry => s.recordActivity entry
              some (.ok
                { status := result.status, reason := result.reason
                  orderHash := result.orderHash, amount := pending.order.amount
                  counterparty := pending.order.to_, entrySeq := result.entrySeq
                  balance := verified },
                s.installBalance verified)

/-- The proof must come from the leaf of the payee address, where one is known. -/
def PendingOrderV1.leafMismatch (pending : PendingOrderV1) (leafAddr : OctAddr) : Bool :=
  match pending.payeeAddr with
  | none => false
  | some payee => payee.parent != some leafAddr

def LedgerStateV1.checkLeafPin (s : LedgerStateV1) (pending : PendingOrderV1)
    (nodeId : NodeId) (signerLedger : LedgerPubKey) : Except ProofRefusal Unit :=
  match s.pinnedLeafKey nodeId with
  | some pinned => if pinned ≠ signerLedger then .error .pinnedLeafKeyMismatch else .ok ()
  | none =>
      match pending.pinnedLeaf with
      | none => .ok ()
      | some (pinNode, pinKey) =>
          if pinNode ≠ nodeId ∨ pinKey ≠ signerLedger then .error .receiveUriPinMismatch
          else .ok ()

/-- Record the key of a refused proof if it differs from the one pinned for its signer. -/
def LedgerStateV1.surfaceLeafKey (s : LedgerStateV1) (signer : PeerKeys) : LedgerStateV1 :=
  match signer.ledger, s.pinnedLeafKey signer.nodeId with
  | some ledger, some pinned =>
      if pinned ≠ ledger then s.recordLeafKeyChange signer.nodeId pinned ledger else s
  | _, _ => s

/-- Pin the key of an accepted proof if none is pinned for its signer. -/
def LedgerStateV1.pinFirstUse (s : LedgerStateV1) (signer : PeerKeys) : LedgerStateV1 :=
  match signer.ledger, s.pinnedLeafKey signer.nodeId with
  | some ledger, none => s.pinLeafKeyUnconfirmed signer.nodeId ledger
  | _, _ => s

/-- The result of applying one settlement result. -/
structure SettlementApplication where
  state : SettlementStateV1
  reason : Option OrderReject
  orderHash : Hash
  amount : Amount
  counterparty : NodeId
  entrySeq : Option UInt64
  balance : Option VerifiedBalanceV1
deriving DecidableEq

/-- A settlement state, the reason reported with it, and the entry it is verified for. -/
structure Resolution where
  state : SettlementStateV1
  reason : Option OrderReject
  entrySeq : Option UInt64
deriving DecidableEq

/-! ## Messages and calls -/

/-- What a drained message is reported as. -/
inductive LedgerEvent where
  | orderResult (app : OrderResultApplication)
  | settlement (app : SettlementApplication)
  | balanceReceipt (balance : VerifiedBalanceV1)
  | invalid (reason : LedgerRefusal)
deriving DecidableEq

def Answer.event {α : Type} (answer : Answer α) (report : α → LedgerEvent) :
    Option (LedgerEvent × LedgerStateV1) :=
  match answer with
  | none => none
  | some (.ok a, s) => some (report a, s)
  | some (.error e, s) => some (.invalid e, s)

/-- A call that reaches the ledger state. -/
inductive ClientCall where
  | sendPayment (order : PaymentOrder) (auth : AuthRef) (now : UInt64)
      (selfAddr payeeAddr : OctAddr)
  | pinPayeeLeaf (nodeId : NodeId) (ledger : LedgerPubKey)
  | confirmPin (parent : Option NodeId) (nodeId : NodeId)
  | acceptPinChange (parent : Option NodeId) (nodeId : NodeId)
  | rebindParent (ledger : LedgerPubKey)
  | clearParentBinding
  | receive (selfNode : NodeId) (parent : Option NodeId)
      (payload : Option VersionedLedgerPayload) (now : UInt64)
deriving DecidableEq

def sendPayment (s : LedgerStateV1) (order : PaymentOrder) (auth : AuthRef) (now : UInt64)
    (selfAddr payeeAddr : OctAddr) : LedgerStateV1 :=
  s.pushPendingWith
    { order, auth, sentAt := now, payeeAddr := some payeeAddr
      payerLeaf := decide (selfAddr.parent = payeeAddr.parent), pinnedLeaf := none }

/-- Confirm the pin of a node, of the routing leaf too if the node is the parent. -/
def confirmPin (s : LedgerStateV1) (parent : Option NodeId) (nodeId : NodeId) :
    LedgerStateV1 :=
  let s := if parent = some nodeId then (s.confirmPinnedLedger nodeId).2 else s
  (s.confirmLeafPin nodeId).2

/-- Adopt the recorded change of a node, of the routing leaf too if the node is the parent. -/
def acceptPinChange (s : LedgerStateV1) (parent : Option NodeId) (nodeId : NodeId) :
    LedgerStateV1 :=
  let s := if parent = some nodeId then (s.acceptPinnedLedgerChange nodeId).2 else s
  (s.acceptLeafKeyChange nodeId).2

/-! ## Results with a payee address -/

variable [Postcard]

/-- The checks of a terminal proof ahead of its inclusion; yields the signer's ledger key. -/
def checkSettlementProof (pending : PendingOrderV1) (orderHash : Hash) (proof : EntryProofV1) :
    Except ProofRefusal LedgerPubKey :=
  match proof.validate with
  | .error text => .error (.proofInvalid text)
  | .ok () =>
  if proof.inclusion.proof.length > maxEntryProof then .error .proofTooLong
  else if pending.leafMismatch proof.leafAddr then .error .leafAddressMismatch
  else if orderHash ≠ pending.order.hash then .error .orderHashMismatch
  else match verifyAppliedEntry proof.entry pending.order pending.payerLeaf with
  | .error err => .error (.terminalEntryShape err)
  | .ok () =>
  if proof.signer.role ≠ .node then .error .signerNotNode
  else match proof.signer.ledger with
  | none => .error .signerWithoutLedger
  | some signerLedger =>
  match proof.entry.verify signerLedger with
  | .error err => .error (.terminalEntrySignature err)
  | .ok () =>
  if proof.commitment.commitment.ledgerPubkey ≠ signerLedger then .error .commitmentKeyMismatch
  else if proof.commitment.commitment.entryCount ≠ proof.inclusion.treeSize.toUInt64 then
    .error .entryCountMismatch
  else if proof.inclusion.index ≥ proof.inclusion.treeSize then .error .indexOutOfRange
  else if proof.entry.entry.seq ≥ proof.inclusion.treeSize.toUInt64 then
    .error .entrySeqOutOfRange
  else .ok signerLedger

/-- Fully verify a terminal inclusion proof. -/
def verifySettlementProof (target : Target) (s : LedgerStateV1) (pending : PendingOrderV1)
    (orderHash : Hash) (proof : EntryProofV1) : Option (Except ProofRefusal Unit) :=
  match checkSettlementProof pending orderHash proof with
  | .error e => some (.error e)
  | .ok signerLedger =>
      match verifyEntryInclusion target proof.entry proof.inclusion
          proof.commitment.commitment.entryRoot with
      | none => none
      | some false => some (.error .inclusionFailed)
      | some true => some (s.checkLeafPin pending proof.signer.nodeId signerLedger)

/-- The settlement state of an applied or duplicate result. -/
def terminalSettlementState (target : Target) (s : LedgerStateV1) (pending : PendingOrderV1)
    (orderHash : Hash) (proof : Option EntryProofV1) (success : SettlementStateV1) :
    Option (SettlementStateV1 × LedgerStateV1) :=
  match proof with
  | none => some (.unverified .missingProof, s)
  | some proof =>
      match verifySettlementProof target s pending orderHash proof with
      | none => none
      | some (.error reason) => some (.unverified reason, s.surfaceLeafKey proof.signer)
      | some (.ok ()) => some (success, s.pinFirstUse proof.signer)

/-- An applied or duplicate result: its entry is reported only when its proof is accepted. -/
def resolveTerminal (target : Target) (s : LedgerStateV1) (pending : PendingOrderV1)
    (orderHash : Hash) (proof : Option EntryProofV1) (success : SettlementStateV1)
    (entrySeq : UInt64) : Option (Resolution × LedgerStateV1) :=
  match terminalSettlementState target s pending orderHash proof success with
  | none => none
  | some (.unverified reason, s) =>
      some ({ state := .unverified reason, reason := none, entrySeq := none }, s)
  | some (state, s) => some ({ state, reason := none, entrySeq := some entrySeq }, s)

/-- What a settlement status means for the order it is about. -/
def resolveStatus (target : Target) (s : LedgerStateV1) (pending : PendingOrderV1)
    (orderHash : Hash) (proof : Option EntryProofV1) :
    SettlementStatusV2 → Option (Resolution × LedgerStateV1)
  | .applied entrySeq _ => resolveTerminal target s pending orderHash proof .applied entrySeq
  | .duplicate entrySeq _ =>
      resolveTerminal target s pending orderHash proof .duplicate entrySeq
  | .partially failedAt reason =>
      some ({ state := .partially failedAt, reason := some reason, entrySeq := none }, s)
  | .rejected reason =>
      some ({ state := .rejected reason, reason := some reason, entrySeq := none }, s)
  | .indeterminate reason =>
      some ({ state := .indeterminate reason, reason := some reason, entrySeq := none }, s)

def applySettlementResultInner (target : Target) (s : LedgerStateV1) (orderHash : Hash)
    (status : SettlementStatusV2) (balance : Option BalanceReceiptV1)
    (proof : Option EntryProofV1) (selfNode expectedParent : NodeId) :
    Answer SettlementApplication :=
  match s.pendingIndex orderHash with
  | none => some (.error .unknownOrder, s)
  | some index =>
      match s.pending[index]? with
      | none => none
      | some pending =>
          match verifyOffered target s balance selfNode expectedParent with
          | none => none
          | some (.error e, s) => some (.error e, s)
          | some (.ok verified, s) =>
              match resolveStatus target s pending orderHash proof status with
              | none => none
              | some (resolution, s) =>
                  let s := (s.removePending index).installBalance verified
                  some (.ok
                    { state := resolution.state, reason := resolution.reason, orderHash
                      amount := pending.order.amount, counterparty := pending.order.to_
                      entrySeq := resolution.entrySeq, balance := verified },
                    s.recordSettlement
                      { orderHash, state := resolution.state
                        amount := some pending.order.amount
                        counterparty := some pending.order.to_
                        entrySeq := resolution.entrySeq })

def applySettlementResult (target : Target) (s : LedgerStateV1) (result : OrderResultV3)
    (selfNode expectedParent : NodeId) : Answer SettlementApplication :=
  applySettlementResultInner target s result.orderHash result.status result.balance
    result.proof selfNode expectedParent

/-- Apply a settlement result of the version that carries no proof. -/
def applySettlementResultV2 (target : Target) (s : LedgerStateV1) (result : OrderResultV2)
    (selfNode expectedParent : NodeId) : Answer SettlementApplication :=
  applySettlementResultInner target s result.orderHash result.status result.balance none
    selfNode expectedParent

/-! ## The client -/

/-- Apply a decoded payload for the client `selfNode` below `parent`. -/
def dispatchLedgerPayload (target : Target) (s : LedgerStateV1) (selfNode parent : NodeId)
    (now : UInt64) : VersionedLedgerPayload → Option (LedgerEvent × LedgerStateV1)
  | .orderResultV1 result =>
      (applyOrderResult target s result selfNode parent now).event .orderResult
  | .balanceReceiptV1 receipt =>
      (applyBalanceReceipt target s receipt selfNode parent).event .balanceReceipt
  | .orderResultV2 result =>
      (applySettlementResultV2 target s result selfNode parent).event .settlement
  | .orderResultV3 result =>
      (applySettlementResult target s result selfNode parent).event .settlement
  | .other => some (.invalid .unexpectedPayload, s)

/-- Drain one ledger message: `payload` is `none` when it does not decode, and `parent` is
the client's current parent. -/
def tryRecvLedgerEvent (target : Target) (s : LedgerStateV1) (selfNode : NodeId)
    (parent : Option NodeId) (payload : Option VersionedLedgerPayload) (now : UInt64) :
    Option (LedgerEvent × LedgerStateV1) :=
  match payload with
  | none => some (.invalid .malformedPayload, s)
  | some .other => some (.invalid .unexpectedPayload, s)
  | some payload =>
      match parent with
      | none => some (.invalid .notJoined, s)
      | some parent => dispatchLedgerPayload target s selfNode parent now payload

/-- One call: the event it reports, if any, and the state it leaves. -/
def ClientCall.perform (target : Target) (s : LedgerStateV1) :
    ClientCall → Option (Option LedgerEvent × LedgerStateV1)
  | .sendPayment order auth now selfAddr payeeAddr =>
      some (none, Cawala.sendPayment s order auth now selfAddr payeeAddr)
  | .pinPayeeLeaf nodeId ledger => some (none, (s.pinLeafKeyFromReceive nodeId ledger).2)
  | .confirmPin parent nodeId => some (none, Cawala.confirmPin s parent nodeId)
  | .acceptPinChange parent nodeId => some (none, Cawala.acceptPinChange s parent nodeId)
  | .rebindParent ledger => some (none, s.rebindParent ledger)
  | .clearParentBinding => some (none, s.clearParentBinding)
  | .receive selfNode parent payload now =>
      match tryRecvLedgerEvent target s selfNode parent payload now with
      | none => none
      | some (event, s) => some (some event, s)

end Cawala
