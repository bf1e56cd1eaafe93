import Cawala.Model.Netting
import Cawala.Model.SettleRoute

/-! # Settlement proofs

The evidence a cascade's result carries, and what the origin checks of it. -/

namespace Cawala

variable [Crypto]

/-- Evidence that an applied hop is committed by a leaf's log. -/
structure EntryProofV1 where
  entry : SignedEntry
  signer : PeerKeys
  leafAddr : OctAddr
  commitment : SignedCommitment
  inclusion : EntryInclusionProof
deriving DecidableEq

/-- Structurally validate the proof envelope. -/
def EntryProofV1.validate (p : EntryProofV1) : Except String Unit :=
  if p.inclusion.proof.length > maxEntryProof then .error "audit path too long"
  else if p.inclusion.index ≥ p.inclusion.treeSize then .error "index is not below tree_size"
  else if p.inclusion.treeSize.toUInt64 ≠ p.commitment.commitment.entryCount then
    .error "tree_size does not match commitment entry_count"
  else if p.entry.entry.seq ≥ p.inclusion.treeSize.toUInt64 then
    .error "entry seq is not below tree_size"
  else if p.signer.role ≠ .node ∨ p.signer.ledger.isNone then
    .error "signer is not a ledger-bearing node"
  else .ok ()

/-- A hop of a cascade, as the signers after it see it. -/
structure SettleHopV3 where
  signerAddr : OctAddr
  entry : SignedEntry
  proof : Option EntryProofV1
deriving DecidableEq

/-- What the origin keeps of a cascade in flight, as far as its checks read it. -/
structure SettleTerms where
  order : PaymentOrder
  payerAddr : OctAddr
  payeeAddr : OctAddr
  payeeLeafAddr : OctAddr
deriving DecidableEq

variable [Postcard]

/-! ## The terminal proof -/

/-- Verify a terminal leaf's inclusion proof before the origin accepts an `Applied`
outcome; `none` when the proof verifier does not return. -/
def verifyTerminalProof (target : Target) (proof : EntryProofV1) (order : PaymentOrder)
    (payeeLeafAddr : OctAddr) (terminalSeq : UInt64) (terminalHash : Hash) : Option Bool :=
  if proof.leafAddr ≠ payeeLeafAddr then some false
  else match entryHash proof.entry.entry with
  | .error _ => some false
  | .ok hash =>
  if terminalSeq ≠ proof.entry.entry.seq ∨ terminalHash ≠ hash then some false
  else match verifyAppliedEntry proof.entry order false with
  | .error _ => some false
  | .ok _ =>
  if proof.signer.role ≠ .node then some false
  else match proof.signer.ledger with
  | none => some false
  | some signerLedger =>
  match proof.entry.verify signerLedger with
  | .error _ => some false
  | .ok _ =>
  if proof.commitment.commitment.ledgerPubkey ≠ signerLedger then some false
  else match proof.validate with
  | .error _ => some false
  | .ok _ =>
  if proof.commitment.commitment.entryCount ≠ proof.inclusion.treeSize.toUInt64 then some false
  else if proof.inclusion.index ≥ proof.inclusion.treeSize then some false
  else if proof.entry.entry.seq ≥ proof.inclusion.treeSize.toUInt64 then some false
  else verifyEntryInclusion target proof.entry proof.inclusion
    proof.commitment.commitment.entryRoot

/-! ## The intermediates -/

/-- Why an echoed intermediate hop failed the accountability audit. -/
structure IntermediateCheck where
  whichCheck : String
  expectedNodeId : Option NodeId
  hopIndex : ℕ
deriving DecidableEq, Repr

/-- A step of the audit; `none` when a proof verifier does not return. -/
abbrev Audit (α : Type) : Type := ExceptT IntermediateCheck Option α

/-- Fail the audit unless a check holds. -/
def Audit.require (c : Prop) [Decidable c] (whichCheck : String) (node : Option NodeId)
    (hopIndex : ℕ) : Except IntermediateCheck Unit :=
  if c then .ok () else .error { whichCheck, expectedNodeId := node, hopIndex }

def Audit.proofOf (hop : SettleHopV3) (node : Option NodeId) (hopIndex : ℕ) :
    Except IntermediateCheck EntryProofV1 :=
  match hop.proof with
  | some proof => .ok proof
  | none =>
      .error { whichCheck := "intermediate_proof_missing", expectedNodeId := node, hopIndex }

def Audit.inclusion (target : Target) (proof : EntryProofV1) (node : Option NodeId)
    (hopIndex : ℕ) : Audit EntryProofV1 :=
  match verifyEntryInclusion target proof.entry proof.inclusion
      proof.commitment.commitment.entryRoot with
  | none => none
  | some true => some (.ok proof)
  | some false =>
      some (.error
        { whichCheck := "intermediate_proof_inclusion", expectedNodeId := node, hopIndex })

/-- A canonical transfer of the order with the expected role; yields the role. -/
def checkIntermediateBody (terms : SettleTerms) (hop : SettleHopV3) (expected : Option HopRole)
    (node : Option NodeId) (hopIndex : ℕ) : Except IntermediateCheck HopRole := do
  match hop.entry.entry.body with
  | .transfer paymentId amount role => do
      Audit.require (some role = expected ∧ paymentId = terms.order.hash
        ∧ amount = terms.order.amount) "intermediate_body" node hopIndex
      Audit.require hop.entry.entry.checkConservation.isOk "intermediate_conservation" node
        hopIndex
      pure role
  | _ => .error { whichCheck := "intermediate_body", expectedNodeId := node, hopIndex }

/-- Steps (a) and (b): the echoed hops stand where the route says, and the first of them is
the origin's persisted parent. -/
def checkRoute (terms : SettleTerms) (intermediates : List SettleHopV3)
    (record : Option NodeRecord) : Except IntermediateCheck (List OctAddr × NodeId) := do
  let fail {α : Type} (whichCheck : String) (hopIndex : ℕ) : Except IntermediateCheck α :=
    .error { whichCheck, expectedNodeId := none, hopIndex }
  match routeSigners terms.payerAddr terms.payeeAddr with
  | none => fail "route" 1
  | some signers => do
      Audit.require (intermediates.length = signers.length - 2) "intermediates_len" none 1
      intermediates.zipIdx.forM fun (hop, k) =>
        Audit.require (some hop.signerAddr = signers[k + 1]?) "intermediate_signer" none (k + 1)
      match record with
      | none => fail "record" 1
      | some record => do
          Audit.require (record.address.bind (·.parent) = signers[1]?) "origin_parent_addr" none 1
          match record.parent with
          | none => fail "origin_parent_link" 1
          | some link => pure (signers, link.parentId)

/-- Step (c): the persisted parent row is a ledger-bearing node. -/
def checkParentRow (registry : PeerRegistry) (parent : NodeId) :
    Except IntermediateCheck LedgerPubKey :=
  let fail (whichCheck : String) : Except IntermediateCheck LedgerPubKey :=
    .error { whichCheck, expectedNodeId := some parent, hopIndex := 1 }
  match registry.get parent with
  | none => fail "parent_row"
  | some row =>
      if row.role ≠ .node then fail "parent_role"
      else match row.ledger with
        | none => fail "parent_ledger"
        | some ledger => .ok ledger

/-- Step (e): whether the posting accounts of the parent hop are bound as its role asks. -/
def accountsBound (role : HopRole) (origin terminal : NodeId) (alone : Bool)
    (accounts : AccountRef × AccountRef) : Bool :=
  match role with
  | .ascend => accounts == (.parent, .child origin)
  | .lca =>
      if alone then accounts == (.child origin, .child terminal)
      else accounts.1 == .child origin
  | _ => false

/-- Steps (d) to (f): the parent's hop is a canonical transfer of this order, signed by the
parent's ledger key, with its own inclusion proof. -/
def checkParentHop (target : Target) (terms : SettleTerms) (terminalProof : EntryProofV1)
    (hop : SettleHopV3) (alone : Bool) (nodeId : NodeId) (signer : OctAddr)
    (parent : NodeId) (parentLedger : LedgerPubKey) : Audit EntryProofV1 := do
  let expected := some parent
  let checked : Except IntermediateCheck EntryProofV1 := do
    let role ← checkIntermediateBody terms hop
      (classifyHop terms.payerAddr terms.payeeAddr signer) expected 1
    Audit.require (hop.entry.entry.ledgerId = parentLedger) "intermediate_ledger_id" expected 1
    Audit.require (hop.entry.verify parentLedger).isOk "intermediate_signature" expected 1
    Audit.require ((entryHopAccounts hop.entry.entry role).toOption.any
      (accountsBound role nodeId terminalProof.signer.nodeId alone)) "intermediate_accounts"
      expected 1
    let proof ← Audit.proofOf hop expected 1
    Audit.require (proof.leafAddr = hop.signerAddr ∧ proof.leafAddr = signer)
      "intermediate_proof_leaf" expected 1
    Audit.require (proof.entry = hop.entry) "intermediate_proof_entry" expected 1
    Audit.require (proof.signer.role = .node) "intermediate_proof_signer_role" expected 1
    Audit.require (proof.signer.nodeId = parent) "intermediate_proof_signer_node" expected 1
    Audit.require (proof.signer.ledger = some parentLedger) "intermediate_proof_signer_ledger"
      expected 1
    Audit.require (proof.commitment.commitment.ledgerPubkey = parentLedger)
      "intermediate_proof_commitment" expected 1
    Audit.require proof.validate.isOk "intermediate_proof_validate" expected 1
    pure proof
  let proof ← (ExceptT.mk (some checked) : Audit EntryProofV1)
  Audit.inclusion target proof expected 1

/-- Step (g): a hop above the parent is checked against the key its own entry declares. -/
def checkExtraHop (target : Target) (terms : SettleTerms) (signers : List OctAddr)
    (hop : SettleHopV3) (k : ℕ) : Audit EntryProofV1 := do
  let checked : Except IntermediateCheck EntryProofV1 := do
    let role := signers[k + 1]?.bind (classifyHop terms.payerAddr terms.payeeAddr)
    Audit.require role.isSome "intermediate_signer" none (k + 1)
    let role ← checkIntermediateBody terms hop role none (k + 1)
    let ledger := hop.entry.entry.ledgerId
    Audit.require (hop.entry.verify ledger).isOk "intermediate_signature" none (k + 1)
    Audit.require (entryHopAccounts hop.entry.entry role).isOk "intermediate_accounts" none
      (k + 1)
    let proof ← Audit.proofOf hop none (k + 1)
    Audit.require (proof.leafAddr = hop.signerAddr) "intermediate_proof_leaf" none (k + 1)
    Audit.require (proof.entry = hop.entry) "intermediate_proof_entry" none (k + 1)
    Audit.require (proof.signer.role = .node) "intermediate_proof_signer_role" none (k + 1)
    Audit.require (proof.signer.ledger = some ledger) "intermediate_proof_signer_ledger" none
      (k + 1)
    Audit.require (proof.commitment.commitment.ledgerPubkey = ledger)
      "intermediate_proof_commitment" none (k + 1)
    Audit.require proof.validate.isOk "intermediate_proof_validate" none (k + 1)
    pure proof
  let proof ← (ExceptT.mk (some checked) : Audit EntryProofV1)
  Audit.inclusion target proof none (k + 1)

/-- Audit the intermediates echoed in a verified `Applied` result. -/
def intermediatesCheck (target : Target) (terms : SettleTerms) (terminalProof : EntryProofV1)
    (intermediates : List SettleHopV3) (record : Option NodeRecord) (nodeId : NodeId)
    (registry : PeerRegistry) : Audit Unit := do
  let (signers, parent) ← (ExceptT.mk (some (checkRoute terms intermediates record)) : Audit _)
  let parentLedger ← (ExceptT.mk (some (checkParentRow registry parent)) : Audit _)
  match intermediates, signers[1]? with
  | parentHop :: extra, some signer => do
      let _ ← checkParentHop target terms terminalProof parentHop extra.isEmpty nodeId signer
        parent parentLedger
      (extra.zipIdx 1).forM fun (hop, k) => do
        let _ ← checkExtraHop target terms signers hop k
      if extra.isEmpty then pure ()
      else throw { whichCheck := "unresolvable_signer", expectedNodeId := none, hopIndex := 2 }
  | _, _ => pure ()

end Cawala
