import Cawala.Model.Commit
import Cawala.Model.Topology

/-! # Settlement between subtrees

The global planner: the canonical route of an order over the topology, the plan that
follows it, and its atomic execution on a set of ledgers. -/

namespace Cawala

open Std (ExtTreeMap)

variable [Crypto]

/-- A set of node ledgers keyed by node id. -/
structure LedgerSet where
  ledgers : ExtTreeMap NodeId Ledger

namespace LedgerSet

def new : LedgerSet where
  ledgers := ∅

def insert (s : LedgerSet) (node : NodeId) (ledger : Ledger) : Except LedgerError LedgerSet :=
  if s.ledgers.contains node then .error .duplicatePeer
  else .ok { ledgers := s.ledgers.insert node ledger }

def get (s : LedgerSet) (node : NodeId) : Option Ledger := s.ledgers[node]?

def nodeIds (s : LedgerSet) : List NodeId := s.ledgers.keys

end LedgerSet

/-- One planned hop: the signer and the entry it must sign. -/
structure PlannedHop where
  signer : NodeId
  entry : Entry
deriving DecidableEq

/-- A transfer plan: the order plus its ordered hops. -/
structure SettlementPlan where
  order : PaymentOrder
  hops : List PlannedHop
deriving DecidableEq

/-- One hop the canonical route requires. -/
structure ExpectedHop where
  signer : NodeId
  role : HopRole
  first : AccountRef
  second : AccountRef
deriving DecidableEq, Repr

/-- The ledger of a node, which must be present. -/
def ledgerFor (ledgers : LedgerSet) (node : NodeId) : Except LedgerError Ledger :=
  match ledgers.get node with
  | some ledger => .ok ledger
  | none => .error (.missingLedger node)

def checkedI64 (value : Amount) : Except LedgerError SignedAmount :=
  if value.toNat < 2 ^ 63 then .ok (Int64.ofNat value.toNat) else .error .overflow

def expectChild : AccountRef → Except LedgerError NodeId
  | .child id => .ok id
  | .parent => .error .invalidEntryShape

/-- The canonical posting set for a hop, given its two accounts. -/
def hopPostings (role : HopRole) (first second : AccountRef) (m : SignedAmount) : List Posting :=
  match role with
  | .ascend => [⟨first, -m⟩, ⟨second, -m⟩]
  | .descend => [⟨first, m⟩, ⟨second, m⟩]
  | .lca | .direct => [⟨first, -m⟩, ⟨second, m⟩]

/-- The role an address plays on the canonical route from `src` to `dst`. -/
def classifyHop (src dst this : OctAddr) : Option HopRole :=
  if src.parent = dst.parent then
    if src.parent = some this then some .direct else none
  else
    let lca := src.lca dst
    if this = lca then some .lca
    else if this = src ∨ (lca.isAncestorOf this ∧ this.isAncestorOf src) then some .ascend
    else if this = dst ∨ (lca.isAncestorOf this ∧ this.isAncestorOf dst) then some .descend
    else none

def isOpened (balances : Balances) (account : AccountRef) : Bool :=
  balances.accounts.any fun candidate => candidate.1 == account

/-! ## The canonical route -/

/-- A topology failure as the planner reports it. -/
def unsupported {α : Type} : Except TopologyError α → Except LedgerError α
  | .ok a => .ok a
  | .error _ => .error .unsupportedEndpoint

def userLeaf (t : Topology) (user : NodeId) : Except LedgerError NodeId :=
  match t.node user with
  | none => .error .unsupportedEndpoint
  | some record =>
      if record.kind ≠ .user then .error .unsupportedEndpoint
      else do
        match ← unsupported (t.parentOf user) with
        | none => .error .unsupportedEndpoint
        | some parent =>
            let children ← unsupported (t.childrenOf parent)
            if children.any (fun child => child.kind == .node) then .error .unsupportedEndpoint
            else .ok parent

/-- The node whose derived address equals `address`. -/
def nodeAtAddress (t : Topology) (address : OctAddr) : Except LedgerError NodeId :=
  match t.nodeIds.find? (fun id =>
      match t.addressOf id with
      | .ok addr => addr == address
      | .error _ => false) with
  | some id => .ok id
  | none => .error .unsupportedEndpoint

/-- The loop of `path_below`, whose guard allows `node_count + 1` rounds. -/
def pathBelowLoop (t : Topology) (lca : NodeId) : ℕ → NodeId → List NodeId →
    Except LedgerError (List NodeId)
  | 0, _, _ => .error .unsupportedEndpoint
  | fuel + 1, cur, out =>
      if cur = lca then .ok out
      else do
        match ← unsupported (t.parentOf cur) with
        | some parent => pathBelowLoop t lca fuel parent (out ++ [cur])
        | none => .error .unsupportedEndpoint

/-- Nodes from `leaf` upward, excluding `lca`. -/
def pathBelow (t : Topology) (leaf lca : NodeId) : Except LedgerError (List NodeId) :=
  pathBelowLoop t lca (t.nodeCount + 1) leaf []

/-- Ascending hops: each node debits `Parent` and the child toward the payer. -/
def ascendHops : NodeId → List NodeId → List ExpectedHop
  | _, [] => []
  | down, node :: rest =>
      { signer := node, role := .ascend, first := .parent, second := .child down }
        :: ascendHops node rest

/-- Descending hops: each node credits `Parent` and the child toward the payee. -/
def descendHops (payee : NodeId) : List NodeId → List ExpectedHop
  | [] => []
  | node :: rest =>
      { signer := node, role := .descend, first := .parent,
        second := .child (rest.head?.getD payee) }
        :: descendHops payee rest

/-- Compute the canonical hop route for an order. -/
def expectedHops (t : Topology) (order : PaymentOrder) :
    Except LedgerError (List ExpectedHop) := do
  let fromLeaf ← userLeaf t order.from_
  let toLeaf ← userLeaf t order.to_
  if fromLeaf = toLeaf then
    .ok [{ signer := fromLeaf, role := .direct, first := .child order.from_,
           second := .child order.to_ }]
  else do
    let fromAddr ← unsupported (t.addressOf order.from_)
    let toAddr ← unsupported (t.addressOf order.to_)
    let lcaNode ← nodeAtAddress t (fromAddr.lca toAddr)
    let upNodes ← pathBelow t fromLeaf lcaNode
    let downRev ← pathBelow t toLeaf lcaNode
    let downNodes := downRev.reverse
    let branchFrom := upNodes.getLast?.getD order.from_
    let branchTo := downNodes.head?.getD order.to_
    .ok (ascendHops order.from_ upNodes
      ++ [{ signer := lcaNode, role := .lca, first := .child branchFrom,
            second := .child branchTo }]
      ++ descendHops order.to_ downNodes)

/-! ## Planning and execution -/

/-- A child account must exist and hold at least `amount`. -/
def requireChild (ledger : Ledger) (child : NodeId) (amount : Amount) :
    Except LedgerError Unit :=
  if !isOpened ledger.balances (.child child) then .error (.accountNotOpened (.child child))
  else if ledger.balances.childBalance child < amount then .error .insufficientBalance
  else .ok ()

/-- The node's `Parent` asset must hold at least `amount`. -/
def requireParent (ledger : Ledger) (amount : Amount) : Except LedgerError Unit :=
  if ledger.balances.parentBalance ≥ amount then .ok () else .error .insufficientBalance

def requireOpened (ledger : Ledger) (account : AccountRef) : Except LedgerError Unit :=
  if isOpened ledger.balances account then .ok () else .error (.accountNotOpened account)

/-- The entry a hop signer adds on top of its current head. -/
def hopEntry (ledger : Ledger) (paymentId : Hash) (amount : Amount) (role : HopRole)
    (postings : List Posting) (auth : AuthRef) (issuedAt : UInt64) : Entry where
  ledgerId := ledger.ledgerId
  seq := UInt64.ofNat ledger.len
  height := UInt64.ofNat ledger.len
  prevHash := ledger.headHash
  issuedAt
  body := .transfer paymentId amount role
  postings
  auth := some auth

def preflightDebit (ledgers : LedgerSet) (amount : Amount) (hop : ExpectedHop) :
    Except LedgerError Unit :=
  match hop.role with
  | .ascend => do
      let ledger ← ledgerFor ledgers hop.signer
      requireParent ledger amount
      requireChild ledger (← expectChild hop.second) amount
  | .lca | .direct => do
      let ledger ← ledgerFor ledgers hop.signer
      requireChild ledger (← expectChild hop.first) amount
  | .descend => .ok ()

def preflightCredit (ledgers : LedgerSet) (hop : ExpectedHop) : Except LedgerError Unit :=
  match hop.role with
  | .ascend => .ok ()
  | .lca | .direct | .descend => do
      requireOpened (← ledgerFor ledgers hop.signer) hop.second

def planHop (ledgers : LedgerSet) (order : PaymentOrder) (auth : AuthRef) (m : SignedAmount)
    (issuedAt : UInt64) (hop : ExpectedHop) : Except LedgerError PlannedHop := do
  let ledger ← ledgerFor ledgers hop.signer
  pure
    { signer := hop.signer
      entry := hopEntry ledger order.hash order.amount hop.role
        (hopPostings hop.role hop.first hop.second m) auth issuedAt }

/-- Copy the balances of a hop's signer into the staging area, once. -/
def stageBalances (ledgers : LedgerSet) (staged : ExtTreeMap NodeId Balances)
    (hop : PlannedHop) : Except LedgerError (ExtTreeMap NodeId Balances) :=
  if staged.contains hop.signer then pure staged
  else do
    let ledger ← ledgerFor ledgers hop.signer
    pure (staged.insert hop.signer ledger.balances)

def applyStaged (staged : ExtTreeMap NodeId Balances) (hop : PlannedHop) :
    Except LedgerError (ExtTreeMap NodeId Balances) :=
  match staged[hop.signer]? with
  | none => .error (.missingLedger hop.signer)
  | some balances => do
      let next ← Balances.apply balances hop.entry.postings
      pure (staged.insert hop.signer next)

def dryRun (ledgers : LedgerSet) (hops : List PlannedHop) : Except LedgerError Unit := do
  let staged ← hops.foldlM (stageBalances ledgers) ∅
  let _ ← hops.foldlM applyStaged staged
  pure ()

def planTransfer (t : Topology) (order : PaymentOrder) (auth : AuthRef) (ledgers : LedgerSet)
    (issuedAt : UInt64) : Except LedgerError SettlementPlan :=
  if order.amount = 0 then .error .invalidEntryShape
  else do
    let m ← checkedI64 order.amount
    let expected ← expectedHops t order
    expected.forM (preflightDebit ledgers order.amount)
    expected.forM (preflightCredit ledgers)
    let hops ← expected.mapM (planHop ledgers order auth m issuedAt)
    dryRun ledgers hops
    pure { order, hops }

variable [Postcard]

def preflightHop (plan : SettlementPlan) (ledgers : LedgerSet)
    (keys : ExtTreeMap NodeId LedgerSecretKey) (registry : PeerRegistry) (now : UInt64)
    (hop : PlannedHop) : Except LedgerError SignedEntry :=
  match keys[hop.signer]? with
  | none => .error (.missingLedger hop.signer)
  | some key => do
      let signed ← SignedEntry.sign hop.entry key
      verifyTransfer signed plan.order registry now
      let ledger ← ledgerFor ledgers hop.signer
      if hop.entry.seq ≠ UInt64.ofNat ledger.len then
        .error (.seqOutOfOrder (UInt64.ofNat ledger.len) hop.entry.seq)
      else if hop.entry.height ≠ hop.entry.seq then
        .error (.invalidHeight hop.entry.seq hop.entry.height)
      else if hop.entry.prevHash ≠ ledger.headHash then
        .error (.prevHashMismatch ledger.headHash hop.entry.prevHash)
      else .ok signed

def stageHop (staged : LedgerSet) (hop : PlannedHop × SignedEntry) :
    Except LedgerError LedgerSet :=
  match staged.get hop.1.signer with
  | none => .error (.missingLedger hop.1.signer)
  | some ledger => do
      let next ← ledger.append hop.2
      pure { ledgers := staged.ledgers.insert hop.1.signer next }

def signHops (plan : SettlementPlan) (ledgers : LedgerSet)
    (keys : ExtTreeMap NodeId LedgerSecretKey) (registry : PeerRegistry) (now : UInt64) :
    Except LedgerError (List SignedEntry) :=
  plan.hops.mapM (preflightHop plan ledgers keys registry now)

/-- Sign, verify and apply every hop of a plan atomically. The cascade is staged on a
copy of the ledgers, which replaces the caller's only when every append succeeds. -/
def executePlan (plan : SettlementPlan) (ledgers : LedgerSet)
    (keys : ExtTreeMap NodeId LedgerSecretKey) (registry : PeerRegistry) (now : UInt64) :
    LedgerSet × Except LedgerError (List SignedEntry) :=
  match signHops plan ledgers keys registry now with
  | .error e => (ledgers, .error e)
  | .ok signedHops =>
      match (plan.hops.zip signedHops).foldlM stageHop ledgers with
      | .error e => (ledgers, .error e)
      | .ok staged => (staged, .ok signedHops)

end Cawala
