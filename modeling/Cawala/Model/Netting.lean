import Cawala.Model.Settlement

/-! # Netting and reconciliation

The retrospective audit: commitment chains, edge mirrors, routes and replays,
reconstructed overdraws, and the collapse of opposing flows. -/

namespace Cawala

open Std (ExtTreeMap ExtTreeSet)

/-- Which way an edge's two balance views disagree. -/
inductive MirrorDirection where
  | unbackedClaim
  | unmirroredExtension
deriving DecidableEq, Repr

/-- A netted transfer between two child accounts of one parent. -/
structure NetTransfer where
  parent : NodeId
  from_ : NodeId
  to_ : NodeId
  amount : Amount
deriving DecidableEq, Repr

variable [Crypto]

/-- A detected reconciliation anomaly. -/
inductive Finding where
  | fork (ledgerId : LedgerPubKey) (height : UInt64) (heads : List Hash)
  | chainInvalid (node : NodeId) (reason : String)
  | mirrorMismatch (edge : EdgeAccount) (parentView childView : Amount)
      (direction : MirrorDirection)
  | routeInvalid (paymentId : Hash) (reason : String)
  | replay (paymentId : Hash) (reason : String)
  | overdraw (node : NodeId) (account : AccountRef) (deficit : ℤ)
  | detached (root : NodeId) (nodes : List NodeId) (strandedParent : Option NodeId)
      (parentBalance : Amount)
  | staleChildLink (parent child : NodeId)
deriving DecidableEq

/-- Whether a finding objects to collapsing flows. -/
def Finding.suppressesNetting : Finding → Bool
  | .detached .. | .staleChildLink .. => false
  | _ => true

/-- The result of a netting pass. -/
structure NettingReport where
  findings : List Finding
  nets : List NetTransfer
deriving DecidableEq

/-- One independent network of a partitioned audit. -/
structure NetComponent where
  topology : Topology
  strandedParent : Option NodeId

/-! ## Routes and replays -/

/-- A transfer entry backed by the authorisation hash. -/
def authorizedFor (orderHash : Hash) (signed : SignedEntry) : Bool :=
  match signed.entry.body, signed.entry.auth with
  | .transfer .., some auth => auth.orderHash == orderHash
  | _, _ => false

/-- Every transfer entry backed by the order's authorisation hash. -/
def collectAuthorizedTransfers (ledgers : LedgerSet) (order : PaymentOrder) :
    List SignedEntry :=
  ledgers.nodeIds.flatMap fun node =>
    match ledgers.get node with
    | none => []
    | some ledger => ledger.log.entries.filter (authorizedFor order.hash)

def duplicateLedgerFrom : List LedgerId → List SignedEntry → Bool
  | _, [] => false
  | seen, signed :: rest =>
      if signed.entry.ledgerId ∈ seen then true
      else duplicateLedgerFrom (signed.entry.ledgerId :: seen) rest

/-- Whether two collected hops share a signing ledger. -/
def hasDuplicateLedger (entries : List SignedEntry) : Bool := duplicateLedgerFrom [] entries

/-- The single child of an ascending or descending hop. -/
def soleChild (deltas : Deltas) : Except LedgerError (Option NodeId) :=
  deltas.keys.foldlM (fun child account =>
    match account with
    | .parent => .ok child
    | .child id => if child.isSome then .error .invalidEntryShape else .ok (some id)) none

/-- The debited and the credited child of a move between two children. -/
def movedChildren (deltas : Deltas) : Except LedgerError (Option NodeId × Option NodeId) :=
  deltas.toList.foldlM (fun (first, second) (account, delta) =>
    match account with
    | .parent => .error .invalidEntryShape
    | .child id =>
        if delta < 0 then
          if first.isSome then .error .invalidEntryShape else .ok (some id, second)
        else if delta > 0 then
          if second.isSome then .error .invalidEntryShape else .ok (first, some id)
        else .error .invalidEntryShape) (none, none)

/-- A hop entry's two accounts, from its role and the signs of its postings. -/
def entryHopAccounts (entry : Entry) (role : HopRole) :
    Except LedgerError (AccountRef × AccountRef) := do
  let deltas ← aggregateDeltas entry.postings
  match role with
  | .ascend | .descend =>
      if !deltas.contains .parent then .error .invalidEntryShape
      else match ← soleChild deltas with
        | none => .error .invalidEntryShape
        | some id => .ok (.parent, .child id)
  | .lca | .direct =>
      match ← movedChildren deltas with
      | (some first, some second) => .ok (.child first, .child second)
      | _ => .error .invalidEntryShape

variable [Postcard]

/-- Key one actual hop by its registered signer. -/
def matchSigner (order : PaymentOrder) (registry : PeerRegistry)
    (matched : ExtTreeMap NodeId SignedEntry) (signed : SignedEntry) :
    Except LedgerError (ExtTreeMap NodeId SignedEntry) := do
  let peer ← registry.verifyEntry signed
  verifyTransfer signed order registry order.expiry
  if matched.contains peer.nodeId then .error .duplicatePeer
  else pure (matched.insert peer.nodeId signed)

def matchHop (order : PaymentOrder) (matched : ExtTreeMap NodeId SignedEntry)
    (hop : ExpectedHop) : Except LedgerError PlannedHop :=
  match matched[hop.signer]? with
  | none => .error .invalidEntryShape
  | some signed =>
      match signed.entry.body with
      | .transfer _ amount role =>
          if role ≠ hop.role ∨ amount ≠ order.amount then .error .invalidEntryShape
          else do
            let (first, second) ← entryHopAccounts signed.entry hop.role
            if first ≠ hop.first ∨ second ≠ hop.second then .error .invalidEntryShape
            else pure { signer := hop.signer, entry := signed.entry }
      | _ => .error .invalidEntryShape

/-- The terminal hop must credit the order's payee. -/
def checkTerminal (order : PaymentOrder) (matched : ExtTreeMap NodeId SignedEntry)
    (expected : List ExpectedHop) : Except LedgerError Unit :=
  match expected.getLast? with
  | none => .ok ()
  | some terminal =>
      match matched[terminal.signer]? with
      | none => .error .invalidEntryShape
      | some signed =>
          match signed.entry.body with
          | .transfer _ _ role => do
              let (_, second) ← entryHopAccounts signed.entry role
              if second ≠ .child order.to_ then .error .invalidEntryShape else .ok ()
          | _ => .error .invalidEntryShape

/-- The on-ledger cascade of an order must match the unique topology route. -/
def verifyCascade (t : Topology) (order : PaymentOrder) (ledgers : LedgerSet)
    (registry : PeerRegistry) : Except LedgerError (List PlannedHop) := do
  let expected ← expectedHops t order
  let matched ← (collectAuthorizedTransfers ledgers order).foldlM
    (matchSigner order registry) ∅
  if matched.size ≠ expected.length then .error .invalidEntryShape
  else do
    let out ← expected.mapM (matchHop order matched)
    checkTerminal order matched expected
    pure out

/-- Audit one order's route and replay against a single component. -/
def auditOneOrder (order : PaymentOrder) (t : Topology) (ledgers : LedgerSet)
    (registry : PeerRegistry) : List Finding :=
  let actual := collectAuthorizedTransfers ledgers order
  let expectedLen := (expectedHops t order).toOption.map List.length
  let tooMany := match expectedLen with
    | some len => decide (actual.length > len)
    | none => false
  if tooMany || hasDuplicateLedger actual then
    [.replay order.hash
      ("payer " ++ order.from_ ++ " replayed payment " ++ Crypto.toHex order.hash ++ " across "
        ++ toString actual.length ++ " on-ledger hops (expected "
        ++ (match expectedLen with
            | some len => toString len
            | none => "an unresolvable route") ++ ")")]
  else match verifyCascade t order ledgers registry with
    | .ok _ => []
    | .error err =>
        [.routeInvalid order.hash
          (order.from_ ++ " -> " ++ order.to_ ++ " cascade rejected: " ++ err.message)]

/-- Add a node's ledger, if it has one; an insertion that fails is ignored. -/
def addComponentLedger (ledgers subset : LedgerSet) (node : NodeId) : LedgerSet :=
  match ledgers.get node with
  | none => subset
  | some ledger =>
      match subset.insert node ledger with
      | .ok next => next
      | .error _ => subset

def componentLedgers (ledgers : LedgerSet) (t : Topology) : LedgerSet :=
  t.nodeIds.foldl (addComponentLedger ledgers) LedgerSet.new

def membership (components : List NetComponent) (node : NodeId) : Option ℕ :=
  components.findIdx? fun component => decide (node ∈ component.topology.nodeIds)

def auditRoute (components : List NetComponent) (ledgers : LedgerSet)
    (registry : PeerRegistry) (order : PaymentOrder) : List Finding :=
  let fromComponent := membership components order.from_
  let toComponent := membership components order.to_
  if fromComponent.isSome && toComponent.isSome && fromComponent != toComponent then
    [.routeInvalid order.hash
      (order.from_ ++ " -> " ++ order.to_ ++ " endpoints are in different topology components")]
  else match components[(fromComponent.or toComponent).getD 0]? with
    | none => []
    | some component =>
        auditOneOrder order component.topology (componentLedgers ledgers component.topology)
          registry

def auditRoutesPartition (orders : List PaymentOrder) (components : List NetComponent)
    (ledgers : LedgerSet) (registry : PeerRegistry) : List Finding :=
  orders.flatMap (auditRoute components ledgers registry)

/-! ## Chains, mirrors and overdraws -/

/-- The commitments of a chain that verify under the node's registered key, by height. -/
def chainGroups (registry : PeerRegistry) (expected : LedgerPubKey)
    (chain : List SignedCommitment) : ExtTreeMap UInt64 (List Commitment) :=
  chain.foldl (fun groups signed =>
    match registry.verifyCommitment signed with
    | .error _ => groups
    | .ok _ =>
        if signed.commitment.ledgerId ≠ expected then groups
        else groups.insert signed.commitment.height
          (groups.getD signed.commitment.height [] ++ [signed.commitment])) ∅

/-- Verify one commitment chain and detect equivocation. -/
def auditChain (registry : PeerRegistry) (node : NodeId) (chain : List SignedCommitment) :
    List Finding :=
  match registry.ledgerOf node with
  | none => []
  | some expected =>
      (match verifyChain chain expected with
        | .ok () => []
        | .error err => [.chainInvalid node err.message])
      ++ (chainGroups registry expected chain).toList.flatMap fun (height, group) =>
        if ((group.map fun c => (c.entryRoot, c.stateRoot)).dedup).length > 1 then
          [.fork expected height (ExtTreeSet.ofList (group.map commitmentHash) compare).toList]
        else []

def auditEdge (ledgers : LedgerSet) (parent : NodeId) (parentLedger : Ledger)
    (child : Topology.Child) : List Finding :=
  match ledgers.get child.childId with
  | none => []
  | some childLedger =>
      let parentView := parentLedger.balances.childBalance child.childId
      let childView := childLedger.balances.parentBalance
      if parentView ≠ childView then
        [.mirrorMismatch { parent, child := child.childId } parentView childView
          (if childView > parentView then .unbackedClaim else .unmirroredExtension)]
      else []

/-- Compare each parent/child edge's two balance views. -/
def auditMirrors (t : Topology) (ledgers : LedgerSet) : List Finding :=
  t.nodeIds.flatMap fun parent =>
    match ledgers.get parent, t.childrenOf parent with
    | some parentLedger, .ok children =>
        children.flatMap (auditEdge ledgers parent parentLedger)
    | _, _ => []

/-- The running sums of an account replay, and the lowest point of each. -/
structure Replay where
  running : ExtTreeMap AccountRef ℤ
  lowest : ExtTreeMap AccountRef ℤ

def Replay.step (r : Replay) : AccountRef × ℤ → Replay
  | (account, delta) =>
      let value := saturatingAddI128 (r.running.getD account 0) delta
      let low := r.lowest.getD account 0
      { running := r.running.insert account value
        lowest := r.lowest.insert account (if value < low then value else low) }

/-- Replay the raw entries of a log. -/
def replayEntries (entries : List SignedEntry) : Replay :=
  entries.foldl (fun r signed =>
    match aggregateDeltas signed.entry.postings with
    | .error _ => r
    | .ok deltas => deltas.toList.foldl Replay.step r) { running := ∅, lowest := ∅ }

/-- Reconstruct every balance from raw entries and flag negatives. -/
def auditOverdraw (ledgers : LedgerSet) : List Finding :=
  ledgers.nodeIds.flatMap fun node =>
    match ledgers.get node with
    | none => []
    | some ledger =>
        (replayEntries ledger.log.entries).lowest.toList.filterMap fun (account, low) =>
          if low < 0 then some (.overdraw node account (saturatingNegI128 low)) else none

/-! ## The collapse and the whole pass -/

/-- The flow one entry adds between two children of its ledger. -/
def entryFlow (signed : SignedEntry) : Option (NodeId × NodeId × ℤ) :=
  match signed.entry.body with
  | .transfer _ _ role =>
      if role = .lca ∨ role = .direct then
        match entryHopAccounts signed.entry role, aggregateDeltas signed.entry.postings with
        | .ok (.child first, .child second), .ok deltas =>
            let amount := saturatingAbsI128 (deltas.getD (.child first) 0)
            if amount = 0 then none else some (first, second, amount)
        | _, _ => none
      else none
  | _ => none

/-- Gross directed flows between the children of one ledger. -/
def grossFlows (entries : List SignedEntry) : ExtTreeMap (NodeId ×ₗ NodeId) ℤ :=
  entries.foldl (fun gross signed =>
    match entryFlow signed with
    | none => gross
    | some (first, second, amount) =>
        let key := toLex (first, second)
        gross.insert key (saturatingAddI128 (gross.getD key 0) amount)) ∅

/-- Net flows per unordered pair: a positive net runs from the smaller id. -/
def netPairs (gross : ExtTreeMap (NodeId ×ₗ NodeId) ℤ) : ExtTreeMap (NodeId ×ₗ NodeId) ℤ :=
  gross.toList.foldl (fun pairs (flow, amount) =>
    let (first, second) := ofLex flow
    let key := if first ≤ second then (first, second) else (second, first)
    let signedNet := if first = key.1 then amount else -amount
    pairs.insert (toLex key) (saturatingAddI128 (pairs.getD (toLex key) 0) signedNet)) ∅

/-- An `i128` as a `u64`, clamped to the largest one. -/
def clampAmount (amount : ℤ) : Amount :=
  if 0 ≤ amount ∧ amount ≤ 2 ^ 64 - 1 then UInt64.ofNat amount.toNat
  else UInt64.ofNat (2 ^ 64 - 1)

/-- Collapse gross opposing flows between the same child pair. -/
def collapseNets (ledgers : LedgerSet) : List NetTransfer :=
  ledgers.nodeIds.flatMap fun parent =>
    match ledgers.get parent with
    | none => []
    | some ledger =>
        (netPairs (grossFlows ledger.log.entries)).toList.filterMap fun (key, net) =>
          let (a, b) := ofLex key
          if net = 0 then none
          else if net > 0 then
            some { parent, from_ := a, to_ := b, amount := clampAmount net }
          else
            some { parent, from_ := b, to_ := a, amount := clampAmount (saturatingNegI128 net) }

/-- The findings of one component: its mirrors, and for an island its detachment. -/
def auditComponent (ledgers : LedgerSet) (index : ℕ) (component : NetComponent) :
    List Finding :=
  auditMirrors component.topology ledgers
    ++ if index > 0 then
        [.detached component.topology.root component.topology.nodeIds component.strandedParent
          (((ledgers.get component.topology.root).map
            (fun ledger => ledger.balances.parentBalance)).getD 0)]
      else []

/-- Run a full netting reconciliation over a partition of the network. -/
def netPartition (components : List NetComponent) (ledgers : LedgerSet)
    (registry : PeerRegistry) (orders : List PaymentOrder)
    (commitments : ExtTreeMap NodeId (List SignedCommitment)) : NettingReport :=
  let chains := commitments.toList.flatMap fun (node, chain) => auditChain registry node chain
  if components.isEmpty then { findings := chains ++ auditOverdraw ledgers, nets := [] }
  else
    let findings := chains
      ++ (components.zipIdx.flatMap fun (component, index) =>
          auditComponent ledgers index component)
      ++ auditRoutesPartition orders components ledgers registry
      ++ auditOverdraw ledgers
    { findings
      nets := if findings.any Finding.suppressesNetting then [] else collapseNets ledgers }

/-- Run a full netting reconciliation over a single-root network. -/
def net (t : Topology) (ledgers : LedgerSet) (registry : PeerRegistry)
    (orders : List PaymentOrder) (commitments : ExtTreeMap NodeId (List SignedCommitment)) :
    NettingReport :=
  netPartition [{ topology := t, strandedParent := none }] ledgers registry orders commitments

end Cawala
