import Cawala.Model.Concrete
import Cawala.Model.Netting
import Cawala.Verification.TopologyEdit

/-! # Complete audits

Validation looks at links from the child's side: the slot of each child is listed by its
parent. It does not ask for a child in each slot a parent lists, and a listed slot without a
child makes the listing of all children fail, which the audit passes over in silence. -/

namespace Cawala.Topology

open Library
open Std (ExtTreeMap ExtTreeSet)

variable {t : Topology}

/-! ## Listings -/

def SlotsFilled (t : Topology) : Prop :=
  ∀ p record, t.node p = some record → ∀ s ∈ record.children, ∃ c, t.ChildOf c p s

/-- Listing the children of a node succeeds and gives exactly its children, in slot order. -/
def ListsChildren (t : Topology) (p : NodeId) : Prop :=
  ∃ children, t.childrenOf p = .ok children
    ∧ (children.map (·.slot)).Pairwise (· < ·)
    ∧ (∀ child ∈ children, t.ChildOf child.childId p child.slot
        ∧ t.HasKind child.childId child.kind)
    ∧ ∀ c, c ∈ children.map (·.childId) ↔ t.up c = some p

/-- A child on a validated topology has its slot at its parent. -/
theorem Valid.childOf (hvalid : t.Valid) {c p : NodeId} (hup : t.up c = some p) :
    ∃ s, t.ChildOf c p s := by
  obtain ⟨record, hnode, hparent⟩ := Option.bind_eq_some_iff.mp hup
  obtain ⟨parent, s, -, -, -, hslot, -⟩ := (hvalid.nodes c record hnode).link p hparent
  exact ⟨s, record, hnode, hparent, hslot⟩

theorem SlotsFilled.listsChildren (h : t.SlotsFilled) (hvalid : t.Valid) {p : NodeId}
    (hp : (t.node p).isSome) : t.ListsChildren p := by
  obtain ⟨record, hnode⟩ := Option.isSome_iff_exists.mp hp
  obtain ⟨children, hlist, hslots, hmem⟩ := hvalid.childrenOf_ok hnode (h p record hnode)
  refine ⟨children, hlist, ?_, fun child hin => (hmem child).mp hin, ?_⟩
  · rw [hslots]
    exact record.children.ordered_toList.imp fun hlt => Std.compare_eq_lt.mp hlt
  · intro c
    constructor
    · intro hin
      obtain ⟨child, hchild, rfl⟩ := List.mem_map.mp hin
      exact ((hmem child).mp hchild).1.up
    · intro hup
      obtain ⟨s, hlink⟩ := hvalid.childOf hup
      obtain ⟨kind, hkind⟩ := hlink.hasKind
      exact List.mem_map.mpr ⟨⟨s, kind, c⟩, (hmem _).mpr ⟨hlink, hkind⟩, rfl⟩

/-- A listing that succeeds has found a child in each slot. -/
theorem childOf_of_childrenOf (hvalid : t.Valid) {p : NodeId} {record : NodeRecord}
    {children : List Child} (hnode : t.node p = some record)
    (h : t.childrenOf p = .ok children) {s : UInt8} (hs : s ∈ record.children) :
    ∃ c, t.ChildOf c p s := by
  simp only [childrenOf, hnode, mapM_eq_ok_iff_forall₂] at h
  obtain ⟨child, -, hchild⟩ := exists_of_forall₂_left h (ExtTreeSet.mem_toList.mpr hs)
  cases hat : t.childAt p s with
  | none => simp [hat] at hchild
  | some c => exact ⟨c, (childAt_eq_some hvalid).mp hat⟩

/-! ## Mirrors -/

variable [Crypto]

def edgeMismatch (parent child : NodeId) (parentView childView : Amount) : Finding :=
  .mirrorMismatch { parent, child } parentView childView
    (if childView > parentView then .unbackedClaim else .unmirroredExtension)

/-- The audit reports exactly the edges whose two ledgers are there and disagree. -/
def AuditsMirrors (t : Topology) : Prop :=
  ∀ (ledgers : LedgerSet) (f : Finding), f ∈ auditMirrors t ledgers ↔
    ∃ c p parentLedger childLedger, t.up c = some p ∧ ledgers.get p = some parentLedger
      ∧ ledgers.get c = some childLedger
      ∧ parentLedger.balances.childBalance c ≠ childLedger.balances.parentBalance
      ∧ f = edgeMismatch p c (parentLedger.balances.childBalance c)
          childLedger.balances.parentBalance

theorem mem_auditEdge {ledgers : LedgerSet} {p : NodeId} {parentLedger : Ledger} {child : Child}
    {f : Finding} : f ∈ auditEdge ledgers p parentLedger child ↔
      ∃ childLedger, ledgers.get child.childId = some childLedger
        ∧ parentLedger.balances.childBalance child.childId ≠ childLedger.balances.parentBalance
        ∧ f = edgeMismatch p child.childId (parentLedger.balances.childBalance child.childId)
            childLedger.balances.parentBalance := by
  unfold auditEdge
  cases ledgers.get child.childId with
  | none => simp
  | some childLedger =>
      by_cases hsame : parentLedger.balances.childBalance child.childId
          = childLedger.balances.parentBalance
      · simp [hsame]
      · simp [hsame, edgeMismatch]

theorem mem_auditMirrors {ledgers : LedgerSet} {f : Finding} : f ∈ auditMirrors t ledgers ↔
    ∃ p ∈ t.nodeIds, ∃ parentLedger children, ledgers.get p = some parentLedger
      ∧ t.childrenOf p = .ok children
      ∧ ∃ child ∈ children, f ∈ auditEdge ledgers p parentLedger child := by
  rw [auditMirrors, List.mem_flatMap]
  refine exists_congr fun p => and_congr_right fun _ => ?_
  cases ledgers.get p with
  | none => simp
  | some parentLedger =>
      cases t.childrenOf p with
      | error e => simp
      | ok children => simp [List.mem_flatMap]

/-- A claim is called unbacked only where the child's ledger shows more than its parent's. -/
theorem lt_of_unbackedClaim {ledgers : LedgerSet} {p c : NodeId} {parentView childView : Amount}
    (h : .mirrorMismatch { parent := p, child := c } parentView childView .unbackedClaim
      ∈ auditMirrors t ledgers) :
    ∃ parent child, ledgers.get p = some parent ∧ ledgers.get c = some child
      ∧ parent.balances.balance (.child c) < child.balances.balance .parent := by
  obtain ⟨p', -, parent, -, hparent, -, listed, -, hedge⟩ := mem_auditMirrors.mp h
  obtain ⟨child, hchild, -, hmismatch⟩ := mem_auditEdge.mp hedge
  rw [edgeMismatch] at hmismatch
  injection hmismatch with hedge hparentView hchildView hkind
  injection hedge with hsame hlisted
  subst hsame hlisted
  refine ⟨parent, child, hparent, hchild, ?_⟩
  split at hkind
  next hexceeds => exact Int.ofNat_lt.mpr (UInt64.lt_iff_toNat_lt.mp hexceeds)
  next => cases hkind

/-- With complete listings the audit misses no edge. -/
theorem auditsMirrors_of_lists (hvalid : t.Valid)
    (h : ∀ p, (t.node p).isSome → t.ListsChildren p) : t.AuditsMirrors := by
  intro ledgers f
  rw [mem_auditMirrors]
  constructor
  · intro hmem
    obtain ⟨p, hp, parentLedger, children, hledger, hlist, child, hchild, hedge⟩ := hmem
    obtain ⟨listed, hlisted, -, -, hchildren⟩ :=
      h p (Option.isSome_iff_exists.mpr (mem_nodeIds_iff.mp hp))
    obtain rfl := Except.ok.inj (hlist.symm.trans hlisted)
    obtain ⟨childLedger, hget, hne, rfl⟩ := mem_auditEdge.mp hedge
    exact ⟨child.childId, p, parentLedger, childLedger,
      (hchildren _).mp (List.mem_map_of_mem hchild), hledger, hget, hne, rfl⟩
  · intro hedge
    obtain ⟨c, p, parentLedger, childLedger, hup, hledger, hget, hne, rfl⟩ := hedge
    obtain ⟨record, hnode, hparent⟩ := Option.bind_eq_some_iff.mp hup
    obtain ⟨parent, -, hp, -⟩ := (hvalid.nodes c record hnode).link p hparent
    obtain ⟨children, hlist, -, -, hchildren⟩ := h p (by rw [hp]; rfl)
    obtain ⟨child, hchild, rfl⟩ := List.mem_map.mp ((hchildren c).mpr hup)
    exact ⟨p, mem_nodeIds_iff.mpr ⟨parent, hp⟩, parentLedger, children, hledger, hlist, child,
      hchild, mem_auditEdge.mpr ⟨childLedger, hget, hne, rfl⟩⟩

/-- A validated topology can be audited completely exactly when no listed slot is vacant. -/
theorem complete_audit_iff (t : Topology) (hvalid : t.validate = .ok ()) :
    (∀ p, (t.node p).isSome → t.ListsChildren p) ∧ t.AuditsMirrors ↔ t.SlotsFilled := by
  have hsound := validate_spec hvalid
  constructor
  · intro h p record hnode s hs
    obtain ⟨children, hlist, -⟩ := h.1 p (by rw [hnode]; rfl)
    exact childOf_of_childrenOf hsound hnode hlist hs
  · intro hfilled
    have hlists : ∀ p, (t.node p).isSome → t.ListsChildren p :=
      fun _ hp => hfilled.listsChildren hsound hp
    exact ⟨hlists, auditsMirrors_of_lists hsound hlists⟩

end Cawala.Topology

/-! ## A vacant slot -/

namespace Cawala

open Cawala.Topology
open Std (ExtTreeMap ExtTreeSet)

def oneChild (slots : List UInt8) : Topology where
  nodes := ExtTreeMap.ofList
    [("r", { nodeId := "r", kind := .node, parent := none, slot := none
             children := ExtTreeSet.ofList slots compare }),
      ("a", { nodeId := "a", kind := .node, parent := some "r", slot := some 1
              children := ∅ })] compare
  root := "r"

theorem oneChild_valid : (oneChild [1]).validate = .ok () := by decide +kernel

section

open Concrete

theorem complete_audit_oneChild :
    (∀ p, ((oneChild [1]).node p).isSome → (oneChild [1]).ListsChildren p)
        ∧ (oneChild [1]).AuditsMirrors ↔ (oneChild [1]).SlotsFilled :=
  complete_audit_iff (oneChild [1]) oneChild_valid

/-- A validated topology whose root lists a slot without a child: its children cannot be
listed. -/
theorem vacant_slot_unlisted : ¬ ∀ t : Topology, t.validate = .ok () →
    (∀ p, (t.node p).isSome → t.ListsChildren p) ∧ t.AuditsMirrors := by
  intro h
  have hvalid : (oneChild [0, 1]).validate = .ok () := by decide +kernel
  obtain ⟨children, hlist, -⟩ := (h (oneChild [0, 1]) hvalid).1 "r" (by decide +kernel)
  have hfails : ((oneChild [0, 1]).childrenOf "r").toBool = false := by decide +kernel
  rw [hlist] at hfails
  cases hfails

end

end Cawala
