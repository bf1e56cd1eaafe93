import Cawala.Model.Message
import Cawala.Verification.RouteAgreement

/-! # Routing reaches the destination on the tree path

The steps of the router spell the one route between two addresses, and the decisions that
nodes take from their own records follow it, or stop where the tree stops. -/

namespace Cawala

open Std (ExtTreeMap)
open Library
open Cawala.Topology (Chain)

section

/-! ## Steps -/

structure VisitsRoute (src dst : OctAddr) (path : List OctAddr) : Prop where
  run : ∀ fuel, path.length ≤ fuel → nextSteps dst fuel src = path
  first : path.head? = some src
  last : path.getLast? = some dst
  length : path.length = src.depth + dst.depth - 2 * (src.lca dst).depth + 1
  nodup : path.Nodup

theorem OctAddr.digits_injective : Function.Injective OctAddr.digits := fun _ _ h => OctAddr.ext h

theorem visitsRoute_of_digits {src dst : OctAddr} {path : List OctAddr}
    (h : path.map (·.digits) = route src.digits dst.digits) : VisitsRoute src dst path := by
  have hinj := OctAddr.digits_injective.list_map
  have hlen : path.length = (route src.digits dst.digits).length := by rw [← h, List.length_map]
  refine ⟨?_, ?_, ?_, ?_, ?_⟩
  · intro fuel hfuel
    exact hinj ((nextSteps_digits dst (hlen ▸ hfuel)).trans h.symm)
  · have hfirst := h ▸ head?_route src.digits dst.digits
    rw [List.head?_map, Option.map_eq_some_iff] at hfirst
    obtain ⟨a, ha, heq⟩ := hfirst
    rw [ha, OctAddr.ext heq]
  · have hlast := h ▸ getLast?_route src.digits dst.digits
    rw [List.getLast?_map, Option.map_eq_some_iff] at hlast
    obtain ⟨a, ha, heq⟩ := hlast
    rw [ha, OctAddr.ext heq]
  · rw [hlen, length_route, ← OctAddr.lca_digits]
    rfl
  · exact List.Nodup.of_map _ (h ▸ nodup_route _ _)

/-- Stepping from any address to any other visits the route, and the way back is its reverse. -/
theorem exists_visitsRoute (src dst : OctAddr) :
    ∃ path, path.map (·.digits) = route src.digits dst.digits ∧ VisitsRoute src dst path
      ∧ VisitsRoute dst src path.reverse := by
  refine ⟨nextSteps dst (route src.digits dst.digits).length src, nextSteps_digits dst le_rfl,
    visitsRoute_of_digits (nextSteps_digits dst le_rfl), visitsRoute_of_digits ?_⟩
  rw [List.map_reverse, nextSteps_digits dst le_rfl, reverse_route]

/-! ## The snapshot of a node -/

/-- The records the nodes hold agree with the topology, also in ids, kinds and parents. -/
structure RecordsMirror (t : Topology) (records : NodeId → NodeRecord) : Prop
    extends RecordsAgree t records where
  nodeId : ∀ id record, t.node id = some record → (records id).nodeId = id
  parent : ∀ id record, t.node id = some record →
    (records id).parent.map (·.parentId) = record.parent
  kind : ∀ id entry child, entry ∈ (records id).children → t.node entry.childId = some child →
    entry.kind = child.kind

def recordOf (t : Topology) (id : NodeId) : NodeRecord where
  nodeId := id
  address := (t.addressOf id).toOption
  parent := (t.node id).bind fun record =>
    record.parent.bind fun parentId => record.slot.map fun slot => { parentId, slot }
  children := t.nodes.toList.filterMap fun (childId, record) =>
    if record.parent = some id then
      record.slot.map fun slot => { childId, kind := record.kind, slot, ethAddress := none }
    else none

/-- The nodes of a validated topology can hold records that agree with it. -/
theorem recordOf_mirror {t : Topology} (hvalid : t.Valid) : RecordsMirror t (recordOf t) := by
  have hentry : ∀ id entry, entry ∈ (recordOf t id).children ↔ ∃ record, t.node entry.childId
      = some record ∧ record.parent = some id ∧ record.slot = some entry.slot
      ∧ entry = ⟨entry.childId, record.kind, entry.slot, 0, none⟩ := by
    intro id entry
    simp only [recordOf, List.mem_filterMap, Prod.exists, Option.ite_none_right_eq_some,
      Option.map_eq_some_iff, Topology.mem_toList_iff_node]
    constructor
    · rintro ⟨childId, record, hrecord, hparent, slot, hslot, rfl⟩
      exact ⟨record, hrecord, hparent, hslot, rfl⟩
    · rintro ⟨record, hrecord, hparent, hslot, heq⟩
      exact ⟨entry.childId, record, hrecord, hparent, entry.slot, hslot, heq.symm⟩
  refine ⟨⟨?_, ?_⟩, fun _ _ _ => rfl, ?_, ?_⟩
  · intro id child s
    constructor
    · rintro ⟨entry, hmem, rfl, rfl⟩
      obtain ⟨record, hrecord, hparent, hslot, -⟩ := (hentry id entry).mp hmem
      exact ⟨record, hrecord, hparent, hslot⟩
    · rintro ⟨record, hrecord, hparent, hslot⟩
      exact ⟨⟨child, record.kind, s, 0, none⟩,
        (hentry id _).mpr ⟨record, hrecord, hparent, hslot, rfl⟩, rfl, rfl⟩
  · intro id addr
    simp only [recordOf]
    cases t.addressOf id <;> simp [Except.toOption]
  · intro id record hrecord
    cases hparent : record.parent with
    | none => simp [recordOf, hrecord, hparent]
    | some p =>
        obtain ⟨-, s, -, -, -, hslot, -⟩ := (hvalid.nodes id record hrecord).link p hparent
        simp [recordOf, hrecord, hparent, hslot]
  · intro id entry child hmem hchild
    obtain ⟨record, hrecord, -, -, heq⟩ := (hentry id entry).mp hmem
    obtain rfl := Option.some.inj (hrecord.symm.trans hchild)
    rw [heq]

variable [EndpointIds]

def Canonical (t : Topology) : Prop := ∀ id ∈ t.nodeIds, EndpointIds.canonical id = .ok id

variable {t : Topology} {records : NodeId → NodeRecord} {node : NodeId} {addr dst : OctAddr}

theorem parseEndpointId_of_canonical (hcanonical : Canonical t) {id : NodeId}
    {record : Topology.NodeRecord} (h : t.node id = some record) : parseEndpointId id = .ok id := by
  rw [parseEndpointId, hcanonical id (Topology.mem_nodeIds_iff.mpr ⟨record, h⟩)]

structure Snapshot (t : Topology) (node : NodeId) (addr : OctAddr) (r : Routable) : Prop where
  this : r.this = { addr, node }
  parent : ∀ p digits s, Chain t p digits → addr.digits = digits ++ [s] →
    ∃ paddr : OctAddr, paddr.digits = digits ∧ r.parent = some ⟨paddr, p, .node⟩
  children : ∀ n, n ∈ r.children ↔ ∃ record s, t.node n.node = some record
    ∧ record.parent = some node ∧ record.slot = some s ∧ n.addr.digits = addr.digits ++ [s]
    ∧ n.kind = record.kind.neighborKind

theorem childNeighbor_eq_ok {entry : ChildEntry} {n : Neighbor}
    (hid : parseEndpointId entry.childId = .ok entry.childId) :
    childNeighbor addr entry = .ok n ↔ entry.slot ≤ maxSlot
      ∧ n.addr.digits = addr.digits ++ [entry.slot] ∧ n.node = entry.childId
      ∧ n.kind = entry.kind.neighborKind := by
  simp only [childNeighbor, hid, bind_eq_ok, Except.ok.injEq]
  constructor
  · rintro ⟨_, rfl, h⟩
    split at h
    · rename_i hslot
      obtain rfl := Except.ok.inj h
      exact ⟨hslot, rfl, rfl, rfl⟩
    · cases h
  · rintro ⟨hslot, haddr, hnode, hkind⟩
    refine ⟨_, rfl, ?_⟩
    rw [dif_pos hslot, pure_eq_ok]
    cases n
    simp only [Neighbor.mk.injEq]
    exact ⟨OctAddr.ext haddr.symm, hnode.symm, hkind.symm⟩

theorem parentNeighbor_eq_ok (hmirror : RecordsMirror t records)
    (hcanonical : Canonical t) (hnode : Chain t node addr.digits) {link : ParentLink}
    (hlink : (records node).parent = some link) :
    ∃ (paddr : OctAddr) (s : UInt8), parentNeighbor addr link = .ok ⟨paddr, link.parentId, .node⟩
      ∧ addr.digits = paddr.digits ++ [s] ∧ Chain t link.parentId paddr.digits := by
  obtain ⟨record, hrecord⟩ := hnode.node
  have hparent : record.parent = some link.parentId := by
    rw [← hmirror.parent node record hrecord, hlink]
    rfl
  obtain ⟨s, digits, -, hdigits, hchain⟩ := hnode.of_parent hrecord hparent
  obtain ⟨paddr, hpaddr, rfl⟩ := OctAddr.exists_parent hdigits hchain.ne_nil
  obtain ⟨precord, hprecord⟩ := hchain.node
  refine ⟨paddr, s, ?_, hdigits, hchain⟩
  simp [parentNeighbor, parseEndpointId_of_canonical hcanonical hprecord, hpaddr]

/-- The child links of a node of the tree name its children there. -/
theorem childNeighbor_iff (hvalid : t.Valid) (hmirror : RecordsMirror t records)
    (hcanonical : Canonical t) {n : Neighbor} :
    (∃ entry ∈ (records node).children, childNeighbor addr entry = .ok n)
      ↔ ∃ record s, t.node n.node = some record ∧ record.parent = some node
        ∧ record.slot = some s ∧ n.addr.digits = addr.digits ++ [s]
        ∧ n.kind = record.kind.neighborKind := by
  constructor
  · rintro ⟨entry, hentry, h⟩
    obtain ⟨record, hrecord, hparent, hslot⟩ :=
      (hmirror.children node entry.childId entry.slot).mp ⟨entry, hentry, rfl, rfl⟩
    have hid := parseEndpointId_of_canonical hcanonical hrecord
    obtain ⟨-, haddr, hnode, hkind⟩ := (childNeighbor_eq_ok hid).mp h
    exact ⟨record, entry.slot, hnode ▸ hrecord, hparent, hslot, haddr,
      hkind.trans (by rw [hmirror.kind node entry record hentry hrecord])⟩
  · rintro ⟨record, s, hrecord, hparent, hslot, haddr, hkind⟩
    obtain ⟨entry, hentry, rfl, hchild⟩ :=
      (hmirror.children node n.node s).mpr ⟨record, hrecord, hparent, hslot⟩
    obtain ⟨-, s', -, -, -, hs', hrange, -⟩ := (hvalid.nodes _ _ hrecord).link node hparent
    obtain rfl : entry.slot = s' := Option.some.inj (hslot.symm.trans hs')
    rw [← hchild] at hrecord
    have hid := parseEndpointId_of_canonical hcanonical hrecord
    exact ⟨entry, hentry, (childNeighbor_eq_ok hid).mpr
      ⟨hrange, haddr, hchild.symm, by rw [hkind, hmirror.kind node entry record hentry hrecord]⟩⟩

theorem fromRecord_eq_ok (hvalid : t.Valid) (hmirror : RecordsMirror t records)
    (hcanonical : Canonical t) (hnode : Chain t node addr.digits) :
    ∃ r, Routable.fromRecord (records node) = .ok r ∧ Snapshot t node addr r := by
  obtain ⟨record, hrecord⟩ := hnode.node
  have haddr : (records node).address = some addr :=
    (hmirror.address node addr).mpr ((Topology.addressOf_eq_ok hvalid).mpr hnode)
  have hid := hmirror.nodeId node record hrecord
  obtain ⟨children, hchildren⟩ : ∃ children,
      (records node).children.mapM (childNeighbor addr) = .ok children := by
    have hall : ∀ entry ∈ (records node).children, ∃ n, childNeighbor addr entry = .ok n := by
      intro entry hentry
      obtain ⟨record', hrecord', hparent', hslot'⟩ :=
        (hmirror.children node entry.childId entry.slot).mp ⟨entry, hentry, rfl, rfl⟩
      obtain ⟨-, s, -, -, -, hs, hrange, -⟩ := (hvalid.nodes _ _ hrecord').link node hparent'
      obtain rfl : entry.slot = s := Option.some.inj (hslot'.symm.trans hs)
      exact ⟨⟨addr.child entry.slot hrange, entry.childId, entry.kind.neighborKind⟩,
        (childNeighbor_eq_ok (parseEndpointId_of_canonical hcanonical hrecord')).mpr
          ⟨hrange, rfl, rfl, rfl⟩⟩
    obtain ⟨children, hchildren⟩ := exists_forall₂ hall
    exact ⟨children, mapM_eq_ok_iff_forall₂.mpr hchildren⟩
  have hmem : ∀ n, n ∈ children ↔ ∃ entry ∈ (records node).children,
      childNeighbor addr entry = .ok n := by
    intro n
    have hforall := mapM_eq_ok_iff_forall₂.mp hchildren
    constructor
    · intro h
      exact exists_of_forall₂_right hforall h
    · rintro ⟨entry, hentry, h⟩
      obtain ⟨n', hn', h'⟩ := exists_of_forall₂_left hforall hentry
      rwa [Except.ok.inj (h.symm.trans h')]
  have hsorted : ∀ n, n ∈ children.mergeSort (fun a b => decide (a.addr.digits ≤ b.addr.digits))
      ↔ ∃ record s, t.node n.node = some record ∧ record.parent = some node
        ∧ record.slot = some s ∧ n.addr.digits = addr.digits ++ [s]
        ∧ n.kind = record.kind.neighborKind := by
    intro n
    rw [(List.mergeSort_perm _ _).mem_iff, hmem, childNeighbor_iff hvalid hmirror hcanonical]
  cases hlink : (records node).parent with
  | none =>
      refine ⟨_, by simp [Routable.fromRecord, haddr, hlink, hchildren]; rfl, ?_, ?_, hsorted⟩
      · simp [hid]
      · intro p digits s hp hdigits
        rw [hdigits] at hnode
        obtain ⟨record', p', hrecord', hparent', -⟩ := hnode.snoc_inv hp.ne_nil
        have hnone := hmirror.parent node record' hrecord'
        rw [hlink, hparent'] at hnone
        cases hnone
  | some link =>
      obtain ⟨paddr, s, hneighbor, hdigits, hchain⟩ :=
        parentNeighbor_eq_ok hmirror hcanonical hnode hlink
      refine ⟨_, by simp [Routable.fromRecord, haddr, hlink, hneighbor, hchildren]; rfl, ?_, ?_,
        hsorted⟩
      · simp [hid]
      · intro p digits s' hp hdigits'
        obtain ⟨rfl, -⟩ := List.append_inj' (hdigits.symm.trans hdigits') rfl
        exact ⟨paddr, rfl, by rw [hp.injective hvalid hchain]⟩

/-! ## The decision of a node -/

omit [EndpointIds] in
/-- A child neighbor is the one in a slot when its address adds that digit. -/
theorem isChildIn_iff {s : UInt8} {n : Neighbor}
    (hchild : ∃ s', n.addr.digits = addr.digits ++ [s']) :
    Routable.isChildIn addr s n = true ↔ n.addr.digits = addr.digits ++ [s] := by
  obtain ⟨s', hs'⟩ := hchild
  have hparent : n.addr.parent = some addr := OctAddr.parent_eq_some.mpr ⟨s', hs'⟩
  have hroot : n.addr.isRoot = false := by
    simp [OctAddr.isRoot, OctAddr.depth, hs', addr.digits_ne_nil]
  simp [Routable.isChildIn, hparent, OctAddr.slot, hroot, hs']

omit [EndpointIds] in
/-- How a node decides: here, one step along the route, or dropped where no node is. -/
theorem route_cases (hvalid : t.Valid) {r : Routable} (hnode : Chain t node addr.digits)
    (hr : Snapshot t node addr r) (dst : OctAddr) :
    (addr = dst ∧ r.route dst = .local_)
    ∨ (∃ next : Neighbor, r.route dst = .forward next ∧ Chain t next.node next.addr.digits
        ∧ route addr.digits dst.digits = addr.digits :: route next.addr.digits dst.digits)
    ∨ ∃ e, r.route dst = .drop e ∧ ∀ id, ¬ Chain t id dst.digits := by
  by_cases heq : addr = dst
  · exact Or.inl ⟨heq, by simp [Routable.route, hr.this, heq]⟩
  right
  by_cases hanc : addr.isAncestorOf dst = true
  · -- Below this node: the child in the slot of the next digit decides.
    obtain ⟨hle, -⟩ := OctAddr.isAncestorOf_iff.mp hanc
    obtain ⟨s, hs⟩ := exists_branch hle (fun h => heq (OctAddr.ext h))
    have hslot : dst.digits[addr.depth]?.getD 0 = s := by
      obtain ⟨rest, hrest⟩ := hs
      simp [← hrest, OctAddr.depth]
    have hne : dst ≠ addr := Ne.symm heq
    cases hfind : r.children.find? (Routable.isChildIn addr s) with
    | none =>
        refine Or.inr ⟨.noSuchChild addr s, ?_, ?_⟩
        · simp [Routable.route, hr.this, hne, hanc, hslot, hfind]
        · intro id hid
          obtain ⟨c, record, hc, hrecord, hparent, hrslot⟩ := hid.toward hvalid hnode hs
          obtain ⟨caddr, hcaddr⟩ := hc.exists_addr
          have hmem : ⟨caddr, c, record.kind.neighborKind⟩ ∈ r.children :=
            (hr.children _).mpr ⟨record, s, hrecord, hparent, hrslot, hcaddr, rfl⟩
          exact absurd ((isChildIn_iff ⟨s, hcaddr⟩).mpr hcaddr)
            (List.find?_eq_none.mp hfind _ hmem)
    | some n =>
        obtain ⟨record, s', hrecord, hparent, hrslot, haddr, hkind⟩ :=
          (hr.children n).mp (List.mem_of_find?_eq_some hfind)
        have hn := (isChildIn_iff ⟨s', haddr⟩).mp (List.find?_some hfind)
        obtain rfl : s = s' := by simpa using hn.symm.trans haddr
        obtain ⟨-, s', -, -, -, hs', hrange, -⟩ := (hvalid.nodes _ _ hrecord).link node hparent
        obtain rfl : s = s' := Option.some.inj (hrslot.symm.trans hs')
        have hchain : Chain t n.node n.addr.digits :=
          hn ▸ Chain.child hrecord hparent hrslot hrange hnode
        by_cases huser : n.kind = .user ∧ dst.depth ≠ addr.depth + 1
        · refine Or.inr ⟨.userHasNoDescendants n.addr, ?_, ?_⟩
          · simp [Routable.route, hr.this, hne, hanc, hslot, hfind, huser]
          · -- A user has no descendants in a validated topology.
            intro id hid
            have hdigits : n.addr.digits ≠ dst.digits := by
              intro hdst
              apply huser.2
              rw [OctAddr.depth, ← hdst, hn]
              simp [OctAddr.depth]
            have hnodeKind := hid.kind_of_le hvalid hchain (hn ▸ hs) hdigits hrecord
            rw [hkind, hnodeKind] at huser
            cases huser.1
        · refine Or.inl ⟨n, ?_, hchain, ?_⟩
          · simp [Routable.route, hr.this, hne, hanc, hslot, hfind, huser]
          · rw [hn, route_down hs]
  · -- Elsewhere: up to the parent, which only the root lacks.
    have hoff : ¬ addr.digits <+: dst.digits := fun hle =>
      hanc (OctAddr.isAncestorOf_iff.mpr ⟨hle, heq⟩)
    obtain ⟨digits, s, hdigits⟩ := (List.eq_nil_or_concat' addr.digits).resolve_left
      addr.digits_ne_nil
    have hne : digits ≠ [] := by
      rintro rfl
      have hroot := addr.root_le.eq_of_length_le (by simp [hdigits])
      exact hoff (hroot ▸ dst.root_le)
    obtain ⟨record, p, hrecord, hparent, hslot, hp⟩ := (hdigits ▸ hnode).snoc_inv hne
    obtain ⟨paddr, hpaddr, hrparent⟩ := hr.parent p digits s hp hdigits
    refine Or.inl ⟨⟨paddr, p, .node⟩, ?_, hpaddr ▸ hp, ?_⟩
    · simp [Routable.route, hr.this, Ne.symm heq, hanc, hrparent]
    · rw [hdigits] at hoff ⊢
      rw [route_up hoff, hpaddr]

/-! ## Forwarding -/

/-- Forward a message from node to node, each by the snapshot of its own record: the nodes
visited, and the last decision, if the fuel reaches one. -/
def forwarding (records : NodeId → NodeRecord) (dst : OctAddr) :
    ℕ → NodeId → List NodeId × Option RouteDecision
  | 0, _ => ([], none)
  | fuel + 1, node =>
      match Routable.fromRecord (records node) with
      | .error _ => ([node], none)
      | .ok routable =>
          match routable.route dst with
          | .forward next =>
              let (visited, outcome) := forwarding records dst fuel next.node
              (node :: visited, outcome)
          | decision => ([node], some decision)

theorem forwarding_spec (hvalid : t.Valid) (hmirror : RecordsMirror t records)
    (hcanonical : Canonical t) {fuel : ℕ} (hnode : Chain t node addr.digits)
    (hfuel : (route addr.digits dst.digits).length ≤ fuel) :
    ∃ visited outcome digits, forwarding records dst fuel node = (visited, some outcome)
      ∧ List.Forall₂ (Chain t) visited digits ∧ digits <+: route addr.digits dst.digits
      ∧ ((outcome = .local_ ∧ digits = route addr.digits dst.digits)
        ∨ ∃ e, outcome = .drop e ∧ ∀ id, ¬ Chain t id dst.digits) := by
  induction fuel generalizing node addr with
  | zero => simp [route] at hfuel
  | succ fuel ih =>
      obtain ⟨r, hfrom, hr⟩ := fromRecord_eq_ok hvalid hmirror hcanonical hnode
      obtain ⟨heq, hroute⟩ | ⟨next, hroute, hnext, hstep⟩ | ⟨e, hroute, hno⟩ :=
        route_cases hvalid hnode hr dst
      · subst heq
        refine ⟨[node], .local_, [addr.digits], ?_, .cons hnode .nil, ?_, Or.inl ⟨rfl, ?_⟩⟩
        · simp [forwarding, hfrom, hroute]
        · rw [route_self]
        · rw [route_self]
      · rw [hstep, List.length_cons] at hfuel
        obtain ⟨visited, outcome, digits, hvisited, hchains, hle, hend⟩ := ih hnext (by omega)
        refine ⟨node :: visited, outcome, addr.digits :: digits, ?_, .cons hnode hchains, ?_, ?_⟩
        · simp [forwarding, hfrom, hroute, hvisited]
        · rw [hstep]
          exact List.cons_prefix_cons.mpr ⟨rfl, hle⟩
        · rw [hstep]
          exact hend.imp (fun h => ⟨h.1, by rw [h.2]⟩) id
      · refine ⟨[node], .drop e, [addr.digits], ?_, .cons hnode .nil, ?_, Or.inr ⟨e, rfl, hno⟩⟩
        · simp [forwarding, hfrom, hroute]
        · obtain ⟨rest, hrest⟩ := List.head?_eq_some_iff.mp (head?_route addr.digits dst.digits)
          rw [hrest]
          exact List.cons_prefix_cons.mpr ⟨rfl, List.nil_prefix⟩

/-- The steps of the router between any two addresses are the one route of the tree, backwards
as forwards. In every validated topology whose nodes route by their own records, forwarding from
a node of the tree visits the nodes along that route and delivers at its end; for an address that
no node has it ends in a drop at some node. -/
theorem routing_reaches_destination :
    (∀ src dst, ∃ path, VisitsRoute src dst path ∧ VisitsRoute dst src path.reverse)
    ∧ ∀ t records, t.validate = .ok () → RecordsMirror t records → Canonical t →
      ∀ node addr dst, t.addressOf node = .ok addr → ∃ path, VisitsRoute addr dst path
        ∧ (∀ id, t.addressOf id = .ok dst → ∀ fuel, path.length ≤ fuel → ∃ visited,
            forwarding records dst fuel node = (visited, some .local_)
            ∧ List.Forall₂ (fun id a => t.addressOf id = .ok a) visited path)
        ∧ ((∀ id, t.addressOf id ≠ .ok dst) → ∀ fuel, path.length ≤ fuel → ∃ visited e passed,
            forwarding records dst fuel node = (visited, some (.drop e))
            ∧ List.Forall₂ (fun id a => t.addressOf id = .ok a) visited passed
            ∧ passed <+: path) := by
  constructor
  · intro src dst
    obtain ⟨path, -, hpath, hback⟩ := exists_visitsRoute src dst
    exact ⟨path, hpath, hback⟩
  · intro t records hvalidate hmirror hcanonical node addr dst haddr
    have hvalid := Topology.validate_spec hvalidate
    have hnode := (Topology.addressOf_eq_ok hvalid).mp haddr
    obtain ⟨path, hdigits, hpath, -⟩ := exists_visitsRoute addr dst
    have hlen : path.length = (route addr.digits dst.digits).length := by
      rw [← hdigits, List.length_map]
    have hspec : ∀ {fuel}, path.length ≤ fuel → _ := fun hfuel =>
      forwarding_spec hvalid hmirror hcanonical hnode (hlen ▸ hfuel)
    refine ⟨path, hpath, ?_, ?_⟩
    · intro id hid fuel hfuel
      obtain ⟨visited, outcome, digits, hforward, hchains, -, ⟨rfl, rfl⟩ | ⟨e, -, hno⟩⟩ :=
        hspec hfuel
      · refine ⟨visited, hforward, ?_⟩
        rw [← hdigits, List.forall₂_map_right_iff] at hchains
        exact hchains.imp fun id a h => (Topology.addressOf_eq_ok hvalid).mpr h
      · exact absurd ((Topology.addressOf_eq_ok hvalid).mp hid) (hno id)
    · intro hnone fuel hfuel
      obtain ⟨visited, outcome, digits, hforward, hchains, hle, ⟨rfl, rfl⟩ | ⟨e, rfl, -⟩⟩ :=
        hspec hfuel
      · -- A delivery would have reached a node with the address.
        obtain ⟨id, -, hid⟩ := forall₂_getLast? hchains (getLast?_route addr.digits dst.digits)
        exact absurd ((Topology.addressOf_eq_ok hvalid).mpr hid) (hnone id)
      · rw [← hdigits] at hle
        obtain ⟨passed, hpassed, rfl⟩ := List.prefix_map_iff.mp hle
        rw [List.forall₂_map_right_iff] at hchains
        exact ⟨visited, e, passed, hforward,
          hchains.imp fun id a h => (Topology.addressOf_eq_ok hvalid).mpr h, hpassed⟩

end

section

@[reducible] def plainIds : EndpointIds where
  canonical id := .ok id

theorem routing_reaches_destination_twoLeaves :
    ∃ src dst path, twoLeaves.addressOf "u" = .ok src ∧ twoLeaves.addressOf "v" = .ok dst
      ∧ VisitsRoute src dst path ∧ ∃ visited,
        @forwarding plainIds (recordOf twoLeaves) dst path.length "u"
          = (visited, some .local_) := by
  have hsrcOk : (twoLeaves.addressOf "u").toBool = true := by decide +kernel
  have hdstOk : (twoLeaves.addressOf "v").toBool = true := by decide +kernel
  obtain ⟨src, hsrc⟩ := exists_ok_of_toBool hsrcOk
  obtain ⟨dst, hdst⟩ := exists_ok_of_toBool hdstOk
  obtain ⟨path, hpath, hdeliver, -⟩ := (@routing_reaches_destination plainIds).2 twoLeaves
    (recordOf twoLeaves) twoLeaves_valid (recordOf_mirror (Topology.validate_spec twoLeaves_valid))
    (fun _ _ => rfl) "u" src dst hsrc
  obtain ⟨visited, hvisited, -⟩ := hdeliver "v" hdst path.length le_rfl
  exact ⟨src, dst, path, hsrc, hdst, hpath, visited, hvisited⟩

end

end Cawala
