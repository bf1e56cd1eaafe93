import Cawala.Model.Concrete
import Cawala.Verification.PartitionComponents

/-! # The audit partition is faithful

A partition that is built holds the nodes and the edges the records declare and nothing else, and
permuted records yield the same one. Only the parent an island's root was severed from can depend
on the order of the records: stale rows of several nodes may name the same root, and the first
one is reported. -/

namespace Cawala

open Library
open Std (ExtTreeMap ExtTreeSet)

/-- The node of the first stale row for a root, in the order of the records. -/
def severedFrom (records : List NodeRecord) (root : NodeId) : Option NodeId :=
  ((allRows records).find? fun row =>
    decide (row.2.childId = root ∧ Contradicted records row)).map (·.1)

/-- The stale rows that name a root all stand in one record. -/
def SeveredOnce (records : List NodeRecord) (root : NodeId) : Prop :=
  ∀ row ∈ allRows records, ∀ row' ∈ allRows records,
    row.2.childId = root → Contradicted records row →
      row'.2.childId = root → Contradicted records row' → row.1 = row'.1

section Severed

variable {records records' : List NodeRecord}

theorem isSome_severedFrom {root : NodeId} : (severedFrom records root).isSome ↔
    ∃ row ∈ allRows records, row.2.childId = root ∧ Contradicted records row := by
  simp [severedFrom]

theorem severedFrom_eq_some {root parent : NodeId} (h : severedFrom records root = some parent) :
    ∃ row ∈ allRows records, row.2.childId = root ∧ Contradicted records row
      ∧ row.1 = parent := by
  obtain ⟨row, hrow, rfl⟩ := Option.map_eq_some_iff.mp h
  have hstale : row.2.childId = root ∧ Contradicted records row := by
    simpa using List.find?_some hrow
  exact ⟨row, List.mem_of_find?_eq_some hrow, hstale.1, hstale.2, rfl⟩

/-- The first stale row depends on the order of the records only where rows of several records
name the root. -/
theorem severedFrom_perm (hperm : records.Perm records') (root : NodeId) :
    (severedFrom records' root).isSome = (severedFrom records root).isSome
      ∧ (SeveredOnce records root → severedFrom records' root = severedFrom records root) := by
  have hsome : (severedFrom records' root).isSome = (severedFrom records root).isSome := by
    rw [Bool.eq_iff_iff, isSome_severedFrom, isSome_severedFrom, contradicted_perm hperm]
    simp only [(allRows_perm hperm).mem_iff]
  refine ⟨hsome, ?_⟩
  intro honce
  cases h : severedFrom records root with
  | none =>
      rw [h, Option.isSome_none] at hsome
      exact Option.not_isSome_iff_eq_none.mp (ne_true_of_eq_false hsome)
  | some parent =>
      rw [h, Option.isSome_some, Option.isSome_iff_exists] at hsome
      obtain ⟨parent', h'⟩ := hsome
      obtain ⟨row, hrow, hroot, hstale, rfl⟩ := severedFrom_eq_some h
      obtain ⟨row', hrow', hroot', hstale', rfl⟩ := severedFrom_eq_some h'
      rw [← contradicted_perm hperm] at hstale'
      rw [h', honce row hrow row' ((allRows_perm hperm).mem_iff.mpr hrow') hroot hstale hroot'
        hstale']

end Severed

/-! ## Faithful partitions -/

theorem record_childOf {builder : NodeBuilder} {id parent : NodeId} {slot : UInt8} :
    ((builder.record id).parent = some parent ∧ (builder.record id).slot = some slot) ↔
      builder.parent = some (parent, slot) := by
  cases h : builder.parent with
  | none => simp [NodeBuilder.record, h]
  | some edge => simp [NodeBuilder.record, h, Prod.ext_iff]

theorem mem_nodes_iff {t : Topology} {id : NodeId} :
    id ∈ t.nodes ↔ ∃ kind, t.HasKind id kind := by
  rw [ExtTreeMap.mem_iff_isSome_getElem?, Option.isSome_iff_exists]
  constructor
  · intro h
    obtain ⟨record, hget⟩ := h
    exact ⟨record.kind, record, hget, rfl⟩
  · intro h
    obtain ⟨kind, record, hget, -⟩ := h
    exact ⟨record, hget⟩

section Partition

variable [Crypto]

/-- What a partition says of the records it was built from. -/
structure Faithful (records : List NodeRecord) (p : TopologyPartition) : Prop where
  valid : ∀ c ∈ p.components, c.topology.validate = .ok ()
  rooted : ∀ c ∈ p.components, ∀ id, c.topology.Floating id ↔ id = c.topology.root
  disjoint : p.components.Pairwise fun c c' => ∀ id ∈ c.topology.nodes, id ∉ c'.topology.nodes
  members : ∀ id, (∃ c ∈ p.components, id ∈ c.topology.nodes) ↔
    HoldsRecord records id ∨ ∃ row ∈ allRows records, row.2.childId = id
  kinds : ∀ id kind, (∃ c ∈ p.components, c.topology.HasKind id kind) ↔
    DeclaresNode records (allRows records) id kind
  ownEdges : ∀ child, HoldsRecord records child → ∀ parent slot,
    (∃ c ∈ p.components, c.topology.ChildOf child parent slot) ↔
      OwnLink records child (parent, slot)
  listedEdges : ∀ child, ¬ HoldsRecord records child → ∀ parent slot,
    (∃ c ∈ p.components, c.topology.ChildOf child parent slot) ↔
      ListedAt (allRows records) child (parent, slot)
  findings : p.findings = staleFindings records (allRows records)
  stranded : ∀ (i : ℕ) c, p.components[i]? = some c → c.strandedParent =
    if 0 < i then severedFrom records c.topology.root else none

/-- Two partitions with the same components in the same order and the same findings. -/
structure SamePartition (records : List NodeRecord) (p p' : TopologyPartition) : Prop where
  topologies : p'.components.map (·.topology) = p.components.map (·.topology)
  findings : p'.findings.Perm p.findings
  stranded : ∀ (i : ℕ) c c', p.components[i]? = some c → p'.components[i]? = some c' →
    c'.strandedParent.isSome = c.strandedParent.isSome
      ∧ (SeveredOnce records c.topology.root → c'.strandedParent = c.strandedParent)

variable {records records' : List NodeRecord} {order order' : Builders → List NodeId}
  {primaryRoot : Option NodeId} {p p' : TopologyPartition} {g : Gathered} {nodes : Builders}

/-! ## The steps of the construction -/

/-- The intermediate results of a construction that succeeds. -/
structure Construction (order : Builders → List NodeId) (g : Gathered)
    (primaryRoot : Option NodeId) (nodes : Builders)
    (components swapped : List (NodeId × List NodeId)) (built : List NetComponent) : Prop where
  parents : checkParents g = .ok ()
  links : g.links.toList.foldlM applyLink g.nodes = .ok nodes
  groups : (groupIds (order nodes) g.links).mapM (componentOf nodes) = .ok components
  primary : ∃ i, primaryPosition (order nodes) (components.insertionSort ComponentLe) primaryRoot
    = .ok i ∧ swapFirst (components.insertionSort ComponentLe) i = .ok swapped
  built : swapped.zipIdx.mapM (buildComponent nodes g.findings) = .ok built

theorem build_eq_ok : buildTopologyPartition order records primaryRoot = .ok p ↔
    ∃ g nodes components swapped, gather records = .ok g
      ∧ Construction order g primaryRoot nodes components swapped p.components
      ∧ p.findings = g.findings := by
  simp only [buildTopologyPartition, bind_eq_ok, pure_eq_ok]
  constructor
  · intro h
    obtain ⟨g, hg, _, hparents, nodes, hlinks, components, hgroups, i, hi, swapped, hswap, built,
      hbuilt, rfl⟩ := h
    exact ⟨g, nodes, components, swapped, hg,
      ⟨hparents, hlinks, hgroups, ⟨i, hi, hswap⟩, hbuilt⟩, rfl⟩
  · intro h
    obtain ⟨g, nodes, components, swapped, hg, ⟨hparents, hlinks, hgroups, ⟨i, hi, hswap⟩,
      hbuilt⟩, hfindings⟩ := h
    refine ⟨g, hg, (), hparents, nodes, hlinks, components, hgroups, i, hi, swapped, hswap, _,
      hbuilt, ?_⟩
    rw [← hfindings]

theorem severedParent_staleFindings (rows : List (NodeId × ChildEntry)) (root : NodeId) :
    severedParent (staleFindings records rows) root
      = (rows.find? fun row =>
          decide (row.2.childId = root ∧ Contradicted records row)).map (·.1) := by
  induction rows with
  | nil => rfl
  | cons row rows ih =>
      by_cases hstale : Contradicted records row
      · by_cases hroot : row.2.childId = root
        · simp [staleFindings, severedParent, hstale, hroot]
        · simpa [staleFindings, severedParent, hstale, hroot] using ih
      · simpa [staleFindings, severedParent, hstale] using ih

theorem linksWithin (hg : Gathers records (allRows records) g) (hparents : checkParents g = .ok ())
    (hentered : Entered g.nodes g.links.toList nodes) {ids : List NodeId}
    (hids : ids.Perm nodes.keys) : LinksWithin ids g.links := by
  have hmem : ∀ id, id ∈ g.nodes → id ∈ ids := by
    intro id hid
    rw [hids.mem_iff, ExtTreeMap.mem_keys, ExtTreeMap.mem_iff_isSome_getElem?] at *
    have hkind := congrArg Option.isSome (hentered.kind id)
    rwa [Option.isSome_map, Option.isSome_map, hid] at hkind
  intro child edge hlink
  refine ⟨hmem child ?_, hmem edge.1 ?_⟩
  · have hnode : ∃ kind, DeclaresNode records (allRows records) child kind := by
      rcases (hg.links child edge).mp hlink with hown | ⟨-, row, hrow, hchild, -⟩
      · exact ⟨.node, Or.inl ⟨hown.holdsRecord, rfl⟩⟩
      · exact ⟨_, Or.inr ⟨row, hrow, hchild, rfl⟩⟩
    obtain ⟨kind, hkind⟩ := hnode
    have hget := (hg.nodes child _).mpr ⟨kind, hkind, rfl⟩
    exact ExtTreeMap.mem_iff_isSome_getElem?.mpr (by rw [hget]; rfl)
  · have hchecked := forM_eq_ok.mp hparents (child, edge)
      (ExtTreeMap.mem_toList_iff_getElem?_eq_some.mpr hlink)
    by_contra hno
    simp [hno] at hchecked

/-! ## Faithfulness -/

section Faithful

variable {components swapped : List (NodeId × List NodeId)} {built : List NetComponent}

theorem Construction.divides (hc : Construction order g primaryRoot nodes components swapped
    built) (horder : ∀ nodes, (order nodes).Perm nodes.keys)
    (hg : Gathers records (allRows records) g) : Components nodes (order nodes) components := by
  have hentered := applyLinks_entered (fun id builder => hg.blank) hc.links
  have hnodup : (order nodes).Nodup := (horder nodes).nodup_iff.mpr ExtTreeMap.nodup_keys
  exact components_of_classes
    (groupIds_classes hnodup (linksWithin hg hc.parents hentered (horder nodes))) hc.groups

theorem Construction.divides_swapped
    (hc : Construction order g primaryRoot nodes components swapped built)
    (horder : ∀ nodes, (order nodes).Perm nodes.keys) (hg : Gathers records (allRows records) g) :
    Components nodes (order nodes) swapped := by
  obtain ⟨i, -, hswap⟩ := hc.primary
  exact ((hc.divides horder hg).perm (List.perm_insertionSort ComponentLe _).symm).perm
    (swapFirst_perm hswap).symm

def builtComponent (nodes : Builders) (findings : List Finding)
    (entry : (NodeId × List NodeId) × ℕ) : NetComponent where
  topology := componentTopology nodes entry.1
  strandedParent := if entry.2 > 0 then severedParent findings entry.1.1 else none

theorem buildComponent_eq_ok {findings : List Finding} {entry : (NodeId × List NodeId) × ℕ}
    {c : NetComponent} : buildComponent nodes findings entry = .ok c ↔
      (componentTopology nodes entry.1).validate = .ok ()
        ∧ builtComponent nodes findings entry = c := by
  unfold buildComponent
  simp only
  cases hvalid : (componentTopology nodes entry.1).validate with
  | error e => simp
  | ok u => simp [builtComponent]

theorem mapM_buildComponent {findings : List Finding}
    {entries : List ((NodeId × List NodeId) × ℕ)} :
    entries.mapM (buildComponent nodes findings) = .ok built ↔
      (∀ entry ∈ entries, (componentTopology nodes entry.1).validate = .ok ())
        ∧ built = entries.map (builtComponent nodes findings) := by
  rw [mapM_eq_ok_iff_forall₂]
  constructor
  · intro h
    refine ⟨?_, ?_⟩
    · intro entry hentry
      obtain ⟨c, -, hc⟩ := exists_of_forall₂_left h hentry
      exact (buildComponent_eq_ok.mp hc).1
    · have hmap := map_eq_of_forall₂ (f := builtComponent nodes findings) (g := id)
        (h.imp fun entry c hc => (buildComponent_eq_ok.mp hc).2)
      rw [hmap, List.map_id]
  · intro h
    obtain ⟨hvalid, rfl⟩ := h
    refine List.forall₂_map_right_iff.mpr (List.forall₂_same.mpr ?_)
    intro entry hentry
    exact buildComponent_eq_ok.mpr ⟨hvalid entry hentry, rfl⟩

theorem topologies_builtComponent (findings : List Finding)
    (entries : List (NodeId × List NodeId)) :
    (entries.zipIdx.map (builtComponent nodes findings)).map (·.topology)
      = entries.map (componentTopology nodes) := by
  have hfst : entries.zipIdx.map Prod.fst = entries := List.zipIdx_map_fst 0 entries
  calc (entries.zipIdx.map (builtComponent nodes findings)).map (·.topology)
      = (entries.zipIdx.map Prod.fst).map (componentTopology nodes) := by
        rw [List.map_map, List.map_map]
        rfl
    _ = entries.map (componentTopology nodes) := by rw [hfst]

theorem Construction.topologies
    (hc : Construction order g primaryRoot nodes components swapped built) :
    built.map (·.topology) = swapped.map (componentTopology nodes) := by
  rw [(mapM_buildComponent.mp hc.built).2, topologies_builtComponent]

theorem Construction.exists_topology
    (hc : Construction order g primaryRoot nodes components swapped built) (P : Topology → Prop) :
    (∃ c ∈ built, P c.topology) ↔ ∃ entry ∈ swapped, P (componentTopology nodes entry) := by
  have h₁ : (∃ t ∈ built.map (·.topology), P t) ↔ ∃ c ∈ built, P c.topology := by
    simp only [List.mem_map, exists_exists_and_eq_and]
  have h₂ : (∃ t ∈ swapped.map (componentTopology nodes), P t) ↔
      ∃ entry ∈ swapped, P (componentTopology nodes entry) := by
    simp only [List.mem_map, exists_exists_and_eq_and]
  rw [← h₁, hc.topologies, h₂]

theorem Construction.hasRecord
    (hc : Construction order g primaryRoot nodes components swapped built)
    (horder : ∀ nodes, (order nodes).Perm nodes.keys) (hg : Gathers records (allRows records) g)
    (id : NodeId) (P : Topology.NodeRecord → Prop) :
    (∃ c ∈ built, c.topology.HasRecord id P) ↔
      ∃ builder, nodes[id]? = some builder ∧ P (builder.record id) := by
  rw [hc.exists_topology fun t => t.HasRecord id P]
  simp only [hasRecord_componentTopology]
  constructor
  · intro h
    obtain ⟨entry, -, -, hbuilder⟩ := h
    exact hbuilder
  · intro h
    obtain ⟨builder, hget, hP⟩ := h
    have hid : id ∈ order nodes := by
      rw [(horder nodes).mem_iff, ExtTreeMap.mem_keys, ExtTreeMap.mem_iff_isSome_getElem?, hget]
      rfl
    obtain ⟨entry, hentry, hmem⟩ := ((hc.divides_swapped horder hg).mem id).mpr hid
    exact ⟨entry, hentry, hmem, builder, hget, hP⟩

theorem Construction.hasKind
    (hc : Construction order g primaryRoot nodes components swapped built)
    (horder : ∀ nodes, (order nodes).Perm nodes.keys) (hg : Gathers records (allRows records) g)
    (id : NodeId) (kind : ChildKind) :
    (∃ c ∈ built, c.topology.HasKind id kind) ↔
      DeclaresNode records (allRows records) id kind := by
  have hentered := applyLinks_entered (fun id builder => hg.blank) hc.links
  have hkind : (∃ builder, nodes[id]? = some builder ∧ builder.kind = kind) ↔
      ∃ builder, g.nodes[id]? = some builder ∧ builder.kind = kind := by
    rw [← Option.map_eq_some_iff, ← Option.map_eq_some_iff, hentered.kind]
  rw [show (∃ c ∈ built, c.topology.HasKind id kind) ↔ _ from hc.hasRecord horder hg id _]
  refine hkind.trans ?_
  constructor
  · intro h
    obtain ⟨builder, hget, rfl⟩ := h
    obtain ⟨kind, hdecl, rfl⟩ := (hg.nodes id builder).mp hget
    exact hdecl
  · intro h
    exact ⟨.blank kind, (hg.nodes id _).mpr ⟨kind, h, rfl⟩, rfl⟩

theorem Construction.childOf
    (hc : Construction order g primaryRoot nodes components swapped built)
    (horder : ∀ nodes, (order nodes).Perm nodes.keys) (hg : Gathers records (allRows records) g)
    (child parent : NodeId) (slot : UInt8) :
    (∃ c ∈ built, c.topology.ChildOf child parent slot) ↔
      DeclaresEdge records (allRows records) child (parent, slot) := by
  have hentered := applyLinks_entered (fun id builder => hg.blank) hc.links
  rw [show (∃ c ∈ built, c.topology.ChildOf child parent slot) ↔ _ from
    hc.hasRecord horder hg child _]
  simp only [record_childOf]
  rw [← hg.links, ← ExtTreeMap.mem_toList_iff_getElem?_eq_some]
  constructor
  · intro h
    obtain ⟨builder, hget, hparent⟩ := h
    exact (hentered.parent child builder hget _).mp hparent
  · intro h
    have hlink := ExtTreeMap.mem_toList_iff_getElem?_eq_some.mp h
    have hid := (linksWithin hg hc.parents hentered (horder nodes) child _ hlink).1
    rw [(horder nodes).mem_iff, ExtTreeMap.mem_keys, ExtTreeMap.mem_iff_isSome_getElem?,
      Option.isSome_iff_exists] at hid
    obtain ⟨builder, hget⟩ := hid
    exact ⟨builder, hget, (hentered.parent child builder hget _).mpr h⟩

theorem Construction.floating
    (hc : Construction order g primaryRoot nodes components swapped built)
    (horder : ∀ nodes, (order nodes).Perm nodes.keys) (hg : Gathers records (allRows records) g)
    {entry : NodeId × List NodeId} (hentry : entry ∈ swapped) (id : NodeId) :
    (componentTopology nodes entry).Floating id ↔ id = entry.1 := by
  have hswapped := hc.divides_swapped horder hg
  rw [Topology.Floating, hasRecord_componentTopology, ← hswapped.root entry hentry id]
  refine and_congr_right ?_
  intro hmem
  have hid := (hswapped.mem id).mp ⟨entry, hentry, hmem⟩
  rw [(horder nodes).mem_iff, ExtTreeMap.mem_keys, ExtTreeMap.mem_iff_isSome_getElem?,
    Option.isSome_iff_exists] at hid
  obtain ⟨builder, hget⟩ := hid
  simp [hget, Parentless, NodeBuilder.record]

omit [Crypto] in
theorem mem_of_mem_componentTopology {entry : NodeId × List NodeId} {id : NodeId}
    (h : id ∈ (componentTopology nodes entry).nodes) : id ∈ entry.2 := by
  obtain ⟨kind, hkind⟩ := mem_nodes_iff.mp h
  exact ((hasRecord_componentTopology id _).mp hkind).1

theorem build_faithful (horder : ∀ nodes, (order nodes).Perm nodes.keys)
    (hnodup : (records.map (·.nodeId)).Nodup)
    (h : buildTopologyPartition order records primaryRoot = .ok p) : Faithful records p := by
  obtain ⟨g, nodes, components, swapped, hgather, hc, hfindings⟩ := build_eq_ok.mp h
  obtain ⟨-, hg⟩ := gather_spec hnodup hgather
  have hswapped := hc.divides_swapped horder hg
  obtain ⟨hvalid, hbuilt⟩ := mapM_buildComponent.mp hc.built
  have hkinds := hc.hasKind horder hg
  have hedges := hc.childOf horder hg
  refine ⟨?_, ?_, ?_, ?_, hkinds, ?_, ?_, hfindings.trans hg.findings, ?_⟩
  · intro c hcomp
    rw [hbuilt] at hcomp
    obtain ⟨entry, hentry, rfl⟩ := List.mem_map.mp hcomp
    exact hvalid entry hentry
  · intro c hcomp id
    rw [hbuilt] at hcomp
    obtain ⟨entry, hentry, rfl⟩ := List.mem_map.mp hcomp
    exact hc.floating horder hg (List.fst_mem_of_mem_zipIdx hentry) id
  · have hdisjoint : (p.components.map (·.topology)).Pairwise
        fun t t' => ∀ id ∈ t.nodes, id ∉ t'.nodes := by
      rw [hc.topologies]
      refine List.pairwise_map.mpr (hswapped.disjoint.imp ?_)
      intro entry entry' hdisjoint id hid hid'
      exact hdisjoint (mem_of_mem_componentTopology hid) (mem_of_mem_componentTopology hid')
    exact List.pairwise_map.mp hdisjoint
  · intro id
    have hmem : (∃ c ∈ p.components, id ∈ c.topology.nodes) ↔
        ∃ kind, DeclaresNode records (allRows records) id kind := by
      simp only [← hkinds, mem_nodes_iff]
      constructor
      · intro h
        obtain ⟨c, hcomp, kind, hkind⟩ := h
        exact ⟨kind, c, hcomp, hkind⟩
      · intro h
        obtain ⟨kind, c, hcomp, hkind⟩ := h
        exact ⟨c, hcomp, kind, hkind⟩
    rw [hmem]
    simp [DeclaresNode, exists_or]
  · intro child hholds parent slot
    exact (hedges child parent slot).trans (declaresEdge_iff_ownLink hholds _)
  · intro child hholds parent slot
    exact (hedges child parent slot).trans (declaresEdge_iff_listedAt hholds _)
  · intro i c hget
    rw [hbuilt, List.getElem?_map, List.getElem?_zipIdx] at hget
    obtain ⟨⟨entry, j⟩, hentry, rfl⟩ := Option.map_eq_some_iff.mp hget
    obtain ⟨entry, -, heq⟩ := Option.map_eq_some_iff.mp hentry
    obtain ⟨rfl, rfl⟩ := Prod.mk.inj heq
    simp only [builtComponent, componentTopology, hg.findings, severedParent_staleFindings,
      Nat.zero_add, gt_iff_lt]
    rfl

/-! ## The order of the records -/

theorem build_perm (horder : ∀ nodes, (order nodes).Perm nodes.keys)
    (horder' : ∀ nodes, (order' nodes).Perm nodes.keys)
    (hnodup : (records.map (·.nodeId)).Nodup) (hperm : records.Perm records')
    (h : buildTopologyPartition order records primaryRoot = .ok p) :
    ∃ p', buildTopologyPartition order' records' primaryRoot = .ok p'
      ∧ p'.components.map (·.topology) = p.components.map (·.topology)
      ∧ p'.findings.Perm p.findings := by
  obtain ⟨g, nodes, components, swapped, hgather, hc, hfindings⟩ := build_eq_ok.mp h
  obtain ⟨-, hg⟩ := gather_spec hnodup hgather
  obtain ⟨g', hgather', hnodes, hlinks, hfindings'⟩ := gather_perm hnodup hperm hgather
  have hentered := applyLinks_entered (fun id builder => hg.blank) hc.links
  have hids : (order nodes).Perm (order' nodes) := (horder nodes).trans (horder' nodes).symm
  -- the groups are met in another order, and listed in another order
  have hclasses : ∀ ids : List NodeId, ids.Perm nodes.keys →
      Classes (Connected g.links) ids (groupIds ids g.links) := by
    intro ids hkeys
    exact groupIds_classes (hkeys.nodup_iff.mpr ExtTreeMap.nodup_keys)
      (linksWithin hg hc.parents hentered hkeys)
  have hsorted : ∀ groups : List (List NodeId), groups.mapM (componentOf nodes)
      = (groups.map (List.insertionSort (· ≤ ·))).mapM (componentOf nodes) := by
    intro groups
    rw [List.mapM_map]
    congr 1
    funext members
    exact (componentOf_sorted members).symm
  have hgroups := hc.groups
  rw [hsorted] at hgroups
  obtain ⟨components', hgroups', hcomponents⟩ := mapM_perm
    ((hclasses _ (horder nodes)).sorted_perm (hclasses _ (horder' nodes)) hids) hgroups
  rw [← hsorted] at hgroups'
  have hsame := (hc.divides horder hg).sort_eq hcomponents.symm
  obtain ⟨i, hi, hswap⟩ := hc.primary
  obtain ⟨hvalid, hbuilt⟩ := mapM_buildComponent.mp hc.built
  have hc' : Construction order' g' primaryRoot nodes components' swapped
      (swapped.zipIdx.map (builtComponent nodes g'.findings)) := by
    refine ⟨?_, ?_, ?_, ⟨i, ?_, ?_⟩, mapM_buildComponent.mpr ⟨hvalid, rfl⟩⟩
    · rw [checkParents, hlinks, hnodes]
      exact hc.parents
    · rw [hlinks, hnodes]
      exact hc.links
    · rw [hlinks]
      exact hgroups'
    · rw [← hsame, ← primaryPosition_perm hids]
      exact hi
    · rw [← hsame]
      exact hswap
  let built' := swapped.zipIdx.map (builtComponent nodes g'.findings)
  refine ⟨⟨built', g'.findings⟩, ?_, ?_, hfindings ▸ hfindings'⟩
  · exact build_eq_ok.mpr ⟨g', nodes, components', swapped, hgather', hc', rfl⟩
  · rw [hc'.topologies, hc.topologies]

end Faithful

/-- The partition holds exactly what the records declare, whatever their order. -/
theorem partition_faithful (hnodup : (records.map (·.nodeId)).Nodup)
    (horder : ∀ nodes, (order nodes).Perm nodes.keys) :
    (∀ p, buildTopologyPartition order records primaryRoot = .ok p → Faithful records p)
      ∧ ∀ records' order', records.Perm records' → (∀ nodes, (order' nodes).Perm nodes.keys) →
        (buildTopologyPartition order' records' primaryRoot).toBool
            = (buildTopologyPartition order records primaryRoot).toBool
          ∧ ∀ p p', buildTopologyPartition order records primaryRoot = .ok p →
            buildTopologyPartition order' records' primaryRoot = .ok p' →
            SamePartition records p p' := by
  refine ⟨fun p h => build_faithful horder hnodup h, ?_⟩
  intro records' order' hperm horder'
  have hnodup' := (hperm.map (·.nodeId)).nodup_iff.mp hnodup
  refine ⟨?_, ?_⟩
  · rw [Bool.eq_iff_iff]
    constructor
    · intro h
      obtain ⟨p', hp'⟩ := exists_ok_of_toBool h
      obtain ⟨p, hp, -⟩ := build_perm horder' horder hnodup' hperm.symm hp'
      rw [hp]
      rfl
    · intro h
      obtain ⟨p, hp⟩ := exists_ok_of_toBool h
      obtain ⟨p', hp', -⟩ := build_perm horder horder' hnodup hperm hp
      rw [hp']
      rfl
  · intro p p' hp hp'
    obtain ⟨q, hq, htopologies, hfindings⟩ := build_perm horder horder' hnodup hperm hp
    obtain rfl := Except.ok.inj (hq.symm.trans hp')
    refine ⟨htopologies, hfindings, ?_⟩
    intro i c c' hc hc'
    have hsame : c'.topology = c.topology := by
      have hget := congrArg (fun l : List Topology => l[i]?) htopologies
      simpa [hc, hc'] using hget
    rw [(build_faithful horder hnodup hp).stranded i c hc,
      (build_faithful horder' hnodup' hp').stranded i c' hc', hsame]
    split_ifs
    · exact severedFrom_perm hperm _
    · exact ⟨rfl, fun _ => rfl⟩

end Partition

/-! ## Two stale rows for one root -/

namespace Concrete

/-- The iteration order of the ids themselves. -/
def byId (nodes : Builders) : List NodeId := nodes.keys

def child (childId : NodeId) (kind : ChildKind) (slot : UInt8) : ChildEntry where
  childId
  kind
  slot
  ethAddress := none

/-- The root of the larger component still lists `x`. -/
def upper : NodeRecord :=
  { NodeRecord.new "a" with children := [child "x" .node 0, child "b" .node 1] }

def lower : NodeRecord :=
  { NodeRecord.new "b" with
    parent := some { parentId := "a", slot := 1 }
    children := [child "x" .node 0, child "u" .user 3] }

def island : NodeRecord := NodeRecord.new "x"

def network : List NodeRecord := [upper, lower, island]

def shuffled : List NodeRecord := [lower, upper, island]

theorem byId_perm (nodes : Builders) : (byId nodes).Perm nodes.keys := List.Perm.refl _

theorem shuffled_perm : network.Perm shuffled := List.Perm.swap ..

end Concrete

section Concrete

open Concrete

theorem partition_faithful_severed : ∃ p p',
    buildTopologyPartition byId network none = .ok p
      ∧ buildTopologyPartition byId shuffled none = .ok p'
      ∧ Faithful network p ∧ SamePartition network p p' := by
  have hok : (buildTopologyPartition byId network none).toBool = true := by decide +kernel
  have hok' : (buildTopologyPartition byId shuffled none).toBool = true := by decide +kernel
  obtain ⟨p, hp⟩ := exists_ok_of_toBool hok
  obtain ⟨p', hp'⟩ := exists_ok_of_toBool hok'
  obtain ⟨hfaithful, hperm⟩ :=
    @partition_faithful _ network byId none (by decide) byId_perm
  obtain ⟨-, hsame⟩ := hperm shuffled byId shuffled_perm byId_perm
  exact ⟨p, p', hp, hp', hfaithful p hp, hsame p p' hp hp'⟩

/-- Two records list `x`, which has left both: the island of `x` was severed from either, as the
records are ordered. -/
theorem partition_depends_on_order : ¬ ∀ (records records' : List NodeRecord)
    (p p' : TopologyPartition), (∀ r ∈ records, r.validate = .ok ()) →
    (records.map (·.nodeId)).Nodup → records.Perm records' →
    buildTopologyPartition byId records none = .ok p →
    buildTopologyPartition byId records' none = .ok p' →
    p'.components.map (·.strandedParent) = p.components.map (·.strandedParent) := by
  intro h
  have hok : ((buildTopologyPartition byId network none).toOption.map fun p =>
      p.components.map (·.strandedParent)) = some [none, some "a"] := by decide +kernel
  have hok' : ((buildTopologyPartition byId shuffled none).toOption.map fun p =>
      p.components.map (·.strandedParent)) = some [none, some "b"] := by decide +kernel
  cases hp : buildTopologyPartition byId network none with
  | error e =>
      rw [hp] at hok
      cases hok
  | ok p =>
      cases hp' : buildTopologyPartition byId shuffled none with
      | error e =>
          rw [hp'] at hok'
          cases hok'
      | ok p' =>
          rw [hp] at hok
          rw [hp'] at hok'
          have hvalid : ∀ r ∈ network, r.validate = .ok () := by
            intro r hr
            have htrue : ∀ r ∈ network, r.validate.toBool = true := by decide +kernel
            exact toBool_iff_eq_ok.mp (htrue r hr)
          have hsame := h network shuffled p p' hvalid (by decide) shuffled_perm hp hp'
          have hleft : p.components.map (·.strandedParent) = [none, some "a"] :=
            Option.some.inj hok
          have hright : p'.components.map (·.strandedParent) = [none, some "b"] :=
            Option.some.inj hok'
          rw [hleft, hright] at hsame
          exact absurd hsame (by decide)

end Concrete

end Cawala
