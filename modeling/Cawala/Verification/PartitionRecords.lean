import Cawala.Library.Except
import Cawala.Library.TreeMap
import Cawala.Model.Partition

/-! # What the records of a network say

Which nodes and edges a list of records declares, read off the records without their order, and
the two gathering passes that compute it: they succeed exactly on consistent records, and what
they gather is what the records declare. -/

namespace Cawala

open Library
open Std (ExtTreeMap ExtTreeSet)

/-! ## What records declare -/

def HoldsRecord (records : List NodeRecord) (id : NodeId) : Prop :=
  id ∈ records.map (·.nodeId)

/-- The node's own record names this parent and slot. -/
def OwnLink (records : List NodeRecord) (child : NodeId) (edge : NodeId × UInt8) : Prop :=
  ∃ r ∈ records, r.nodeId = child
    ∧ r.parent.map (fun parent => (parent.parentId, parent.slot)) = some edge

def ListedAt (rows : List (NodeId × ChildEntry)) (child : NodeId) (edge : NodeId × UInt8) : Prop :=
  ∃ row ∈ rows, row.2.childId = child ∧ (row.1, row.2.slot) = edge

/-- The edges: a node with a record decides itself, another one is where it is listed. -/
def DeclaresEdge (records : List NodeRecord) (rows : List (NodeId × ChildEntry)) (child : NodeId)
    (edge : NodeId × UInt8) : Prop :=
  OwnLink records child edge ∨ ¬ HoldsRecord records child ∧ ListedAt rows child edge

/-- The nodes: record holders are nodes, and children are what their rows say. -/
def DeclaresNode (records : List NodeRecord) (rows : List (NodeId × ChildEntry)) (id : NodeId)
    (kind : ChildKind) : Prop :=
  HoldsRecord records id ∧ kind = .node ∨ ∃ row ∈ rows, row.2.childId = id ∧ row.2.kind = kind

def Contradicted (records : List NodeRecord) (row : NodeId × ChildEntry) : Prop :=
  HoldsRecord records row.2.childId ∧ ¬ OwnLink records row.2.childId (row.1, row.2.slot)

def allRows (records : List NodeRecord) : List (NodeId × ChildEntry) :=
  records.flatMap NodeRecord.rows

instance (records : List NodeRecord) (id : NodeId) : Decidable (HoldsRecord records id) :=
  inferInstanceAs (Decidable (id ∈ records.map (·.nodeId)))

instance (records : List NodeRecord) (child : NodeId) (edge : NodeId × UInt8) :
    Decidable (OwnLink records child edge) :=
  inferInstanceAs (Decidable (∃ r ∈ records, r.nodeId = child
    ∧ r.parent.map (fun parent => (parent.parentId, parent.slot)) = some edge))

instance (records : List NodeRecord) (row : NodeId × ChildEntry) :
    Decidable (Contradicted records row) :=
  inferInstanceAs (Decidable (_ ∧ ¬ _))

/-- Records from which one forest can be read: slots are octal digits, and no node has two kinds
or two places. -/
structure Consistent (records : List NodeRecord) : Prop where
  parentSlots : ∀ child edge, OwnLink records child edge → edge.2 ≤ maxSlot
  childSlots : ∀ row ∈ allRows records, row.2.slot ≤ maxSlot
  kinds : ∀ id kind kind', DeclaresNode records (allRows records) id kind →
    DeclaresNode records (allRows records) id kind' → kind = kind'
  edges : ∀ child edge edge', DeclaresEdge records (allRows records) child edge →
    DeclaresEdge records (allRows records) child edge' → edge = edge'

section Permutations

variable {records records' : List NodeRecord}

theorem holdsRecord_perm (h : records.Perm records') :
    HoldsRecord records = HoldsRecord records' := by
  funext id
  exact propext (h.map _).mem_iff

theorem ownLink_perm (h : records.Perm records') : OwnLink records = OwnLink records' := by
  funext child edge
  simp only [OwnLink, h.mem_iff]

theorem allRows_perm (h : records.Perm records') : (allRows records).Perm (allRows records') :=
  h.flatMap_right _

theorem declaresEdge_perm (h : records.Perm records') :
    DeclaresEdge records (allRows records) = DeclaresEdge records' (allRows records') := by
  funext child edge
  simp only [DeclaresEdge, ListedAt, holdsRecord_perm h, ownLink_perm h, (allRows_perm h).mem_iff]

theorem declaresNode_perm (h : records.Perm records') :
    DeclaresNode records (allRows records) = DeclaresNode records' (allRows records') := by
  funext id kind
  simp only [DeclaresNode, holdsRecord_perm h, (allRows_perm h).mem_iff]

theorem contradicted_perm (h : records.Perm records') :
    Contradicted records = Contradicted records' := by
  funext row
  simp only [Contradicted, holdsRecord_perm h, ownLink_perm h]

theorem Consistent.perm (hc : Consistent records) (h : records.Perm records') :
    Consistent records' where
  parentSlots := ownLink_perm h ▸ hc.parentSlots
  childSlots := by
    intro row hrow
    exact hc.childSlots row ((allRows_perm h).mem_iff.mpr hrow)
  kinds := declaresNode_perm h ▸ hc.kinds
  edges := declaresEdge_perm h ▸ hc.edges

end Permutations

/-! ## Prefixes of the passes -/

section Prefixes

variable {records : List NodeRecord} {rows : List (NodeId × ChildEntry)}

theorem holdsRecord_append (r : NodeRecord) (id : NodeId) :
    HoldsRecord (records ++ [r]) id ↔ HoldsRecord records id ∨ id = r.nodeId := by
  simp [HoldsRecord]

theorem OwnLink.holdsRecord {child : NodeId} {edge : NodeId × UInt8}
    (h : OwnLink records child edge) : HoldsRecord records child := by
  obtain ⟨r, hr, hid, -⟩ := h
  exact List.mem_map.mpr ⟨r, hr, hid⟩

theorem ownLink_append {r : NodeRecord} (hnew : ¬ HoldsRecord records r.nodeId) (child : NodeId)
    (edge : NodeId × UInt8) :
    OwnLink (records ++ [r]) child edge ↔
      if child = r.nodeId then r.parent.map (fun l => (l.parentId, l.slot)) = some edge
      else OwnLink records child edge := by
  simp only [OwnLink, List.mem_append, List.mem_singleton]
  constructor
  · intro h
    obtain ⟨s, hs, hid, hlink⟩ := h
    rcases hs with hs | rfl
    · have hne : child ≠ r.nodeId := by
        intro heq
        exact hnew (List.mem_map.mpr ⟨s, hs, hid.trans heq⟩)
      rw [if_neg hne]
      exact ⟨s, hs, hid, hlink⟩
    · rw [if_pos hid.symm]
      exact hlink
  · intro h
    split_ifs at h with heq
    · exact ⟨r, Or.inr rfl, heq.symm, h⟩
    · obtain ⟨s, hs, hid, hlink⟩ := h
      exact ⟨s, Or.inl hs, hid, hlink⟩

theorem listedAt_append (row : NodeId × ChildEntry) (child : NodeId) (edge : NodeId × UInt8) :
    ListedAt (rows ++ [row]) child edge ↔
      ListedAt rows child edge ∨ row.2.childId = child ∧ (row.1, row.2.slot) = edge := by
  simp only [ListedAt, List.mem_append, List.mem_singleton]
  constructor
  · intro h
    obtain ⟨s, hs | rfl, hrest⟩ := h
    · exact Or.inl ⟨s, hs, hrest⟩
    · exact Or.inr hrest
  · intro h
    rcases h with ⟨s, hs, hrest⟩ | hrest
    · exact ⟨s, Or.inl hs, hrest⟩
    · exact ⟨row, Or.inr rfl, hrest⟩

theorem declaresNode_append (row : NodeId × ChildEntry) (id : NodeId) (kind : ChildKind) :
    DeclaresNode records (rows ++ [row]) id kind ↔
      DeclaresNode records rows id kind ∨ row.2.childId = id ∧ row.2.kind = kind := by
  simp only [DeclaresNode, List.mem_append, List.mem_singleton, or_assoc]
  refine or_congr_right ?_
  constructor
  · intro h
    obtain ⟨s, hs | rfl, hrest⟩ := h
    · exact Or.inl ⟨s, hs, hrest⟩
    · exact Or.inr hrest
  · intro h
    rcases h with ⟨s, hs, hrest⟩ | hrest
    · exact ⟨s, Or.inl hs, hrest⟩
    · exact ⟨row, Or.inr rfl, hrest⟩

theorem declaresEdge_append (row : NodeId × ChildEntry) (child : NodeId) (edge : NodeId × UInt8) :
    DeclaresEdge records (rows ++ [row]) child edge ↔ DeclaresEdge records rows child edge
      ∨ ¬ HoldsRecord records child ∧ row.2.childId = child ∧ (row.1, row.2.slot) = edge := by
  simp only [DeclaresEdge, listedAt_append, and_or_left, or_assoc]

theorem declaresEdge_iff_ownLink {child : NodeId} (h : HoldsRecord records child)
    (edge : NodeId × UInt8) :
    DeclaresEdge records rows child edge ↔ OwnLink records child edge := by
  simp [DeclaresEdge, h]

theorem declaresEdge_iff_listedAt {child : NodeId} (h : ¬ HoldsRecord records child)
    (edge : NodeId × UInt8) : DeclaresEdge records rows child edge ↔ ListedAt rows child edge := by
  have hown : ¬ OwnLink records child edge := fun hown => h hown.holdsRecord
  simp [DeclaresEdge, h, hown]

theorem fresh_of_nodup {d : List NodeRecord} {r : NodeRecord} {rest : List NodeRecord}
    (h : ((d ++ r :: rest).map (·.nodeId)).Nodup) : ¬ HoldsRecord d r.nodeId := by
  intro hrec
  rw [List.map_append, List.nodup_append'] at h
  exact h.2.2 hrec (by simp)

end Prefixes

/-! ## The passes -/

def NodeBuilder.blank (kind : ChildKind) : NodeBuilder := { kind, parent := none, children := ∅ }

theorem ensureNode_lookup {nodes nodes' : Builders} {id : NodeId} {kind : ChildKind}
    (hblank : ∀ builder, nodes[id]? = some builder → builder = .blank builder.kind)
    (h : ensureNode nodes id kind = .ok nodes') (x : NodeId) (builder : NodeBuilder) :
    nodes'[x]? = some builder ↔ nodes[x]? = some builder ∨ x = id ∧ builder = .blank kind := by
  unfold ensureNode at h
  cases hget : nodes[id]? with
  | some existing =>
      rw [hget] at h
      simp only [ite_error_eq_ok, ne_eq, not_not, Except.ok.injEq] at h
      obtain ⟨hkind, rfl⟩ := h
      constructor
      · exact Or.inl
      · intro h
        rcases h with h | ⟨rfl, rfl⟩
        · exact h
        · rw [hget, hblank existing hget, hkind]
  | none =>
      rw [hget] at h
      simp only [Except.ok.injEq] at h
      subst h
      rw [ExtTreeMap.getElem?_insert]
      by_cases hx : id = x
      · subst hx
        simp [hget, NodeBuilder.blank, eq_comm]
      · simp [hx, Ne.symm hx]

theorem ensureNode_exists {nodes : Builders} {id : NodeId} {kind : ChildKind}
    (h : ∀ builder, nodes[id]? = some builder → builder.kind = kind) :
    ∃ nodes', ensureNode nodes id kind = .ok nodes' := by
  unfold ensureNode
  cases hget : nodes[id]? with
  | some builder => exact ⟨nodes, if_neg (not_not.mpr (h builder hget))⟩
  | none => exact ⟨_, rfl⟩

section Passes

variable [Crypto] {records : List NodeRecord} {rows : List (NodeId × ChildEntry)}

def staleFindings (records : List NodeRecord) (rows : List (NodeId × ChildEntry)) : List Finding :=
  (rows.filter fun row => decide (Contradicted records row)).map fun row =>
    .staleChildLink row.1 row.2.childId

/-- The passes hold what the records and the rows read so far declare. -/
structure Gathers (records : List NodeRecord) (rows : List (NodeId × ChildEntry)) (g : Gathered) :
    Prop where
  nodes : ∀ id builder, g.nodes[id]? = some builder ↔
    ∃ kind, DeclaresNode records rows id kind ∧ builder = .blank kind
  links : ∀ child edge, g.links[child]? = some edge ↔ DeclaresEdge records rows child edge
  findings : g.findings = staleFindings records rows

theorem Gathers.blank {g : Gathered} (hg : Gathers records rows g) {id : NodeId}
    {builder : NodeBuilder} (h : g.nodes[id]? = some builder) : builder = .blank builder.kind := by
  obtain ⟨kind, -, rfl⟩ := (hg.nodes id builder).mp h
  rfl

/-! ### The records -/

theorem gatherRecord_gathers {g g' : Gathered} {r : NodeRecord} (hg : Gathers records [] g)
    (hnew : ¬ HoldsRecord records r.nodeId) (h : gatherRecord g r = .ok g') :
    Gathers (records ++ [r]) [] g' := by
  simp only [gatherRecord, bind_eq_ok] at h
  obtain ⟨nodes, hnodes, hparent⟩ := h
  have hlookup := ensureNode_lookup (fun builder => hg.blank) hnodes
  have hdeclares : ∀ id builder, nodes[id]? = some builder ↔
      ∃ kind, DeclaresNode (records ++ [r]) [] id kind ∧ builder = .blank kind := by
    intro id builder
    rw [hlookup, hg.nodes]
    simp only [DeclaresNode, holdsRecord_append, List.not_mem_nil, false_and, exists_false,
      or_false]
    constructor
    · intro h
      rcases h with ⟨kind, ⟨hrec, hkind⟩, hb⟩ | ⟨hid, hb⟩
      · exact ⟨kind, ⟨Or.inl hrec, hkind⟩, hb⟩
      · exact ⟨.node, ⟨Or.inr hid, rfl⟩, hb⟩
    · intro h
      obtain ⟨kind, ⟨hrec | hid, hkind⟩, hb⟩ := h
      · exact Or.inl ⟨kind, ⟨hrec, hkind⟩, hb⟩
      · exact Or.inr ⟨hid, hkind ▸ hb⟩
  have hedges : ∀ child edge, DeclaresEdge (records ++ [r]) [] child edge ↔
      if child = r.nodeId then r.parent.map (fun l => (l.parentId, l.slot)) = some edge
      else g.links[child]? = some edge := by
    intro child edge
    rw [hg.links]
    simp only [DeclaresEdge, ListedAt, List.not_mem_nil, false_and, exists_false, and_false,
      or_false]
    exact ownLink_append hnew child edge
  have hfindings : g.findings = staleFindings (records ++ [r]) [] := hg.findings
  cases hlink : r.parent with
  | none =>
      rw [hlink] at hparent
      obtain rfl := pure_eq_ok.mp hparent
      refine ⟨hdeclares, ?_, hfindings⟩
      intro child edge
      rw [hedges, hlink]
      split_ifs with heq
      · -- no earlier record is of this node, so it has no link yet
        refine iff_of_false ?_ (by simp)
        rw [hg.links, heq]
        intro hedge
        rcases hedge with hown | ⟨-, row, hrow, -⟩
        · exact hnew hown.holdsRecord
        · cases hrow
      · rfl
  | some parent =>
      rw [hlink] at hparent
      simp only [ite_error_eq_ok, pure_eq_ok] at hparent
      obtain ⟨-, rfl⟩ := hparent
      refine ⟨hdeclares, ?_, hfindings⟩
      intro child edge
      rw [hedges, hlink, ExtTreeMap.getElem?_insert]
      by_cases heq : r.nodeId = child
      · simp [heq]
      · simp [heq, Ne.symm heq]

theorem gatherRecord_slot {g g' : Gathered} {r : NodeRecord} (h : gatherRecord g r = .ok g')
    {parent : ParentLink} (hlink : r.parent = some parent) : parent.slot ≤ maxSlot := by
  simp only [gatherRecord, hlink, bind_eq_ok, ite_error_eq_ok] at h
  obtain ⟨nodes, -, hslot, -⟩ := h
  exact UInt8.not_lt.mp hslot

theorem gatherRecord_exists {g : Gathered} {r : NodeRecord} (hg : Gathers records [] g)
    (hslot : ∀ parent, r.parent = some parent → parent.slot ≤ maxSlot) :
    ∃ g', gatherRecord g r = .ok g' := by
  have hkind : ∀ builder, g.nodes[r.nodeId]? = some builder → builder.kind = .node := by
    intro builder hget
    obtain ⟨kind, hdecl, rfl⟩ := (hg.nodes _ _).mp hget
    rcases hdecl with ⟨-, hkind⟩ | ⟨row, hrow, -⟩
    · exact hkind
    · cases hrow
  obtain ⟨nodes, hnodes⟩ := ensureNode_exists hkind
  simp only [gatherRecord, bind_eq_ok]
  cases hlink : r.parent with
  | none => exact ⟨_, nodes, hnodes, rfl⟩
  | some parent =>
      refine ⟨_, nodes, hnodes, if_neg ?_⟩
      exact UInt8.not_lt.mpr (hslot parent hlink)

/-! ### The rows -/

theorem staleFindings_append (row : NodeId × ChildEntry) :
    staleFindings records (rows ++ [row]) = staleFindings records rows
      ++ if Contradicted records row then [.staleChildLink row.1 row.2.childId] else [] := by
  simp only [staleFindings, List.filter_append, List.map_append]
  congr 1
  split_ifs with h
  · simp [h]
  · simp [h]

theorem gatherRow_gathers {g g' : Gathered} {row : NodeId × ChildEntry}
    (hg : Gathers records rows g) (h : gatherRow (records.map (·.nodeId)) g row = .ok g') :
    Gathers records (rows ++ [row]) g' := by
  simp only [gatherRow, ite_error_eq_ok, bind_eq_ok] at h
  obtain ⟨-, nodes, hnodes, hrest⟩ := h
  have hlookup := ensureNode_lookup (fun builder => hg.blank) hnodes
  have hdeclares : ∀ id builder, nodes[id]? = some builder ↔
      ∃ kind, DeclaresNode records (rows ++ [row]) id kind ∧ builder = .blank kind := by
    intro id builder
    simp only [hlookup, hg.nodes, declaresNode_append]
    constructor
    · intro h
      rcases h with ⟨kind, hdecl, hb⟩ | ⟨hid, hb⟩
      · exact ⟨kind, Or.inl hdecl, hb⟩
      · exact ⟨_, Or.inr ⟨hid.symm, rfl⟩, hb⟩
    · intro h
      obtain ⟨kind, hdecl | ⟨hid, hkind⟩, hb⟩ := h
      · exact Or.inl ⟨kind, hdecl, hb⟩
      · exact Or.inr ⟨hid.symm, hkind ▸ hb⟩
  by_cases hrec : row.2.childId ∈ records.map (·.nodeId)
  · -- the child decides itself
    have hlinks : ∀ child edge, g.links[child]? = some edge ↔
        DeclaresEdge records (rows ++ [row]) child edge := by
      intro child edge
      rw [hg.links, declaresEdge_append]
      refine (or_iff_left ?_).symm
      intro hnot
      obtain ⟨hno, rfl, -⟩ := hnot
      exact hno hrec
    have hown := (hg.links row.2.childId (row.1, row.2.slot)).trans
      (declaresEdge_iff_ownLink hrec _)
    rw [if_pos hrec] at hrest
    split_ifs at hrest with hagrees
    · obtain rfl := pure_eq_ok.mp hrest
      refine ⟨hdeclares, hlinks, ?_⟩
      have hagree : ¬ Contradicted records row := fun hc => hc.2 (hown.mp hagrees)
      rw [staleFindings_append, if_neg hagree, List.append_nil]
      exact hg.findings
    · obtain rfl := pure_eq_ok.mp hrest
      refine ⟨hdeclares, hlinks, ?_⟩
      have hstale : Contradicted records row := ⟨hrec, fun h => hagrees (hown.mpr h)⟩
      rw [staleFindings_append, if_pos hstale, ← hg.findings]
  · have hagree : ¬ Contradicted records row := fun hc => hrec hc.1
    have hfindings : g.findings = staleFindings records (rows ++ [row]) := by
      rw [staleFindings_append, if_neg hagree, List.append_nil]
      exact hg.findings
    rw [if_neg hrec] at hrest
    cases hget : g.links[row.2.childId]? with
    | some existing =>
        rw [hget] at hrest
        simp only [ite_error_eq_ok, ne_eq, not_not, pure_eq_ok] at hrest
        obtain ⟨hsame, rfl⟩ := hrest
        refine ⟨hdeclares, ?_, hfindings⟩
        intro child edge
        rw [hg.links, declaresEdge_append]
        refine (or_iff_left_of_imp ?_).symm
        intro hrow
        obtain ⟨-, rfl, rfl⟩ := hrow
        exact (hg.links _ _).mp (hsame ▸ hget)
    | none =>
        rw [hget] at hrest
        obtain rfl := pure_eq_ok.mp hrest
        refine ⟨hdeclares, ?_, hfindings⟩
        intro child edge
        rw [declaresEdge_append, ← hg.links, ExtTreeMap.getElem?_insert]
        by_cases heq : row.2.childId = child
        · subst heq
          have hno : ¬ HoldsRecord records row.2.childId := hrec
          simp [hno, hget]
        · simp [heq]

theorem gatherRow_exists {g : Gathered} {row : NodeId × ChildEntry} (hc : Consistent records)
    (hsub : rows ⊆ allRows records) (hrow : row ∈ allRows records) (hg : Gathers records rows g) :
    ∃ g', gatherRow (records.map (·.nodeId)) g row = .ok g' := by
  have hkind : ∀ builder, g.nodes[row.2.childId]? = some builder → builder.kind = row.2.kind := by
    intro builder hget
    obtain ⟨kind, hdecl, rfl⟩ := (hg.nodes _ _).mp hget
    refine hc.kinds row.2.childId kind row.2.kind ?_ (Or.inr ⟨row, hrow, rfl, rfl⟩)
    rcases hdecl with hrec | ⟨other, hother, hrest⟩
    · exact Or.inl hrec
    · exact Or.inr ⟨other, hsub hother, hrest⟩
  obtain ⟨nodes, hnodes⟩ := ensureNode_exists hkind
  have hslot : ¬ row.2.slot > maxSlot := UInt8.not_lt.mpr (hc.childSlots row hrow)
  simp only [gatherRow, if_neg hslot, bind_eq_ok]
  by_cases hrec : row.2.childId ∈ records.map (·.nodeId)
  · simp only [if_pos hrec]
    split_ifs
    · exact ⟨_, nodes, hnodes, rfl⟩
    · exact ⟨_, nodes, hnodes, rfl⟩
  · simp only [if_neg hrec]
    cases hget : g.links[row.2.childId]? with
    | none => exact ⟨_, nodes, hnodes, rfl⟩
    | some existing =>
        have hplaced : DeclaresEdge records (allRows records) row.2.childId existing := by
          rcases (hg.links _ _).mp hget with hown | ⟨hno, other, hother, hrest⟩
          · exact Or.inl hown
          · exact Or.inr ⟨hno, other, hsub hother, hrest⟩
        have hsame := hc.edges _ existing (row.1, row.2.slot) hplaced
          (Or.inr ⟨hrec, row, hrow, rfl, rfl⟩)
        exact ⟨_, nodes, hnodes, if_neg (not_not.mpr hsame)⟩

/-! ### Both passes -/

theorem gathers_empty : Gathers [] [] { nodes := ∅, links := ∅, findings := [] } where
  nodes := by simp [DeclaresNode, HoldsRecord]
  links := by simp [DeclaresEdge, OwnLink, ListedAt]
  findings := rfl

theorem gather_spec {g : Gathered} (hnodup : (records.map (·.nodeId)).Nodup)
    (h : gather records = .ok g) : Consistent records ∧ Gathers records (allRows records) g := by
  simp only [gather, bind_eq_ok] at h
  obtain ⟨first, hfirst, hsecond⟩ := h
  have hrecords : (records.map (·.nodeId)).Nodup → Gathers records [] first
      ∧ ∀ child edge, OwnLink records child edge → edge.2 ≤ maxSlot := by
    refine foldlM_induction (P := fun d g => (d.map (·.nodeId)).Nodup → Gathers d [] g
      ∧ ∀ child edge, OwnLink d child edge → edge.2 ≤ maxSlot) ?_ (d := []) ?_ hfirst
    · intro d r s s' ih hstep hnodup
      have hnew := fresh_of_nodup hnodup
      obtain ⟨hg, hslots⟩ := ih (by rw [List.map_append] at hnodup; exact hnodup.of_append_left)
      refine ⟨gatherRecord_gathers hg hnew hstep, ?_⟩
      intro child edge hlink
      rw [ownLink_append hnew] at hlink
      split_ifs at hlink
      · obtain ⟨parent, hparent, rfl⟩ := Option.map_eq_some_iff.mp hlink
        exact gatherRecord_slot hstep hparent
      · exact hslots child edge hlink
    · intro _
      refine ⟨gathers_empty, ?_⟩
      intro child edge hlink
      obtain ⟨r, hr, -⟩ := hlink
      cases hr
  obtain ⟨hg₁, hparentSlots⟩ := hrecords hnodup
  have hg : Gathers records (allRows records) g :=
    foldlM_induction (P := fun d g => Gathers records d g) (d := [])
      (fun d row s s' hg hstep => gatherRow_gathers hg hstep) hg₁ hsecond
  refine ⟨⟨hparentSlots, ?_, ?_, ?_⟩, hg⟩
  · intro row hrow
    obtain ⟨s, s', hstep⟩ := foldlM_step_of_mem hsecond hrow
    simp only [gatherRow, ite_error_eq_ok] at hstep
    exact UInt8.not_lt.mp hstep.1
  · intro id kind kind' hkind hkind'
    have h₁ := (hg.nodes id _).mpr ⟨kind, hkind, rfl⟩
    have h₂ := (hg.nodes id _).mpr ⟨kind', hkind', rfl⟩
    exact congrArg NodeBuilder.kind (Option.some.inj (h₁.symm.trans h₂))
  · intro child edge edge' hedge hedge'
    have h₁ := (hg.links child edge).mpr hedge
    have h₂ := (hg.links child edge').mpr hedge'
    exact Option.some.inj (h₁.symm.trans h₂)

theorem gather_exists (hnodup : (records.map (·.nodeId)).Nodup) (hc : Consistent records) :
    ∃ g, gather records = .ok g := by
  obtain ⟨first, hfirst, hg₁⟩ := foldlM_exists_of_prefix (f := gatherRecord) (l := records)
    (P := fun d g => Gathers d [] g) (s := { nodes := ∅, links := ∅, findings := [] })
    (by
      intro d r rest s hl hg
      subst hl
      have hslot : ∀ parent, r.parent = some parent → parent.slot ≤ maxSlot := by
        intro parent hparent
        refine hc.parentSlots r.nodeId (parent.parentId, parent.slot) ⟨r, by simp, rfl, ?_⟩
        rw [hparent]
        rfl
      obtain ⟨s', hstep⟩ := gatherRecord_exists hg hslot
      exact ⟨s', hstep, gatherRecord_gathers hg (fresh_of_nodup hnodup) hstep⟩) gathers_empty
  obtain ⟨g, hsecond, -⟩ := foldlM_exists_of_prefix
    (f := gatherRow (records.map (·.nodeId))) (l := allRows records)
    (P := fun d g => Gathers records d g) (s := first)
    (by
      intro d row rest s hl hg
      have hrow : row ∈ allRows records := by simp [hl]
      obtain ⟨s', hstep⟩ := gatherRow_exists hc (hl ▸ List.subset_append_left _ _) hrow hg
      exact ⟨s', hstep, gatherRow_gathers hg hstep⟩) hg₁
  exact ⟨g, bind_eq_ok.mpr ⟨first, hfirst, hsecond⟩⟩

/-- Permuted records are gathered alike, but for the order of the findings. -/
theorem gather_perm {records' : List NodeRecord} {g : Gathered}
    (hnodup : (records.map (·.nodeId)).Nodup) (hperm : records.Perm records')
    (h : gather records = .ok g) :
    ∃ g', gather records' = .ok g' ∧ g'.nodes = g.nodes ∧ g'.links = g.links
      ∧ g'.findings.Perm g.findings := by
  have hnodup' := (hperm.map (·.nodeId)).nodup_iff.mp hnodup
  obtain ⟨hc, hg⟩ := gather_spec hnodup h
  obtain ⟨g', h'⟩ := gather_exists hnodup' (hc.perm hperm)
  obtain ⟨-, hg'⟩ := gather_spec hnodup' h'
  refine ⟨g', h', ?_, ?_, ?_⟩
  · apply ExtTreeMap.ext_getElem?
    intro id
    apply Option.ext
    intro builder
    rw [hg.nodes, hg'.nodes, declaresNode_perm hperm]
  · apply ExtTreeMap.ext_getElem?
    intro child
    apply Option.ext
    intro edge
    rw [hg.links, hg'.links, declaresEdge_perm hperm]
  · rw [hg.findings, hg'.findings]
    simp only [staleFindings, contradicted_perm hperm]
    exact (((allRows_perm hperm).filter _).map _).symm

end Passes

end Cawala
