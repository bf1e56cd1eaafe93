import Cawala.Library.Classes
import Cawala.Verification.PartitionRecords
import Cawala.Verification.TopologyEdit

/-! # The components of the audit partition

The links entered in both of their ends, the groups of connected nodes whatever the order in
which the nodes are met, and the topology built of each group. -/

namespace Cawala

open Library
open Std (ExtTreeMap ExtTreeSet)

/-! ## Entering the links -/

section Links

variable {before nodes nodes' : Builders}
  {entered : List (NodeId × NodeId × UInt8)} {link : NodeId × NodeId × UInt8}

/-- What one link changes: the parent of its child, and the slots of its parent. -/
def withLink (link : NodeId × NodeId × UInt8) (id : NodeId) (builder : NodeBuilder) :
    NodeBuilder where
  kind := builder.kind
  parent := if id = link.1 then some link.2 else builder.parent
  children :=
    if id = link.2.1 then builder.children.insert link.2.2 else builder.children

theorem applyLink_lookup (h : applyLink nodes link = .ok nodes') (id : NodeId) :
    nodes'[id]? = nodes[id]?.map (withLink link id) := by
  unfold applyLink at h
  cases hchild : nodes[link.1]? with
  | none =>
      rw [hchild] at h
      cases h
  | some builder =>
      rw [hchild] at h
      simp only [ite_error_eq_ok] at h
      obtain ⟨-, h⟩ := h
      generalize hmid : nodes.insert link.1 { builder with parent := some link.2 } = mid at h
      have hlookup : mid[id]? = nodes[id]?.map fun b =>
          { b with parent := if id = link.1 then some link.2 else b.parent } := by
        rw [← hmid, ExtTreeMap.getElem?_insert]
        by_cases hid : link.1 = id
        · subst hid
          simp [hchild]
        · simp [hid, Ne.symm hid]
      cases hparent : mid[link.2.1]? with
      | none =>
          rw [hparent] at h
          cases h
      | some parent =>
          rw [hparent] at h
          simp only [Except.ok.injEq] at h
          subst h
          rw [ExtTreeMap.getElem?_insert]
          by_cases hid : link.2.1 = id
          · subst hid
            rw [hparent] at hlookup
            obtain ⟨b, hb, rfl⟩ := Option.map_eq_some_iff.mp hlookup.symm
            simp [hb, withLink]
          · simp only [compare_eq_iff_eq, hid, if_false, hlookup]
            congr 1
            funext b
            simp [withLink, Ne.symm hid]

/-- The nodes before, with the links entered so far. -/
structure Entered (before : Builders) (entered : List (NodeId × NodeId × UInt8))
    (nodes : Builders) : Prop where
  kind : ∀ id : NodeId, nodes[id]?.map NodeBuilder.kind = before[id]?.map NodeBuilder.kind
  parent : ∀ (id : NodeId) builder, nodes[id]? = some builder →
    ∀ edge, builder.parent = some edge ↔ (id, edge) ∈ entered
  children : ∀ (id : NodeId) builder, nodes[id]? = some builder →
    ∀ slot, slot ∈ builder.children ↔ ∃ child, (child, id, slot) ∈ entered

theorem applyLink_entered (he : Entered before entered nodes)
    (hnew : link.1 ∉ entered.map (·.1)) (h : applyLink nodes link = .ok nodes') :
    Entered before (entered ++ [link]) nodes' := by
  have hlookup := applyLink_lookup h
  refine ⟨?_, ?_, ?_⟩
  · intro id
    rw [hlookup, Option.map_map, ← he.kind]
    rfl
  · intro id builder hget edge
    rw [hlookup] at hget
    obtain ⟨b, hb, rfl⟩ := Option.map_eq_some_iff.mp hget
    rw [withLink, List.mem_append, List.mem_singleton]
    by_cases hid : id = link.1
    · subst hid
      have hno : (link.1, edge) ∉ entered := fun hmem =>
        hnew (List.mem_map.mpr ⟨_, hmem, rfl⟩)
      have hedge : (link.1, edge) = link ↔ link.2 = edge := by
        rw [Prod.ext_iff, eq_comm (a := edge)]
        exact and_iff_right rfl
      simp only [if_true, hno, false_or, Option.some.injEq, hedge]
    · have hne : (id, edge) ≠ link := fun heq => hid (congrArg Prod.fst heq)
      simp only [if_neg hid, hne, or_false]
      exact he.parent id b hb edge
  · intro id builder hget slot
    rw [hlookup] at hget
    obtain ⟨b, hb, rfl⟩ := Option.map_eq_some_iff.mp hget
    simp only [withLink, List.mem_append, List.mem_singleton, exists_or]
    rw [← he.children id b hb slot]
    obtain ⟨child, parent, s⟩ := link
    by_cases hid : id = parent
    · subst hid
      simp only [if_true, ExtTreeSet.mem_insert, Prod.mk.injEq, true_and, exists_eq_left]
      have hsame : compare s slot = .eq ↔ slot = s := by
        rw [Std.compare_eq_iff_eq, eq_comm]
      rw [hsame, or_comm]
    · simp [hid]

theorem applyLinks_entered {links : ChildLinks}
    (hblank : ∀ (id : NodeId) builder, before[id]? = some builder →
      builder = .blank builder.kind)
    (h : links.toList.foldlM applyLink before = .ok nodes) :
    Entered before links.toList nodes := by
  have hnodup : (links.toList.map (·.1)).Nodup := by
    rw [ExtTreeMap.map_fst_toList_eq_keys]
    exact ExtTreeMap.nodup_keys
  have hstart : Entered before [] before := by
    refine ⟨fun id => rfl, ?_, ?_⟩
    · intro id builder hget edge
      rw [hblank id builder hget]
      simp [NodeBuilder.blank]
    · intro id builder hget slot
      rw [hblank id builder hget]
      simp [NodeBuilder.blank]
  refine foldlM_induction (P := fun d nodes => (d.map (·.1)).Nodup → Entered before d nodes) ?_
    (d := []) (fun _ => hstart) h hnodup
  intro d link s s' ih hstep hnodup
  rw [List.map_append, List.nodup_append'] at hnodup
  refine applyLink_entered (ih hnodup.1) ?_ hstep
  intro hmem
  exact hnodup.2.2 hmem (by simp)

end Links

/-! ## Groups of connected nodes -/

section Groups

variable {ids : List NodeId} {links : ChildLinks} {u : UnionFind}

/-- Links lead from one node to the other, in whichever direction. -/
def Connected (links : ChildLinks) : NodeId → NodeId → Prop :=
  Relation.EqvGen fun child parent => ∃ slot : UInt8, links[child]? = some (parent, slot)

def LinksWithin (ids : List NodeId) (links : ChildLinks) : Prop :=
  ∀ child edge, links[child]? = some edge → child ∈ ids ∧ edge.1 ∈ ids

theorem eqvGen_positions (hwithin : LinksWithin ids links) {a b : NodeId} (ha : a ∈ ids)
    (hb : b ∈ ids) :
    Relation.EqvGen (fun i j =>
        (i, j) ∈ links.toList.map fun link => (ids.idxOf link.1, ids.idxOf link.2.1))
      (ids.idxOf a) (ids.idxOf b) ↔ Connected links a b := by
  constructor
  · intro h
    have hget : ∀ x ∈ ids, (ids[ids.idxOf x]?).getD x = x := by
      intro x hx
      rw [List.getElem?_idxOf hx]
      rfl
    have hgen : ∀ i j, Relation.EqvGen (fun i j =>
          (i, j) ∈ links.toList.map fun link => (ids.idxOf link.1, ids.idxOf link.2.1)) i j →
        Connected links ((ids[i]?).getD a) ((ids[j]?).getD a) := by
      intro i j hij
      induction hij with
      | rel i j hij =>
          obtain ⟨⟨child, parent, slot⟩, hmem, heq⟩ := List.mem_map.mp hij
          obtain ⟨rfl, rfl⟩ := Prod.mk.inj heq
          have hlink := ExtTreeMap.mem_toList_iff_getElem?_eq_some.mp hmem
          obtain ⟨hchild, hparent⟩ := hwithin child (parent, slot) hlink
          rw [List.getElem?_idxOf hchild, List.getElem?_idxOf hparent]
          exact Relation.EqvGen.rel _ _ ⟨slot, hlink⟩
      | refl i => exact Relation.EqvGen.refl _
      | symm i j _ ih => exact ih.symm
      | trans i j k _ _ ih ih' => exact ih.trans _ _ _ ih'
    have hab := hgen _ _ h
    rwa [List.getElem?_idxOf ha, List.getElem?_idxOf hb] at hab
  · intro h
    clear ha hb
    induction h with
    | rel child parent hlink =>
        obtain ⟨slot, hlink⟩ := hlink
        apply Relation.EqvGen.rel
        exact List.mem_map.mpr
          ⟨(child, parent, slot), ExtTreeMap.mem_toList_iff_getElem?_eq_some.mpr hlink, rfl⟩
    | refl x => exact Relation.EqvGen.refl _
    | symm x y _ ih => exact ih.symm
    | trans x y z _ _ ih ih' => exact ih.trans _ _ _ ih'

/-- The union-find joins the connected nodes. -/
theorem connectLinks_spec (hwithin : LinksWithin ids links) :
    (connectLinks ids links).Valid
      ∧ ∀ a ∈ ids, ∀ b ∈ ids, (connectLinks ids links).root (ids.idxOf a)
        = (connectLinks ids links).root (ids.idxOf b) ↔ Connected links a b := by
  have hbound : ∀ l ∈ links.toList.map fun link => (ids.idxOf link.1, ids.idxOf link.2.1),
      l.1 < ids.length ∧ l.2 < ids.length := by
    intro l hl
    obtain ⟨⟨child, parent, slot⟩, hmem, rfl⟩ := List.mem_map.mp hl
    obtain ⟨hchild, hparent⟩ :=
      hwithin child (parent, slot) (ExtTreeMap.mem_toList_iff_getElem?_eq_some.mp hmem)
    exact ⟨List.idxOf_lt_length_iff.mpr hchild, List.idxOf_lt_length_iff.mpr hparent⟩
  obtain ⟨hvalid, -, hroots⟩ := UnionFind.connect_spec ids.length _ hbound
  refine ⟨hvalid, ?_⟩
  intro a ha b hb
  exact (hroots _ _).trans (eqvGen_positions hwithin ha hb)

def blockOf (u : UnionFind) (met : List (NodeId × ℕ)) (r : ℕ) : List NodeId :=
  (met.filter fun entry => decide (u.root entry.2 = r)).map (·.1)

/-- The ids met so far are grouped by their roots, which the searches leave alone. -/
structure Grouped (u : UnionFind) (met : List (NodeId × ℕ))
    (s : UnionFind × ExtTreeMap ℕ (List NodeId)) : Prop where
  valid : s.1.Valid
  root : ∀ x, s.1.root x = u.root x
  block : ∀ r, s.2.getD r [] = blockOf u met r
  nonempty : ∀ (r : ℕ) members, s.2[r]? = some members → members ≠ []

theorem groupId_grouped {met : List (NodeId × ℕ)} {s : UnionFind × ExtTreeMap ℕ (List NodeId)}
    (hs : Grouped u met s) (entry : NodeId × ℕ) :
    Grouped u (met ++ [entry]) (groupId s entry) := by
  obtain ⟨hfind, hvalid, -, -, hroots⟩ := UnionFind.find_spec hs.valid entry.2
  have hroot : (s.1.find entry.2).1 = u.root entry.2 := hfind.trans (hs.root _)
  have hblock : ∀ r, blockOf u (met ++ [entry]) r
      = blockOf u met r ++ if u.root entry.2 = r then [entry.1] else [] := by
    intro r
    simp only [blockOf, List.filter_append, List.map_append]
    congr 1
    split_ifs with h
    · simp [h]
    · simp [h]
  refine ⟨hvalid, fun x => (hroots x).trans (hs.root x), ?_, ?_⟩
  · intro r
    rw [hblock, ← hs.block]
    simp only [groupId, hroot, ExtTreeMap.getD_insert, compare_eq_iff_eq]
    by_cases hr : u.root entry.2 = r
    · rw [if_pos hr, if_pos hr, hr]
    · rw [if_neg hr, if_neg hr, List.append_nil]
  · intro r members hget
    simp only [groupId, ExtTreeMap.getElem?_insert, compare_eq_iff_eq] at hget
    split_ifs at hget
    · obtain rfl := Option.some.inj hget
      simp
    · exact hs.nonempty r members hget

theorem grouped_foldl (hu : u.Valid) (entries : List (NodeId × ℕ)) :
    Grouped u entries (entries.foldl groupId (u, ∅)) := by
  induction entries using List.reverseRecOn with
  | nil =>
      refine ⟨hu, fun x => rfl, ?_, ?_⟩
      · intro r
        simp [blockOf]
      · intro r members hget
        simp at hget
  | append_singleton entries entry ih =>
      rw [List.foldl_append]
      exact groupId_grouped ih entry

theorem mem_blockOf (hnodup : ids.Nodup) {r : ℕ} {a : NodeId} :
    a ∈ blockOf u ids.zipIdx r ↔ a ∈ ids ∧ u.root (ids.idxOf a) = r := by
  simp only [blockOf, List.mem_map, List.mem_filter, decide_eq_true_eq]
  constructor
  · intro h
    obtain ⟨⟨b, i⟩, ⟨hmem, hroot⟩, rfl⟩ := h
    have hget := List.mk_mem_zipIdx_iff_getElem?.mp hmem
    obtain ⟨hi, hb⟩ := List.getElem?_eq_some_iff.mp hget
    have hpos : ids.idxOf b = i := hb ▸ hnodup.idxOf_getElem i hi
    exact ⟨List.mem_of_getElem? hget, hpos ▸ hroot⟩
  · intro h
    obtain ⟨ha, hroot⟩ := h
    have hget := List.getElem?_idxOf ha
    exact ⟨(a, ids.idxOf a), ⟨List.mk_mem_zipIdx_iff_getElem?.mpr hget, hroot⟩, rfl⟩

theorem nodup_blockOf (hnodup : ids.Nodup) (r : ℕ) : (blockOf u ids.zipIdx r).Nodup := by
  have hsub : (blockOf u ids.zipIdx r).Sublist (ids.zipIdx.map (·.1)) :=
    List.Sublist.map _ List.filter_sublist
  have hids : ids.zipIdx.map (·.1) = ids := List.zipIdx_map_fst 0 ids
  rw [hids] at hsub
  exact hsub.nodup hnodup

theorem groupIds_classes (hnodup : ids.Nodup) (hwithin : LinksWithin ids links) :
    Classes (Connected links) ids (groupIds ids links) := by
  obtain ⟨hvalid, hroots⟩ := connectLinks_spec hwithin
  have hgrouped := grouped_foldl hvalid ids.zipIdx
  unfold groupIds
  generalize ids.zipIdx.foldl groupId (connectLinks ids links, ∅) = s at hgrouped ⊢
  have hmem : ∀ members, members ∈ s.2.toList.map (·.2) → members ≠ [] ∧
      ∃ r, members = blockOf (connectLinks ids links) ids.zipIdx r := by
    intro members hmembers
    obtain ⟨⟨r, l⟩, hl, rfl⟩ := List.mem_map.mp hmembers
    have hget := ExtTreeMap.mem_toList_iff_getElem?_eq_some.mp hl
    refine ⟨hgrouped.nonempty r l hget, r, ?_⟩
    rw [← hgrouped.block, ExtTreeMap.getD_eq_getD_getElem?, hget]
    rfl
  refine ⟨fun c hc => (hmem c hc).1, ?_, ?_, ?_, ?_⟩
  · intro c hc
    obtain ⟨-, r, rfl⟩ := hmem c hc
    exact nodup_blockOf hnodup r
  · intro c hc a ha b
    obtain ⟨-, r, rfl⟩ := hmem c hc
    obtain ⟨haIds, har⟩ := (mem_blockOf hnodup).mp ha
    rw [mem_blockOf hnodup, ← har]
    refine and_congr_right ?_
    intro hb
    exact eq_comm.trans (hroots a haIds b hb)
  · intro a ha
    let r := (connectLinks ids links).root (ids.idxOf a)
    have hblock : a ∈ s.2.getD r [] := by
      rw [hgrouped.block]
      exact (mem_blockOf hnodup).mpr ⟨ha, rfl⟩
    cases hget : s.2[r]? with
    | none =>
        rw [ExtTreeMap.getD_eq_getD_getElem?, hget] at hblock
        cases hblock
    | some members =>
        rw [ExtTreeMap.getD_eq_getD_getElem?, hget] at hblock
        exact ⟨members, List.mem_map.mpr
          ⟨(r, members), ExtTreeMap.mem_toList_iff_getElem?_eq_some.mpr hget, rfl⟩, hblock⟩
  · refine List.pairwise_map.mpr ((ExtTreeMap.distinct_keys_toList).imp_of_mem ?_)
    intro x y hx hy hne
    have hblock : ∀ z ∈ s.2.toList, z.2 = blockOf (connectLinks ids links) ids.zipIdx z.1 := by
      intro z hz
      rw [← hgrouped.block, ExtTreeMap.getD_eq_getD_getElem?,
        ExtTreeMap.mem_toList_iff_getElem?_eq_some.mp hz]
      rfl
    rw [hblock x hx, hblock y hy]
    intro a hax hay
    obtain ⟨-, hrx⟩ := (mem_blockOf hnodup).mp hax
    obtain ⟨-, hry⟩ := (mem_blockOf hnodup).mp hay
    exact hne (compare_eq_iff_eq.mpr (hrx.symm.trans hry))

end Groups

/-! ## The list of components -/

section Components

variable {nodes : Builders} {ids : List NodeId} {links : ChildLinks}
  {components components' : List (NodeId × List NodeId)}

def Parentless (nodes : Builders) (id : NodeId) : Prop :=
  (nodes[id]?).all (fun builder => builder.parent.isNone) = true

structure Components (nodes : Builders) (ids : List NodeId)
    (components : List (NodeId × List NodeId)) : Prop where
  disjoint : components.Pairwise fun c c' => c.2.Disjoint c'.2
  mem : ∀ a, (∃ c ∈ components, a ∈ c.2) ↔ a ∈ ids
  root : ∀ c ∈ components, ∀ a, a ∈ c.2 ∧ Parentless nodes a ↔ a = c.1

theorem componentOf_eq_ok {members : List NodeId} {c : NodeId × List NodeId}
    (h : componentOf nodes members = .ok c) : c.2 = members.insertionSort (· ≤ ·)
      ∧ c.2.filter (fun id => (nodes[id]?).all fun builder => builder.parent.isNone) = [c.1] := by
  unfold componentOf at h
  simp only at h
  split at h
  · rename_i root hroots
    simp only [Except.ok.injEq] at h
    subst h
    exact ⟨rfl, hroots⟩
  · cases h

theorem componentOf_sorted (members : List NodeId) :
    componentOf nodes (members.insertionSort (· ≤ ·)) = componentOf nodes members := by
  unfold componentOf
  rw [insertionSort_eq_of_perm (List.perm_insertionSort _ members)]

theorem components_of_classes {groups : List (List NodeId)}
    (hgroups : Classes (Connected links) ids groups)
    (h : groups.mapM (componentOf nodes) = .ok components) : Components nodes ids components := by
  have hall := mapM_eq_ok_iff_forall₂.mp h
  have hmembers : components.map (·.2) = groups.map (List.insertionSort (· ≤ ·)) := by
    refine (map_eq_of_forall₂ ?_).symm
    exact hall.imp fun members c hc => (componentOf_eq_ok hc).1.symm
  refine ⟨?_, ?_, ?_⟩
  · refine List.pairwise_map.mp ?_
    rw [hmembers]
    refine List.pairwise_map.mpr (hgroups.disjoint.imp ?_)
    intro g g' hdisjoint a ha ha'
    exact hdisjoint ((List.mem_insertionSort _).mp ha) ((List.mem_insertionSort _).mp ha')
  · intro a
    constructor
    · intro h
      obtain ⟨c, hc, ha⟩ := h
      obtain ⟨members, hmem, hok⟩ := exists_of_forall₂_right hall hc
      rw [(componentOf_eq_ok hok).1, List.mem_insertionSort] at ha
      exact ((hgroups.mem_iff members hmem a ha a).mp ha).1
    · intro ha
      obtain ⟨members, hmem, hmembers⟩ := hgroups.cover a ha
      obtain ⟨c, hc, hok⟩ := exists_of_forall₂_left hall hmem
      refine ⟨c, hc, ?_⟩
      rw [(componentOf_eq_ok hok).1]
      exact (List.mem_insertionSort _).mpr hmembers
  · intro c hc a
    obtain ⟨members, -, hok⟩ := exists_of_forall₂_right hall hc
    have hfilter := (componentOf_eq_ok hok).2
    rw [← List.mem_singleton, ← hfilter, List.mem_filter]
    rfl

theorem Components.perm (h : Components nodes ids components)
    (hperm : components.Perm components') : Components nodes ids components' where
  disjoint := hperm.pairwise h.disjoint List.Disjoint.symm
  mem := by
    intro a
    rw [← h.mem]
    simp only [hperm.mem_iff]
  root := by
    intro c hc
    exact h.root c (hperm.mem_iff.mpr hc)

theorem Components.root_mem (h : Components nodes ids components) {c : NodeId × List NodeId}
    (hc : c ∈ components) : c.1 ∈ c.2 :=
  ((h.root c hc c.1).mpr rfl).1

theorem Components.eq_of_root (h : Components nodes ids components) {c c' : NodeId × List NodeId}
    (hc : c ∈ components) (hc' : c' ∈ components) (heq : c.1 = c'.1) : c = c' := by
  have : Std.Symm fun c c' : NodeId × List NodeId => c.2.Disjoint c'.2 :=
    ⟨fun _ _ => List.Disjoint.symm⟩
  by_contra hne
  have hdisjoint := h.disjoint.forall hc hc' hne
  exact hdisjoint (h.root_mem hc) (heq ▸ h.root_mem hc')

instance : IsTrans _ ComponentLe where
  trans := by
    intro a b c hab hbc
    rcases hab with hab | ⟨hab, hle⟩
    · rcases hbc with hbc | ⟨hbc, -⟩
      · exact Or.inl (hbc.trans hab)
      · exact Or.inl (hbc ▸ hab)
    · rcases hbc with hbc | ⟨hbc, hle'⟩
      · exact Or.inl (hab ▸ hbc)
      · exact Or.inr ⟨hab.trans hbc, hle.trans hle'⟩

instance : Std.Total ComponentLe where
  total := by
    intro a b
    rcases lt_trichotomy a.2.length b.2.length with hlt | heq | hlt
    · exact Or.inr (Or.inl hlt)
    · rcases le_total a.1 b.1 with hle | hle
      · exact Or.inl (Or.inr ⟨heq, hle⟩)
      · exact Or.inr (Or.inr ⟨heq.symm, hle⟩)
    · exact Or.inl (Or.inl hlt)

theorem ComponentLe.root_eq {a b : NodeId × List NodeId} (hab : ComponentLe a b)
    (hba : ComponentLe b a) : a.1 = b.1 := by
  rcases hab with hab | ⟨heq, hle⟩
  · rcases hba with hba | ⟨heq, -⟩ <;> omega
  · rcases hba with hba | ⟨-, hle'⟩
    · omega
    · exact le_antisymm hle hle'

/-- Sorting puts the components in one order, as no two have the same root. -/
theorem Components.sort_eq (h : Components nodes ids components)
    (hperm : components.Perm components') :
    components.insertionSort ComponentLe = components'.insertionSort ComponentLe := by
  refine List.Perm.eq_of_pairwise ?_ (List.pairwise_insertionSort ComponentLe _)
    (List.pairwise_insertionSort ComponentLe _) ?_
  · intro a b ha hb hab hba
    exact h.eq_of_root ((List.mem_insertionSort _).mp ha)
      (hperm.mem_iff.mpr ((List.mem_insertionSort _).mp hb)) (hab.root_eq hba)
  · exact (List.perm_insertionSort _ _).trans
      (hperm.trans (List.perm_insertionSort _ _).symm)

theorem swapFirst_perm {α : Type} {l l' : List α} {i : ℕ} (h : swapFirst l i = .ok l') :
    l'.Perm l := by
  unfold swapFirst at h
  split at h
  · rename_i first other hfirst hother
    obtain ⟨hzero, rfl⟩ := List.getElem?_eq_some_iff.mp hfirst
    obtain ⟨hi, rfl⟩ := List.getElem?_eq_some_iff.mp hother
    simp only [Except.ok.injEq] at h
    subst h
    exact List.set_set_perm hzero hi
  · cases h

theorem primaryPosition_perm {ids' : List NodeId} (hids : ids.Perm ids')
    (components : List (NodeId × List NodeId)) (primaryRoot : Option NodeId) :
    primaryPosition ids components primaryRoot = primaryPosition ids' components primaryRoot := by
  cases primaryRoot with
  | none => rfl
  | some root => simp only [primaryPosition, hids.mem_iff]

end Components

/-! ## The topology of a component -/

section Topologies

variable {nodes : Builders} {component : NodeId × List NodeId}

def NodeBuilder.record (id : NodeId) (builder : NodeBuilder) : Topology.NodeRecord where
  nodeId := id
  kind := builder.kind
  parent := builder.parent.map (·.1)
  slot := builder.parent.map (·.2)
  children := builder.children

theorem componentTopology_node (id : NodeId) :
    (componentTopology nodes component).node id =
      if id ∈ component.2 then nodes[id]?.map (NodeBuilder.record id) else none := by
  unfold componentTopology Topology.node
  simp only
  induction component.2 using List.reverseRecOn with
  | nil => simp
  | append_singleton members other ih =>
      rw [List.foldl_append, List.foldl_cons, List.foldl_nil]
      simp only [List.mem_append, List.mem_singleton]
      by_cases hid : id = other
      · subst hid
        cases hget : nodes[id]? with
        | none =>
            simp only [hget] at ih ⊢
            rw [ih]
            simp
        | some builder => simp [NodeBuilder.record]
      · simp only [hid, or_false]
        rw [← ih]
        cases hget : nodes[other]? with
        | none => rfl
        | some builder =>
            have hne : ¬ compare other id = .eq := fun heq => hid (compare_eq_iff_eq.mp heq).symm
            rw [ExtTreeMap.getElem?_insert, if_neg hne]

/-- A member of a component is one of its nodes, with the links that were entered. -/
theorem hasRecord_componentTopology (id : NodeId) (P : Topology.NodeRecord → Prop) :
    (componentTopology nodes component).HasRecord id P ↔
      id ∈ component.2 ∧ ∃ builder, nodes[id]? = some builder ∧ P (builder.record id) := by
  rw [Topology.HasRecord, componentTopology_node]
  by_cases hid : id ∈ component.2
  · simp [hid]
  · simp [hid]

end Topologies

end Cawala
