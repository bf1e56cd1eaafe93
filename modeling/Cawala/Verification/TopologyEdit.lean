import Cawala.Library.Forest
import Cawala.Model.TopologyEdit
import Cawala.Verification.Topology

/-! # The invariant of the topology

Each link is stored twice, in the child and among the slots of its parent. What the five
calls change is first said of these links; that the calls keep the links paired, and what
`validate` then finds, follows from that. -/

namespace Cawala

open Library Library.Transaction
open Std (ExtTreeMap ExtTreeSet)

namespace Topology

variable {t t' : Topology}

/-! ## The links of a topology -/

def up (t : Topology) (id : NodeId) : Option NodeId := (t.node id).bind (·.parent)

def HasRecord (t : Topology) (id : NodeId) (P : NodeRecord → Prop) : Prop :=
  ∃ record, t.node id = some record ∧ P record

def ChildOf (t : Topology) (c p : NodeId) (s : UInt8) : Prop :=
  t.HasRecord c fun record => record.parent = some p ∧ record.slot = some s

/-- `p` records slot `s` as taken. -/
def Occupies (t : Topology) (p : NodeId) (s : UInt8) : Prop :=
  t.HasRecord p fun record => s ∈ record.children

def HasKind (t : Topology) (id : NodeId) (kind : ChildKind) : Prop :=
  t.HasRecord id fun record => record.kind = kind

/-- The node exists and has neither parent nor slot. -/
def Floating (t : Topology) (id : NodeId) : Prop :=
  t.HasRecord id fun record => record.parent = none ∧ record.slot = none

/-- Both sides of every link agree, and the links form a forest. -/
structure Linked (t : Topology) : Prop where
  root : t.Floating t.root
  tied : ∀ id kind, t.HasKind id kind → t.Floating id ∨ ∃ p s, t.ChildOf id p s
  reciprocal : ∀ p s, t.Occupies p s ↔ ∃ c, t.ChildOf c p s
  unique : ∀ c c' p s, t.ChildOf c p s → t.ChildOf c' p s → c = c'
  hosts : ∀ c p s, t.ChildOf c p s → t.HasKind p .node ∧ s ≤ maxSlot
  acyclic : Acyclic t.up

theorem ChildOf.up {c p : NodeId} {s : UInt8} (h : t.ChildOf c p s) : t.up c = some p := by
  obtain ⟨record, hnode, hparent, -⟩ := h
  rw [Topology.up, hnode, Option.bind_some, hparent]

theorem Floating.up {id : NodeId} (h : t.Floating id) : t.up id = none := by
  obtain ⟨record, hnode, hparent, -⟩ := h
  rw [Topology.up, hnode, Option.bind_some, hparent]

theorem ChildOf.functional {c p p' : NodeId} {s s' : UInt8} (h : t.ChildOf c p s)
    (h' : t.ChildOf c p' s') : p = p' ∧ s = s' := by
  obtain ⟨record, hnode, hparent, hslot⟩ := h
  obtain ⟨record', hnode', hparent', hslot'⟩ := h'
  rw [hnode, Option.some.injEq] at hnode'
  subst hnode'
  rw [hparent, Option.some.injEq] at hparent'
  rw [hslot, Option.some.injEq] at hslot'
  exact ⟨hparent', hslot'⟩

theorem ChildOf.hasKind {c p : NodeId} {s : UInt8} (h : t.ChildOf c p s) :
    ∃ kind, t.HasKind c kind := by
  obtain ⟨record, hnode, -⟩ := h
  exact ⟨record.kind, record, hnode, rfl⟩

theorem ChildOf.not_floating {c p : NodeId} {s : UInt8} (h : t.ChildOf c p s) :
    ¬ t.Floating c := by
  intro hfloat
  have hup := h.up
  rw [hfloat.up] at hup
  cases hup

theorem Linked.childOf (h : t.Linked) {c p : NodeId} (hup : t.up c = some p) :
    ∃ s, t.ChildOf c p s := by
  obtain ⟨record, hnode, hparent⟩ := Option.bind_eq_some_iff.mp hup
  obtain hfloat | ⟨q, s, hchild⟩ := h.tied c record.kind ⟨record, hnode, rfl⟩
  · rw [hfloat.up] at hup
    cases hup
  · have heq := hchild.up.symm.trans hup
    rw [Option.some.injEq] at heq
    exact ⟨s, heq ▸ hchild⟩

/-! ## One record at a time -/

def modifyNode (t : Topology) (id : NodeId) (f : NodeRecord → NodeRecord) : Topology :=
  match t.node id with
  | some record => { t with nodes := t.nodes.insert id (f record) }
  | none => t

@[simp] theorem root_modifyNode (id : NodeId) (f : NodeRecord → NodeRecord) :
    (t.modifyNode id f).root = t.root := by
  rw [modifyNode]
  split <;> rfl

theorem node_insert (id x : NodeId) (record : NodeRecord) :
    Topology.node { t with nodes := t.nodes.insert id record } x
      = if x = id then some record else t.node x := by
  rw [node, ExtTreeMap.getElem?_insert]
  by_cases h : x = id
  · subst h
    simp
  · have hne : compare id x ≠ .eq := fun heq => h (compare_eq_iff_eq.mp heq).symm
    rw [if_neg hne, if_neg h, node]

theorem node_modifyNode (id x : NodeId) (f : NodeRecord → NodeRecord) :
    (t.modifyNode id f).node x = if x = id then (t.node id).map f else t.node x := by
  rw [modifyNode]
  cases h : t.node id with
  | some record => exact node_insert id x (f record)
  | none =>
      by_cases hx : x = id
      · rw [if_pos hx, hx]
        exact h
      · rw [if_neg hx]

theorem hasRecord_modifyNode {id x : NodeId} {f : NodeRecord → NodeRecord}
    {P : NodeRecord → Prop} :
    (t.modifyNode id f).HasRecord x P
      ↔ t.HasRecord x fun record => if x = id then P (f record) else P record := by
  unfold HasRecord
  rw [node_modifyNode]
  by_cases h : x = id
  · subst h
    simp
  · simp [h]

theorem up_modifyNode {id x : NodeId} {f : NodeRecord → NodeRecord} :
    (t.modifyNode id f).up x
      = if x = id then (t.node id).bind (fun record => (f record).parent) else t.up x := by
  rw [up, node_modifyNode]
  by_cases h : x = id
  · rw [if_pos h, if_pos h, Option.bind_map]
    rfl
  · rw [if_neg h, if_neg h, up]

/-- An edit that leaves the parent alone leaves the parent function. -/
theorem up_of_node {id x : NodeId} :
    t.up x = if x = id then (t.node id).bind (·.parent) else t.up x := by
  by_cases h : x = id
  · rw [if_pos h, up, h]
  · rw [if_neg h]

theorem ext_node (hroot : t.root = t'.root) (hnode : ∀ x, t.node x = t'.node x) : t = t' := by
  cases t with
  | mk nodes root =>
      cases t' with
      | mk nodes' root' =>
          obtain rfl : root = root' := hroot
          have heq : nodes = nodes' := ExtTreeMap.ext_getElem? fun {x} => hnode x
          rw [heq]

/-! ## Taking a link away and putting one in -/

/-- The topology without the link of `c` to `p`. -/
def unlink (t : Topology) (c p : NodeId) (s : UInt8) : Topology :=
  (t.modifyNode p fun r => { r with children := r.children.erase s }).modifyNode c
    fun r => { r with parent := none, slot := none }

def link (t : Topology) (c p : NodeId) (s : UInt8) : Topology :=
  ((t.modifyNode c fun r => { r with parent := some p }).modifyNode c
    fun r => { r with slot := some s }).modifyNode p
    fun r => { r with children := r.children.insert s }

section Unlink

variable {c p x q : NodeId} {s s' : UInt8}

theorem root_unlink : (t.unlink c p s).root = t.root := by
  rw [unlink, root_modifyNode, root_modifyNode]

theorem childOf_unlink : (t.unlink c p s).ChildOf x q s' ↔ t.ChildOf x q s' ∧ x ≠ c := by
  unfold unlink ChildOf
  rw [hasRecord_modifyNode, hasRecord_modifyNode]
  by_cases hc : x = c
  · simp [hc, HasRecord]
  · simp [hc]

theorem occupies_unlink :
    (t.unlink c p s).Occupies q s' ↔ t.Occupies q s' ∧ ¬ (q = p ∧ s' = s) := by
  unfold unlink Occupies
  rw [hasRecord_modifyNode, hasRecord_modifyNode]
  by_cases hp : q = p
  · simp [hp, HasRecord, ExtTreeSet.mem_erase]
    grind
  · simp [hp]

theorem hasKind_unlink {kind : ChildKind} :
    (t.unlink c p s).HasKind x kind ↔ t.HasKind x kind := by
  unfold unlink HasKind
  rw [hasRecord_modifyNode, hasRecord_modifyNode]
  simp

theorem floating_unlink (h : t.ChildOf c p s) :
    (t.unlink c p s).Floating x ↔ t.Floating x ∨ x = c := by
  obtain ⟨record, hnode, -⟩ := h
  unfold unlink Floating
  rw [hasRecord_modifyNode, hasRecord_modifyNode]
  by_cases hc : x = c
  · simp [hc, HasRecord, hnode]
  · simp [hc]

theorem up_unlink : (t.unlink c p s).up x = if x = c then none else t.up x := by
  rw [unlink, up_modifyNode, up_modifyNode]
  by_cases hc : x = c
  · rw [if_pos hc, if_pos hc, Option.bind_fun_none]
  · rw [if_neg hc, if_neg hc, ← up_of_node]

/-- Taking a link away keeps the others paired. -/
theorem Linked.unlink (h : t.Linked) (hchild : t.ChildOf c p s) : (t.unlink c p s).Linked where
  root := by
    rw [root_unlink]
    exact (floating_unlink hchild).mpr (Or.inl h.root)
  tied := by
    intro id kind hkind
    by_cases hc : id = c
    · exact Or.inl ((floating_unlink hchild).mpr (Or.inr hc))
    · obtain hfloat | ⟨q, s', hlink⟩ := h.tied id kind (hasKind_unlink.mp hkind)
      · exact Or.inl ((floating_unlink hchild).mpr (Or.inl hfloat))
      · exact Or.inr ⟨q, s', childOf_unlink.mpr ⟨hlink, hc⟩⟩
  reciprocal := by
    intro q s'
    rw [occupies_unlink, h.reciprocal]
    constructor
    · rintro ⟨⟨c', hlink⟩, hother⟩
      refine ⟨c', childOf_unlink.mpr ⟨hlink, ?_⟩⟩
      rintro rfl
      exact hother (hlink.functional hchild)
    · rintro ⟨c', hlink'⟩
      obtain ⟨hlink, hne⟩ := childOf_unlink.mp hlink'
      refine ⟨⟨c', hlink⟩, ?_⟩
      rintro ⟨rfl, rfl⟩
      exact hne (h.unique _ _ _ _ hlink hchild)
  unique := by
    intro c₁ c₂ q s' h₁ h₂
    exact h.unique c₁ c₂ q s' (childOf_unlink.mp h₁).1 (childOf_unlink.mp h₂).1
  hosts := by
    intro c' q s' hlink
    obtain ⟨hkind, hs⟩ := h.hosts c' q s' (childOf_unlink.mp hlink).1
    exact ⟨hasKind_unlink.mpr hkind, hs⟩
  acyclic := by
    apply h.acyclic.mono
    intro x q hup
    rw [up_unlink] at hup
    by_cases hx : x = c
    · simp [hx] at hup
    · rwa [if_neg hx] at hup

end Unlink

section Link

variable {c p x q : NodeId} {s s' : UInt8}

theorem root_link : (t.link c p s).root = t.root := by
  rw [link, root_modifyNode, root_modifyNode, root_modifyNode]

theorem childOf_link (hc : t.Floating c) :
    (t.link c p s).ChildOf x q s' ↔ t.ChildOf x q s' ∨ (x = c ∧ q = p ∧ s' = s) := by
  obtain ⟨record, hnode, hparent, hslot⟩ := hc
  unfold link ChildOf
  rw [hasRecord_modifyNode, hasRecord_modifyNode, hasRecord_modifyNode]
  by_cases hx : x = c
  · subst hx
    simp [HasRecord, hnode, hparent]
    grind
  · simp [hx]

theorem occupies_link (hp : t.HasKind p .node) :
    (t.link c p s).Occupies q s' ↔ t.Occupies q s' ∨ (q = p ∧ s' = s) := by
  obtain ⟨record, hnode, -⟩ := hp
  unfold link Occupies
  rw [hasRecord_modifyNode, hasRecord_modifyNode, hasRecord_modifyNode]
  by_cases hq : q = p
  · subst hq
    simp [HasRecord, hnode, ExtTreeSet.mem_insert]
    grind
  · simp [hq]

theorem hasKind_link {kind : ChildKind} :
    (t.link c p s).HasKind x kind ↔ t.HasKind x kind := by
  unfold link HasKind
  rw [hasRecord_modifyNode, hasRecord_modifyNode, hasRecord_modifyNode]
  simp

theorem floating_link : (t.link c p s).Floating x ↔ t.Floating x ∧ x ≠ c := by
  unfold link Floating
  rw [hasRecord_modifyNode, hasRecord_modifyNode, hasRecord_modifyNode]
  by_cases hx : x = c
  · simp [hx, HasRecord]
  · simp [hx]

theorem up_link (hc : t.Floating c) :
    (t.link c p s).up x = if x = c then some p else t.up x := by
  obtain ⟨record, hnode, -⟩ := hc
  rw [link, up_modifyNode, ← up_of_node, up_modifyNode, ← up_of_node, up_modifyNode]
  by_cases hx : x = c
  · rw [if_pos hx, if_pos hx, hnode, Option.bind_some]
  · rw [if_neg hx, if_neg hx]

/-- A link into a free slot, under a node that is not below the child, pairs up. -/
theorem Linked.link (h : t.Linked) (hc : t.Floating c) (hroot : c ≠ t.root)
    (hp : t.HasKind p .node) (hs : s ≤ maxSlot) (hfree : ¬ t.Occupies p s)
    (hbelow : ¬ AtOrAbove t.up c p) : (t.link c p s).Linked where
  root := by
    rw [root_link]
    exact floating_link.mpr ⟨h.root, hroot.symm⟩
  tied := by
    intro id kind hkind
    by_cases hid : id = c
    · exact Or.inr ⟨p, s, (childOf_link hc).mpr (Or.inr ⟨hid, rfl, rfl⟩)⟩
    · obtain hfloat | ⟨q, s', hlink⟩ := h.tied id kind (hasKind_link.mp hkind)
      · exact Or.inl (floating_link.mpr ⟨hfloat, hid⟩)
      · exact Or.inr ⟨q, s', (childOf_link hc).mpr (Or.inl hlink)⟩
  reciprocal := by
    intro q s'
    simp only [occupies_link hp, h.reciprocal, childOf_link hc]
    constructor
    · rintro (⟨c', hlink⟩ | ⟨rfl, rfl⟩)
      · exact ⟨c', Or.inl hlink⟩
      · exact ⟨c, Or.inr ⟨rfl, rfl, rfl⟩⟩
    · rintro ⟨c', hlink | ⟨-, rfl, rfl⟩⟩
      · exact Or.inl ⟨c', hlink⟩
      · exact Or.inr ⟨rfl, rfl⟩
  unique := by
    intro c₁ c₂ q s' h₁ h₂
    have htaken : ∀ c', t.ChildOf c' p s → False := fun c' hlink =>
      hfree ((h.reciprocal p s).mpr ⟨c', hlink⟩)
    obtain hold₁ | ⟨rfl, rfl, rfl⟩ := (childOf_link hc).mp h₁
    · obtain hold₂ | ⟨rfl, rfl, rfl⟩ := (childOf_link hc).mp h₂
      · exact h.unique c₁ c₂ q s' hold₁ hold₂
      · exact (htaken c₁ hold₁).elim
    · obtain hold₂ | ⟨rfl, -, -⟩ := (childOf_link hc).mp h₂
      · exact (htaken c₂ hold₂).elim
      · rfl
  hosts := by
    intro c' q s' hlink
    obtain hlink | ⟨rfl, rfl, rfl⟩ := (childOf_link hc).mp hlink
    · obtain ⟨hkind, hs'⟩ := h.hosts c' q s' hlink
      exact ⟨hasKind_link.mpr hkind, hs'⟩
    · exact ⟨hasKind_link.mpr hp, hs⟩
  acyclic := by
    apply h.acyclic.link hbelow
    · intro x hx
      rw [up_link hc, if_neg hx]
    · rw [up_link hc, if_pos rfl]

end Link

section Nodes

variable {id x : NodeId}

def insertNode (t : Topology) (id : NodeId) (kind : ChildKind) : Topology :=
  { t with
    nodes := t.nodes.insert id
      { nodeId := id, kind, parent := none, slot := none, children := ∅ } }

def eraseNode (t : Topology) (id : NodeId) : Topology := { t with nodes := t.nodes.erase id }

theorem hasRecord_insertNode {kind : ChildKind} {P : NodeRecord → Prop} :
    (t.insertNode id kind).HasRecord x P ↔ if x = id then
      P { nodeId := id, kind, parent := none, slot := none, children := ∅ }
      else t.HasRecord x P := by
  unfold HasRecord insertNode
  rw [node_insert]
  by_cases h : x = id
  · simp [h]
  · simp [h]

theorem node_eraseNode : (t.eraseNode id).node x = if x = id then none else t.node x := by
  rw [node, eraseNode, ExtTreeMap.getElem?_erase]
  by_cases h : x = id
  · subst h
    simp
  · have hne : compare id x ≠ .eq := fun heq => h (compare_eq_iff_eq.mp heq).symm
    rw [if_neg hne, if_neg h, node]

theorem hasRecord_eraseNode {P : NodeRecord → Prop} :
    (t.eraseNode id).HasRecord x P ↔ x ≠ id ∧ t.HasRecord x P := by
  unfold HasRecord
  rw [node_eraseNode]
  by_cases h : x = id
  · simp [h]
  · simp [h]

theorem childOf_insertNode {kind : ChildKind} {q : NodeId} {s : UInt8} (h : t.node id = none) :
    (t.insertNode id kind).ChildOf x q s ↔ t.ChildOf x q s := by
  unfold ChildOf
  rw [hasRecord_insertNode]
  by_cases hx : x = id
  · simp [hx, HasRecord, h]
  · rw [if_neg hx]

theorem occupies_insertNode {kind : ChildKind} {s : UInt8} (h : t.node id = none) :
    (t.insertNode id kind).Occupies x s ↔ t.Occupies x s := by
  unfold Occupies
  rw [hasRecord_insertNode]
  by_cases hx : x = id
  · simp [hx, HasRecord, h]
  · rw [if_neg hx]

theorem up_insertNode {kind : ChildKind} (h : t.node id = none) :
    (t.insertNode id kind).up = t.up := by
  funext x
  rw [up, up, insertNode, node_insert]
  by_cases hx : x = id
  · rw [if_pos hx, hx, h]
    rfl
  · rw [if_neg hx]

/-- A new unattached node disturbs nothing. -/
theorem Linked.insertNode (hl : t.Linked) (h : t.node id = none) (kind : ChildKind) :
    (t.insertNode id kind).Linked where
  root := by
    change (t.insertNode id kind).Floating t.root
    rw [Floating, hasRecord_insertNode]
    split
    · exact ⟨rfl, rfl⟩
    · exact hl.root
  tied := by
    intro x kind' hkind
    rw [HasKind, hasRecord_insertNode] at hkind
    rw [Floating, hasRecord_insertNode]
    by_cases hx : x = id
    · rw [if_pos hx]
      exact Or.inl ⟨rfl, rfl⟩
    · rw [if_neg hx] at hkind ⊢
      simp only [childOf_insertNode h]
      exact hl.tied x kind' hkind
  reciprocal := by
    intro q s
    simp only [occupies_insertNode h, childOf_insertNode h]
    exact hl.reciprocal q s
  unique := by
    intro c c' q s hc hc'
    exact hl.unique c c' q s ((childOf_insertNode h).mp hc) ((childOf_insertNode h).mp hc')
  hosts := by
    intro c q s hc
    obtain ⟨hkind, hs⟩ := hl.hosts c q s ((childOf_insertNode h).mp hc)
    refine ⟨?_, hs⟩
    rw [HasKind, hasRecord_insertNode]
    split
    · rename_i hq
      obtain ⟨record, hnode, -⟩ := hkind
      rw [hq, h] at hnode
      cases hnode
    · exact hkind
  acyclic := by
    rw [up_insertNode h]
    exact hl.acyclic

/-- An unattached childless node may go. -/
theorem Linked.eraseNode (hl : t.Linked) (hfloat : t.Floating id) (hroot : id ≠ t.root)
    (hleaf : ∀ s, ¬ t.Occupies id s) : (t.eraseNode id).Linked := by
  have hchild : ∀ {x q s}, (t.eraseNode id).ChildOf x q s ↔ t.ChildOf x q s := by
    intro x q s
    rw [ChildOf, hasRecord_eraseNode]
    constructor
    · exact fun hx => hx.2
    · intro hx
      refine ⟨?_, hx⟩
      rintro rfl
      exact hx.not_floating hfloat
  have hslots : ∀ {x s}, (t.eraseNode id).Occupies x s ↔ t.Occupies x s := by
    intro x s
    rw [Occupies, hasRecord_eraseNode]
    constructor
    · exact fun hx => hx.2
    · intro hx
      refine ⟨?_, hx⟩
      rintro rfl
      exact hleaf s hx
  refine ⟨?_, ?_, ?_, ?_, ?_, ?_⟩
  · exact hasRecord_eraseNode.mpr ⟨hroot.symm, hl.root⟩
  · intro x kind hkind
    obtain ⟨hx, hkind⟩ := hasRecord_eraseNode.mp hkind
    simp only [hchild, Floating, hasRecord_eraseNode]
    exact (hl.tied x kind hkind).imp_left fun hfloat => ⟨hx, hfloat⟩
  · intro q s
    simp only [hchild, hslots]
    exact hl.reciprocal q s
  · intro c c' q s hc hc'
    exact hl.unique c c' q s (hchild.mp hc) (hchild.mp hc')
  · intro c q s hc
    obtain ⟨hkind, hs⟩ := hl.hosts c q s (hchild.mp hc)
    refine ⟨hasRecord_eraseNode.mpr ⟨?_, hkind⟩, hs⟩
    rintro rfl
    exact hleaf s ((hl.reciprocal _ s).mpr ⟨c, hchild.mp hc⟩)
  · apply hl.acyclic.mono
    intro x q hup
    rw [up, node_eraseNode] at hup
    by_cases hx : x = id
    · simp [hx] at hup
    · rwa [if_neg hx] at hup

end Nodes

/-! ## The steps of a call -/

/-- A call ended in an error and left the topology as it was. -/
def Refused (t : Topology) (e : TopologyFailure) (t' : Topology) : Prop :=
  (∃ err, e = .err err) ∧ t' = t

theorem refused (err : TopologyError) : t.Refused (.err err) t := ⟨⟨err, rfl⟩, rfl⟩

section Steps

variable {α β : Type} {Q : β → Topology → Prop} {E : TopologyFailure → Topology → Prop}

theorem meets_index_bind {id : NodeId} {record : NodeRecord} {f : NodeRecord → Edit β}
    (h : t.node id = some record) (hf : Meets (· = t) (f record) Q E) :
    Meets (· = t) (index id >>= f) Q E := by
  have hindex : exec (index id) t = (.ok record, t) := by
    rw [index, exec_get_bind, h, exec_pure]
  intro _ ht
  subst ht
  rw [exec_bind, hindex]
  exact hf _ rfl

theorem exec_update {id : NodeId} {f : NodeRecord → NodeRecord} (h : (t.node id).isSome) :
    exec (update id f) t = (.ok ⟨⟩, t.modifyNode id f) := by
  obtain ⟨record, hnode⟩ := Option.isSome_iff_exists.mp h
  rw [update, index, exec_bind, exec_get_bind, hnode, exec_pure, modifyNode, hnode]
  rfl

theorem meets_update_bind {id : NodeId} {g : NodeRecord → NodeRecord} {f : PUnit → Edit β}
    (h : (t.node id).isSome) (hf : Meets (· = t.modifyNode id g) (f ⟨⟩) Q E) :
    Meets (· = t) (update id g >>= f) Q E := by
  intro _ ht
  subst ht
  rw [exec_bind, exec_update h]
  exact hf _ rfl

theorem meets_update {id : NodeId} {g : NodeRecord → NodeRecord} {Q : PUnit → Topology → Prop}
    (h : (t.node id).isSome) (hQ : Q ⟨⟩ (t.modifyNode id g)) :
    Meets (· = t) (update id g) Q E := by
  intro _ ht
  subst ht
  rw [exec_update h]
  exact hQ

@[simp] theorem isSome_node_modifyNode {id x : NodeId} {f : NodeRecord → NodeRecord} :
    ((t.modifyNode id f).node x).isSome = (t.node x).isSome := by
  rw [node_modifyNode]
  split
  · rename_i h
    rw [h, Option.isSome_map]
  · rfl

end Steps

theorem HasRecord.isSome {id : NodeId} {P : NodeRecord → Prop} (h : t.HasRecord id P) :
    (t.node id).isSome := by
  obtain ⟨record, hnode, -⟩ := h
  exact Option.isSome_iff_exists.mpr ⟨record, hnode⟩

theorem selfSlot_eq_some {p c : NodeId} {s : UInt8} :
    t.selfSlot p c = some s ↔ t.ChildOf c p s := by
  unfold selfSlot ChildOf HasRecord
  cases t.node c with
  | none => simp
  | some child => simp

theorem le_of_mem_slots (s : UInt8) (hs : s ∈ slots) : s ≤ maxSlot := by
  obtain ⟨n, hn, rfl⟩ := List.mem_map.mp hs
  have hlt : n < 8 := List.mem_range.mp hn
  rw [UInt8.le_iff_toNat_le, UInt8.toNat_ofNat_of_lt' (hlt.trans (by decide))]
  exact Nat.le_of_lt_succ hlt

/-- The spec lemma of `resolve_slot`. -/
theorem resolveSlot_meets {p c : NodeId} (slot : Option UInt8) (hp : (t.node p).isSome) :
    Meets (· = t) (resolveSlot p c slot)
      (fun s t' => t' = t ∧ s ≤ maxSlot ∧ (t.ChildOf c p s ∨ ¬ t.Occupies p s))
      (Refused t) := by
  obtain ⟨parent, hparent⟩ := Option.isSome_iff_exists.mp hp
  have hfree : ∀ s, ¬ parent.children.contains s = true → ¬ t.Occupies p s := by
    rintro s hs ⟨record, hnode, hmem⟩
    rw [hparent, Option.some.injEq] at hnode
    subst hnode
    exact hs (ExtTreeSet.contains_iff_mem.mpr hmem)
  rw [resolveSlot]
  apply Meets.get_bind_at
  apply meets_index_bind hparent
  cases slot with
  | some s =>
      simp only
      split
      · exact Meets.throw fun _ ht => ht ▸ refused _
      · rename_i hs
        have hs : s ≤ maxSlot := by simpa using hs
        split
        · split
          · rename_i hself
            exact Meets.pure fun _ ht => ⟨ht, hs, Or.inl (selfSlot_eq_some.mp hself)⟩
          · exact Meets.throw fun _ ht => ht ▸ refused _
        · rename_i hcontains
          split
          · exact Meets.throw fun _ ht => ht ▸ refused _
          · exact Meets.pure fun _ ht => ⟨ht, hs, Or.inr (hfree s hcontains)⟩
  | none =>
      simp only
      split
      · rename_i s hfind
        have hmem := le_of_mem_slots s (List.mem_of_find?_eq_some hfind)
        have hsat := List.find?_some hfind
        simp only [Bool.or_eq_true, Bool.not_eq_true', beq_iff_eq] at hsat
        obtain hcontains | hself := hsat
        · exact Meets.pure fun _ ht => ⟨ht, hmem, Or.inr (hfree s (by simp [hcontains]))⟩
        · exact Meets.pure fun _ ht => ⟨ht, hmem, Or.inl (selfSlot_eq_some.mp hself)⟩
      · exact Meets.throw fun _ ht => ht ▸ refused _

theorem Linked.parent_isSome (h : t.Linked) {cur p : NodeId} {record : NodeRecord}
    (hnode : t.node cur = some record) (hparent : record.parent = some p) :
    (t.node p).isSome := by
  have hup : t.up cur = some p := by rw [up, hnode, Option.bind_some, hparent]
  obtain ⟨s, hchild⟩ := h.childOf hup
  exact (h.hosts cur p s hchild).1.isSome

theorem not_above_top {c cur : NodeId} {record : NodeRecord} (hc : cur ≠ c)
    (hnode : t.node cur = some record) (hparent : record.parent = none) :
    ¬ AtOrAbove t.up c cur := by
  intro habove
  obtain heq | ⟨p, hp, -⟩ := atOrAbove_iff.mp habove
  · exact hc heq.symm
  · rw [up, hnode, Option.bind_some, hparent] at hp
    cases hp

theorem not_above_step {c cur p : NodeId} {record : NodeRecord} (hc : cur ≠ c)
    (hnode : t.node cur = some record) (hparent : record.parent = some p)
    (h : ¬ AtOrAbove t.up c p) : ¬ AtOrAbove t.up c cur := by
  intro habove
  obtain heq | ⟨q, hq, hbelow⟩ := atOrAbove_iff.mp habove
  · exact hc heq.symm
  · rw [up, hnode, Option.bind_some, hparent, Option.some.injEq] at hq
    exact h (hq ▸ hbelow)

/-- A check ends well only outside the subtree of `c`, and never in a panic. -/
def ClearOf (t : Topology) (c cur : NodeId) : Except TopologyFailure PUnit → Prop
  | .ok _ => ¬ AtOrAbove t.up c cur
  | .error e => ∃ err, e = .err err

theorem ClearOf.step {c cur p : NodeId} {record : NodeRecord}
    {x : Except TopologyFailure PUnit} (h : t.ClearOf c p x) (hc : cur ≠ c)
    (hnode : t.node cur = some record) (hparent : record.parent = some p) :
    t.ClearOf c cur x := by
  cases x with
  | ok u => exact not_above_step hc hnode hparent h
  | error e => exact h

/-- The walk of `attach`. -/
theorem checkDescendant_clear (h : t.Linked) {parentId childId : NodeId} {fuel : ℕ}
    {cur : NodeId} (hcur : (t.node cur).isSome) :
    t.ClearOf childId cur (t.checkDescendant parentId childId fuel cur) := by
  induction fuel generalizing cur with
  | zero =>
      obtain ⟨record, hnode⟩ := Option.isSome_iff_exists.mp hcur
      rw [checkDescendant]
      by_cases hc : cur = childId
      · rw [if_pos hc]
        exact ⟨_, rfl⟩
      · simp only [if_neg hc, hnode]
        cases hparent : record.parent with
        | none => exact not_above_top hc hnode hparent
        | some p => exact ⟨_, rfl⟩
  | succ fuel ih =>
      obtain ⟨record, hnode⟩ := Option.isSome_iff_exists.mp hcur
      rw [checkDescendant]
      by_cases hc : cur = childId
      · rw [if_pos hc]
        exact ⟨_, rfl⟩
      · simp only [if_neg hc, hnode]
        cases hparent : record.parent with
        | none => exact not_above_top hc hnode hparent
        | some p => exact (ih (h.parent_isSome hnode hparent)).step hc hnode hparent

/-- The walk of `move_child`. -/
theorem checkRegion_clear (h : t.Linked) {childId newParentId oldParentId : NodeId} {fuel : ℕ}
    (hold : t.up childId = some oldParentId) {cur : NodeId} (hcur : (t.node cur).isSome) :
    t.ClearOf childId cur (t.checkRegion childId newParentId oldParentId fuel cur) := by
  induction fuel generalizing cur with
  | zero =>
      obtain ⟨record, hnode⟩ := Option.isSome_iff_exists.mp hcur
      rw [checkRegion]
      by_cases hc : cur = childId
      · rw [if_pos hc]
        exact ⟨_, rfl⟩
      by_cases ho : cur = oldParentId
      · rw [if_neg hc, if_pos ho, ho]
        exact h.acyclic.not_above_parent hold
      · simp only [if_neg hc, if_neg ho, hnode]
        cases hparent : record.parent with
        | none => exact ⟨_, rfl⟩
        | some p => exact ⟨_, rfl⟩
  | succ fuel ih =>
      obtain ⟨record, hnode⟩ := Option.isSome_iff_exists.mp hcur
      rw [checkRegion]
      by_cases hc : cur = childId
      · rw [if_pos hc]
        exact ⟨_, rfl⟩
      by_cases ho : cur = oldParentId
      · rw [if_neg hc, if_pos ho, ho]
        exact h.acyclic.not_above_parent hold
      · simp only [if_neg hc, if_neg ho, hnode]
        cases hparent : record.parent with
        | none => exact ⟨_, rfl⟩
        | some p => exact (ih (h.parent_isSome hnode hparent)).step hc hnode hparent

/-- A check at a known state that ends well outside the subtree of `c`. -/
theorem meets_clear_bind {c cur : NodeId} {x : Except TopologyFailure PUnit}
    {f : PUnit → Edit PUnit}
    {Q : PUnit → Topology → Prop} (hx : t.ClearOf c cur x)
    (hf : ¬ AtOrAbove t.up c cur → Meets (· = t) (f ⟨⟩) Q (Refused t)) :
    Meets (· = t) (Transaction.ofExcept x >>= f) Q (Refused t) := by
  apply Meets.ofExcept_bind_at
  · intro e he
    rw [he] at hx
    exact ⟨hx, rfl⟩
  · intro u hu
    rw [hu] at hx
    exact hf hx

/-! ## The calls -/

theorem not_isNone {id : NodeId} (h : ¬ (t.node id).isNone = true) : (t.node id).isSome :=
  Option.isNone_eq_false_iff.mp (Bool.eq_false_of_not_eq_true h)

theorem addNode_meets (h : t.Linked) (nodeId : NodeId) (kind : ChildKind) :
    Meets (· = t) (addNode nodeId kind) (fun _ => Linked) (Refused t) := by
  rw [addNode]
  apply Meets.get_bind_at
  apply Meets.refuseIf_bind_at fun _ => refused _
  intro hnew
  have hnone : t.node nodeId = none := by simpa using hnew
  intro _ _
  exact h.insertNode hnone kind

theorem attach_meets (h : t.Linked) (parentId childId : NodeId) (slot : Option UInt8) :
    Meets (· = t) (attach parentId childId slot) (fun _ => Linked) (Refused t) := by
  rw [attach]
  apply Meets.get_bind_at
  apply Meets.refuseIf_bind_at fun _ => refused _
  intro hp
  apply Meets.refuseIf_bind_at fun _ => refused _
  intro hc
  obtain ⟨parent, hparent⟩ := Option.isSome_iff_exists.mp (not_isNone hp)
  obtain ⟨child, hchild⟩ := Option.isSome_iff_exists.mp (not_isNone hc)
  apply Meets.refuseIf_bind_at fun _ => refused _
  intro hself
  apply Meets.refuseIf_bind_at fun _ => refused _
  intro hroot
  apply meets_index_bind hchild
  apply Meets.refuseIf_bind_at fun _ => refused _
  intro hfree
  have hfloat : t.Floating childId := by
    obtain hfloat | ⟨p, s, hlink⟩ := h.tied childId child.kind ⟨child, hchild, rfl⟩
    · exact hfloat
    · have hup := hlink.up
      rw [up, hchild, Option.bind_some] at hup
      exact absurd (by rw [hup]; rfl) hfree
  apply meets_index_bind hparent
  apply Meets.refuseIf_bind_at fun _ => refused _
  intro hkind
  have hnode : t.HasKind parentId .node := ⟨parent, hparent, not_not.mp hkind⟩
  apply meets_clear_bind (checkDescendant_clear h (not_isNone hp))
  intro hbelow
  apply Meets.bind (resolveSlot_meets slot (not_isNone hp))
  intro s
  apply Meets.pointwise
  rintro t' ⟨rfl, hs, hslot⟩
  have hfreeSlot : ¬ t'.Occupies parentId s := by
    obtain hlink | hslot := hslot
    · exact absurd hfloat hlink.not_floating
    · exact hslot
  apply meets_update_bind (not_isNone hc)
  apply meets_update_bind (by simpa only [isSome_node_modifyNode] using not_isNone hc)
  apply meets_update (by simpa only [isSome_node_modifyNode] using not_isNone hp)
  exact h.link hfloat hroot hnode hs hfreeSlot hbelow

theorem detach_meets (h : t.Linked) (childId : NodeId) :
    Meets (· = t) (detach childId) (fun _ => Linked) (Refused t) := by
  rw [detach]
  apply Meets.get_bind_at
  apply Meets.refuseIf_bind_at fun _ => refused _
  intro hc
  obtain ⟨child, hchild⟩ := Option.isSome_iff_exists.mp (not_isNone hc)
  apply Meets.refuseIf_bind_at fun _ => refused _
  intro hroot
  apply meets_index_bind hchild
  split
  · rename_i parentId s hparent hslot
    have hlink : t.ChildOf childId parentId s := ⟨child, hchild, hparent, hslot⟩
    have hp := (h.hosts _ _ _ hlink).1.isSome
    apply meets_update_bind hp
    apply meets_update (by simpa only [isSome_node_modifyNode] using not_isNone hc)
    exact h.unlink hlink
  · exact Meets.throw fun _ ht => ht ▸ refused _

/-- A move is the link to the old parent taken away and the one to the new parent put in. -/
theorem link_unlink {c p q : NodeId} {s s' : UInt8} :
    (t.unlink c p s).link c q s'
      = (((t.modifyNode p fun r => { r with children := r.children.erase s }).modifyNode c
          fun r => { r with parent := some q }).modifyNode c
          fun r => { r with slot := some s' }).modifyNode q
          fun r => { r with children := r.children.insert s' } := by
  rw [link, unlink]
  congr 1
  apply ext_node
  · simp only [root_modifyNode]
  · intro x
    simp only [node_modifyNode]
    by_cases hc : x = c
    · simp [hc, Function.comp_def]
    · simp [hc]

theorem moveChild_meets (h : t.Linked) (childId newParentId : NodeId) (slot : Option UInt8) :
    Meets (· = t) (moveChild childId newParentId slot) (fun _ => Linked) (Refused t) := by
  rw [moveChild]
  apply Meets.get_bind_at
  apply Meets.refuseIf_bind_at fun _ => refused _
  intro hc
  apply Meets.refuseIf_bind_at fun _ => refused _
  intro hp
  obtain ⟨child, hchild⟩ := Option.isSome_iff_exists.mp (not_isNone hc)
  obtain ⟨newParent, hnewParent⟩ := Option.isSome_iff_exists.mp (not_isNone hp)
  apply meets_index_bind hchild
  cases hparent : child.parent with
  | none => exact Meets.throw fun _ ht => ht ▸ refused _
  | some oldParentId =>
      have hup : t.up childId = some oldParentId := by
        rw [up, hchild, Option.bind_some, hparent]
      obtain ⟨oldSlot, hlink⟩ := h.childOf hup
      have hslot : child.slot = some oldSlot := by
        obtain ⟨record, hnode, -, hs⟩ := hlink
        rw [hchild, Option.some.injEq] at hnode
        rw [hnode, hs]
      apply meets_index_bind hnewParent
      apply Meets.refuseIf_bind_at fun _ => refused _
      intro hkind
      have hnode : t.HasKind newParentId .node := ⟨newParent, hnewParent, not_not.mp hkind⟩
      apply meets_clear_bind (checkRegion_clear h hup (not_isNone hp))
      intro hbelow
      apply Meets.bind (resolveSlot_meets slot (not_isNone hp))
      intro s
      apply Meets.pointwise
      rintro t' ⟨rfl, hs, hfree⟩
      rw [hslot]
      change Meets _ (when _ _) _ _
      rw [Transaction.when]
      split
      · rename_i hmoves
        have hroot : childId ≠ t'.root := by
          rintro rfl
          exact hlink.not_floating h.root
        have hfreeSlot : ¬ t'.Occupies newParentId s := by
          obtain hsame | hfree := hfree
          · exact absurd (hsame.functional hlink) hmoves
          · exact hfree
        apply meets_update_bind (h.hosts _ _ _ hlink).1.isSome
        apply meets_update_bind (by simpa only [isSome_node_modifyNode] using not_isNone hc)
        apply meets_update_bind (by simpa only [isSome_node_modifyNode] using not_isNone hc)
        apply meets_update (by simpa only [isSome_node_modifyNode] using not_isNone hp)
        rw [← link_unlink]
        apply (h.unlink hlink).link
        · exact (floating_unlink hlink).mpr (Or.inr rfl)
        · rw [root_unlink]
          exact hroot
        · exact hasKind_unlink.mpr hnode
        · exact hs
        · exact fun hocc => hfreeSlot (occupies_unlink.mp hocc).1
        · intro habove
          apply hbelow
          apply habove.mono
          intro x q hq
          rw [up_unlink] at hq
          by_cases hx : x = childId
          · simp [hx] at hq
          · rwa [if_neg hx] at hq
      · exact Meets.pure fun _ ht => ht ▸ h

/-- A removed node takes its link with it. -/
theorem eraseNode_unlink {c p : NodeId} {s : UInt8} :
    (t.unlink c p s).eraseNode c
      = (t.modifyNode p fun r => { r with children := r.children.erase s }).eraseNode c := by
  rw [unlink]
  apply ext_node
  · simp only [eraseNode, root_modifyNode]
  · intro x
    rw [node_eraseNode, node_eraseNode, node_modifyNode]
    by_cases hx : x = c
    · simp [hx]
    · simp [hx]

theorem removeNode_meets (h : t.Linked) (nodeId : NodeId) :
    Meets (· = t) (removeNode nodeId) (fun _ => Linked) (Refused t) := by
  rw [removeNode]
  apply Meets.get_bind_at
  apply Meets.refuseIf_bind_at fun _ => refused _
  intro hid
  obtain ⟨record, hnode⟩ := Option.isSome_iff_exists.mp (not_isNone hid)
  apply Meets.refuseIf_bind_at fun _ => refused _
  intro hroot
  apply meets_index_bind hnode
  apply Meets.refuseIf_bind_at fun _ => refused _
  intro hempty
  have hleaf : ∀ s, ¬ t.Occupies nodeId s := by
    rintro s ⟨record', hnode', hmem⟩
    rw [hnode, Option.some.injEq] at hnode'
    subst hnode'
    rw [ExtTreeSet.isEmpty_iff.mp (not_not.mp hempty)] at hmem
    exact ExtTreeSet.not_mem_empty hmem
  cases hparent : record.parent with
  | none =>
      rw [Transaction.forSome, pure_bind]
      have hfloat : t.Floating nodeId := by
        obtain hfloat | ⟨p, s, hlink⟩ := h.tied nodeId record.kind ⟨record, hnode, rfl⟩
        · exact hfloat
        · have hup := hlink.up
          rw [up, hnode, Option.bind_some, hparent] at hup
          cases hup
      intro _ ht
      subst ht
      exact h.eraseNode hfloat hroot hleaf
  | some parentId =>
      have hup : t.up nodeId = some parentId := by rw [up, hnode, Option.bind_some, hparent]
      obtain ⟨s, hlink⟩ := h.childOf hup
      have hslot : record.slot = some s := by
        obtain ⟨record', hnode', -, hs⟩ := hlink
        rw [hnode, Option.some.injEq] at hnode'
        rw [hnode', hs]
      rw [Transaction.forSome, hslot, unwrap, pure_bind]
      apply meets_update_bind (h.hosts _ _ _ hlink).1.isSome
      intro _ ht
      subst ht
      change Linked (eraseNode _ nodeId)
      rw [← eraseNode_unlink]
      apply (h.unlink hlink).eraseNode
      · exact (floating_unlink hlink).mpr (Or.inr rfl)
      · rw [root_unlink]
        exact hroot
      · exact fun s' hocc => hleaf s' (occupies_unlink.mp hocc).1

/-- Every call keeps the links paired, and a refused one changes nothing. -/
theorem perform_meets (h : t.Linked) (call : EditCall) :
    Meets (· = t) call.perform (fun _ => Linked) (Refused t) := by
  cases call with
  | addNode nodeId kind => exact addNode_meets h nodeId kind
  | attach parentId childId slot => exact attach_meets h parentId childId slot
  | detach childId => exact detach_meets h childId
  | moveChild childId newParentId slot => exact moveChild_meets h childId newParentId slot
  | removeNode nodeId => exact removeNode_meets h nodeId

theorem newRoot_linked (id : NodeId) : (newRoot id).Linked := by
  have hnode : ∀ x, (newRoot id).node x = if x = id then
      some { nodeId := id, kind := .node, parent := none, slot := none, children := ∅ }
      else none := by
    intro x
    exact (node_insert (t := { nodes := ∅, root := id }) id x _).trans (by simp [node])
  have hrecord : ∀ {x P}, (newRoot id).HasRecord x P ↔ x = id
      ∧ P { nodeId := id, kind := .node, parent := none, slot := none, children := ∅ } := by
    intro x P
    rw [HasRecord, hnode]
    by_cases hx : x = id
    · simp [hx]
    · simp [hx]
  have hfloat : (newRoot id).Floating id := hrecord.mpr ⟨rfl, rfl, rfl⟩
  have hchild : ∀ {c p s}, ¬ (newRoot id).ChildOf c p s := by
    intro c p s hc
    have hparent := (hrecord.mp hc).2.1
    cases hparent
  refine ⟨hfloat, ?_, ?_, ?_, ?_, ?_⟩
  · intro x kind hkind
    rw [(hrecord.mp hkind).1]
    exact Or.inl hfloat
  · intro p s
    constructor
    · intro hocc
      exact absurd (hrecord.mp hocc).2 ExtTreeSet.not_mem_empty
    · rintro ⟨c, hc⟩
      exact absurd hc hchild
  · exact fun c c' p s hc => absurd hc hchild
  · exact fun c p s hc => absurd hc hchild
  · constructor
    intro x
    constructor
    intro p hp
    rw [IsParent, up, hnode] at hp
    split at hp
    · cases hp
    · cases hp

/-- Every run of calls keeps the links paired. -/
theorem edited_linked (id : NodeId) (calls : List EditCall) :
    ((newRoot id).edited calls).Linked := by
  induction calls using List.reverseRecOn with
  | nil => exact newRoot_linked id
  | append_singleton calls call ih =>
      rw [edited, List.foldl_concat]
      have hstep := perform_meets ih call _ rfl
      rw [edited] at hstep
      split at hstep
      · rename_i heq
        rw [heq]
        exact hstep
      · rename_i heq
        rw [heq, hstep.2]
        exact ih

/-! ## Listing children -/

theorem Valid.unique (hvalid : t.Valid) {c c' p : NodeId} {s : UInt8} (h : t.ChildOf c p s)
    (h' : t.ChildOf c' p s) : c = c' := by
  obtain ⟨record, hnode, hparent, hslot⟩ := h
  obtain ⟨record', hnode', hparent', hslot'⟩ := h'
  exact hvalid.claims _ _ _ _ _ _ hnode hnode' hparent hparent' hslot hslot'

/-- A parent lists the slots that its children claim. -/
theorem Valid.mem_children (hvalid : t.Valid) {c p : NodeId} {s : UInt8} {record : NodeRecord}
    (hnode : t.node p = some record) (h : t.ChildOf c p s) : s ∈ record.children := by
  obtain ⟨crecord, hcnode, hparent, hslot⟩ := h
  obtain ⟨parent, s', hpnode, -, -, hslot', -, hmem⟩ :=
    (hvalid.nodes c crecord hcnode).link p hparent
  rw [hnode, Option.some.injEq] at hpnode
  rw [hslot, Option.some.injEq] at hslot'
  rw [hpnode, hslot']
  exact hmem

theorem Valid.childrenOf_ok (hvalid : t.Valid) {p : NodeId} {record : NodeRecord}
    (hnode : t.node p = some record) (hfilled : ∀ s ∈ record.children, ∃ c, t.ChildOf c p s) :
    ∃ children, t.childrenOf p = .ok children
      ∧ children.map (·.slot) = record.children.toList
      ∧ ∀ child, child ∈ children
        ↔ t.ChildOf child.childId p child.slot ∧ t.HasKind child.childId child.kind := by
  have hat : ∀ {s c}, t.childAt p s = some c ↔ t.ChildOf c p s := childAt_eq_some hvalid
  have hfound : ∀ s ∈ record.children.toList, ∃ child : Child,
      child.slot = s ∧ t.ChildOf child.childId p s ∧ t.HasKind child.childId child.kind := by
    intro s hs
    obtain ⟨c, hlink⟩ := hfilled s (ExtTreeSet.mem_toList.mp hs)
    obtain ⟨kind, hkind⟩ := hlink.hasKind
    exact ⟨⟨s, kind, c⟩, rfl, hlink, hkind⟩
  obtain ⟨children, hchildren⟩ := exists_forall₂ hfound
  have hslots : children.map (·.slot) = record.children.toList := by
    rw [← List.map_id record.children.toList]
    exact (map_eq_of_forall₂ (hchildren.imp fun _ _ hchild => hchild.1.symm)).symm
  refine ⟨children, ?_, hslots, ?_⟩
  · rw [childrenOf, hnode]
    apply mapM_eq_ok_iff_forall₂.mpr
    apply hchildren.imp
    rintro s child ⟨rfl, hlink, crecord, hcnode, hkind⟩
    simp only [hat.mpr hlink, hcnode, hkind]
  · intro child
    constructor
    · intro hmem
      obtain ⟨s, -, rfl, hlink, hkind⟩ := exists_of_forall₂_right hchildren hmem
      exact ⟨hlink, hkind⟩
    · rintro ⟨hlink, hkind⟩
      have hs := ExtTreeSet.mem_toList.mpr (hvalid.mem_children hnode hlink)
      obtain ⟨child', hmem, hslot, hlink', hkind'⟩ := exists_of_forall₂_left hchildren hs
      have hid := hvalid.unique hlink' hlink
      obtain ⟨record₁, hnode₁, hkind₁⟩ := hkind
      obtain ⟨record₂, hnode₂, hkind₂⟩ := hkind'
      rw [hid, hnode₁, Option.some.injEq] at hnode₂
      have heq : child' = child := by
        cases child
        cases child'
        simp_all
      exact heq ▸ hmem

/-! ## What paired links give -/

section Sound

variable (h : t.Linked)
include h

theorem Linked.childOf_of_slot {c p : NodeId} {record : NodeRecord} (hnode : t.node c = some record)
    (hparent : record.parent = some p) :
    ∃ s, record.slot = some s ∧ t.ChildOf c p s := by
  have hup : t.up c = some p := by rw [up, hnode, Option.bind_some, hparent]
  obtain ⟨s, hlink⟩ := h.childOf hup
  obtain ⟨record', hnode', hparent', hslot⟩ := hlink
  rw [hnode, Option.some.injEq] at hnode'
  subst hnode'
  exact ⟨s, hslot, record, hnode, hparent', hslot⟩

theorem Linked.slot_eq_none {c : NodeId} {record : NodeRecord} (hnode : t.node c = some record)
    (hparent : record.parent = none) : record.slot = none := by
  obtain hfloat | ⟨p, s, hlink⟩ := h.tied c record.kind ⟨record, hnode, rfl⟩
  · obtain ⟨record', hnode', -, hslot⟩ := hfloat
    rw [hnode, Option.some.injEq] at hnode'
    rw [hnode', hslot]
  · have hup := hlink.up
    rw [up, hnode, Option.bind_some, hparent] at hup
    cases hup

theorem Linked.mem_children {p : NodeId} {record : NodeRecord} (hnode : t.node p = some record)
    {s : UInt8} : s ∈ record.children ↔ ∃ c, t.ChildOf c p s := by
  rw [← h.reciprocal]
  constructor
  · exact fun hs => ⟨record, hnode, hs⟩
  · rintro ⟨record', hnode', hs⟩
    rw [hnode, Option.some.injEq] at hnode'
    exact hnode' ▸ hs

theorem Linked.children_le {p : NodeId} {record : NodeRecord} (hnode : t.node p = some record)
    {s : UInt8} (hs : s ∈ record.children) : s ≤ maxSlot := by
  obtain ⟨c, hlink⟩ := (h.mem_children hnode).mp hs
  exact (h.hosts c p s hlink).2

theorem Linked.kind_of_child {c p : NodeId} {s : UInt8} {record : NodeRecord}
    (hlink : t.ChildOf c p s) (hnode : t.node p = some record) : record.kind = .node := by
  obtain ⟨record', hnode', hkind⟩ := (h.hosts c p s hlink).1
  rw [hnode, Option.some.injEq] at hnode'
  rw [hnode', hkind]

theorem Linked.children_of_user {p : NodeId} {record : NodeRecord} (hnode : t.node p = some record)
    (hkind : record.kind = .user) : record.children = ∅ := by
  apply ExtTreeSet.ext_mem
  intro s
  constructor
  · intro hs
    obtain ⟨c, hlink⟩ := (h.mem_children hnode).mp hs
    rw [h.kind_of_child hlink hnode] at hkind
    cases hkind
  · exact fun hs => absurd hs ExtTreeSet.not_mem_empty

/-- Eight slots at most are taken. -/
theorem Linked.size_children_le {p : NodeId} {record : NodeRecord}
    (hnode : t.node p = some record) : record.children.size ≤ 8 := by
  have hnodup : (record.children.toList.map UInt8.toNat).Nodup := by
    apply List.Nodup.map fun a b hab => UInt8.toNat_inj.mp hab
    exact record.children.ordered_toList.imp fun {a b} hlt heq => by
      subst heq
      simp at hlt
  have hsub : record.children.toList.map UInt8.toNat ⊆ List.range 8 := by
    intro n hn
    obtain ⟨s, hs, rfl⟩ := List.mem_map.mp hn
    have hle := h.children_le hnode (ExtTreeSet.mem_toList.mp hs)
    exact List.mem_range.mpr (Nat.lt_succ_of_le (UInt8.le_iff_toNat_le.mp hle))
  have hlen := (List.subperm_of_subset hnodup hsub).length_le
  rwa [List.length_map, ExtTreeSet.length_toList, List.length_range] at hlen

/-- A walk does not fail: what it has seen lies below where it is. -/
theorem Linked.walkLoop_ok {start cur : NodeId} {fuel : ℕ} {seen : List NodeId} {acc : List UInt8}
    (hcur : (t.node cur).isSome) (hnodup : seen.Nodup) (hmem : ∀ x ∈ seen, x ∈ t.nodeIds)
    (hbelow : ∀ x ∈ seen, Relation.TransGen (IsParent t.up) cur x)
    (hfuel : t.nodeCount < seen.length + fuel) :
    ∃ res, t.walkLoop start fuel seen cur acc = .ok res := by
  induction fuel generalizing cur seen acc with
  | zero =>
      have hlen := (List.subperm_of_subset hnodup hmem).length_le
      have hcount : t.nodeIds.length = t.nodeCount := ExtTreeMap.length_keys
      omega
  | succ fuel ih =>
      obtain ⟨record, hnode⟩ := Option.isSome_iff_exists.mp hcur
      have hfresh : cur ∉ seen := fun hin => h.acyclic.irrefl cur (hbelow cur hin)
      rw [walkLoop, if_neg hfresh]
      simp only [hnode]
      cases hparent : record.parent with
      | none => exact ⟨_, rfl⟩
      | some p =>
          obtain ⟨s, hslot, hlink⟩ := h.childOf_of_slot hnode hparent
          have hs := (h.hosts _ _ _ hlink).2
          have hstep : Relation.TransGen (IsParent t.up) p cur := .single hlink.up
          simp only [hslot]
          rw [if_neg (UInt8.not_lt.mpr hs)]
          apply ih (h.parent_isSome hnode hparent)
          · exact List.nodup_cons.mpr ⟨hfresh, hnodup⟩
          · exact List.forall_mem_cons.mpr ⟨mem_nodeIds_iff.mpr ⟨record, hnode⟩, hmem⟩
          · exact List.forall_mem_cons.mpr ⟨hstep, fun x hx => hstep.trans (hbelow x hx)⟩
          · rw [List.length_cons]
            omega

theorem Linked.walkChain_ok {id : NodeId} (hid : (t.node id).isSome) :
    ∃ res, t.walkChain id = .ok res := by
  apply h.walkLoop_ok hid List.nodup_nil
  · simp
  · simp
  · simp

/-- Paired links have the facts that validation establishes. -/
theorem Linked.valid : t.Valid where
  root := by
    obtain ⟨record, hnode, hparent, -⟩ := h.root
    exact ⟨record, hnode, hparent⟩
  nodes := by
    intro id record hnode
    refine ⟨?_, ?_, h.slot_eq_none hnode⟩
    · intro hkind
      rw [h.children_of_user hnode hkind]
      rfl
    · intro p hparent
      obtain ⟨s, hslot, hlink⟩ := h.childOf_of_slot hnode hparent
      obtain ⟨⟨parent, hnode', hkind⟩, hs⟩ := h.hosts _ _ _ hlink
      refine ⟨parent, s, hnode', hkind, ?_, hslot, hs, (h.mem_children hnode').mpr ⟨id, hlink⟩⟩
      rintro rfl
      exact h.acyclic.irrefl p (.single hlink.up)
  claims := by
    intro id record id' record' p s hnode hnode' hparent hparent' hslot hslot'
    exact h.unique id id' p s ⟨record, hnode, hparent, hslot⟩ ⟨record', hnode', hparent', hslot'⟩
  walks := by
    intro id record hnode
    exact h.walkChain_ok (Option.isSome_iff_exists.mpr ⟨record, hnode⟩)

theorem Linked.checkNode_ok {claims : List (NodeId × UInt8)} {id : NodeId} {record : NodeRecord}
    (hnode : t.node id = some record)
    (hfresh : ∀ p s, t.ChildOf id p s → (p, s) ∉ claims) :
    ∃ claims', t.checkNode claims id record = .ok claims'
      ∧ ∀ p s, (p, s) ∈ claims' → (p, s) ∈ claims ∨ t.ChildOf id p s := by
  have hchildless : ¬ (record.kind = .user ∧ record.children.toList ≠ []) := by
    rintro ⟨hkind, hne⟩
    exact hne ((h.valid.nodes id record hnode).childless hkind)
  have hrange : record.children.toList.find? (fun s => decide (s > maxSlot)) = none := by
    apply List.find?_eq_none.mpr
    intro s hs
    have hle := h.children_le hnode (ExtTreeSet.mem_toList.mp hs)
    simpa using hle
  rw [checkNode, if_neg hchildless, if_neg (Nat.not_lt.mpr (h.size_children_le hnode))]
  simp only [hrange]
  cases hparent : record.parent with
  | none =>
      refine ⟨claims, ?_, fun p s hmem => Or.inl hmem⟩
      rw [h.slot_eq_none hnode hparent]
      rfl
  | some p =>
      obtain ⟨s, hslot, hlink⟩ := h.childOf_of_slot hnode hparent
      obtain ⟨parent, s', hnode', hkind, hne, hslot', hs, hmem⟩ :=
        (h.valid.nodes id record hnode).link p hparent
      rw [hslot, Option.some.injEq] at hslot'
      subst hslot'
      refine ⟨(p, s) :: claims, ?_, ?_⟩
      · simp only [hnode', hslot]
        rw [if_neg (not_not.mpr hkind), if_neg hne, if_neg (UInt8.not_lt.mpr hs),
          if_neg (by simpa using hmem), if_neg (hfresh p s hlink)]
      · intro q s' hq
        obtain heq | hold := List.mem_cons.mp hq
        · obtain ⟨rfl, rfl⟩ := Prod.mk.inj heq
          exact Or.inr hlink
        · exact Or.inl hold

def ClaimsFrom (t : Topology) (done : List (NodeId × NodeRecord))
    (claims : List (NodeId × UInt8)) : Prop :=
  ∀ p s, (p, s) ∈ claims → ∃ e ∈ done, t.ChildOf e.1 p s

def SeenFrom (t : Topology) (done : List NodeId) (seen : List OctAddr) : Prop :=
  ∀ a ∈ seen, ∃ id ∈ done, Chain t id a.digits

/-- The structural checks of `validate` pass at every node. -/
theorem Linked.claims_ok : ∃ claims, t.nodes.toList.foldlM
    (fun claims (id, record) => t.checkNode claims id record) [] = .ok claims := by
  have hkeys : (t.nodes.toList.map Prod.fst).Nodup := by
    rw [ExtTreeMap.map_fst_toList_eq_keys]
    exact ExtTreeMap.nodup_keys
  have hfold : ∃ claims, t.nodes.toList.foldlM
      (fun claims (e : NodeId × NodeRecord) => t.checkNode claims e.1 e.2) [] = .ok claims
      ∧ t.ClaimsFrom t.nodes.toList claims := by
    apply foldlM_exists_of_prefix
    · rintro done ⟨id, record⟩ rest claims hl hclaims
      have hin : (id, record) ∈ t.nodes.toList := by simp [hl]
      have hnew : ∀ e ∈ done, e.1 ≠ id := by
        intro e he
        rw [hl, List.map_append, List.map_cons, List.nodup_append] at hkeys
        exact hkeys.2.2 e.1 (List.mem_map_of_mem he) id List.mem_cons_self
      have hfresh : ∀ p s, t.ChildOf id p s → (p, s) ∉ claims := by
        intro p s hlink hmem
        obtain ⟨e, he, hlink'⟩ := hclaims p s hmem
        exact hnew e he (h.unique _ _ p s hlink' hlink)
      obtain ⟨claims', hok, hsub⟩ := h.checkNode_ok (mem_toList_iff_node.mp hin) hfresh
      refine ⟨claims', hok, ?_⟩
      intro p s hmem
      obtain hold | hlink := hsub p s hmem
      · obtain ⟨e, he, hlink⟩ := hclaims p s hold
        exact ⟨e, List.mem_append_left _ he, hlink⟩
      · exact ⟨(id, record), by simp, hlink⟩
    · intro p s hmem
      cases hmem
  obtain ⟨claims, hok, -⟩ := hfold
  exact ⟨claims, hok⟩

/-- One address check passes, and adds the address of a node on the tree of the root. -/
theorem Linked.checkAddress_ok {done : List NodeId} {seen : List OctAddr} {id : NodeId}
    (hid : id ∈ t.nodeIds) (hnew : id ∉ done) (hseen : t.SeenFrom done seen) :
    ∃ seen', t.checkAddress seen id = .ok seen' ∧ t.SeenFrom (done ++ [id]) seen' := by
  have hkeep : t.SeenFrom (done ++ [id]) seen := by
    intro a ha
    obtain ⟨id', hid', hchain⟩ := hseen a ha
    exact ⟨id', List.mem_append_left _ hid', hchain⟩
  obtain ⟨record, hnode⟩ := mem_nodeIds_iff.mp hid
  obtain ⟨⟨top, slots⟩, hwalk⟩ := h.valid.walks id record hnode
  rw [checkAddress, hwalk]
  cases top with
  | unattached => exact ⟨seen, rfl, hkeep⟩
  | root =>
      obtain ⟨digits, hchain, hdigits, -⟩ := walkLoop_root hwalk
      rw [List.reverse_nil, List.append_nil] at hdigits
      obtain ⟨addr, haddr⟩ := hchain.exists_addr
      have hfresh : addr ∉ seen := by
        intro hmem
        obtain ⟨id', hid', hchain'⟩ := hseen addr hmem
        rw [haddr] at hchain'
        exact hnew (hchain.injective h.valid hchain' ▸ hid')
      have hfrom : OctAddr.fromDigits (chainDigits slots) = some addr := by
        rw [OctAddr.fromDigits_eq_some, hdigits, haddr]
      refine ⟨addr :: seen, ?_, ?_⟩
      · rw [bind_eq_ok]
        exact ⟨(.root, slots), rfl, by simp only [hfrom, if_neg hfresh]; rfl⟩
      · intro a ha
        obtain rfl | hold := List.mem_cons.mp ha
        · exact ⟨id, by simp, haddr ▸ hchain⟩
        · exact hkeep a hold

/-- The address checks of `validate` pass. -/
theorem Linked.addresses_ok : ∃ seen, t.nodeIds.foldlM t.checkAddress [] = .ok seen := by
  have hfold : ∃ seen, t.nodeIds.foldlM t.checkAddress [] = .ok seen
      ∧ t.SeenFrom t.nodeIds seen := by
    apply foldlM_exists_of_prefix
    · intro done id rest seen hl hseen
      have hid : id ∈ t.nodeIds := by simp [hl]
      have hnodup : t.nodeIds.Nodup := ExtTreeMap.nodup_keys
      rw [hl, List.nodup_append] at hnodup
      exact h.checkAddress_ok hid
        (fun hmem => hnodup.2.2 id hmem id List.mem_cons_self rfl) hseen
    · intro a ha
      cases ha
  obtain ⟨seen, hok, -⟩ := hfold
  exact ⟨seen, hok⟩

/-- `validate` accepts a topology whose links are paired. -/
theorem Linked.validates : t.validate = .ok () := by
  obtain ⟨claims, hclaims⟩ := h.claims_ok
  obtain ⟨seen, hseen⟩ := h.addresses_ok
  obtain ⟨root, hnode, hparent, hslot⟩ := h.root
  rw [validate, hnode]
  simp only [hparent, hslot, Option.isSome_none, Bool.or_self, Bool.false_eq_true, ↓reduceIte]
  rw [bind_eq_ok]
  exact ⟨claims, hclaims, bind_eq_ok.mpr ⟨seen, hseen, rfl⟩⟩

theorem Linked.childrenOf_ok {p : NodeId} {record : NodeRecord} (hnode : t.node p = some record) :
    ∃ children, t.childrenOf p = .ok children
      ∧ children.map (·.slot) = record.children.toList
      ∧ ∀ child, child ∈ children
        ↔ t.ChildOf child.childId p child.slot ∧ t.HasKind child.childId child.kind :=
  h.valid.childrenOf_ok hnode fun _ hs => (h.mem_children hnode).mp hs

end Sound

/-- What a topology satisfies after every call. -/
structure Invariant (t : Topology) : Prop where
  validates : t.validate = .ok ()
  acyclic : ∀ id, ¬ Relation.TransGen (IsParent t.up) id id
  parents : ∀ c p, t.up c = some p → ∃ s, t.ChildOf c p s
  distinct : ∀ c c' p s, t.ChildOf c p s → t.ChildOf c' p s → c = c'
  slots : ∀ p record, t.node p = some record →
    ∀ s, s ∈ record.children ↔ ∃ c, t.ChildOf c p s
  bounded : ∀ p record, t.node p = some record →
    record.children.size ≤ 8 ∧ ∀ s ∈ record.children, s ≤ maxSlot
  users : ∀ p record, t.node p = some record → record.kind = .user →
    record.children = ∅ ∧ ∀ c, t.up c ≠ some p
  children : ∀ p record, t.node p = some record → ∃ children, t.childrenOf p = .ok children
    ∧ (children.map (·.slot)).Pairwise (· < ·)
    ∧ ∀ child, child ∈ children
        ↔ t.ChildOf child.childId p child.slot ∧ t.HasKind child.childId child.kind
  -- The `expect` of `address_of` and `validate` is not reached.
  digits : ∀ id slots, t.walkChain id = .ok (.root, slots) →
    (OctAddr.fromDigits (chainDigits slots)).isSome

theorem Linked.invariant (h : t.Linked) : t.Invariant where
  validates := h.validates
  acyclic := h.acyclic.irrefl
  parents := fun c p hup => h.childOf hup
  distinct := h.unique
  slots := fun p record hnode s => h.mem_children hnode
  bounded := fun p record hnode => ⟨h.size_children_le hnode, fun s hs => h.children_le hnode hs⟩
  users := by
    intro p record hnode hkind
    refine ⟨h.children_of_user hnode hkind, ?_⟩
    intro c hup
    obtain ⟨s, hlink⟩ := h.childOf hup
    rw [h.kind_of_child hlink hnode] at hkind
    cases hkind
  children := by
    intro p record hnode
    obtain ⟨children, hok, hslots, hmem⟩ := h.childrenOf_ok hnode
    refine ⟨children, hok, ?_, hmem⟩
    rw [hslots]
    exact record.children.ordered_toList.imp fun hlt => Std.compare_eq_lt.mp hlt
  digits := by
    intro id slots hwalk
    obtain ⟨digits, hchain, hdigits, -⟩ := walkLoop_root hwalk
    rw [List.reverse_nil, List.append_nil] at hdigits
    obtain ⟨addr, haddr⟩ := hchain.exists_addr
    exact Option.isSome_iff_exists.mpr
      ⟨addr, OctAddr.fromDigits_eq_some.mpr (haddr.trans hdigits.symm)⟩

/-- After any calls on a new topology, whatever their arguments, the invariant holds; the
next call does not panic, and if it fails it changes nothing. -/
theorem topology_invariant (rootId : NodeId) (calls : List EditCall) (call : EditCall) :
    ((newRoot rootId).edited calls).Invariant
      ∧ (exec call.perform ((newRoot rootId).edited calls)).1 ≠ .error .panicked
      ∧ ∀ e, (exec call.perform ((newRoot rootId).edited calls)).1 = .error e →
          (exec call.perform ((newRoot rootId).edited calls)).2
            = (newRoot rootId).edited calls := by
  have hlinked := edited_linked rootId calls
  have hstep := perform_meets hlinked call _ rfl
  refine ⟨hlinked.invariant, ?_, ?_⟩
  · intro hpanic
    split at hstep
    · rename_i heq
      rw [heq] at hpanic
      cases hpanic
    · rename_i heq
      rw [heq, Except.error.injEq] at hpanic
      obtain ⟨⟨err, herr⟩, -⟩ := hstep
      rw [hpanic] at herr
      cases herr
  · intro e herror
    split at hstep
    · rename_i heq
      rw [heq] at herror
      cases herror
    · rename_i heq
      rw [heq]
      exact hstep.2

end Topology

end Cawala
