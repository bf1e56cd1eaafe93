import Cawala.Library.Except
import Cawala.Library.PathRoute
import Cawala.Library.TreeMap
import Cawala.Model.Topology

/-! # Validated topologies

What `validate` establishes, the chain of a node to the root, and the address it spells. -/

namespace Cawala

open Std (ExtTreeMap ExtTreeSet)
open Library

theorem OctAddr.fromDigits_eq_some {digits : List UInt8} {a : OctAddr} :
    OctAddr.fromDigits digits = some a ↔ a.digits = digits := by
  unfold OctAddr.fromDigits
  split
  · rw [Option.some.injEq]
    constructor
    · intro h
      rw [← h]
    · intro h
      exact OctAddr.ext h.symm
  · rename_i hnot
    simp only [reduceCtorEq, false_iff]
    rintro rfl
    exact hnot ⟨a.rooted, a.inRange⟩

namespace Topology

variable {t : Topology}

/-! ## What validation establishes -/

structure NodeOk (t : Topology) (id : NodeId) (record : NodeRecord) : Prop where
  childless : record.kind = .user → record.children.toList = []
  link : ∀ p, record.parent = some p → ∃ parent s, t.node p = some parent
    ∧ parent.kind = .node ∧ p ≠ id ∧ record.slot = some s ∧ s ≤ maxSlot ∧ s ∈ parent.children
  unlinked : record.parent = none → record.slot = none

/-- The facts of a validated topology. -/
structure Valid (t : Topology) : Prop where
  root : ∃ record, t.node t.root = some record ∧ record.parent = none
  nodes : ∀ id record, t.node id = some record → NodeOk t id record
  claims : ∀ id record id' record' p s, t.node id = some record → t.node id' = some record' →
    record.parent = some p → record'.parent = some p → record.slot = some s →
    record'.slot = some s → id = id'
  walks : ∀ id record, t.node id = some record → ∃ res, t.walkChain id = .ok res

theorem checkNode_spec {claims claims' : List (NodeId × UInt8)} {id : NodeId}
    {record : NodeRecord} (h : t.checkNode claims id record = .ok claims') :
    NodeOk t id record ∧ claims ⊆ claims'
      ∧ ∀ p s, record.parent = some p → record.slot = some s →
          (p, s) ∉ claims ∧ (p, s) ∈ claims' := by
  simp only [checkNode, ite_error_eq_ok, not_and, not_not] at h
  obtain ⟨hchildless, -, h⟩ := h
  split at h
  · cases h
  · split at h
    · rename_i hparent
      simp only [ite_error_eq_ok, Except.ok.injEq, Bool.not_eq_true, Option.isSome_eq_false_iff,
        Option.isNone_iff_eq_none] at h
      obtain ⟨hslot, rfl⟩ := h
      refine ⟨⟨hchildless, by simp [hparent], fun _ => hslot⟩, fun c hc => hc, ?_⟩
      simp [hparent]
    · rename_i parentId hparent
      split at h
      · cases h
      · rename_i parent hnode
        simp only [ite_error_eq_ok, not_not] at h
        obtain ⟨hkind, hself, h⟩ := h
        split at h
        · cases h
        · rename_i s hslot
          simp only [ite_error_eq_ok, Except.ok.injEq, Bool.not_eq_true', Bool.not_eq_false] at h
          obtain ⟨hrange, hmem, hfresh, rfl⟩ := h
          refine ⟨⟨hchildless, ?_, by simp [hparent]⟩, List.subset_cons_self _ _, ?_⟩
          · intro p hp
            rw [hparent, Option.some.injEq] at hp
            subst hp
            refine ⟨parent, s, hnode, hkind, hself, hslot, ?_, ?_⟩
            · simpa using hrange
            · simpa using hmem
          · intro p s' hp hs'
            rw [hparent, Option.some.injEq] at hp
            rw [hslot, Option.some.injEq] at hs'
            subst hp hs'
            exact ⟨hfresh, List.mem_cons_self⟩

theorem mem_toList_iff_node {id : NodeId} {record : NodeRecord} :
    (id, record) ∈ t.nodes.toList ↔ t.node id = some record :=
  ExtTreeMap.mem_toList_iff_getElem?_eq_some

theorem mem_nodeIds_iff {id : NodeId} : id ∈ t.nodeIds ↔ ∃ record, t.node id = some record := by
  rw [nodeIds, ExtTreeMap.mem_keys, ExtTreeMap.mem_iff_isSome_getElem?, Option.isSome_iff_exists]
  rfl

structure Claimed (done : List (NodeId × NodeRecord)) (claims : List (NodeId × UInt8)) : Prop where
  mem : ∀ e ∈ done, ∀ p s, e.2.parent = some p → e.2.slot = some s → (p, s) ∈ claims
  unique : ∀ e ∈ done, ∀ e' ∈ done, ∀ p s, e.2.parent = some p → e'.2.parent = some p →
    e.2.slot = some s → e'.2.slot = some s → e = e'

theorem Claimed.snoc {done : List (NodeId × NodeRecord)} {claims claims' : List (NodeId × UInt8)}
    {e : NodeId × NodeRecord} (h : Claimed done claims)
    (hstep : t.checkNode claims e.1 e.2 = .ok claims') : Claimed (done ++ [e]) claims' := by
  obtain ⟨-, hsub, hclaim⟩ := checkNode_spec hstep
  refine ⟨?_, ?_⟩
  · intro e' he' p s hp hs
    rcases List.mem_append.mp he' with he' | he'
    · exact hsub (h.mem e' he' p s hp hs)
    · obtain rfl := List.mem_singleton.mp he'
      exact (hclaim p s hp hs).2
  · intro e₁ he₁ e₂ he₂ p s hp₁ hp₂ hs₁ hs₂
    rw [List.mem_append, List.mem_singleton] at he₁ he₂
    rcases he₁ with hold₁ | rfl
    · rcases he₂ with hold₂ | rfl
      · exact h.unique e₁ hold₁ e₂ hold₂ p s hp₁ hp₂ hs₁ hs₂
      · exact absurd (h.mem e₁ hold₁ p s hp₁ hs₁) (hclaim p s hp₂ hs₂).1
    · rcases he₂ with hold₂ | rfl
      · exact absurd (h.mem e₂ hold₂ p s hp₂ hs₂) (hclaim p s hp₁ hs₁).1
      · rfl

theorem validate_spec (h : t.validate = .ok ()) : t.Valid := by
  unfold validate at h
  split at h
  · cases h
  · rename_i record hroot
    simp only [ite_error_eq_ok, bind_eq_ok, pure_eq_ok] at h
    obtain ⟨hparent, claims, hclaims, seen, hseen, -⟩ := h
    refine ⟨⟨record, hroot, ?_⟩, ?_, ?_, ?_⟩
    · simp only [Bool.or_eq_true, not_or, Bool.not_eq_true, Option.isSome_eq_false_iff,
        Option.isNone_iff_eq_none] at hparent
      exact hparent.1
    · intro id rec hid
      obtain ⟨s₁, s₂, hstep⟩ := foldlM_step_of_mem hclaims (mem_toList_iff_node.mpr hid)
      exact (checkNode_spec hstep).1
    · intro id rec id' rec' p s hid hid' hp hp' hs hs'
      have hinv : Claimed t.nodes.toList claims := by
        have := foldlM_induction (P := Claimed) (fun d e c c' hd hstep => hd.snoc hstep)
          (d := []) ⟨by simp, by simp⟩ hclaims
        simpa using this
      exact congrArg Prod.fst (hinv.unique (id, rec) (mem_toList_iff_node.mpr hid) (id', rec')
        (mem_toList_iff_node.mpr hid') p s hp hp' hs hs')
    · intro id rec hid
      obtain ⟨s₁, s₂, hstep⟩ := foldlM_step_of_mem hseen (mem_nodeIds_iff.mpr ⟨rec, hid⟩)
      simp only [checkAddress, bind_eq_ok] at hstep
      obtain ⟨res, hres, -⟩ := hstep
      exact ⟨res, hres⟩

/-! ## Chains to the root -/

/-- The chain of a node to the root, with the digits of the address it spells. -/
inductive Chain (t : Topology) : NodeId → List UInt8 → Prop where
  | root {record : NodeRecord} (h : t.node t.root = some record)
      (hparent : record.parent = none) : Chain t t.root [0]
  | child {id p : NodeId} {record : NodeRecord} {digits : List UInt8} {s : UInt8}
      (h : t.node id = some record) (hparent : record.parent = some p)
      (hslot : record.slot = some s) (hs : s ≤ maxSlot) (hp : Chain t p digits) :
      Chain t id (digits ++ [s])

theorem Chain.node {id : NodeId} {digits : List UInt8} (h : Chain t id digits) :
    ∃ record, t.node id = some record := by
  cases h with
  | root h _ => exact ⟨_, h⟩
  | child h _ _ _ _ => exact ⟨_, h⟩

theorem Chain.ne_nil {id : NodeId} {digits : List UInt8} (h : Chain t id digits) :
    digits ≠ [] := by
  cases h <;> simp

theorem Chain.of_parent {id p : NodeId} {record : NodeRecord} {digits : List UInt8}
    (h : Chain t id digits) (hid : t.node id = some record) (hparent : record.parent = some p) :
    ∃ s parentDigits, record.slot = some s ∧ digits = parentDigits ++ [s]
      ∧ Chain t p parentDigits := by
  cases h with
  | root h hnone =>
      rw [h, Option.some.injEq] at hid
      subst hid
      rw [hnone] at hparent
      cases hparent
  | child h hp hslot hs hchain =>
      rw [h, Option.some.injEq] at hid
      subst hid
      rw [hp, Option.some.injEq] at hparent
      subst hparent
      exact ⟨_, _, hslot, rfl, hchain⟩

theorem Chain.unique {id : NodeId} {digits digits' : List UInt8} (h : Chain t id digits)
    (h' : Chain t id digits') : digits = digits' := by
  induction h generalizing digits' with
  | root h hnone =>
      cases h' with
      | root => rfl
      | child h₂ hp _ _ _ =>
          rw [h, Option.some.injEq] at h₂
          subst h₂
          rw [hnone] at hp
          cases hp
  | child h hp hslot hs hchain ih =>
      obtain ⟨s', parentDigits, hslot', rfl, hchain'⟩ := h'.of_parent h hp
      rw [hslot, Option.some.injEq] at hslot'
      rw [ih hchain', hslot']

/-- The last step of a chain of two digits or more. -/
theorem Chain.snoc_inv {id : NodeId} {digits : List UInt8} {s : UInt8}
    (h : Chain t id (digits ++ [s])) (hne : digits ≠ []) :
    ∃ record p, t.node id = some record ∧ record.parent = some p ∧ record.slot = some s
      ∧ Chain t p digits := by
  generalize hd : digits ++ [s] = all at h
  cases h with
  | root => simp [List.append_eq_singleton_iff, hne] at hd
  | child h hp hslot hs hchain =>
      obtain ⟨rfl, hs⟩ := List.append_inj' hd rfl
      simp only [List.cons.injEq, and_true] at hs
      subst hs
      exact ⟨_, _, h, hp, hslot, hchain⟩

/-- On a validated topology, a chain belongs to one node. -/
theorem Chain.injective (hvalid : t.Valid) {id id' : NodeId} {digits : List UInt8}
    (h : Chain t id digits) (h' : Chain t id' digits) : id = id' := by
  induction h generalizing id' with
  | root h hnone =>
      generalize hd : ([0] : List UInt8) = all at h'
      cases h' with
      | root => rfl
      | child _ _ _ _ hchain => simp [List.singleton_eq_append_iff, hchain.ne_nil] at hd
  | child h hp hslot hs hchain ih =>
      obtain ⟨record', p', h₂, hp₂, hslot₂, hchain₂⟩ := h'.snoc_inv hchain.ne_nil
      obtain rfl := ih hchain₂
      exact hvalid.claims _ _ _ _ _ _ h h₂ hp hp₂ hslot hslot₂

theorem Chain.of_le {id : NodeId} {digits p : List UInt8} (h : Chain t id digits)
    (hp : p <+: digits) (hne : p ≠ []) : ∃ anc, Chain t anc p := by
  induction h with
  | root h hnone =>
      obtain rfl : p = [0] := (prefix_singleton_iff.mp hp).resolve_right hne
      exact ⟨t.root, .root h hnone⟩
  | child h hparent hslot hs hchain ih =>
      rcases List.prefix_concat_iff.mp hp with rfl | hle
      · exact ⟨_, .child h hparent hslot hs hchain⟩
      · exact ih hle

/-- A proper prefix of a chain belongs to a node of kind `Node`. -/
theorem Chain.kind_of_le (hvalid : t.Valid) {id anc : NodeId} {digits p : List UInt8}
    {record : NodeRecord} (h : Chain t id digits) (hanc : Chain t anc p) (hp : p <+: digits)
    (hne : p ≠ digits) (hrecord : t.node anc = some record) : record.kind = .node := by
  induction h with
  | root h hnone =>
      exact absurd ((prefix_singleton_iff.mp hp).resolve_right hanc.ne_nil) hne
  | @child id q rec digits s h hparent hslot hs hchain ih =>
      have hle : p <+: digits := (List.prefix_concat_iff.mp hp).resolve_left hne
      by_cases heq : p = digits
      · subst heq
        obtain rfl := hanc.injective hvalid hchain
        obtain ⟨parent, s', hnode, hkind, -⟩ := (hvalid.nodes _ _ h).link _ hparent
        rw [hrecord, Option.some.injEq] at hnode
        rw [hnode]
        exact hkind
      · exact ih hle heq

/-- The child of an ancestor on the way to a node. -/
theorem Chain.toward (hvalid : t.Valid) {id anc : NodeId} {digits p : List UInt8} {s : UInt8}
    (h : Chain t id digits) (hanc : Chain t anc p) (hp : p ++ [s] <+: digits) :
    ∃ c record, Chain t c (p ++ [s]) ∧ t.node c = some record ∧ record.parent = some anc
      ∧ record.slot = some s := by
  obtain ⟨c, hc⟩ := h.of_le hp (by simp)
  obtain ⟨record, q, hrecord, hparent, hslot, hq⟩ := hc.snoc_inv hanc.ne_nil
  obtain rfl := hq.injective hvalid hanc
  exact ⟨c, record, hc, hrecord, hparent, hslot⟩

/-! ## Walks and addresses -/

theorem walkLoop_root {start cur : NodeId} {fuel : ℕ} {seen : List NodeId}
    {acc slots : List UInt8} (h : t.walkLoop start fuel seen cur acc = .ok (.root, slots)) :
    ∃ digits, Chain t cur digits ∧ chainDigits slots = digits ++ acc.reverse
      ∧ digits.length ≤ fuel := by
  induction fuel generalizing seen cur acc with
  | zero => simp [walkLoop] at h
  | succ fuel ih =>
      simp only [walkLoop, ite_error_eq_ok] at h
      obtain ⟨-, h⟩ := h
      split at h
      · cases h
      · rename_i record hnode
        split at h
        · rename_i hnone
          simp only [Except.ok.injEq, Prod.mk.injEq, ite_eq_left_iff, reduceCtorEq, imp_false,
            not_not] at h
          obtain ⟨rfl, rfl⟩ := h
          exact ⟨[0], .root hnode hnone, by simp [chainDigits], by simp⟩
        · rename_i p hparent
          split at h
          · cases h
          · rename_i s hslot
            simp only [ite_error_eq_ok] at h
            obtain ⟨hs, h⟩ := h
            obtain ⟨digits, hchain, hdigits, hlen⟩ := ih h
            refine ⟨digits ++ [s], .child hnode hparent hslot (by simpa using hs) hchain, ?_, ?_⟩
            · simp [hdigits]
            · simp
              omega

/-- A walk along a chain that does not fail reaches the root. -/
theorem walkLoop_of_chain {start cur : NodeId} {digits : List UInt8} (hchain : Chain t cur digits)
    {fuel : ℕ} {seen : List NodeId} {acc slots : List UInt8} {top : ChainTop}
    (h : t.walkLoop start fuel seen cur acc = .ok (top, slots)) : top = .root := by
  induction hchain generalizing fuel seen acc with
  | root hroot hnone =>
      cases fuel with
      | zero => simp [walkLoop] at h
      | succ fuel =>
          simp only [walkLoop, ite_error_eq_ok, hroot, hnone, ↓reduceIte, Except.ok.injEq,
            Prod.mk.injEq] at h
          exact h.2.1.symm
  | child hnode hparent hslot hs hchain ih =>
      cases fuel with
      | zero => simp [walkLoop] at h
      | succ fuel =>
          simp only [walkLoop, ite_error_eq_ok, hnode, hparent, hslot] at h
          exact ih h.2.2

theorem walkChain_of_chain (hvalid : t.Valid) {id : NodeId} {digits : List UInt8}
    (h : Chain t id digits) :
    ∃ slots, t.walkChain id = .ok (.root, slots) ∧ chainDigits slots = digits
      ∧ digits.length ≤ t.nodeCount + 1 := by
  obtain ⟨record, hnode⟩ := h.node
  obtain ⟨⟨top, slots⟩, hwalk⟩ := hvalid.walks id record hnode
  obtain rfl := walkLoop_of_chain h hwalk
  obtain ⟨digits', hchain, hdigits, hlen⟩ := walkLoop_root hwalk
  obtain rfl := h.unique hchain
  exact ⟨slots, hwalk, by simpa using hdigits, hlen⟩

/-- On a validated topology a node has an address exactly when its chain reaches the root. -/
theorem addressOf_eq_ok (hvalid : t.Valid) {id : NodeId} {a : OctAddr} :
    t.addressOf id = .ok a ↔ Chain t id a.digits := by
  constructor
  · intro h
    simp only [addressOf, bind_eq_ok] at h
    obtain ⟨⟨top, slots⟩, hwalk, h⟩ := h
    cases top with
    | unattached => cases h
    | root =>
        obtain ⟨digits, hchain, hdigits, -⟩ := walkLoop_root hwalk
        simp only [List.reverse_nil, List.append_nil] at hdigits
        simp only at h
        split at h
        · rename_i addr haddr
          rw [Except.ok.injEq] at h
          subst h
          rw [OctAddr.fromDigits_eq_some.mp haddr, hdigits]
          exact hchain
        · cases h
  · intro h
    obtain ⟨slots, hwalk, hdigits, -⟩ := walkChain_of_chain hvalid h
    have haddr : OctAddr.fromDigits a.digits = some a := OctAddr.fromDigits_eq_some.mpr rfl
    rw [addressOf, bind_eq_ok]
    exact ⟨_, hwalk, by simp only [hdigits, haddr]⟩

theorem Chain.exists_addr {id : NodeId} {digits : List UInt8} (h : Chain t id digits) :
    ∃ addr : OctAddr, addr.digits = digits := by
  induction h with
  | root => exact ⟨OctAddr.root, rfl⟩
  | child _ _ _ hs _ ih =>
      obtain ⟨addr, rfl⟩ := ih
      exact ⟨addr.child _ hs, rfl⟩

/-! ## Children -/

/-- On a validated topology a slot finds the one child that claims it. -/
theorem childAt_eq_some (hvalid : t.Valid) {id p : NodeId} {s : UInt8} :
    t.childAt p s = some id ↔
      ∃ record, t.node id = some record ∧ record.parent = some p ∧ record.slot = some s := by
  constructor
  · intro h
    obtain ⟨⟨id', record⟩, hmem, hid⟩ := List.exists_of_findSome?_eq_some h
    simp only [Option.ite_none_right_eq_some, Option.some.injEq] at hid
    obtain ⟨⟨hparent, hslot⟩, rfl⟩ := hid
    exact ⟨record, mem_toList_iff_node.mp hmem, hparent, hslot⟩
  · rintro ⟨record, hnode, hparent, hslot⟩
    cases h : t.childAt p s with
    | none =>
        have := List.findSome?_eq_none_iff.mp h _ (mem_toList_iff_node.mpr hnode)
        simp [hparent, hslot] at this
    | some id' =>
        obtain ⟨⟨_, record'⟩, hmem, hid⟩ := List.exists_of_findSome?_eq_some h
        simp only [Option.ite_none_right_eq_some, Option.some.injEq] at hid
        obtain ⟨⟨hparent', hslot'⟩, rfl⟩ := hid
        rw [hvalid.claims _ _ _ _ _ _ (mem_toList_iff_node.mp hmem) hnode hparent' hparent
          hslot' hslot]

/-- A child of a validated topology is listed among its parent's children. -/
theorem mem_childrenOf (hvalid : t.Valid) {id p : NodeId} {record : NodeRecord} {s : UInt8}
    {children : List Child} (hnode : t.node id = some record) (hparent : record.parent = some p)
    (hslot : record.slot = some s) (h : t.childrenOf p = .ok children) :
    { slot := s, kind := record.kind, childId := id } ∈ children := by
  obtain ⟨parent, s', hp, -, -, hslot', -, hmem⟩ := (hvalid.nodes id record hnode).link p hparent
  rw [hslot, Option.some.injEq] at hslot'
  subst hslot'
  simp only [childrenOf, hp, mapM_eq_ok_iff_forall₂] at h
  obtain ⟨child, hin, hchild⟩ := exists_of_forall₂_left h (ExtTreeSet.mem_toList.mpr hmem)
  have hat : t.childAt p s = some id := (childAt_eq_some hvalid).mpr ⟨record, hnode, hparent, hslot⟩
  simp only [hat, hnode, Except.ok.injEq] at hchild
  rwa [← hchild] at hin

end Topology

end Cawala
