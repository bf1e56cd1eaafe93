import Cawala.Verification.Route
import Cawala.Verification.TopologyEdit

/-! # Addresses and ancestors

The address of a node spells its chain of links to the root. So the order of prefixes on
addresses is the order of ancestors on nodes, and the longest common prefix of two addresses
is the address of the deepest common ancestor. -/

namespace Cawala.Topology

open Library

variable {t : Topology}

/-! ## Chains and ancestors -/

theorem Chain.root_above {id : NodeId} {digits : List UInt8} (h : Chain t id digits) :
    AtOrAbove t.up t.root id := by
  induction h with
  | root h hnone => exact .refl t.root
  | child h hparent hslot hs hchain ih =>
      apply ih.step
      rw [Topology.up, h, Option.bind_some, hparent]

/-- What lies above a node with a chain has a chain, a prefix of the node's. -/
theorem Chain.of_above {anc id : NodeId} {digits : List UInt8} (h : AtOrAbove t.up anc id)
    (hchain : Chain t id digits) : ∃ p, Chain t anc p ∧ p <+: digits := by
  induction h generalizing digits with
  | refl => exact ⟨digits, hchain, List.prefix_rfl⟩
  | tail _ hup ih =>
      obtain ⟨record, hnode, hparent⟩ := Option.bind_eq_some_iff.mp hup
      obtain ⟨s, front, -, rfl, hfront⟩ := hchain.of_parent hnode hparent
      obtain ⟨p, hp, hle⟩ := ih hfront
      exact ⟨p, hp, hle.trans (List.prefix_append _ _)⟩

theorem Chain.prefix_iff (hvalid : t.Valid) {anc id : NodeId} {p digits : List UInt8}
    (hanc : Chain t anc p) (h : Chain t id digits) : p <+: digits ↔ AtOrAbove t.up anc id := by
  constructor
  · intro hle
    induction h with
    | root h hnone =>
        obtain rfl : p = [0] := (prefix_singleton_iff.mp hle).resolve_right hanc.ne_nil
        obtain rfl := hanc.injective hvalid (.root h hnone)
        exact .refl _
    | child h hparent hslot hs hchain ih =>
        rcases List.prefix_concat_iff.mp hle with rfl | hle
        · obtain rfl := hanc.injective hvalid (.child h hparent hslot hs hchain)
          exact .refl _
        · apply (ih hle).step
          rw [Topology.up, h, Option.bind_some, hparent]
  · intro habove
    obtain ⟨p', hanc', hle⟩ := Chain.of_above habove h
    rwa [hanc.unique hanc']

theorem Linked.chain_of_below (h : t.Linked) {id : NodeId} (hbelow : AtOrAbove t.up t.root id) :
    ∃ digits, Chain t id digits := by
  induction hbelow with
  | refl =>
      obtain ⟨record, hnode, hparent, -⟩ := h.root
      exact ⟨[0], .root hnode hparent⟩
  | tail _ hup ih =>
      obtain ⟨digits, hchain⟩ := ih
      obtain ⟨s, hlink⟩ := h.childOf hup
      have hs := (h.hosts _ _ _ hlink).2
      obtain ⟨record, hnode, hparent, hslot⟩ := hlink
      exact ⟨digits ++ [s], .child hnode hparent hslot hs hchain⟩

/-! ## The law -/

def Connected (t : Topology) (id : NodeId) : Prop := AtOrAbove t.up t.root id

structure DeepestCommon (t : Topology) (id id' c : NodeId) : Prop where
  left : AtOrAbove t.up c id
  right : AtOrAbove t.up c id'
  deepest : ∀ d, AtOrAbove t.up d id → AtOrAbove t.up d id' → AtOrAbove t.up d c

variable [Crypto]

/-- Addresses and parent links tell the same story. -/
structure AddressLaw (t : Topology) : Prop where
  defined : ∀ id, (∃ a, t.addressOf id = .ok a) ↔ t.Connected id
  injective : ∀ id id' a, t.addressOf id = .ok a → t.addressOf id' = .ok a → id = id'
  ancestry : ∀ id id' a a', t.addressOf id = .ok a → t.addressOf id' = .ok a' →
    (a.isAncestorOf a' = true ↔ Relation.TransGen (IsParent t.up) id id')
  common : ∀ id id' a a', t.addressOf id = .ok a → t.addressOf id' = .ok a' →
    ∃ c, t.addressOf c = .ok (a.lca a') ∧ nodeAtAddress t (a.lca a') = .ok c
      ∧ t.DeepestCommon id id' c

theorem Linked.addressLaw (h : t.Linked) : t.AddressLaw where
  defined := by
    intro id
    constructor
    · intro hdefined
      obtain ⟨a, ha⟩ := hdefined
      exact ((addressOf_eq_ok h.valid).mp ha).root_above
    · intro hbelow
      obtain ⟨digits, hchain⟩ := h.chain_of_below hbelow
      obtain ⟨a, rfl⟩ := hchain.exists_addr
      exact ⟨a, (addressOf_eq_ok h.valid).mpr hchain⟩
  injective := by
    intro id id' a ha ha'
    exact ((addressOf_eq_ok h.valid).mp ha).injective h.valid ((addressOf_eq_ok h.valid).mp ha')
  ancestry := by
    intro id id' a a' ha ha'
    have hchain := (addressOf_eq_ok h.valid).mp ha
    have hchain' := (addressOf_eq_ok h.valid).mp ha'
    rw [OctAddr.isAncestorOf_iff, hchain.prefix_iff h.valid hchain']
    constructor
    · intro hstrict
      obtain ⟨habove, hne⟩ := hstrict
      rcases Relation.reflTransGen_iff_eq_or_transGen.mp habove with rfl | hstep
      · exact absurd (OctAddr.ext (hchain.unique hchain')) hne
      · exact hstep
    · intro hstep
      refine ⟨hstep.to_reflTransGen, ?_⟩
      rintro rfl
      rw [hchain.injective h.valid hchain'] at hstep
      exact h.acyclic.irrefl _ hstep
  common := by
    intro id id' a a' ha ha'
    have hchain := (addressOf_eq_ok h.valid).mp ha
    have hchain' := (addressOf_eq_ok h.valid).mp ha'
    have hmeet := OctAddr.lca_digits a a'
    obtain ⟨c, hc⟩ := hchain.of_le (hmeet ▸ meet_le_left a.digits a'.digits)
      (a.lca a').digits_ne_nil
    refine ⟨c, (addressOf_eq_ok h.valid).mpr hc, (nodeAtAddress_eq_ok h.valid).mpr hc, ?_, ?_, ?_⟩
    · exact (hc.prefix_iff h.valid hchain).mp (hmeet ▸ meet_le_left _ _)
    · exact (hc.prefix_iff h.valid hchain').mp (hmeet ▸ meet_le_right _ _)
    · intro d hd hd'
      obtain ⟨p, hp, hle⟩ := Chain.of_above hd hchain
      have hle' := (hp.prefix_iff h.valid hchain').mpr hd'
      exact (hp.prefix_iff h.valid hc).mp (hmeet ▸ le_meet_iff.mpr ⟨hle, hle'⟩)

/-- On every topology that calls on a new one reach, exactly the nodes connected to the root
have an address, no two share one, one is a strict prefix of another exactly when its node is
a strict ancestor, and the common prefix of two is the address of their deepest common
ancestor, which the planner finds. -/
theorem address_law (rootId : NodeId) (calls : List EditCall) :
    ((newRoot rootId).edited calls).AddressLaw :=
  (edited_linked rootId calls).addressLaw

end Cawala.Topology
