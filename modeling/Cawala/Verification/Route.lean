import Cawala.Model.Settlement
import Cawala.Verification.Topology

/-! # The canonical route

The hops of the planner, read off the addresses of the two users: climb from the payer's
leaf to the longest common prefix, then descend to the payee's leaf. -/

namespace Cawala

open Library
open Cawala.Topology

/-! ## Addresses as paths -/

theorem OctAddr.digits_ne_nil (a : OctAddr) : a.digits ≠ [] := by
  intro h
  have := a.rooted
  simp [h] at this

theorem OctAddr.root_le (a : OctAddr) : ([0] : List UInt8) <+: a.digits := by
  obtain ⟨rest, hrest⟩ := List.head?_eq_some_iff.mp a.rooted
  exact ⟨rest, hrest.symm⟩

theorem takeWhile_zip_eq_meet (a b : List UInt8) :
    a.take ((a.zip b).takeWhile (fun p => p.1 == p.2)).length = meet a b := by
  induction a generalizing b with
  | nil => simp [meet]
  | cons x xs ih =>
      cases b with
      | nil => simp [meet]
      | cons y ys =>
          by_cases h : x = y
          · simp [meet, h, ih]
          · simp [meet, h]

theorem OctAddr.lca_digits (a b : OctAddr) : (a.lca b).digits = meet a.digits b.digits :=
  takeWhile_zip_eq_meet a.digits b.digits

/-- The parent of an address drops its last digit. -/
theorem OctAddr.parent_eq_some {a p : OctAddr} :
    a.parent = some p ↔ ∃ s, a.digits = p.digits ++ [s] := by
  unfold OctAddr.parent
  constructor
  · intro h
    split at h
    · rename_i hpos
      rw [Option.some.injEq] at h
      subst h
      refine ⟨a.digits.getLast a.digits_ne_nil, ?_⟩
      simp only [takeDigits, depth, ← List.dropLast_eq_take, List.dropLast_append_getLast]
    · cases h
  · rintro ⟨s, hs⟩
    have hdepth : a.depth - 1 = p.digits.length := by simp [depth, hs]
    have hpos : 0 < a.depth - 1 := by
      rw [hdepth]
      exact List.length_pos_iff.mpr p.digits_ne_nil
    rw [dif_pos hpos, Option.some.injEq]
    apply OctAddr.ext
    simp [takeDigits, hdepth, hs]

theorem OctAddr.exists_parent {a : OctAddr} {d : List UInt8} {s : UInt8}
    (h : a.digits = d ++ [s]) (hne : d ≠ []) : ∃ p, a.parent = some p ∧ p.digits = d := by
  have hdepth : a.depth - 1 = d.length := by simp [OctAddr.depth, h]
  have hpos : 0 < a.depth - 1 := by
    rw [hdepth]
    exact List.length_pos_iff.mpr hne
  refine ⟨a.takeDigits (a.depth - 1) hpos, ?_, ?_⟩
  · rw [OctAddr.parent, dif_pos hpos]
  · simp [OctAddr.takeDigits, hdepth, h]

theorem OctAddr.isAncestorOf_iff {a b : OctAddr} :
    a.isAncestorOf b = true ↔ a.digits <+: b.digits ∧ a ≠ b := by
  rw [OctAddr.isAncestorOf, Bool.and_eq_true, decide_eq_true_iff, List.isPrefixOf_iff_prefix]
  unfold OctAddr.depth
  constructor
  · rintro ⟨hlt, hle⟩
    refine ⟨hle, ?_⟩
    rintro rfl
    exact absurd hlt (lt_irrefl _)
  · rintro ⟨hle, hne⟩
    refine ⟨lt_of_le_of_ne hle.length_le ?_, hle⟩
    intro hlen
    exact hne (OctAddr.ext (hle.eq_of_length hlen))

/-! ## The lookups of the planner -/

variable [Crypto] {t : Topology}

theorem unsupported_eq_ok {α : Type} {x : Except TopologyError α} {a : α} :
    unsupported x = .ok a ↔ x = .ok a := by
  cases x <;> simp [unsupported]

/-- The user is held by the leaf: a node whose children are all users. -/
structure HeldBy (t : Topology) (user leaf : NodeId) : Prop where
  user : ∃ record, t.node user = some record ∧ record.kind = .user ∧ record.parent = some leaf
  leaf : ∀ id record, t.node id = some record → record.parent = some leaf → record.kind = .user

theorem userLeaf_spec (hvalid : t.Valid) {user leaf : NodeId} (h : userLeaf t user = .ok leaf) :
    HeldBy t user leaf := by
  unfold userLeaf at h
  split at h
  · cases h
  · rename_i record hnode
    simp only [ite_error_eq_ok, not_not, bind_eq_ok, unsupported_eq_ok, Topology.parentOf, hnode,
      Except.ok.injEq] at h
    obtain ⟨hkind, parent, rfl, h⟩ := h
    split at h
    · cases h
    · rename_i p hparent
      simp only [bind_eq_ok, unsupported_eq_ok, ite_error_eq_ok, Except.ok.injEq] at h
      obtain ⟨children, hchildren, hnone, rfl⟩ := h
      refine ⟨⟨record, hnode, hkind, hparent⟩, ?_⟩
      intro id rec hid hp
      obtain ⟨-, s, -, -, -, hslot, -⟩ := (hvalid.nodes id rec hid).link _ hp
      have hmem := mem_childrenOf hvalid hid hp hslot hchildren
      cases hk : rec.kind with
      | user => rfl
      | node =>
          rw [hk] at hmem
          exact absurd (List.any_eq_true.mpr ⟨_, hmem, rfl⟩) hnone

theorem nodeAtAddress_eq_ok (hvalid : t.Valid) {addr : OctAddr} {id : NodeId} :
    nodeAtAddress t addr = .ok id ↔ Chain t id addr.digits := by
  have hfound : ∀ found, nodeAtAddress t addr = .ok found → Chain t found addr.digits := by
    intro found h
    unfold nodeAtAddress at h
    split at h
    · rename_i id' hfind
      obtain rfl := Except.ok.inj h
      have hsat := List.find?_some hfind
      split at hsat
      · rename_i a haddr
        rw [beq_iff_eq] at hsat
        exact (addressOf_eq_ok hvalid).mp (hsat ▸ haddr)
      · cases hsat
    · cases h
  constructor
  · exact hfound id
  · intro h
    cases hres : nodeAtAddress t addr with
    | ok found => rw [(hfound found hres).injective hvalid h]
    | error e =>
        unfold nodeAtAddress at hres
        split at hres
        · cases hres
        · rename_i hnone
          have hmem : id ∈ t.nodeIds := mem_nodeIds_iff.mpr h.node
          have hother := List.find?_eq_none.mp hnone id hmem
          rw [(addressOf_eq_ok hvalid).mpr h] at hother
          exact absurd (beq_self_eq_true addr) hother

/-- The loop of `path_below` collects the ancestors below the target, deepest first. -/
theorem pathBelowLoop_eq_ok (hvalid : t.Valid) {lca cur : NodeId} {c d : List UInt8}
    (hlca : Chain t lca c) (hcur : Chain t cur d) (hle : c <+: d) {fuel : ℕ}
    (hfuel : d.length < c.length + fuel) (out : List NodeId) :
    ∃ nodes, pathBelowLoop t lca fuel cur out = .ok (out ++ nodes)
      ∧ List.Forall₂ (Chain t) nodes (below c.length d) := by
  induction fuel generalizing cur d out with
  | zero =>
      have := hle.length_le
      omega
  | succ fuel ih =>
      unfold pathBelowLoop
      by_cases heq : cur = lca
      · subst heq
        obtain rfl := hcur.unique hlca
        exact ⟨[], by simp, by simp [below_of_length_le]⟩
      · rw [if_neg heq]
        cases hcur with
        | root h hnone =>
            -- Only the root itself has a chain of one digit.
            obtain rfl := (prefix_singleton_iff.mp hle).resolve_right hlca.ne_nil
            exact absurd ((Chain.root h hnone).injective hvalid hlca) heq
        | @child _ p record d s h hparent hslot hs hp =>
            have hle' : c <+: d := by
              refine (List.prefix_concat_iff.mp hle).resolve_left ?_
              rintro rfl
              exact heq ((Chain.child h hparent hslot hs hp).injective hvalid hlca)
            have hfuel' : d.length < c.length + fuel := by
              simp only [List.length_append, List.length_singleton] at hfuel
              omega
            obtain ⟨nodes, hnodes, hchains⟩ := ih hp hle' hfuel' (out ++ [cur])
            refine ⟨cur :: nodes, ?_, ?_⟩
            · simp only [bind_eq_ok, unsupported_eq_ok, Topology.parentOf, h, Except.ok.injEq]
              exact ⟨_, rfl, by simp [hparent, hnodes]⟩
            · rw [below_snoc hle'.length_le]
              exact .cons (.child h hparent hslot hs hp) hchains

theorem pathBelow_eq_ok (hvalid : t.Valid) {lca leaf : NodeId} {c d : List UInt8}
    (hlca : Chain t lca c) (hleaf : Chain t leaf d) (hle : c <+: d) :
    ∃ nodes, pathBelow t leaf lca = .ok nodes
      ∧ List.Forall₂ (Chain t) nodes (below c.length d) := by
  obtain ⟨-, -, -, hlen⟩ := walkChain_of_chain hvalid hleaf
  have hpos : 0 < c.length := List.length_pos_iff.mpr hlca.ne_nil
  have hfuel : d.length < c.length + (t.nodeCount + 1) := by omega
  simpa [pathBelow] using pathBelowLoop_eq_ok hvalid hlca hleaf hle hfuel []

/-! ## The hops of the planner -/

/-- The hop of the node at a path, on the route between two user addresses. -/
inductive HopAt (t : Topology) (src dst : List UInt8) : ExpectedHop → List UInt8 → Prop where
  | ascend {node child : NodeId} {d : List UInt8} {s : UInt8} (hnode : Chain t node d)
      (hchild : Chain t child (d ++ [s])) (hsrc : d ++ [s] <+: src) (hdst : ¬ d <+: dst) :
      HopAt t src dst ⟨node, .ascend, .parent, .child child⟩ d
  | lca {node child child' : NodeId} {d : List UInt8} {s s' : UInt8} (hnode : Chain t node d)
      (hchild : Chain t child (d ++ [s])) (hsrc : d ++ [s] <+: src)
      (hchild' : Chain t child' (d ++ [s'])) (hdst : d ++ [s'] <+: dst) (hne : s ≠ s') :
      HopAt t src dst ⟨node, .lca, .child child, .child child'⟩ d
  | descend {node child : NodeId} {d : List UInt8} {s : UInt8} (hnode : Chain t node d)
      (hchild : Chain t child (d ++ [s])) (hdst : d ++ [s] <+: dst) (hsrc : ¬ d <+: src) :
      HopAt t src dst ⟨node, .descend, .parent, .child child⟩ d

omit [Crypto] in
theorem HopAt.signer {src dst : List UInt8} {hop : ExpectedHop} {d : List UInt8}
    (h : HopAt t src dst hop d) : Chain t hop.signer d := by
  cases h <;> assumption

omit [Crypto] in
theorem ascendHops_spec {src dst d : List UInt8} {s : UInt8} {child : NodeId} {n : ℕ}
    {nodes : List NodeId} (hchild : Chain t child (d ++ [s])) (hsrc : d ++ [s] <+: src)
    (hdst : ∀ p ∈ below n d, ¬ p <+: dst) (hnodes : List.Forall₂ (Chain t) nodes (below n d)) :
    List.Forall₂ (HopAt t src dst) (ascendHops child nodes) (below n d) := by
  induction d using List.reverseRecOn generalizing s child nodes with
  | nil =>
      rw [below_of_length_le (by simp)] at hnodes ⊢
      cases hnodes
      exact .nil
  | append_singleton d x ih =>
      by_cases hlen : n ≤ d.length
      · rw [below_snoc hlen] at hnodes hdst ⊢
        cases hnodes with
        | @cons node _ nodes _ hnode hnodes =>
            refine .cons (.ascend hnode hchild hsrc (hdst _ List.mem_cons_self)) ?_
            exact ih hnode ((List.prefix_append _ _).trans hsrc)
              (fun p hp => hdst p (List.mem_cons_of_mem _ hp)) hnodes
      · have hlen' : (d ++ [x]).length ≤ n := by
          simp only [List.length_append, List.length_singleton]
          omega
        rw [below_of_length_le hlen'] at hnodes ⊢
        cases hnodes
        exact .nil

omit [Crypto] in
theorem descendHops_snoc (payee node : NodeId) (nodes : List NodeId) :
    descendHops payee (nodes ++ [node])
      = descendHops node nodes ++ [⟨node, .descend, .parent, .child payee⟩] := by
  induction nodes with
  | nil => simp [descendHops]
  | cons first nodes ih => cases nodes <;> simp_all [descendHops]

omit [Crypto] in
theorem descendHops_spec {src dst d : List UInt8} {s : UInt8} {child : NodeId} {n : ℕ}
    {nodes : List NodeId} (hchild : Chain t child (d ++ [s])) (hdst : d ++ [s] <+: dst)
    (hsrc : ∀ p ∈ below n d, ¬ p <+: src) (hnodes : List.Forall₂ (Chain t) nodes (below n d)) :
    List.Forall₂ (HopAt t src dst) (descendHops child nodes.reverse) (below n d).reverse := by
  induction d using List.reverseRecOn generalizing s child nodes with
  | nil =>
      rw [below_of_length_le (by simp)] at hnodes ⊢
      cases hnodes
      exact .nil
  | append_singleton d x ih =>
      by_cases hlen : n ≤ d.length
      · rw [below_snoc hlen] at hnodes hsrc ⊢
        cases hnodes with
        | @cons node _ nodes _ hnode hnodes =>
            rw [List.reverse_cons, List.reverse_cons, descendHops_snoc]
            refine List.rel_append ?_ (.cons ?_ .nil)
            · exact ih hnode ((List.prefix_append _ _).trans hdst)
                (fun p hp => hsrc p (List.mem_cons_of_mem _ hp)) hnodes
            · exact .descend hnode hchild hdst (hsrc _ List.mem_cons_self)
      · have hlen' : (d ++ [x]).length ≤ n := by
          simp only [List.length_append, List.length_singleton]
          omega
        rw [below_of_length_le hlen'] at hnodes ⊢
        cases hnodes
        exact .nil

/-- Two users on leaves neither of which lies above the other. -/
structure Cross (t : Topology) (order : PaymentOrder) (fromLeaf toLeaf : NodeId)
    (a b : List UInt8) (x y : UInt8) : Prop where
  payer : HeldBy t order.from_ fromLeaf
  payee : HeldBy t order.to_ toLeaf
  srcLeaf : Chain t fromLeaf a
  dstLeaf : Chain t toLeaf b
  src : Chain t order.from_ (a ++ [x])
  dst : Chain t order.to_ (b ++ [y])
  left : ¬ a <+: b
  right : ¬ b <+: a

namespace Cross

variable {order : PaymentOrder} {fromLeaf toLeaf : NodeId} {a b : List UInt8} {x y : UInt8}

omit [Crypto] in
theorem meet_eq (h : Cross t order fromLeaf toLeaf a b x y) :
    meet (a ++ [x]) (b ++ [y]) = meet a b := by
  apply meet_snoc
  · intro hle
    rcases List.prefix_concat_iff.mp ((List.prefix_append a [x]).trans hle) with rfl | hle
    · exact h.right (List.prefix_append _ _)
    · exact h.left hle
  · intro hle
    rcases List.prefix_concat_iff.mp ((List.prefix_append b [y]).trans hle) with rfl | hle
    · exact h.left (List.prefix_append _ _)
    · exact h.right hle

omit [Crypto] in
theorem not_le_dst (h : Cross t order fromLeaf toLeaf a b x y) {p : List UInt8}
    (hp : p ∈ below (meet a b).length (a ++ [x])) : ¬ p <+: b ++ [y] := by
  intro hle
  rw [← h.meet_eq] at hp
  exact not_mem_below_meet hp (mem_below.mpr ⟨hle, (mem_below.mp hp).2⟩)

omit [Crypto] in
theorem not_le_src (h : Cross t order fromLeaf toLeaf a b x y) {p : List UInt8}
    (hp : p ∈ below (meet a b).length (b ++ [y])) : ¬ p <+: a ++ [x] := by
  intro hle
  rw [← h.meet_eq] at hp
  exact not_mem_below_meet (mem_below.mpr ⟨hle, (mem_below.mp hp).2⟩) hp

end Cross

section

variable {a b src dst : List UInt8} {hops : List ExpectedHop}

omit [Crypto] in
theorem nodup_signers (hroute : List.Forall₂ (HopAt t src dst) hops (route a b)) :
    (hops.map (·.signer)).Nodup := by
  have hnodup := nodup_route a b
  generalize route a b = ds at hroute hnodup
  induction hroute with
  | nil => simp
  | @cons hop d hops ds hhop hrest ih =>
      rw [List.nodup_cons] at hnodup
      rw [List.map_cons, List.nodup_cons]
      refine ⟨?_, ih hnodup.2⟩
      intro hmem
      obtain ⟨hop', hhop', heq⟩ := List.mem_map.mp hmem
      obtain ⟨d', hd', hat⟩ := exists_of_forall₂_left hrest hhop'
      have hchain : Chain t hop.signer d' := heq ▸ hat.signer
      exact hnodup.1 (hhop.signer.unique hchain ▸ hd')

omit [Crypto] in
theorem mem_signers_iff (hvalid : t.Valid)
    (hroute : List.Forall₂ (HopAt t src dst) hops (route a b)) {node : NodeId} {d : List UInt8}
    (hnode : Chain t node d) : node ∈ hops.map (·.signer) ↔ d ∈ route a b := by
  constructor
  · intro h
    obtain ⟨hop, hhop, rfl⟩ := List.mem_map.mp h
    obtain ⟨d', hd', hat⟩ := exists_of_forall₂_left hroute hhop
    exact hnode.unique hat.signer ▸ hd'
  · intro h
    obtain ⟨hop, hhop, hat⟩ := exists_of_forall₂_right hroute h
    exact List.mem_map.mpr ⟨hop, hhop, hat.signer.injective hvalid hnode⟩

end

/-- Between two leaves the planner succeeds, and its hops follow the route. -/
theorem expectedHops_cross (hvalid : t.Valid) {order : PaymentOrder} {fromLeaf toLeaf : NodeId}
    {a b : List UInt8} {x y : UInt8} (hfrom : userLeaf t order.from_ = .ok fromLeaf)
    (hto : userLeaf t order.to_ = .ok toLeaf)
    (hcross : Cross t order fromLeaf toLeaf a b x y) :
    ∃ hops, expectedHops t order = .ok hops
      ∧ List.Forall₂ (HopAt t (a ++ [x]) (b ++ [y])) hops (route a b) := by
  have ha := hcross.srcLeaf
  have hb := hcross.dstLeaf
  have hne : fromLeaf ≠ toLeaf := by
    rintro rfl
    exact hcross.left (ha.unique hb ▸ List.prefix_rfl)
  obtain ⟨fromAddr, hfromAddr⟩ := hcross.src.exists_addr
  obtain ⟨toAddr, htoAddr⟩ := hcross.dst.exists_addr
  have hlcaDigits : (fromAddr.lca toAddr).digits = meet a b := by
    rw [OctAddr.lca_digits, hfromAddr, htoAddr, hcross.meet_eq]
  have hmeet : meet a b ≠ [] := hlcaDigits ▸ (fromAddr.lca toAddr).digits_ne_nil
  obtain ⟨lca, hlca⟩ := ha.of_le (meet_le_left a b) hmeet
  obtain ⟨ups, hups, hupChains⟩ := pathBelow_eq_ok hvalid hlca ha (meet_le_left a b)
  obtain ⟨downs, hdowns, hdownChains⟩ := pathBelow_eq_ok hvalid hlca hb (meet_le_right a b)
  have hstrictA : meet a b ≠ a := fun heq => hcross.left (heq ▸ meet_le_right a b)
  have hstrictB : meet a b ≠ b := fun heq => hcross.right (heq ▸ meet_le_left a b)
  obtain ⟨s, hs⟩ := exists_branch (meet_le_left a b) hstrictA
  obtain ⟨s', hs'⟩ := exists_branch (meet_le_right a b) hstrictB
  have hlast : (below (meet a b).length a).getLast? = some (meet a b ++ [s]) := by
    rw [below_eq_append hs, List.getLast?_concat]
  have hlast' : (below (meet a b).length b).getLast? = some (meet a b ++ [s']) := by
    rw [below_eq_append hs', List.getLast?_concat]
  obtain ⟨branchFrom, hbranchFrom, hchainFrom⟩ := forall₂_getLast? hupChains hlast
  obtain ⟨branchTo, hbranchTo, hchainTo⟩ := forall₂_getLast? hdownChains hlast'
  have hturn : s ≠ s' := by
    rintro rfl
    exact not_mem_below_meet (mem_below.mpr ⟨hs, by simp⟩) (mem_below.mpr ⟨hs', by simp⟩)
  refine ⟨ascendHops order.from_ ups ++ [⟨lca, .lca, .child branchFrom, .child branchTo⟩]
      ++ descendHops order.to_ downs.reverse, ?_, ?_⟩
  · simp only [expectedHops, bind_eq_ok]
    refine ⟨_, hfrom, _, hto, ?_⟩
    rw [if_neg hne]
    simp only [bind_eq_ok, unsupported_eq_ok]
    refine ⟨_, (addressOf_eq_ok hvalid).mpr (hfromAddr ▸ hcross.src), _,
      (addressOf_eq_ok hvalid).mpr (htoAddr ▸ hcross.dst), lca,
      (nodeAtAddress_eq_ok hvalid).mpr (hlcaDigits ▸ hlca), ups, hups, downs, hdowns, ?_⟩
    simp [hbranchFrom, List.head?_reverse, hbranchTo]
  · rw [route, List.append_cons (below (meet a b).length a)]
    refine List.rel_append (List.rel_append ?_ (.cons ?_ .nil)) ?_
    · refine ascendHops_spec hcross.src List.prefix_rfl ?_ hupChains
      intro p hp
      obtain ⟨hle, hlen⟩ := mem_below.mp hp
      exact hcross.not_le_dst (mem_below.mpr ⟨hle.trans (List.prefix_append _ _), hlen⟩)
    · exact .lca hlca hchainFrom (hs.trans (List.prefix_append _ _)) hchainTo
        (hs'.trans (List.prefix_append _ _)) hturn
    · refine descendHops_spec hcross.dst List.prefix_rfl ?_ hdownChains
      intro p hp
      obtain ⟨hle, hlen⟩ := mem_below.mp hp
      exact hcross.not_le_src (mem_below.mpr ⟨hle.trans (List.prefix_append _ _), hlen⟩)

omit [Crypto] in
/-- Two distinct leaves that hold users lie beside each other. -/
theorem cross_of_heldBy (hvalid : t.Valid) {order : PaymentOrder} {fromLeaf toLeaf : NodeId}
    {src dst : List UInt8} (hfrom : HeldBy t order.from_ fromLeaf)
    (hto : HeldBy t order.to_ toLeaf) (hne : fromLeaf ≠ toLeaf)
    (hsrc : Chain t order.from_ src) (hdst : Chain t order.to_ dst) :
    ∃ a b x y, src = a ++ [x] ∧ dst = b ++ [y] ∧ Cross t order fromLeaf toLeaf a b x y := by
  obtain ⟨record, hnode, -, hparent⟩ := hfrom.user
  obtain ⟨record', hnode', -, hparent'⟩ := hto.user
  obtain ⟨x, a, -, rfl, ha⟩ := hsrc.of_parent hnode hparent
  obtain ⟨y, b, -, rfl, hb⟩ := hdst.of_parent hnode' hparent'
  -- A leaf above the other one would have the node on the way to it as a child.
  have habove : ∀ {leaf other user : NodeId} {c d : List UInt8} {z : UInt8},
      (∀ id record, t.node id = some record → record.parent = some leaf → record.kind = .user) →
      leaf ≠ other → Chain t leaf c → Chain t other d → Chain t user (d ++ [z]) → ¬ c <+: d := by
    intro leaf other user c d z husers hdiff hc hd huser hle
    have hcd : c ≠ d := by
      rintro rfl
      exact hdiff (hc.injective hvalid hd)
    obtain ⟨s, hs⟩ := exists_branch hle hcd
    obtain ⟨child, rec, hchild, hrec, hp, -⟩ := hd.toward hvalid hc hs
    have hkind := huser.kind_of_le hvalid hchild (hs.trans (List.prefix_append _ _)) (by
      intro heq
      have := hs.length_le
      rw [heq] at this
      simp at this) hrec
    rw [husers child rec hrec hp] at hkind
    cases hkind
  exact ⟨a, b, x, y, rfl, rfl, hfrom, hto, ha, hb, hsrc, hdst,
    habove hfrom.leaf hne ha hb hdst, habove hto.leaf hne.symm hb ha hsrc⟩

theorem expectedHops_spec (hvalid : t.Valid) {order : PaymentOrder} {hops : List ExpectedHop}
    (h : expectedHops t order = .ok hops) :
    (∃ leaf, HeldBy t order.from_ leaf ∧ HeldBy t order.to_ leaf
      ∧ hops = [⟨leaf, .direct, .child order.from_, .child order.to_⟩])
    ∨ ∃ fromLeaf toLeaf a b x y, Cross t order fromLeaf toLeaf a b x y
      ∧ List.Forall₂ (HopAt t (a ++ [x]) (b ++ [y])) hops (route a b) := by
  have hok := h
  simp only [expectedHops, bind_eq_ok] at h
  obtain ⟨fromLeaf, hfrom, toLeaf, hto, h⟩ := h
  have hheld := userLeaf_spec hvalid hfrom
  have hheld' := userLeaf_spec hvalid hto
  split at h
  · rename_i heq
    subst heq
    rw [Except.ok.injEq] at h
    exact Or.inl ⟨fromLeaf, hheld, hheld', h.symm⟩
  · rename_i hne
    simp only [bind_eq_ok, unsupported_eq_ok] at h
    obtain ⟨fromAddr, hsrc, toAddr, hdst, -⟩ := h
    rw [addressOf_eq_ok hvalid] at hsrc hdst
    obtain ⟨a, b, x, y, -, -, hcross⟩ :=
      cross_of_heldBy hvalid hheld hheld' hne hsrc hdst
    obtain ⟨hops', hhops', hroute⟩ := expectedHops_cross hvalid hfrom hto hcross
    rw [hok, Except.ok.injEq] at hhops'
    subst hhops'
    exact Or.inr ⟨fromLeaf, toLeaf, a, b, x, y, hcross, hroute⟩

end Cawala
