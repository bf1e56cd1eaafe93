import Cawala.Verification.Audit
import Cawala.Verification.Authorship
import Cawala.Verification.Mirror

/-! # Audits of honest networks

The audit reads the ledgers of a network at any time. Where all nodes run this code and each user
sends its own orders, it objects to an order exactly while a signer of its route has not booked
it: cascades under way are found, and completed ones are never objected to. -/

namespace Cawala

open Std (ExtTreeMap)
open Library Library.Transaction

section Honest

variable [Crypto] [Postcard]

/-! ## What the audit is given -/

def ExpectedHop.derived (hop : ExpectedHop) : DerivedHop where
  role := hop.role
  first := hop.first
  second := hop.second

/-- An audit that is given the ledgers of a network, and a topology and a registry that describe
it. -/
structure Network.AuditView (net : Network) (keys : OctAddr → LedgerSecretKey)
    (operators : NodeId → OperatorPubKey) (layout : Layout) (t : Topology) (ledgers : LedgerSet)
    (registry : PeerRegistry) : Prop where
  valid : t.validate = .ok ()
  built : registry.Built
  tenant : ∀ id a, t.addressOf id = .ok a → layout.tenant a = id
  kind : ∀ id a kind, t.addressOf id = .ok a → t.HasKind id kind → layout.kind a = kind
  ledger : ∀ id l, ledgers.get id = some l → ∃ a, t.addressOf id = .ok a
    ∧ openLedger (keys a) (net.log a) = .ok l
    ∧ registry.ledgerOf id = some (Crypto.pubKey (keys a))
  node : ∀ id a, t.addressOf id = .ok a → t.HasKind id .node → (ledgers.get id).isSome
  payer : ∀ id, t.HasKind id .user → registry.operatorOf id = some (operators id)

def Network.BookedAlong (net : Network) (t : Topology) (order : PaymentOrder) : Prop :=
  ∃ hops, expectedHops t order = .ok hops
    ∧ ∀ hop ∈ hops, ∃ a, t.addressOf hop.signer = .ok a ∧ order.hash ∈ payments (net.log a)

section View

variable {net : Network} {keys : OctAddr → LedgerSecretKey} {operators : NodeId → OperatorPubKey}
  {layout : Layout} {t : Topology} {ledgers : LedgerSet} {registry : PeerRegistry}
  {order : PaymentOrder} {hops : List ExpectedHop}

/-- The ledger of a node holds what its log holds. -/
theorem Network.AuditView.mem_collected (h : net.AuditView keys operators layout t ledgers registry)
    (hnet : ∀ a, ∀ s ∈ net.log a, s.Authored operators) {s : SignedEntry} :
    s ∈ collectAuthorizedTransfers ledgers order ↔
      ∃ id a, t.addressOf id = .ok a ∧ (ledgers.get id).isSome ∧ s ∈ net.log a
        ∧ s.payment = some order.hash := by
  rw [mem_collectAuthorizedTransfers]
  constructor
  · intro hs
    obtain ⟨id, l, hget, hmem, hauth⟩ := hs
    obtain ⟨a, haddr, hopen, -⟩ := h.ledger id l hget
    rw [(openLedger_replayed hopen).entries] at hmem
    exact ⟨id, a, haddr, by rw [hget]; rfl, hmem, ((hnet a s hmem).authorizedFor_iff _).mp hauth⟩
  · intro hs
    obtain ⟨id, a, haddr, hsome, hmem, hpayment⟩ := hs
    obtain ⟨l, hget⟩ := Option.isSome_iff_exists.mp hsome
    obtain ⟨a', haddr', hopen, -⟩ := h.ledger id l hget
    obtain rfl := Except.ok.inj (haddr.symm.trans haddr')
    refine ⟨id, l, hget, ?_, ((hnet a s hmem).authorizedFor_iff _).mpr hpayment⟩
    rw [(openLedger_replayed hopen).entries]
    exact hmem

theorem Network.AuditView.nodup_collected
    (h : net.AuditView keys operators layout t ledgers registry)
    (hnet : ∀ a, ∀ s ∈ net.log a, s.Authored operators)
    (honce : ∀ a, (payments (net.log a)).Nodup) :
    (collectAuthorizedTransfers ledgers order).Nodup := by
  have hget : ∀ e ∈ ledgers.ledgers.toList, ledgers.get e.1 = some e.2 := fun e he =>
    ExtTreeMap.mem_toList_iff_getElem?_eq_some.mp he
  rw [collectAuthorizedTransfers_eq]
  refine List.nodup_flatMap.mpr ⟨?_, ?_⟩
  · intro e he
    obtain ⟨a, -, hopen, -⟩ := h.ledger _ _ (hget e he)
    rw [(openLedger_replayed hopen).entries]
    refine List.pairwise_filter.mpr ((List.pairwise_filterMap.mp (honce a)).imp_of_mem ?_)
    rintro s s' hs - hne hauth hauth' rfl
    have hpayment := ((hnet a s hs).authorizedFor_iff order.hash).mp hauth
    exact hne _ hpayment _ hpayment rfl
  · refine ExtTreeMap.distinct_keys_toList.imp_of_mem ?_
    intro e e' he he' hne s hs hs'
    obtain ⟨a, -, hopen, hkey⟩ := h.ledger _ _ (hget e he)
    obtain ⟨a', -, hopen', hkey'⟩ := h.ledger _ _ (hget e' he')
    have hreplayed := openLedger_replayed hopen
    have hreplayed' := openLedger_replayed hopen'
    -- an entry names the ledger that it is on
    have hid := (hreplayed.signed s (hreplayed.entries ▸ List.mem_of_mem_filter hs)).1
    have hid' := (hreplayed'.signed s (hreplayed'.entries ▸ List.mem_of_mem_filter hs')).1
    rw [← hid] at hkey
    rw [← hid'] at hkey'
    refine hne (Std.compare_eq_iff_eq.mpr ?_)
    exact PeerRegistry.ledgerOf_injective (PeerRegistry.registered_of_built h.built) hkey hkey'

theorem Network.AuditView.hopEntry (h : net.AuditView keys operators layout t ledgers registry)
    (haddr : order.Addressable) {hop : ExpectedHop} {a : OctAddr} {s : SignedEntry}
    (hauthored : s.Authored operators) (huser : t.HasKind order.from_ .user)
    (hsigner : t.addressOf hop.signer = .ok a) (hnode : t.HasKind hop.signer .node)
    (hs : s ∈ net.log a) (hbooked : HopBooked order hop.derived s) :
    HopEntry registry order hop s := by
  obtain ⟨l, hget⟩ := Option.isSome_iff_exists.mp (h.node _ a hsigner hnode)
  obtain ⟨a', haddr', hopen, hkey⟩ := h.ledger _ l hget
  obtain rfl := Except.ok.inj (hsigner.symm.trans haddr')
  obtain ⟨hid, hauthentic⟩ := (openLedger_replayed hopen).signed s hs
  have hpayment : s.payment = some order.hash := by
    rw [SignedEntry.payment, hbooked.body]
    rfl
  obtain ⟨auth, hauth, hhash⟩ := hauthored.auth _ hpayment
  obtain ⟨auth', hauth', hoperator, hnonce, hverified⟩ := hauthored.payer order haddr hpayment
  obtain rfl := Option.some.inj (hauth.symm.trans hauth')
  refine ⟨by rw [hid, hkey], hauthentic, hbooked.body, hbooked.postedDelta, ⟨auth, hauth, ?_⟩⟩
  exact ⟨hoperator ▸ h.payer _ huser, hhash, hnonce, hverified⟩

/-- Orders whose expected hops are booked, and nothing else, pass the audit. -/
theorem Network.AuditView.cascaded (h : net.AuditView keys operators layout t ledgers registry)
    (hnet : ∀ a, ∀ s ∈ net.log a, s.Authored operators)
    (honce : ∀ a, (payments (net.log a)).Nodup) (haddr : order.Addressable)
    (hhops : expectedHops t order = .ok hops) (huser : t.HasKind order.from_ .user)
    (hnode : ∀ hop ∈ hops, t.HasKind hop.signer .node)
    (hbooked : ∀ hop ∈ hops, ∃ a, t.addressOf hop.signer = .ok a
      ∧ ∃ seq hash, HoldsHop (net.log a) order hop.derived seq hash)
    (hholders : ∀ id a, t.addressOf id = .ok a → order.hash ∈ payments (net.log a) →
      ∃ hop ∈ hops, hop.signer = id) :
    Cawala.Cascaded t registry order (collectAuthorizedTransfers ledgers order) := by
  have hentry : ∀ hop ∈ hops, ∃ s, HopEntry registry order hop s
      ∧ ∃ a, t.addressOf hop.signer = .ok a ∧ FirstTransfer (net.log a) order.hash s := by
    intro hop hhop
    obtain ⟨a, hsigner, seq, hash, s, hfirst, -, -, hhopBooked⟩ := hbooked hop hhop
    exact ⟨s, h.hopEntry haddr (hnet a s hfirst.mem) huser hsigner (hnode hop hhop) hfirst.mem
      hhopBooked, a, hsigner, hfirst⟩
  obtain ⟨matched, hmatched⟩ := exists_forall₂ hentry
  have hentries : List.Forall₂ (HopEntry registry order) hops matched :=
    hmatched.imp fun _ _ hs => hs.1
  have hledgers : (matched.map (·.entry.ledgerId)).Nodup :=
    Cascaded.nodup_ledgers (Topology.validate_spec h.valid)
      (PeerRegistry.registered_of_built h.built) ⟨hops, matched, hhops, hentries, .refl _⟩
  refine ⟨hops, matched, hhops, hentries, ?_⟩
  refine (List.perm_ext_iff_of_nodup hledgers.of_map (h.nodup_collected hnet honce)).mpr ?_
  intro s
  rw [h.mem_collected hnet]
  constructor
  · intro hs
    obtain ⟨hop, hhop, -, a, hsigner, hfirst⟩ := exists_of_forall₂_right hmatched hs
    exact ⟨hop.signer, a, hsigner, h.node _ a hsigner (hnode hop hhop), hfirst.mem,
      hfirst.payment⟩
  · intro hs
    obtain ⟨id, a, haddr', -, hmem, hpayment⟩ := hs
    obtain ⟨hop, hhop, rfl⟩ := hholders id a haddr' (List.mem_filterMap.mpr ⟨s, hmem, hpayment⟩)
    obtain ⟨s', hs', -, a', hsigner, hfirst⟩ := exists_of_forall₂_left hmatched hhop
    obtain rfl := Except.ok.inj (haddr'.symm.trans hsigner)
    rw [hfirst.unique (honce a) hmem hpayment]
    exact hs'

/-- Where the audit is silent about an order, every signer of its route has booked it. -/
theorem Network.AuditView.bookedAlong (h : net.AuditView keys operators layout t ledgers registry)
    (hnet : ∀ a, ∀ s ∈ net.log a, s.Authored operators)
    (hcascaded : Cawala.Cascaded t registry order (collectAuthorizedTransfers ledgers order)) :
    net.BookedAlong t order := by
  obtain ⟨hops, matched, hhops, hentries, hperm⟩ := hcascaded
  refine ⟨hops, hhops, ?_⟩
  intro hop hhop
  obtain ⟨s, hs, hentry⟩ := exists_of_forall₂_left hentries hhop
  obtain ⟨id, a, haddr, hsome, hmem, hpayment⟩ :=
    (h.mem_collected hnet).mp (hperm.mem_iff.mp hs)
  obtain ⟨l, hget⟩ := Option.isSome_iff_exists.mp hsome
  obtain ⟨a', haddr', hopen, hkey⟩ := h.ledger id l hget
  obtain rfl := Except.ok.inj (haddr.symm.trans haddr')
  have hid := ((openLedger_replayed hopen).signed s hmem).1
  obtain rfl := PeerRegistry.ledgerOf_injective (PeerRegistry.registered_of_built h.built)
    hentry.signer (hid ▸ hkey)
  exact ⟨a, haddr, List.mem_filterMap.mpr ⟨s, hmem, hpayment⟩⟩

end View

/-! ## Routes of the planner -/

section Routes

variable {t : Topology} {src dst addr : OctAddr} {hop : ExpectedHop} {d : List UInt8}

omit [Crypto] [Postcard] in
theorem HeldBy.leaf_node {user leaf : NodeId} (h : HeldBy t user leaf) (hvalid : t.Valid) :
    t.HasKind leaf .node := by
  obtain ⟨record, hnode, -, hparent⟩ := h.user
  obtain ⟨parent, -, hleaf, hkind, -⟩ := (hvalid.nodes _ _ hnode).link _ hparent
  exact ⟨parent, hleaf, hkind⟩

omit [Crypto] [Postcard] in
theorem HeldBy.user_kind {user leaf : NodeId} (h : HeldBy t user leaf) : t.HasKind user .user := by
  obtain ⟨record, hnode, hkind, -⟩ := h.user
  exact ⟨record, hnode, hkind⟩

omit [Crypto] [Postcard] in
theorem HopAt.node (h : HopAt t src.digits dst.digits hop d) (hvalid : t.Valid) :
    t.HasKind hop.signer .node := by
  have hparent : ∀ {node child : NodeId} {s : UInt8}, Topology.Chain t node d →
      Topology.Chain t child (d ++ [s]) → t.HasKind node .node := by
    intro node child s hnode hchild
    obtain ⟨record, p, hrecord, hparent, -, hp⟩ := hchild.snoc_inv hnode.ne_nil
    obtain rfl := hnode.injective hvalid hp
    obtain ⟨parent, -, hnode, hkind, -⟩ := (hvalid.nodes _ _ hrecord).link _ hparent
    exact ⟨parent, hnode, hkind⟩
  cases h with
  | ascend hnode hchild => exact hparent hnode hchild
  | lca hnode hchild => exact hparent hnode hchild
  | descend hnode hchild => exact hparent hnode hchild

variable {net : Network} {keys : OctAddr → LedgerSecretKey} {operators : NodeId → OperatorPubKey}
  {layout : Layout} {ledgers : LedgerSet} {registry : PeerRegistry} {order : PaymentOrder}

theorem Network.AuditView.tenant_below
    (h : net.AuditView keys operators layout t ledgers registry) {a target : OctAddr}
    {child : NodeId} {s : UInt8} (hchild : Topology.Chain t child (a.digits ++ [s]))
    (hle : a.digits ++ [s] <+: target.digits) : layout.tenant (Layout.below a target) = child := by
  obtain ⟨b, hb⟩ := hchild.exists_addr
  rw [Layout.below_eq hb (hb ▸ hle)]
  exact h.tenant child b
    ((Topology.addressOf_eq_ok (Topology.validate_spec h.valid)).mpr (hb ▸ hchild))

/-- The layout gives a signer the hop that the planner expects of it. -/
theorem Network.AuditView.hop_of_hopAt
    (h : net.AuditView keys operators layout t ledgers registry)
    (hat : HopAt t src.digits dst.digits hop addr.digits)
    (hrole : classifyHop src dst addr = some hop.role) :
    layout.hop src dst addr = some hop.derived := by
  unfold Layout.hop
  rw [hrole]
  generalize hd : addr.digits = d at hat
  subst hd
  cases hat with
  | ascend hnode hchild hsrc => simp only [h.tenant_below hchild hsrc, ExpectedHop.derived]
  | lca hnode hchild hsrc hchild' hdst =>
      simp only [h.tenant_below hchild hsrc, h.tenant_below hchild' hdst, ExpectedHop.derived]
  | descend hnode hchild hdst => simp only [h.tenant_below hchild hdst, ExpectedHop.derived]

/-- The address of a user lies below the one of the leaf that the topology holds it at. -/
theorem Network.AuditView.user_parent
    (h : net.AuditView keys operators layout t ledgers registry) {user leaf : NodeId}
    {u a : OctAddr} (hheld : HeldBy t user leaf) (hleaf : t.addressOf leaf = .ok a)
    (htenant : layout.tenant u = user) (hkind : layout.kind u = .user) : u.parent = some a := by
  have hvalid := Topology.validate_spec h.valid
  obtain ⟨record, hnode, -, hparent⟩ := hheld.user
  obtain ⟨parent, s, -, -, -, hslot, hle, -⟩ := (hvalid.nodes _ _ hnode).link _ hparent
  have hchain : Topology.Chain t user (a.digits ++ [s]) :=
    .child hnode hparent hslot hle ((Topology.addressOf_eq_ok hvalid).mp hleaf)
  obtain ⟨u', hu'⟩ := hchain.exists_addr
  have haddr := (Topology.addressOf_eq_ok hvalid).mpr (hu' ▸ hchain)
  obtain rfl : u = u' := Layout.user_unique hkind (h.kind user u' _ haddr hheld.user_kind)
    (htenant.trans (h.tenant user u' haddr).symm)
  exact OctAddr.parent_eq_some.mpr ⟨s, hu'⟩

variable [SettlePostcard]

/-- A transfer between two users of a leaf that the leaf has booked. -/
theorem Network.AuditView.cascaded_direct
    (h : net.AuditView keys operators layout t ledgers registry)
    (hnet : net.Authored operators layout) (hinv : net.Cascading keys layout)
    (haddr : order.Addressable) {leaf : NodeId} {a : OctAddr} (hfrom : HeldBy t order.from_ leaf)
    (hto : HeldBy t order.to_ leaf)
    (hhops : expectedHops t order = .ok [⟨leaf, .direct, .child order.from_, .child order.to_⟩])
    (hleaf : t.addressOf leaf = .ok a) (hmem : order.hash ∈ payments (net.log a)) :
    Cawala.Cascaded t registry order (collectAuthorizedTransfers ledgers order) := by
  have hvalid := Topology.validate_spec h.valid
  -- the users of a cascade are at different leaves
  have hnone : ∀ forward, net.Issued (.forward forward) → forward.order ≠ order := by
    rintro forward hissued rfl
    obtain ⟨signers, hway⟩ := hinv.forwards forward hissued
    obtain ⟨srcLeaf, dstLeaf, hroute⟩ := routeSigners_route hway.routed.route
    have hauthored := hnet.forwards forward hissued
    have hsrc := h.user_parent hfrom hleaf hauthored.payer.1 hauthored.payer.2
    have hdst := h.user_parent hto hleaf hauthored.payee.1 hauthored.payee.2
    obtain rfl := Option.some.inj (hsrc.symm.trans hroute.src)
    obtain rfl := Option.some.inj (hdst.symm.trans hroute.dst)
    exact hroute.left List.prefix_rfl
  obtain ⟨hhome, -, hholds⟩ := hinv.direct haddr hmem hnone
  refine h.cascaded hnet.entries hinv.once haddr hhops hfrom.user_kind ?_ ?_ ?_
  · intro hop hhop
    obtain rfl := List.mem_singleton.mp hhop
    exact hfrom.leaf_node hvalid
  · intro hop hhop
    obtain rfl := List.mem_singleton.mp hhop
    exact ⟨a, hleaf, hholds⟩
  · intro id a' haddr' hmem'
    refine ⟨_, List.mem_singleton_self _, ?_⟩
    have hsame := hhome.home.symm.trans (hinv.direct haddr hmem' hnone).1.home
    subst hsame
    exact ((Topology.addressOf_eq_ok hvalid).mp hleaf).injective hvalid
      ((Topology.addressOf_eq_ok hvalid).mp haddr')

theorem Network.AuditView.cascaded_cross
    (h : net.AuditView keys operators layout t ledgers registry)
    (hnet : net.Authored operators layout) (hinv : net.Cascading keys layout)
    (haddr : order.Addressable) {fromLeaf toLeaf : NodeId} {a b : List UInt8} {x y : UInt8}
    {hops : List ExpectedHop} (hcross : Cross t order fromLeaf toLeaf a b x y)
    (hroute : List.Forall₂ (HopAt t (a ++ [x]) (b ++ [y])) hops (route a b))
    (hhops : expectedHops t order = .ok hops)
    (hall : ∀ hop ∈ hops, ∃ a, t.addressOf hop.signer = .ok a
      ∧ order.hash ∈ payments (net.log a)) :
    Cawala.Cascaded t registry order (collectAuthorizedTransfers ledgers order) := by
  have hvalid := Topology.validate_spec h.valid
  obtain ⟨src, hsrc⟩ := hcross.src.exists_addr
  obtain ⟨dst, hdst⟩ := hcross.dst.exists_addr
  have hsrcAddr := (Topology.addressOf_eq_ok hvalid).mpr (hsrc ▸ hcross.src)
  have hdstAddr := (Topology.addressOf_eq_ok hvalid).mpr (hdst ▸ hcross.dst)
  have hsrcKind := h.kind _ _ _ hsrcAddr hcross.payer.user_kind
  have hdstKind := h.kind _ _ _ hdstAddr hcross.payee.user_kind
  obtain ⟨srcLeaf, hsrcLeaf, rfl⟩ := OctAddr.exists_parent hsrc hcross.srcLeaf.ne_nil
  obtain ⟨dstLeaf, hdstLeaf, rfl⟩ := OctAddr.exists_parent hdst hcross.dstLeaf.ne_nil
  -- the users are at different leaves, so the order is that of a cascade
  obtain ⟨forward, hissued, horder⟩ : ∃ forward, net.Issued (.forward forward)
      ∧ forward.order = order := by
    by_contra hnone
    push Not at hnone
    cases hroute' : hops with
    | nil =>
        rw [hroute', List.forall₂_nil_left_iff] at hroute
        have hhead := head?_route srcLeaf.digits dstLeaf.digits
        rw [hroute] at hhead
        cases hhead
    | cons hop rest =>
        obtain ⟨_, -, hmem⟩ := hall hop (hroute' ▸ List.mem_cons_self)
        obtain ⟨hfrom, hto, -⟩ := hinv.direct haddr hmem hnone
        have hsame := hfrom.home.trans hto.home.symm
        rw [← h.tenant _ _ hsrcAddr, ← h.tenant _ _ hdstAddr] at hsame
        have hparents := (layout.users src hsrcKind).symm.trans hsrcLeaf
        rw [hsame, ← layout.users dst hdstKind, hdstLeaf] at hparents
        obtain rfl := Option.some.inj hparents
        exact hcross.left List.prefix_rfl
  subst horder
  have hauthored := hnet.forwards forward hissued
  obtain ⟨signers, held, hcascaded⟩ := hinv.cascaded haddr hissued rfl
  rw [Layout.user_unique hauthored.payer.2 hsrcKind
      (hauthored.payer.1.trans (h.tenant _ _ hsrcAddr).symm),
    Layout.user_unique hauthored.payee.2 hdstKind
      (hauthored.payee.1.trans (h.tenant _ _ hdstAddr).symm)] at hcascaded
  obtain ⟨srcLeaf', dstLeaf', hsigners⟩ := routeSigners_route hcascaded.route
  obtain rfl := Option.some.inj (hsrcLeaf.symm.trans hsigners.src)
  obtain rfl := Option.some.inj (hdstLeaf.symm.trans hsigners.dst)
  rw [← hsigners.digits, List.forall₂_map_right_iff, ← hsrc, ← hdst] at hroute
  have hplace : ∀ {hop : ExpectedHop} {addr : OctAddr},
      HopAt t src.digits dst.digits hop addr.digits → t.addressOf hop.signer = .ok addr :=
    fun hat => (Topology.addressOf_eq_ok hvalid).mpr hat.signer
  refine h.cascaded hnet.entries hinv.once haddr hhops hcross.payer.user_kind ?_ ?_ ?_
  · intro hop hhop
    obtain ⟨addr, -, hat⟩ := exists_of_forall₂_left hroute hhop
    exact hat.node hvalid
  · intro hop hhop
    obtain ⟨addr, hsigner, hat⟩ := exists_of_forall₂_left hroute hhop
    obtain ⟨addr', haddr', hmem⟩ := hall hop hhop
    obtain rfl := Except.ok.inj ((hplace hat).symm.trans haddr')
    have hrole := hcross.classifyHop_of_hopAt hsrc hdst (hsrc ▸ hdst ▸ hat)
      (hsigners.digits ▸ List.mem_map_of_mem hsigner)
    obtain ⟨derived, seq, hash, hhop, hholds⟩ :=
      (hcascaded.hops addr ((hcascaded.holders addr).mp hmem)).hop
    obtain rfl := Option.some.inj ((h.hop_of_hopAt hat hrole).symm.trans hhop)
    exact ⟨addr, haddr', seq, hash, hholds⟩
  · intro id addr haddr' hmem
    have hsigner := hcascaded.held_prefix.subset ((hcascaded.holders addr).mp hmem)
    obtain ⟨hop, hhop, hat⟩ := exists_of_forall₂_right hroute hsigner
    exact ⟨hop, hhop, hat.signer.injective hvalid ((Topology.addressOf_eq_ok hvalid).mp haddr')⟩

/-- The transfers of an order pass exactly when every signer of its route has booked it. -/
theorem Network.AuditView.cascaded_iff
    (h : net.AuditView keys operators layout t ledgers registry)
    (hnet : net.Authored operators layout) (hinv : net.Cascading keys layout)
    (haddr : order.Addressable) :
    Cawala.Cascaded t registry order (collectAuthorizedTransfers ledgers order)
      ↔ net.BookedAlong t order := by
  refine ⟨h.bookedAlong hnet.entries, ?_⟩
  rintro ⟨hops, hhops, hall⟩
  rcases expectedHops_spec (Topology.validate_spec h.valid) hhops with
    ⟨leaf, hfrom, hto, rfl⟩ | ⟨fromLeaf, toLeaf, a, b, x, y, hcross, hroute⟩
  · obtain ⟨a, hleaf, hmem⟩ := hall _ (List.mem_singleton_self _)
    exact h.cascaded_direct hnet hinv haddr hfrom hto hhops hleaf hmem
  · exact h.cascaded_cross hnet hinv haddr hcross hroute hhops hall

end Routes

/-! ## Exact audits -/

section Exact

variable [SettlePostcard] [EthPrimitives] [HashBytes]

/-- At any time of a lawful run whose users send their own orders to where the payees sit, the
audit of the network's ledgers objects to an order exactly while a signer of its route has not
booked it. -/
theorem audit_exact (target : Target) (keys : OctAddr → LedgerSecretKey) (ids : OctAddr → NodeId)
    (layout : Layout) (operators : NodeId → OperatorPubKey) (events : List NetworkEvent)
    (hfree : Crypto.CollisionFree) (hcodec : SettlePostcard.RoundTrip)
    (hlawful : LawfulRun target keys ids layout events)
    (hown : ∀ ev ∈ events, ev.Own operators layout) (t : Topology) (ledgers : LedgerSet)
    (registry : PeerRegistry)
    (hview : (Network.run target keys ids events).AuditView keys operators layout t ledgers
      registry)
    (orders : List PaymentOrder) (haddr : ∀ order ∈ orders, order.Addressable)
    (commitments : ExtTreeMap NodeId (List SignedCommitment)) :
    ∀ order ∈ orders,
      (∃ f ∈ (net t ledgers registry orders commitments).findings, f.objectsTo order.hash)
        ↔ ¬ (Network.run target keys ids events).BookedAlong t order := by
  intro order horder
  have hinv := hlawful.cascading hfree hcodec
  have hnet := hlawful.authored hfree hcodec hown
  generalize Network.run target keys ids events = network at *
  have hvalid := Topology.validate_spec hview.valid
  have hkeyed : ∀ node l, ledgers.get node = some l → node ∈ t.nodeIds := by
    intro node l hget
    obtain ⟨a, hnode, -⟩ := hview.ledger node l hget
    exact Topology.mem_nodeIds_iff.mpr ((Topology.addressOf_eq_ok hvalid).mp hnode).node
  have hconserved : ∀ s ∈ collectAuthorizedTransfers ledgers order,
      s.entry.checkConservation = .ok () := by
    intro s hs
    obtain ⟨node, l, hget, hmem, -⟩ := mem_collectAuthorizedTransfers.mp hs
    obtain ⟨a, -, hopen, -⟩ := hview.ledger node l hget
    have hreplayed := openLedger_replayed hopen
    exact hreplayed.conserved s (hreplayed.entries ▸ hmem)
  have hsilent := auditOneOrder_eq_nil_iff hvalid (PeerRegistry.registered_of_built hview.built)
    hconserved
  rw [← hview.cascaded_iff hnet hinv (haddr order horder), ← hsilent]
  constructor
  · intro hobjects
    obtain ⟨order', horder', hhash, hne⟩ := net_objects_iff.mp hobjects
    obtain rfl := OrderJournal.hash_injective hfree (haddr order' horder') (haddr order horder)
      hhash
    rwa [componentLedgers_eq hkeyed] at hne
  · intro hne
    refine net_objects_iff.mpr ⟨order, horder, rfl, ?_⟩
    rwa [componentLedgers_eq hkeyed]

end Exact

end Honest

namespace Concrete

def places : List OctAddr := [.root, leafOfU, leafOfV, addressOfU, addressOfW, addressOfV]

def childrenAt (a : OctAddr) : List (OctAddr × ℕ) :=
  if kindAt a = .user then [] else (station a).children

def placesTopology : Topology where
  root := nameOf .root
  nodes := .ofList (places.map fun a => topologyRow (nameOf a) (kindAt a)
    (a.parent.map fun p => (nameOf p, lastSlot a)) ((childrenAt a).map fun child =>
      lastSlot child.1))

def usersOperator (id : NodeId) : ℕ :=
  if id = nameOf addressOfU then 4 else if id = nameOf addressOfW then 6 else 5

def placesRows : List PeerKeys :=
  places.map fun a => row (nameOf a) (if kindAt a = .user then .user else .node)
    (if kindAt a = .user then usersOperator (nameOf a) else (station a).operator)

def placesRegistry : PeerRegistry :=
  ((placesRows.foldlM PeerRegistry.insert PeerRegistry.new).toOption).getD .new

theorem placesRegistry_built : placesRegistry.Built := by
  have hok : (placesRows.foldlM PeerRegistry.insert PeerRegistry.new).toBool = true := by
    decide +kernel
  obtain ⟨registry, hregistry⟩ := exists_ok_of_toBool hok
  have heq : placesRegistry = registry := by
    simp [placesRegistry, hregistry, Except.toOption]
  exact heq ▸ built_of_inserts hregistry

theorem places_placed : placesTopology.nodes.toList.all (fun e =>
    (placesTopology.addressOf e.1).toOption.any (fun a => nameOf a == e.1 && kindAt a == e.2.kind
      && (if e.2.kind = .node then
          a ∈ [.root, leafOfU, leafOfV]
            && placesRegistry.ledgerOf e.1 == some (Crypto.pubKey (stationKey a))
        else placesRegistry.operatorOf e.1 == some (usersOperator e.1 : ℕ)))) = true := by
  decide +kernel

theorem placesTopology_valid : placesTopology.validate = .ok () := by decide +kernel

/-- What the topology says of an id that it lists. -/
structure Placed (id : NodeId) (a : OctAddr) (kind : ChildKind) : Prop where
  tenant : nameOf a = id
  kind_eq : kindAt a = kind
  station : kind = .node → a ∈ [.root, leafOfU, leafOfV]
    ∧ placesRegistry.ledgerOf id = some (Crypto.pubKey (stationKey a))
  payer : kind = .user → placesRegistry.operatorOf id = some (usersOperator id : ℕ)

theorem placed {id : NodeId} {kind : ChildKind} (h : placesTopology.HasKind id kind) :
    ∃ a, placesTopology.addressOf id = .ok a ∧ Placed id a kind := by
  obtain ⟨record, hnode, rfl⟩ := h
  have hrow := List.all_eq_true.mp places_placed _ (Topology.mem_toList_iff_node.mpr hnode)
  cases haddr : placesTopology.addressOf id with
  | error e => simp [haddr, Except.toOption] at hrow
  | ok a =>
      simp only [haddr, Except.toOption, Option.any_some, Bool.and_eq_true, beq_iff_eq] at hrow
      obtain ⟨⟨htenant, hkind⟩, hrest⟩ := hrow
      refine ⟨a, rfl, htenant, hkind, ?_, ?_⟩
      · intro hnode
        simpa [hnode] using hrest
      · intro huser
        simpa [huser] using hrest

theorem placed_at {id : NodeId} {a : OctAddr} (h : placesTopology.addressOf id = .ok a) :
    ∃ kind, placesTopology.HasKind id kind ∧ Placed id a kind := by
  have hchain := (Topology.addressOf_eq_ok (Topology.validate_spec placesTopology_valid)).mp h
  obtain ⟨record, hnode⟩ := hchain.node
  have hkind : placesTopology.HasKind id record.kind := ⟨record, hnode, rfl⟩
  obtain ⟨a', haddr, hplaced⟩ := placed hkind
  obtain rfl := Except.ok.inj (h.symm.trans haddr)
  exact ⟨record.kind, hkind, hplaced⟩

theorem stations_placed : ∀ a ∈ [.root, leafOfU, leafOfV],
    placesTopology.addressOf (nameOf a) = .ok a
      ∧ placesRegistry.ledgerOf (nameOf a) = some (Crypto.pubKey (stationKey a)) := by
  decide +kernel

/-- The ledgers of the three nodes. -/
def stationLedgers (l : OctAddr → Ledger) : LedgerSet :=
  ⟨(((∅ : ExtTreeMap NodeId Ledger).insert (nameOf .root) (l .root)).insert
    (nameOf leafOfU) (l leafOfU)).insert (nameOf leafOfV) (l leafOfV)⟩

theorem stationLedgers_get {l : OctAddr → Ledger} {id : NodeId} {ledger : Ledger} :
    (stationLedgers l).get id = some ledger
      ↔ ∃ a ∈ [.root, leafOfU, leafOfV], id = nameOf a ∧ ledger = l a := by
  simp only [stationLedgers, LedgerSet.get, ExtTreeMap.getElem?_insert, ExtTreeMap.getElem?_empty,
    Std.compare_eq_iff_eq]
  constructor
  · intro hget
    split at hget
    next heq => exact ⟨leafOfV, by simp, heq.symm, (Option.some.inj hget).symm⟩
    next =>
      split at hget
      next heq => exact ⟨leafOfU, by simp, heq.symm, (Option.some.inj hget).symm⟩
      next =>
        split at hget
        next heq => exact ⟨.root, by simp, heq.symm, (Option.some.inj hget).symm⟩
        next => cases hget
  · rintro ⟨a, ha, rfl, rfl⟩
    simp only [List.mem_cons, List.not_mem_nil, or_false] at ha
    simp only [nameOf_injective.eq_iff]
    rcases ha with rfl | rfl | rfl
    · rw [if_neg (by decide), if_neg (by decide), if_pos rfl]
    · rw [if_neg (by decide), if_pos rfl]
    · rw [if_pos rfl]

theorem exists_auditView (events : List NetworkEvent) : ∃ ledgers,
    (Network.run .native64 stationKey nameOf events).AuditView stationKey
      (fun id => (usersOperator id : ℕ)) layout placesTopology ledgers placesRegistry := by
  generalize hrun : Network.run .native64 stationKey nameOf events = net
  have hloads : ∀ a, ∃ l, openLedger (stationKey a) (net.log a) = .ok l := by
    intro a
    rw [← hrun]
    exact (Network.run_leafSound .native64 stationKey nameOf events a).desk.log.loads
  choose l hl using hloads
  refine ⟨stationLedgers l, placesTopology_valid, placesRegistry_built, ?_, ?_, ?_, ?_, ?_⟩
  · intro id a haddr
    obtain ⟨kind, -, hplaced⟩ := placed_at haddr
    exact hplaced.tenant
  · intro id a kind haddr hkind
    obtain ⟨a', haddr', hplaced⟩ := placed hkind
    obtain rfl := Except.ok.inj (haddr.symm.trans haddr')
    exact hplaced.kind_eq
  · intro id ledger hget
    obtain ⟨a, ha, rfl, rfl⟩ := stationLedgers_get.mp hget
    obtain ⟨haddr, hledger⟩ := stations_placed a ha
    exact ⟨a, haddr, hl a, hledger⟩
  · intro id a haddr hkind
    obtain ⟨a', haddr', hplaced⟩ := placed hkind
    obtain rfl := Except.ok.inj (haddr.symm.trans haddr')
    obtain ⟨ha, -⟩ := hplaced.station rfl
    have hget : (stationLedgers l).get id = some (l a) :=
      stationLedgers_get.mpr ⟨a, ha, hplaced.tenant.symm, rfl⟩
    rw [hget]
    rfl
  · intro id hkind
    obtain ⟨a, -, hplaced⟩ := placed hkind
    exact hplaced.payer rfl

/-- The users send their own orders to where the payees sit. -/
theorem orderEvents_own : ∀ ev ∈ orderEvents,
    ev.Own (fun id => (usersOperator id : ℕ)) layout := by
  have hregisters : (stationDisk leafOfU).Registers (fun id => (usersOperator id : ℕ))
      (stationRecord leafOfU) := by
    intro rows hrows u huser
    obtain rfl := Option.some.inj hrows
    obtain ⟨child, hfind, -⟩ := Option.map_eq_some_iff.mp huser
    have hid : child.childId = u := by simpa using List.find?_some hfind
    obtain ⟨neighbor, hmem, rfl⟩ := List.mem_map.mp (List.mem_of_find?_eq_some hfind)
    obtain rfl : nameOf neighbor.1 = u := hid
    have hrows : ∀ neighbor ∈ (station leafOfU).children,
        ((registry (stationPeers leafOfU)).get (nameOf neighbor.1)).map (·.operator)
          = some (usersOperator (nameOf neighbor.1) : ℕ) := by
      decide +kernel
    exact Option.map_eq_some_iff.mp (hrows neighbor hmem)
  have hsend : ∀ {payee : OctAddr} (amount : Amount), kindAt payee = .user →
      (sendOrder payee amount).Own (fun id => (usersOperator id : ℕ)) layout := by
    intro payee amount hkind
    refine ⟨?_, ?_⟩
    · intro order horder
      obtain rfl := Option.some.inj horder
      refine ⟨rfl, ?_⟩
      intro payeeAddr hpayee
      obtain rfl := Option.some.inj hpayee
      exact ⟨rfl, hkind⟩
    · intro record hrecord
      obtain rfl := Option.some.inj hrecord
      exact ⟨hregisters, hregisters⟩
  intro ev hev
  simp only [orderEvents, List.mem_cons, List.not_mem_nil, or_false] at hev
  rcases hev with rfl | rfl | rfl | rfl | rfl | rfl | rfl
  · trivial
  · trivial
  · trivial
  · trivial
  · trivial
  · exact hsend 2 (by decide)
  · exact hsend 3 (by decide)

theorem completedEvents_own : ∀ ev ∈ completedEvents,
    ev.Own (fun id => (usersOperator id : ℕ)) layout := by
  refine List.forall_mem_append.mpr ⟨orderEvents_own, ?_⟩
  intro ev hev
  simp only [List.mem_cons, List.not_mem_nil, or_false] at hev
  rcases hev with rfl | rfl | rfl
  · trivial
  · trivial
  · trivial

theorem cascadeEvents_own : ∀ ev ∈ cascadeEvents,
    ev.Own (fun id => (usersOperator id : ℕ)) layout := by
  intro ev hev
  refine completedEvents_own ev ?_
  rcases List.mem_append.mp hev with hev | hev
  · exact List.mem_append_left _ hev
  · obtain rfl := List.mem_singleton.mp hev
    exact List.mem_append_right _ List.mem_cons_self

/-- The signers of the route of the order for `v`. -/
theorem expectedHops_orderTo : ∃ hops, expectedHops placesTopology (orderTo addressOfV 3) = .ok hops
    ∧ hops.map (·.signer) = [leafOfU, .root, leafOfV].map nameOf := by
  have hroute : (expectedHops placesTopology (orderTo addressOfV 3)).toOption.map
      (fun hops => hops.map (·.signer)) = some ([leafOfU, .root, leafOfV].map nameOf) := by
    decide +kernel
  cases hhops : expectedHops placesTopology (orderTo addressOfV 3) with
  | error e => simp [hhops, Except.toOption] at hroute
  | ok hops =>
      rw [hhops] at hroute
      exact ⟨hops, rfl, Option.some.inj hroute⟩

/-- The audit objects to the order for `v` while it is under way, and no longer when the leaf of
`v` has booked it. -/
theorem audit_exact_cascade :
    (∃ ledgers, (Network.run .native64 stationKey nameOf cascadeEvents).AuditView stationKey
        (fun id => (usersOperator id : ℕ)) layout placesTopology ledgers placesRegistry
      ∧ ∃ f ∈ (net placesTopology ledgers placesRegistry [orderTo addressOfV 3] ∅).findings,
          f.objectsTo (orderTo addressOfV 3).hash)
    ∧ ∃ ledgers, (Network.run .native64 stationKey nameOf completedEvents).AuditView stationKey
        (fun id => (usersOperator id : ℕ)) layout placesTopology ledgers placesRegistry
      ∧ ∀ f ∈ (net placesTopology ledgers placesRegistry [orderTo addressOfV 3] ∅).findings,
          ¬ f.objectsTo (orderTo addressOfV 3).hash := by
  have haddr : ∀ order ∈ [orderTo addressOfV 3], order.Addressable := by
    intro order horder
    rw [List.mem_singleton.mp horder]
    exact orderTo_addressable addressable_addressOfV
  obtain ⟨hops, hhops, hsigners⟩ := expectedHops_orderTo
  constructor
  · obtain ⟨ledgers, hview⟩ := exists_auditView cascadeEvents
    refine ⟨ledgers, hview, (audit_exact .native64 stationKey nameOf layout _ cascadeEvents
      collisionFree settlePostcard_roundTrip cascadeEvents_lawful cascadeEvents_own placesTopology
      ledgers placesRegistry hview _ haddr ∅ _ (List.mem_singleton_self _)).mpr ?_⟩
    rintro ⟨hops', hhops', hall⟩
    obtain rfl := Except.ok.inj (hhops.symm.trans hhops')
    have hlast : nameOf leafOfV ∈ hops.map (·.signer) := by
      rw [hsigners]
      exact List.mem_map_of_mem (by simp)
    obtain ⟨hop, hhop, hsigner⟩ := List.mem_map.mp hlast
    obtain ⟨a, haddr, hmem⟩ := hall hop hhop
    obtain ⟨_, -, hplaced⟩ := placed_at haddr
    obtain rfl := nameOf_injective (hplaced.tenant.trans hsigner)
    exact cascadeEvents_holders.2 hmem
  · obtain ⟨ledgers, hview⟩ := exists_auditView completedEvents
    have hexact := audit_exact .native64 stationKey nameOf layout _ completedEvents collisionFree
      settlePostcard_roundTrip completedEvents_lawful completedEvents_own placesTopology ledgers
      placesRegistry hview _ haddr ∅ _ (List.mem_singleton_self _)
    refine ⟨ledgers, hview, fun f hf hobjects => hexact.mp ⟨f, hf, hobjects⟩ ⟨hops, hhops, ?_⟩⟩
    intro hop hhop
    have hsigner := List.mem_map_of_mem (f := (·.signer)) hhop
    rw [hsigners] at hsigner
    obtain ⟨a, ha, hsame⟩ := List.mem_map.mp hsigner
    have hstation : a ∈ [.root, leafOfU, leafOfV] :=
      (List.Perm.swap .root leafOfU [leafOfV]).subset ha
    rw [← hsame]
    exact ⟨a, (stations_placed a hstation).1, cascade_outcome.2.2.1 a hstation⟩

end Concrete

end Cawala
