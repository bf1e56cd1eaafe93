import Cawala.Library.KeyedSums
import Cawala.Verification.Accounting
import Cawala.Verification.CascadeSafety
import Cawala.Verification.MirrorAudit
import Cawala.Verification.Netting

/-! # The two ledgers of an edge

A node has an account at its parent, and both keep its balance: the parent as what it owes the
child, the child as what it has at the parent. A cascade that passes the edge moves both, at
different times. On the way up the child signs first and lowers its balance, on the way down the
parent signs first and raises its own. So cascades alone never let the child claim more than the
parent owes it, and what the parent owes beyond the claim is under way. -/

namespace Cawala

open Library
open Std (ExtTreeMap)

/-! ## Routes -/

section Routes

variable {src dst srcLeaf dstLeaf p q : OctAddr} {signers : List OctAddr}

/-- What lies on the way to a signer is a signer at an earlier place. -/
theorem SignerRoute.before (h : SignerRoute src dst srcLeaf dstLeaf signers) {i : ℕ}
    (hi : signers[i]? = some p) (hq : q.digits ∈ route srcLeaf.digits p.digits) :
    ∃ j ≤ i, signers[j]? = some q := by
  have hdigits : (route srcLeaf.digits dstLeaf.digits)[i]? = some p.digits := by
    rw [← h.digits, List.getElem?_map, hi]
    rfl
  rw [route_take hdigits] at hq
  obtain ⟨j, hj, hget⟩ := List.mem_take_iff_getElem.mp hq
  refine ⟨j, by omega, ?_⟩
  have hat : (signers.map (·.digits))[j]? = some q.digits := by
    rw [h.digits]
    exact List.getElem?_eq_some_iff.mpr ⟨by omega, hget⟩
  rw [List.getElem?_map, Option.map_eq_some_iff] at hat
  obtain ⟨b, hb, hsame⟩ := hat
  rw [hb, OctAddr.ext hsame]

/-- Signers lie below where the ways of the two users meet. -/
theorem SignerRoute.meet_le (h : SignerRoute src dst srcLeaf dstLeaf signers) (hp : p ∈ signers) :
    meet srcLeaf.digits dstLeaf.digits <+: p.digits :=
  meet_le_of_mem_route (h.digits ▸ List.mem_map_of_mem hp)

end Routes

/-! ## Edges -/

structure Layout.Edge (layout : Layout) (p c : OctAddr) : Prop where
  parent : c.parent = some p
  node : layout.kind c = .node

/-- What a payment between the users of two leaves moves on an edge: the child pays on the way
up and is paid on the way down. -/
def edgeMove (srcLeaf dstLeaf p c : OctAddr) (amount : ℤ) : ℤ :=
  if meet srcLeaf.digits dstLeaf.digits <+: p.digits then
    if c.digits <+: srcLeaf.digits then -amount
    else if c.digits <+: dstLeaf.digits then amount
    else 0
  else 0

def DerivedHop.move (hop : DerivedHop) (amount : ℤ) (a : AccountRef) : ℤ :=
  roleMove hop.role hop.first hop.second amount a

section Edges

variable {layout : Layout} {p c leaf target src dst srcLeaf dstLeaf : OctAddr}
  {signers : List OctAddr} {derived : DerivedHop}

theorem Layout.Edge.not_le (h : layout.Edge p c) : ¬ c.digits <+: p.digits := by
  obtain ⟨slot, hslot⟩ := OctAddr.parent_eq_some.mp h.parent
  intro hle
  have := hle.length_le
  simp [hslot] at this

/-- What the child leads to, the parent leads to, and no node leads past a user. -/
theorem Layout.Edge.toward (h : layout.Edge p c) (htarget : target.parent = some leaf)
    (huser : leaf = p → layout.kind target = .user) (hle : p.digits <+: leaf.digits) :
    layout.tenant (Layout.below p target) = layout.tenant c ↔ c.digits <+: leaf.digits := by
  obtain ⟨slot, hslot⟩ := OctAddr.parent_eq_some.mp h.parent
  constructor
  · intro htenant
    -- the child toward the target sits beside `c`, under the same id
    obtain ⟨x, hx⟩ := exists_branch (hle.trans (prefix_of_parent htarget)) (by
      rintro heq
      have := hle.length_le
      obtain ⟨y, hy⟩ := OctAddr.parent_eq_some.mp htarget
      simp [heq, hy] at this)
    have hparent : (Layout.below p target).parent = some p := by
      refine OctAddr.parent_eq_some.mpr ⟨x, ?_⟩
      have htake := List.prefix_iff_eq_take.mp hx
      rw [htake]
      simp [Layout.below, OctAddr.takeDigits, OctAddr.depth]
    obtain rfl := layout.apart _ _ (hparent.trans h.parent.symm) htenant
    have hbelow : (Layout.below p target).digits <+: target.digits := List.take_prefix _ _
    obtain ⟨y, hy⟩ := OctAddr.parent_eq_some.mp htarget
    rw [hy, List.prefix_concat_iff] at hbelow
    refine hbelow.resolve_left fun heq => ?_
    have hsame : Layout.below p target = target := OctAddr.ext (heq.trans hy.symm)
    have hleaf : leaf = p := by
      rw [hsame, htarget] at hparent
      exact Option.some.inj hparent
    have hnode := h.node
    rw [hsame, huser hleaf] at hnode
    cases hnode
  · intro hc
    rw [Layout.below_eq hslot (hc.trans (prefix_of_parent htarget))]

theorem SignerRoute.one_side (hne : p.digits ≠ meet srcLeaf.digits dstLeaf.digits)
    (hmeet : meet srcLeaf.digits dstLeaf.digits <+: p.digits) :
    ¬ (p.digits <+: srcLeaf.digits ∧ p.digits <+: dstLeaf.digits) := fun hboth =>
  hne ((le_meet_iff.mpr hboth).eq_of_length_le hmeet.length_le)

theorem SignerRoute.not_user (h : SignerRoute src dst srcLeaf dstLeaf signers) (hp : p ∈ signers) :
    p ≠ src ∧ p ≠ dst := by
  have hside := (mem_route.mp (h.digits ▸ List.mem_map_of_mem hp)).1
  have hbelow : ∀ {user leaf : OctAddr}, user.parent = some leaf →
      ¬ user.digits <+: leaf.digits := by
    intro user leaf hparent hle
    obtain ⟨slot, hslot⟩ := OctAddr.parent_eq_some.mp hparent
    have := hle.length_le
    simp [hslot] at this
  constructor
  · rintro rfl
    exact hside.elim (hbelow h.src) fun hle => h.left ((prefix_of_parent h.src).trans hle)
  · rintro rfl
    exact hside.elim (fun hle => h.right ((prefix_of_parent h.dst).trans hle)) (hbelow h.dst)

theorem SignerRoute.side_cases (h : SignerRoute src dst srcLeaf dstLeaf signers)
    (hp : p ∈ signers) (hhop : layout.hop src dst p = some derived) :
    (p.digits = meet srcLeaf.digits dstLeaf.digits
        ∧ derived = ⟨.lca, .child (layout.tenant (Layout.below p src)),
            .child (layout.tenant (Layout.below p dst))⟩)
      ∨ (p.digits ≠ meet srcLeaf.digits dstLeaf.digits ∧ p.digits <+: srcLeaf.digits
        ∧ derived = ⟨.ascend, .parent, .child (layout.tenant (Layout.below p src))⟩)
      ∨ (p.digits ≠ meet srcLeaf.digits dstLeaf.digits ∧ p.digits <+: dstLeaf.digits
        ∧ derived = ⟨.descend, .parent, .child (layout.tenant (Layout.below p dst))⟩) := by
  obtain ⟨hsrc, hdst⟩ := h.not_user hp
  unfold Layout.hop at hhop
  split at hhop
  next hrole =>
    obtain rfl := Option.some.inj hhop
    rcases h.role_cases hrole with ⟨heq, -⟩ | ⟨-, hside⟩ | ⟨heq, -⟩
    · cases heq
    · obtain ⟨hne, -, hle⟩ := hside.resolve_left hsrc
      exact Or.inr (Or.inl ⟨hne, hle, rfl⟩)
    · cases heq
  next hrole =>
    obtain rfl := Option.some.inj hhop
    rcases h.role_cases hrole with ⟨-, heq⟩ | ⟨heq, -⟩ | ⟨heq, -⟩
    · exact Or.inl ⟨heq, rfl⟩
    · cases heq
    · cases heq
  next hrole =>
    obtain rfl := Option.some.inj hhop
    rcases h.role_cases hrole with ⟨heq, -⟩ | ⟨heq, -⟩ | ⟨-, hside⟩
    · cases heq
    · cases heq
    · obtain ⟨hne, -, hle⟩ := hside.resolve_left hdst
      exact Or.inr (Or.inr ⟨hne, hle, rfl⟩)
  next => cases hhop

theorem SignerRoute.child_move (hroute : SignerRoute src dst srcLeaf dstLeaf signers)
    (h : layout.Edge p c) (hp : p ∈ signers) (hpayer : layout.kind src = .user)
    (hpayee : dst.parent = some p → layout.kind dst = .user)
    (hhop : layout.hop src dst p = some derived) (amount : ℤ) :
    derived.move amount (.child (layout.tenant c)) = edgeMove srcLeaf dstLeaf p c amount := by
  have hmeet := hroute.meet_le hp
  have hle := prefix_of_parent h.parent
  have hup : p.digits <+: srcLeaf.digits →
      (layout.tenant (Layout.below p src) = layout.tenant c ↔ c.digits <+: srcLeaf.digits) :=
    h.toward hroute.src fun _ => hpayer
  have hdown : p.digits <+: dstLeaf.digits →
      (layout.tenant (Layout.below p dst) = layout.tenant c ↔ c.digits <+: dstLeaf.digits) :=
    h.toward hroute.dst fun heq => hpayee (heq ▸ hroute.dst)
  unfold edgeMove
  rw [if_pos hmeet]
  rcases hroute.side_cases hp hhop with ⟨heq, rfl⟩ | ⟨hne, hside, rfl⟩ | ⟨hne, hside, rfl⟩
  · have hboth : c.digits <+: srcLeaf.digits → ¬ c.digits <+: dstLeaf.digits := fun hsrc hdst =>
      h.not_le (heq ▸ le_meet_iff.mpr ⟨hsrc, hdst⟩)
    simp only [DerivedHop.move, roleMove, HopRole.signs, AccountRef.child.injEq,
      hup (heq ▸ meet_le_left _ _), hdown (heq ▸ meet_le_right _ _)]
    by_cases hsrc : c.digits <+: srcLeaf.digits
    · simp [hsrc, hboth hsrc]
    · simp [hsrc]
  · have hdst : ¬ c.digits <+: dstLeaf.digits := fun hc =>
      SignerRoute.one_side hne hmeet ⟨hside, hle.trans hc⟩
    simp only [DerivedHop.move, roleMove, HopRole.signs, AccountRef.child.injEq, hup hside]
    simp [hdst]
  · have hsrc : ¬ c.digits <+: srcLeaf.digits := fun hc =>
      SignerRoute.one_side hne hmeet ⟨hle.trans hc, hside⟩
    simp only [DerivedHop.move, roleMove, HopRole.signs, AccountRef.child.injEq, hdown hside]
    simp [hsrc]

theorem SignerRoute.parent_move (hroute : SignerRoute src dst srcLeaf dstLeaf signers)
    (h : layout.Edge p c) (hc : c ∈ signers) (hhop : layout.hop src dst c = some derived)
    (amount : ℤ) :
    derived.move amount .parent = edgeMove srcLeaf dstLeaf p c amount := by
  have hmeet := hroute.meet_le hc
  have hbelow : c.digits ≠ meet srcLeaf.digits dstLeaf.digits →
      meet srcLeaf.digits dstLeaf.digits <+: p.digits := by
    intro hne
    obtain ⟨slot, hslot⟩ := OctAddr.parent_eq_some.mp h.parent
    rw [hslot] at hmeet hne
    exact (List.prefix_concat_iff.mp hmeet).resolve_left hne.symm
  unfold edgeMove
  rcases hroute.side_cases hc hhop with ⟨heq, rfl⟩ | ⟨hne, hside, rfl⟩ | ⟨hne, hside, rfl⟩
  · rw [if_neg (heq ▸ h.not_le)]
    simp [DerivedHop.move, roleMove]
  · rw [if_pos (hbelow hne), if_pos hside]
    simp [DerivedHop.move, roleMove, HopRole.signs]
  · have hsrc : ¬ c.digits <+: srcLeaf.digits := fun hc =>
      SignerRoute.one_side hne hmeet ⟨hc, hside⟩
    rw [if_pos (hbelow hne), if_neg hsrc, if_pos hside]
    simp [DerivedHop.move, roleMove, HopRole.signs]

end Edges

/-! ## What an order moves -/

section Moves

variable [Crypto] {order : PaymentOrder} {derived : DerivedHop} {s : SignedEntry}

theorem HopBooked.postedDelta (h : HopBooked order derived s) (a : AccountRef) :
    Cawala.postedDelta s.entry.postings a = derived.move order.amount.toNat a := by
  obtain ⟨m, hm, hpostings⟩ := h.postings
  obtain ⟨hpos, hneg⟩ := checkedI64_eq_ok hm
  have hmoves := hopDelta_eq_roleMove (hneg.trans (congrArg Neg.neg hpos.symm))
    ⟨order.from_, derived.role, derived.first, derived.second⟩ a
  rw [hopDelta, ← hpostings, hpos] at hmoves
  exact hmoves

/-- What an order moves on an edge: whoever of the two nodes holds it has moved the same, and
the node that pays moves first. -/
structure Network.Moves (net : Network) (layout : Layout) (p c : OctAddr) (order : PaymentOrder)
    (move : ℤ) : Prop where
  parent : ∀ s ∈ net.log p, s.payment = some order.hash →
    postedDelta s.entry.postings (.child (layout.tenant c)) = move
  child : ∀ s ∈ net.log c, s.payment = some order.hash →
    postedDelta s.entry.postings .parent = move
  up : move < 0 → order.hash ∈ payments (net.log p) → order.hash ∈ payments (net.log c)
  down : 0 < move → order.hash ∈ payments (net.log c) → order.hash ∈ payments (net.log p)

variable [Postcard] {net : Network} {layout : Layout} {payer payee a p c : OctAddr}

theorem Network.HoldsAt.moves (h : net.HoldsAt layout order payer payee a)
    (honce : (payments (net.log a)).Nodup) (hs : s ∈ net.log a)
    (hpayment : s.payment = some order.hash) :
    ∃ derived, layout.hop payer payee a = some derived
      ∧ ∀ account, postedDelta s.entry.postings account
          = derived.move order.amount.toNat account := by
  obtain ⟨derived, seq, hash, hhop, t, hfirst, -, -, hbooked⟩ := h.hop
  obtain rfl := hfirst.unique honce hs hpayment
  exact ⟨derived, hhop, hbooked.postedDelta⟩

variable [SettlePostcard] {keys : OctAddr → LedgerSecretKey}

/-- A transfer between the users of a leaf moves nothing on the edges of the leaf. -/
theorem Network.Cascading.moves_direct (h : net.Cascading keys layout)
    (haddr : order.Addressable) (hedge : layout.Edge p c)
    (hnone : ∀ forward, net.Issued (.forward forward) → forward.order ≠ order) :
    net.Moves layout p c order 0 := by
  have hdirect : ∀ a, ∀ s ∈ net.log a, s.payment = some order.hash →
      layout.Houses a order.from_ ∧ layout.Houses a order.to_
        ∧ ∀ account, postedDelta s.entry.postings account
            = order.directHop.move order.amount.toNat account := by
    intro a s hs hpayment
    obtain ⟨hfrom, hto, seq, hash, t, hfirst, -, -, hbooked⟩ :=
      h.direct haddr (List.mem_filterMap.mpr ⟨s, hs, hpayment⟩) hnone
    obtain rfl := hfirst.unique (h.once a) hs hpayment
    exact ⟨hfrom, hto, hbooked.postedDelta⟩
  have hne : ∀ id, layout.Houses p id → id ≠ layout.tenant c := by
    rintro id ⟨b, hparent, rfl, hkind⟩ hsame
    obtain rfl := layout.apart b c (hparent.trans hedge.parent.symm) hsame
    rw [hedge.node] at hkind
    cases hkind
  refine ⟨?_, ?_, fun hlt => absurd hlt (lt_irrefl 0), fun hlt => absurd hlt (lt_irrefl 0)⟩
  · intro s hs hpayment
    obtain ⟨hfrom, hto, hmoves⟩ := hdirect p s hs hpayment
    rw [hmoves]
    simp [DerivedHop.move, roleMove, PaymentOrder.directHop, hne _ hfrom, hne _ hto]
  · intro s hs hpayment
    obtain ⟨-, -, hmoves⟩ := hdirect c s hs hpayment
    rw [hmoves]
    simp [DerivedHop.move, roleMove, PaymentOrder.directHop]

theorem Network.Cascading.moves_cascade (h : net.Cascading keys layout)
    (haddr : order.Addressable) (hedge : layout.Edge p c) {forward : SettleForwardV3}
    (hissued : net.Issued (.forward forward)) (horder : forward.order = order) :
    ∃ move, net.Moves layout p c order move := by
  obtain ⟨signers, hway⟩ := h.forwards forward hissued
  obtain ⟨srcLeaf, dstLeaf, hroute⟩ := routeSigners_route hway.routed.route
  have hsigner : ∀ a, order.hash ∈ payments (net.log a) → ∃ i : ℕ, signers[i]? = some a
      ∧ ∀ j ≤ i, ∀ b, signers[j]? = some b →
        net.HoldsAt layout order forward.payerAddr forward.payeeAddr b :=
    fun a ha => h.signer haddr hissued horder hway.routed.route ha
  -- a node that holds the order brings those on the way to it
  have hbring : ∀ a b : OctAddr, order.hash ∈ payments (net.log a) →
      (a ∈ signers → b.digits ∈ route srcLeaf.digits a.digits) →
      order.hash ∈ payments (net.log b) := by
    intro a b ha hway'
    obtain ⟨i, hi, hheld⟩ := hsigner a ha
    obtain ⟨j, hj, hb⟩ := hroute.before hi (hway' (List.mem_of_getElem? hi))
    exact (hheld j hj b hb).mem
  refine ⟨edgeMove srcLeaf dstLeaf p c order.amount.toNat, ?_, ?_, ?_, ?_⟩
  · intro s hs hpayment
    obtain ⟨i, hi, hheld⟩ := hsigner p (List.mem_filterMap.mpr ⟨s, hs, hpayment⟩)
    have hat := hheld i le_rfl p hi
    obtain ⟨derived, hhop, hmoves⟩ := hat.moves (h.once p) hs hpayment
    rw [hmoves]
    exact hroute.child_move hedge (List.mem_of_getElem? hi) hway.routed.payer
      (fun heq => (hat.payee heq).2) hhop _
  · intro s hs hpayment
    obtain ⟨i, hi, hheld⟩ := hsigner c (List.mem_filterMap.mpr ⟨s, hs, hpayment⟩)
    obtain ⟨derived, hhop, hmoves⟩ := (hheld i le_rfl c hi).moves (h.once c) hs hpayment
    rw [hmoves]
    exact hroute.parent_move hedge (List.mem_of_getElem? hi) hhop _
  · intro hlt hp
    refine hbring p c hp fun _ => ?_
    have hup : c.digits <+: srcLeaf.digits := by
      by_contra hno
      rw [edgeMove, if_neg hno] at hlt
      split at hlt
      · split at hlt <;> omega
      · omega
    have hle := prefix_of_parent hedge.parent
    rw [mem_route, meet_comm, meet_eq_left (hle.trans hup)]
    exact ⟨Or.inl hup, hle.length_le⟩
  · intro hlt hc
    refine hbring c p hc fun _ => ?_
    have hle := prefix_of_parent hedge.parent
    have hdown : meet srcLeaf.digits dstLeaf.digits <+: p.digits
        ∧ c.digits <+: dstLeaf.digits := by
      unfold edgeMove at hlt
      split at hlt
      next hmeet =>
        split at hlt
        · omega
        · split at hlt
          next hdst => exact ⟨hmeet, hdst⟩
          next => omega
      next => omega
    have hmeet : meet srcLeaf.digits c.digits <+: p.digits :=
      (le_meet_iff.mpr ⟨meet_le_left _ _, (meet_le_right _ _).trans hdown.2⟩).trans hdown.1
    rw [mem_route]
    exact ⟨Or.inr hle, hmeet.length_le⟩

theorem Network.Cascading.moves (h : net.Cascading keys layout) (haddr : order.Addressable)
    (hedge : layout.Edge p c) : ∃ move, net.Moves layout p c order move := by
  by_cases hcascade : ∃ forward, net.Issued (.forward forward) ∧ forward.order = order
  · obtain ⟨forward, hissued, horder⟩ := hcascade
    exact h.moves_cascade haddr hedge hissued horder
  · exact ⟨0, h.moves_direct haddr hedge fun forward hissued horder =>
      hcascade ⟨forward, hissued, horder⟩⟩

end Moves

/-! ## Totals -/

section Totals

variable [Crypto]

/-- An entry of an order; the others are the operator's. -/
def SignedEntry.OfOrder (s : SignedEntry) : Prop :=
  ∃ order : PaymentOrder, order.Addressable ∧ s.payment = some order.hash

open Classical in
noncomputable def orderEntries (frames : List SignedEntry) : List SignedEntry :=
  frames.filter fun s => decide s.OfOrder

open Classical in
noncomputable def operatorTotal (frames : List SignedEntry) (account : AccountRef) : ℤ :=
  postedTotal (frames.filter fun s => !decide s.OfOrder) account

/-- What is under way on an edge: paid to the child and not yet claimed by it, or paid by the
child and not yet taken from it. -/
noncomputable def inTransit (parent child : List SignedEntry) (id : NodeId) : ℤ :=
  ((unmatched (·.payment) ((orderEntries child).map (·.payment)) (orderEntries parent)).map
      fun s => postedDelta s.entry.postings (.child id)).sum
    - ((unmatched (·.payment) ((orderEntries parent).map (·.payment))
        (orderEntries child)).map fun s => postedDelta s.entry.postings .parent).sum

variable {frames : List SignedEntry} {s : SignedEntry}

theorem mem_orderEntries : s ∈ orderEntries frames ↔ s ∈ frames ∧ s.OfOrder := by
  simp [orderEntries]

theorem mem_alone {others : List SignedEntry}
    (h : s ∈ unmatched (·.payment) ((orderEntries others).map (·.payment)) (orderEntries frames)) :
    ∃ order : PaymentOrder, order.Addressable ∧ s ∈ frames ∧ s.payment = some order.hash
      ∧ order.hash ∉ payments others := by
  obtain ⟨hs, halone⟩ := mem_unmatched.mp h
  obtain ⟨hmem, order, haddr, hpayment⟩ := mem_orderEntries.mp hs
  refine ⟨order, haddr, hmem, hpayment, ?_⟩
  intro hother
  obtain ⟨t, ht, hsame⟩ := List.mem_filterMap.mp hother
  exact halone (List.mem_map.mpr
    ⟨t, mem_orderEntries.mpr ⟨ht, order, haddr, hsame⟩, hsame.trans hpayment.symm⟩)

/-- Orders and operator together make the balance. -/
theorem postedTotal_eq (frames : List SignedEntry) (account : AccountRef) :
    postedTotal frames account
      = postedTotal (orderEntries frames) account + operatorTotal frames account := by
  classical
  have hperm := (List.filter_append_perm (fun s : SignedEntry => decide s.OfOrder) frames).map
    fun s => postedDelta s.entry.postings account
  rw [postedTotal, ← hperm.sum_eq, List.map_append, List.sum_append]
  rfl

theorem nodup_orderEntries (h : (payments frames).Nodup) :
    ((orderEntries frames).map (·.payment)).Nodup := by
  refine List.pairwise_map.mpr (List.pairwise_filter.mpr ?_)
  refine (List.pairwise_filterMap.mp h).imp ?_
  intro s t hne hs ht heq
  obtain ⟨order, -, hpayment⟩ : s.OfOrder := by simpa using hs
  exact hne _ hpayment _ (heq ▸ hpayment) rfl

variable [Postcard]

/-- What a log that replays is made of: entries of one ledger, signed with its key. -/
structure Replayed (key : LedgerSecretKey) (frames : List SignedEntry) (l : Ledger) : Prop where
  accounted : Accounted l
  ledgerId : l.ledgerId = Crypto.pubKey key
  ledgerPubkey : l.ledgerPubkey = Crypto.pubKey key
  entries : l.log.entries = frames
  signed : ∀ s ∈ frames, s.entry.ledgerId = Crypto.pubKey key ∧ s.Authentic
  conserved : ∀ s ∈ frames, s.entry.checkConservation = .ok ()

theorem Replayed.append {key : LedgerSecretKey} {l l' : Ledger} (h : Replayed key frames l)
    (happend : l.append s = .ok l') : Replayed key (frames ++ [s]) l' := by
  have hspec := append_spec happend
  have hid := hspec.ledgerId.trans h.ledgerId
  refine ⟨h.accounted.append happend, hspec.sameId.trans h.ledgerId,
    hspec.sameKey.trans h.ledgerPubkey, by rw [hspec.entries, h.entries], ?_, ?_⟩
  · refine List.forall_mem_append.mpr ⟨h.signed, List.forall_mem_singleton.mpr ⟨hid, ?_⟩⟩
    obtain ⟨bytes, hbytes, hsignature⟩ := hspec.signature
    exact ⟨bytes, hbytes, by rwa [hid, ← h.ledgerPubkey]⟩
  · exact List.forall_mem_append.mpr ⟨h.conserved, List.forall_mem_singleton.mpr hspec.conserved⟩

theorem openLedger_replayed {key : LedgerSecretKey} {l : Ledger}
    (h : openLedger key frames = .ok l) : Replayed key frames l := by
  have hnew : Replayed key [] (Ledger.new (Crypto.pubKey key)) :=
    ⟨accounted_new _, rfl, rfl, rfl, fun _ hs => absurd hs List.not_mem_nil,
      fun _ hs => absurd hs List.not_mem_nil⟩
  exact foldlM_induction (fun done s l l' hl happend => hl.append happend) hnew
    (openLedger_eq_ok.mp h)

/-- A log that replays has the balances that its entries post. -/
theorem openLedger_balance {key : LedgerSecretKey} {l : Ledger}
    (h : openLedger key frames = .ok l) (account : AccountRef) :
    l.balances.balance account = postedTotal frames account := by
  have hreplayed := openLedger_replayed h
  rw [hreplayed.accounted.balance, hreplayed.entries]

end Totals

/-! ## The two ledgers -/

section Runs

variable [Crypto] [Postcard] [SettlePostcard] {net : Network} {layout : Layout}
  {keys : OctAddr → LedgerSecretKey} {p c : OctAddr}

/-- The orders on the two ledgers of an edge differ by what is under way. -/
theorem Network.Cascading.orders_eq (h : net.Cascading keys layout) (hedge : layout.Edge p c) :
    postedTotal (orderEntries (net.log p)) (.child (layout.tenant c))
      = postedTotal (orderEntries (net.log c)) .parent
        + inTransit (net.log p) (net.log c) (layout.tenant c) := by
  have hagree : ∀ s ∈ orderEntries (net.log p), ∀ t ∈ orderEntries (net.log c),
      s.payment = t.payment → postedDelta s.entry.postings (.child (layout.tenant c))
        = postedDelta t.entry.postings .parent := by
    intro s hs t ht hsame
    obtain ⟨hs, order, haddr, hpayment⟩ := mem_orderEntries.mp hs
    obtain ⟨ht, -⟩ := mem_orderEntries.mp ht
    obtain ⟨move, hmoves⟩ := h.moves haddr hedge
    rw [hmoves.parent s hs hpayment, hmoves.child t ht (hsame ▸ hpayment)]
  have hsums := sum_add_unmatched (nodup_orderEntries (h.once p)) (nodup_orderEntries (h.once c))
    hagree
  unfold postedTotal inTransit
  omega

/-- What is under way is never less than nothing. -/
theorem Network.Cascading.inTransit_nonneg (h : net.Cascading keys layout)
    (hedge : layout.Edge p c) : 0 ≤ inTransit (net.log p) (net.log c) (layout.tenant c) := by
  have hpaid : 0 ≤ ((unmatched (·.payment) ((orderEntries (net.log c)).map (·.payment))
      (orderEntries (net.log p))).map
        fun s => postedDelta s.entry.postings (.child (layout.tenant c))).sum := by
    refine List.sum_nonneg ?_
    intro x hx
    obtain ⟨s, hs, rfl⟩ := List.mem_map.mp hx
    obtain ⟨order, haddr, hmem, hpayment, halone⟩ := mem_alone hs
    obtain ⟨move, hmoves⟩ := h.moves haddr hedge
    rw [hmoves.parent s hmem hpayment]
    -- what the child pays, the child has booked before its parent
    by_contra hneg
    exact halone (hmoves.up (not_le.mp hneg) (List.mem_filterMap.mpr ⟨s, hmem, hpayment⟩))
  have htaken : ((unmatched (·.payment) ((orderEntries (net.log p)).map (·.payment))
      (orderEntries (net.log c))).map fun s => postedDelta s.entry.postings .parent).sum ≤ 0 := by
    refine (List.sum_le_card_nsmul _ 0 ?_).trans_eq (nsmul_zero _)
    intro x hx
    obtain ⟨s, hs, rfl⟩ := List.mem_map.mp hx
    obtain ⟨order, haddr, hmem, hpayment, halone⟩ := mem_alone hs
    obtain ⟨move, hmoves⟩ := h.moves haddr hedge
    rw [hmoves.child s hmem hpayment]
    by_contra hpos
    exact halone (hmoves.down (not_le.mp hpos) (List.mem_filterMap.mpr ⟨s, hmem, hpayment⟩))
  unfold inTransit
  omega

variable [EthPrimitives] [HashBytes]

/-- In every lawful run both ledgers of an edge load, and the balance that the parent keeps for
the child is the one that the child keeps for itself but for what their operators have posted and
what is under way. So where the operators have posted the same, no audit of the two ledgers finds a
claim of the child that its parent does not back. -/
theorem edge_mirrors (target : Target) (keys : OctAddr → LedgerSecretKey)
    (ids : OctAddr → NodeId) (layout : Layout) (events : List NetworkEvent)
    (hfree : Crypto.CollisionFree) (hcodec : SettlePostcard.RoundTrip)
    (h : LawfulRun target keys ids layout events) (p c : OctAddr) (hedge : layout.Edge p c) :
    let net := Network.run target keys ids events
    ∃ parent child, openLedger (keys p) (net.log p) = .ok parent
      ∧ openLedger (keys c) (net.log c) = .ok child
      ∧ parent.balances.balance (.child (layout.tenant c))
            - operatorTotal (net.log p) (.child (layout.tenant c))
          = child.balances.balance .parent - operatorTotal (net.log c) .parent
            + inTransit (net.log p) (net.log c) (layout.tenant c)
      ∧ 0 ≤ inTransit (net.log p) (net.log c) (layout.tenant c)
      ∧ (operatorTotal (net.log p) (.child (layout.tenant c))
            = operatorTotal (net.log c) .parent →
          ∀ (t : Topology) (ledgers : LedgerSet) (registry : PeerRegistry)
            (orders : List PaymentOrder)
            (commitments : ExtTreeMap NodeId (List SignedCommitment))
            (parentView childView : Amount),
            ledgers.get (layout.tenant p) = some parent →
            ledgers.get (layout.tenant c) = some child →
            .mirrorMismatch { parent := layout.tenant p, child := layout.tenant c } parentView
                childView .unbackedClaim
              ∉ (Cawala.net t ledgers registry orders commitments).findings) := by
  intro net
  have hinv : net.Cascading keys layout := h.cascading hfree hcodec
  obtain ⟨parent, hparent⟩ : ∃ l, openLedger (keys p) (net.log p) = .ok l :=
    (hinv.leaf p).desk.log.loads
  obtain ⟨child, hchild⟩ : ∃ l, openLedger (keys c) (net.log c) = .ok l :=
    (hinv.leaf c).desk.log.loads
  have heq : parent.balances.balance (.child (layout.tenant c))
        - operatorTotal (net.log p) (.child (layout.tenant c))
      = child.balances.balance .parent - operatorTotal (net.log c) .parent
        + inTransit (net.log p) (net.log c) (layout.tenant c) := by
    rw [openLedger_balance hparent, openLedger_balance hchild, postedTotal_eq,
      postedTotal_eq (net.log c), hinv.orders_eq hedge]
    ring
  have hnonneg := hinv.inTransit_nonneg hedge
  refine ⟨parent, child, hparent, hchild, heq, hnonneg, ?_⟩
  intro hoperators t ledgers registry orders commitments parentView childView hp hc hfinding
  obtain ⟨parentLedger, childLedger, hp', hc', hlt⟩ :=
    Topology.lt_of_unbackedClaim (mem_auditMirrors_of_net hfinding rfl)
  obtain rfl : parent = parentLedger := Option.some.inj (hp.symm.trans hp')
  obtain rfl : child = childLedger := Option.some.inj (hc.symm.trans hc')
  omega

end Runs

namespace Concrete

theorem ofOrder_orderTo {s : SignedEntry} {amount : Amount}
    (h : s.payment = some (orderTo addressOfV amount).hash) : s.OfOrder :=
  ⟨_, orderTo_addressable addressable_addressOfV, h⟩

theorem not_ofOrder_of_none {s : SignedEntry} (h : s.payment = none) : ¬ s.OfOrder := by
  rintro ⟨order, -, hpayment⟩
  rw [h] at hpayment
  cases hpayment

/-- The root has credited the leaf of `v` with the order, which the leaf has not booked: three
units are under way, and no audit holds them against the leaf. -/
theorem edge_mirrors_pending :
    let net := Network.run .native64 stationKey nameOf cascadeEvents
    inTransit (net.log .root) (net.log leafOfV) (nameOf leafOfV) = 3
      ∧ ∃ parent child, openLedger (stationKey .root) (net.log .root) = .ok parent
        ∧ openLedger (stationKey leafOfV) (net.log leafOfV) = .ok child
        ∧ parent.balances.balance (.child (nameOf leafOfV)) = child.balances.balance .parent + 3
        ∧ ∀ (t : Topology) (ledgers : LedgerSet) (parentView childView : Amount),
            ledgers.get (nameOf .root) = some parent → ledgers.get (nameOf leafOfV) = some child →
            .mirrorMismatch { parent := nameOf .root, child := nameOf leafOfV } parentView
                childView .unbackedClaim
              ∉ (Cawala.net t ledgers .new [orderTo addressOfV 3] ∅).findings := by
  intro net
  have hedge : layout.Edge .root leafOfV := ⟨by decide, by decide⟩
  obtain ⟨-, ⟨hroot, hleaf⟩, -⟩ := cascade_outcome
  obtain ⟨opened, rest, hrootLog, hopened, hrest⟩ := List.map_eq_cons_iff.mp hroot
  obtain ⟨funded, rest, rfl, hfunded, hrest⟩ := List.map_eq_cons_iff.mp hrest
  obtain ⟨second, rest, rfl, hsecond, hrest⟩ := List.map_eq_cons_iff.mp hrest
  obtain ⟨booked, rest, rfl, hbooked, hrest⟩ := List.map_eq_cons_iff.mp hrest
  obtain rfl := List.map_eq_nil_iff.mp hrest
  obtain ⟨leafOpened, rest, hleafLog, hleafOpened, hrest⟩ := List.map_eq_cons_iff.mp hleaf
  obtain rfl := List.map_eq_nil_iff.mp hrest
  simp only [Prod.mk.injEq] at hopened hfunded hsecond hbooked hleafOpened
  have horder := ofOrder_orderTo hbooked.1
  have hopened' := not_ofOrder_of_none hopened.1
  have hfunded' := not_ofOrder_of_none hfunded.1
  have hsecond' := not_ofOrder_of_none hsecond.1
  have hleafOpened' := not_ofOrder_of_none hleafOpened.1
  have htransit : inTransit (net.log .root) (net.log leafOfV) (nameOf leafOfV) = 3 := by
    simp [net, inTransit, orderEntries, unmatched, hrootLog, hleafLog, hopened', hfunded', hsecond',
      hleafOpened', horder, hbooked.2]
  have hposted : operatorTotal (net.log .root) (.child (nameOf leafOfV))
      = operatorTotal (net.log leafOfV) .parent := by
    simp [net, operatorTotal, postedTotal, hrootLog, hleafLog, hopened', hfunded', hsecond',
      hleafOpened', horder, hopened.2, hfunded.2, hsecond.2, hleafOpened.2]
  obtain ⟨parent, child, hparent, hchild, hbalance, -, haudit⟩ :=
    edge_mirrors .native64 stationKey nameOf layout cascadeEvents collisionFree
      settlePostcard_roundTrip cascadeEvents_lawful .root leafOfV hedge
  refine ⟨htransit, parent, child, hparent, hchild, ?_, ?_⟩
  · change _ - operatorTotal (net.log .root) (.child (nameOf leafOfV))
      = _ - operatorTotal (net.log leafOfV) .parent
        + inTransit (net.log .root) (net.log leafOfV) (nameOf leafOfV) at hbalance
    change parent.balances.balance (.child (layout.tenant leafOfV)) = _
    omega
  · exact fun t ledgers parentView childView =>
      haudit hposted t ledgers .new [orderTo addressOfV 3] ∅ parentView childView

end Concrete

end Cawala
