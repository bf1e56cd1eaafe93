import Cawala.Model.ControlConcrete
import Cawala.Verification.Cascade

/-! # Who holds an order

At any time of a run the nodes that hold an order across leaves are the first signers of its
route. -/

namespace Cawala

open Std (ExtTreeMap)
open Library Library.Transaction

/-! ## Holders -/

/-- The members with a property are the first ones if each brings those before it. -/
theorem filter_prefix {α : Type*} {p : α → Bool} {l : List α}
    (h : l.Pairwise fun a b => p b = true → p a = true) : l.filter p <+: l := by
  induction l with
  | nil => exact List.prefix_rfl
  | cons a rest ih =>
      obtain ⟨hfirst, hrest⟩ := List.pairwise_cons.mp h
      cases hp : p a with
      | true =>
          rw [List.filter_cons_of_pos hp]
          exact (List.cons_prefix_cons).mpr ⟨rfl, ih hrest⟩
      | false =>
          -- what comes after the first one without the property has it neither
          have hnone : (a :: rest).filter p = [] := by
            refine List.filter_eq_nil_iff.mpr ?_
            intro b hb hpb
            rcases List.mem_cons.mp hb with rfl | hb
            · rw [hp] at hpb
              cases hpb
            · have := hfirst b hb hpb
              rw [hp] at this
              cases this
          rw [hnone]
          exact List.nil_prefix

section Holders

variable [Crypto] [Postcard] {net : Network} {layout : Layout} {order : PaymentOrder}
  {payer payee a : OctAddr} {keys : OctAddr → LedgerSecretKey}

omit [Crypto] [Postcard] in
theorem Layout.hop_role_ne_direct {derived : DerivedHop}
    (h : layout.hop payer payee a = some derived) : derived.role ≠ .direct := by
  unfold Layout.hop at h
  split at h
  · obtain rfl := Option.some.inj h
    exact fun heq => by cases heq
  · obtain rfl := Option.some.inj h
    exact fun heq => by cases heq
  · obtain rfl := Option.some.inj h
    exact fun heq => by cases heq
  · cases h

/-- A node that holds its hop of a cascade holds no direct transfer of the order. -/
theorem Network.HoldsAt.not_direct (h : net.HoldsAt layout order payer payee a)
    (honce : (payments (net.log a)).Nodup) {seq : UInt64} {hash : Hash} :
    ¬ HoldsHop (net.log a) order order.directHop seq hash := by
  rintro ⟨t, ht, -, -, hdirect⟩
  obtain ⟨derived, seq', hash', hderived, s, hs, -, -, hhop⟩ := h.hop
  obtain rfl := ht.unique honce hs.mem hs.payment
  have hbody := hhop.body.symm.trans hdirect.body
  injection hbody with _ _ hrole
  exact Layout.hop_role_ne_direct hderived hrole

end Holders

/-! ## The first signers -/

section Safety

variable [Crypto] [Postcard]

/-- How far the cascade of an order has got: the holders are the first signers of the route from
the home of the payer, each with its own hop; when all of them hold it, the payee is credited. -/
structure Network.Cascaded (layout : Layout) (net : Network) (order : PaymentOrder)
    (payer payee : OctAddr) (signers held : List OctAddr) : Prop where
  route : routeSigners payer payee = some signers
  first : signers[0]? = some (layout.home order.from_)
  payer_user : layout.kind payer = .user
  first_mem : layout.home order.from_ ∈ held
  held_prefix : held <+: signers
  holders : ∀ a, order.hash ∈ payments (net.log a) ↔ a ∈ held
  hops : ∀ a ∈ held, net.HoldsAt layout order payer payee a
  credited : held = signers → ∃ leaf seq hash, payee.parent = some leaf
    ∧ HoldsHop (net.log leaf) order order.creditHop seq hash

variable [SettlePostcard] {net : Network} {layout : Layout} {order : PaymentOrder}
  {keys : OctAddr → LedgerSecretKey}

theorem Network.Cascading.once (h : net.Cascading keys layout) (a : OctAddr) :
    (payments (net.log a)).Nodup := (h.leaf a).desk.log.once

theorem Network.Cascading.home_holds (h : net.Cascading keys layout) {forward : SettleForwardV3}
    (hissued : net.Issued (.forward forward)) :
    net.HoldsAt layout forward.order forward.payerAddr forward.payeeAddr
      (layout.home forward.order.from_) := by
  obtain ⟨signers, hway⟩ := h.forwards forward hissued
  exact hway.held 0 hway.started _ hway.routed.first

/-- A booked order without a cascade is a direct transfer at its home. -/
theorem Network.Cascading.direct (h : net.Cascading keys layout) (haddr : order.Addressable)
    {a : OctAddr} (hmem : order.hash ∈ payments (net.log a))
    (hnone : ∀ forward, net.Issued (.forward forward) → forward.order ≠ order) :
    layout.Houses a order.from_ ∧ layout.Houses a order.to_
      ∧ ∃ seq hash, HoldsHop (net.log a) order order.directHop seq hash := by
  rcases h.booked a order haddr hmem with hdirect | ⟨forward, _, _, hissued, horder, -⟩
  · exact hdirect
  · exact absurd horder (hnone forward hissued)

theorem Network.Cascading.signer (h : net.Cascading keys layout) (haddr : order.Addressable)
    {forward : SettleForwardV3} (hissued : net.Issued (.forward forward))
    (horder : forward.order = order) {signers : List OctAddr}
    (hroute : routeSigners forward.payerAddr forward.payeeAddr = some signers) {a : OctAddr}
    (hmem : order.hash ∈ payments (net.log a)) :
    ∃ i : ℕ, signers[i]? = some a ∧ ∀ j ≤ i, ∀ b, signers[j]? = some b →
      net.HoldsAt layout order forward.payerAddr forward.payeeAddr b := by
  subst horder
  rcases h.booked a _ haddr hmem with ⟨hfrom, -, seq, hash, hholds⟩
    | ⟨forward', signers', i, hissued', horder', hroute', hi, hheld⟩
  · have hheld := h.home_holds hissued
    rw [hfrom.home] at hheld
    exact absurd hholds (hheld.not_direct (h.once _))
  · obtain ⟨hpayer, hpayee⟩ := h.same forward' forward hissued' hissued horder'
    rw [hpayer, hpayee] at hroute' hheld
    obtain rfl := Option.some.inj (hroute.symm.trans hroute')
    exact ⟨i, hi, hheld⟩

/-- A cascade that was started has reached a part of its route. -/
theorem Network.Cascading.cascaded (h : net.Cascading keys layout) (haddr : order.Addressable)
    {forward : SettleForwardV3} (hissued : net.Issued (.forward forward))
    (horder : forward.order = order) :
    ∃ signers held, net.Cascaded layout order forward.payerAddr forward.payeeAddr signers held := by
  classical
  obtain ⟨signers, hway⟩ := h.forwards forward hissued
  obtain ⟨srcLeaf, dstLeaf, hroute⟩ := routeSigners_route hway.routed.route
  have hfirst : signers[0]? = some (layout.home order.from_) := horder ▸ hway.routed.first
  let holds : OctAddr → Bool := fun a => decide (order.hash ∈ payments (net.log a))
  have hmemHolds : ∀ a, holds a = true ↔ order.hash ∈ payments (net.log a) :=
    fun a => decide_eq_true_iff
  have hsigner : ∀ a, holds a = true → ∃ i : ℕ, signers[i]? = some a ∧ ∀ j ≤ i, ∀ b,
      signers[j]? = some b → net.HoldsAt layout order forward.payerAddr forward.payeeAddr b :=
    fun a ha => h.signer haddr hissued horder hway.routed.route ((hmemHolds a).mp ha)
  have hheldAt : ∀ a, holds a = true →
      net.HoldsAt layout order forward.payerAddr forward.payeeAddr a := by
    intro a ha
    obtain ⟨i, hi, hheld⟩ := hsigner a ha
    exact hheld i le_rfl a hi
  have hpairwise : signers.Pairwise fun a b => holds b = true → holds a = true := by
    refine List.pairwise_iff_getElem.mpr ?_
    intro i j hi hj hij hb
    obtain ⟨k, hk, hheld⟩ := hsigner _ hb
    have hkj := (List.getElem?_inj hj hroute.nodup).mp
      ((List.getElem?_eq_getElem hj).trans hk.symm)
    exact (hmemHolds _).mpr
      (hheld i (hkj ▸ hij.le) _ (List.getElem?_eq_getElem hi)).mem
  refine ⟨signers, signers.filter holds, hway.routed.route, hfirst, hway.routed.payer, ?_,
    filter_prefix hpairwise,
    ?_, ?_, ?_⟩
  · refine List.mem_filter.mpr ⟨List.mem_of_getElem? hfirst, (hmemHolds _).mpr ?_⟩
    have hheld := h.home_holds hissued
    rw [horder] at hheld
    exact hheld.mem
  · intro a
    rw [List.mem_filter, hmemHolds]
    constructor
    · intro ha
      obtain ⟨i, hi, -⟩ := hsigner a ((hmemHolds a).mpr ha)
      exact ⟨List.mem_of_getElem? hi, ha⟩
    · exact fun ha => ha.2
  · exact fun a ha => hheldAt a (List.mem_filter.mp ha).2
  · intro hall
    have hlast : dstLeaf ∈ signers.filter holds := by
      rw [hall]
      exact List.mem_of_getLast? hroute.last
    have hheld := hheldAt dstLeaf (List.mem_filter.mp hlast).2
    obtain ⟨derived, seq, hash, hhop, hholds⟩ := hheld.hop
    have hcredit := Layout.hop_last hroute (hheld.payee hroute.dst).1
    obtain rfl := Option.some.inj (hhop.symm.trans hcredit)
    exact ⟨dstLeaf, seq, hash, hroute.dst, hholds⟩

end Safety

section Runs

variable [Crypto] [Postcard] [SettlePostcard] [EthPrimitives] [HashBytes]

/-- In every lawful run no node holds an order twice, and an order is held by nobody, or by the
home of its payer alone, as a transfer between two of its users, or by the first signers of one
route. -/
theorem cascade_prefix (target : Target) (keys : OctAddr → LedgerSecretKey)
    (ids : OctAddr → NodeId) (layout : Layout) (events : List NetworkEvent)
    (hfree : Crypto.CollisionFree) (hcodec : SettlePostcard.RoundTrip)
    (h : LawfulRun target keys ids layout events) (order : PaymentOrder)
    (haddr : order.Addressable) :
    (∀ a, (payments ((Network.run target keys ids events).log a)).Nodup)
      ∧ ((∀ a, order.hash ∉ payments ((Network.run target keys ids events).log a))
        ∨ ((∀ a, order.hash ∈ payments ((Network.run target keys ids events).log a)
              ↔ a = layout.home order.from_)
            ∧ ∃ seq hash,
                HoldsHop ((Network.run target keys ids events).log (layout.home order.from_)) order
                  order.directHop seq hash)
        ∨ ∃ payer payee signers held,
            (Network.run target keys ids events).Cascaded layout order payer payee signers
              held) := by
  have hinv := h.cascading hfree hcodec
  generalize Network.run target keys ids events = net at hinv ⊢
  refine ⟨hinv.once, ?_⟩
  by_cases hcascade : ∃ forward, net.Issued (.forward forward) ∧ forward.order = order
  · obtain ⟨forward, hissued, horder⟩ := hcascade
    obtain ⟨signers, held, hcascaded⟩ := hinv.cascaded haddr hissued horder
    exact Or.inr (Or.inr ⟨_, _, signers, held, hcascaded⟩)
  · have hnone : ∀ forward, net.Issued (.forward forward) → forward.order ≠ order :=
      fun forward hissued horder => hcascade ⟨forward, hissued, horder⟩
    by_cases hbooked : ∃ a, order.hash ∈ payments (net.log a)
    · obtain ⟨a, ha⟩ := hbooked
      obtain ⟨hfrom, -, seq, hash, hholds⟩ := hinv.direct haddr ha hnone
      obtain rfl := hfrom.home
      refine Or.inr (Or.inl ⟨fun b => ⟨fun hb => (hinv.direct haddr hb hnone).1.home.symm, ?_⟩,
        seq, hash, hholds⟩)
      rintro rfl
      exact ha
    · exact Or.inl (not_exists.mp hbooked)

/-- The order and the entry of a success that a node reports to a browser, in any version. -/
def NodeOutput.success? : NodeOutput → Option (Hash × UInt64 × Hash)
  | .ledger { payload := .orderResultV1 { orderHash, status := .applied, entrySeq, entryHash, .. },
              .. } => some (orderHash, entrySeq.getD 0, entryHash.getD Crypto.zero)
  | .ledger { payload := .orderResultV2 { orderHash, status := .applied seq hash, .. }, .. }
  | .ledger { payload := .orderResultV3 { orderHash, status := .applied seq hash, .. }, .. } =>
      some (orderHash, seq, hash)
  | _ => none

/-- The payee of an order has been credited at a position: by the direct transfer of a leaf, or by
the last hop of a cascade that every signer of its route holds. -/
inductive Network.Credited (net : Network) (layout : Layout) (leaf : OctAddr)
    (order : PaymentOrder) (seq : UInt64) (hash : Hash) : Prop
  | direct (holds : HoldsHop (net.log leaf) order order.directHop seq hash) :
      Network.Credited net layout leaf order seq hash
  | cascade (payer payee : OctAddr) (signers : List OctAddr) (last : OctAddr)
      (route : routeSigners payer payee = some signers)
      (hops : ∀ a ∈ signers, net.HoldsAt layout order payer payee a)
      (payee_leaf : payee.parent = some last)
      (credit : HoldsHop (net.log last) order order.creditHop seq hash) :
      Network.Credited net layout leaf order seq hash

/-- In every lawful run a success is reported, in any version, only of an order whose payee has been
credited, at the position and with the hash that are reported. -/
theorem applied_credits (target : Target) (keys : OctAddr → LedgerSecretKey)
    (ids : OctAddr → NodeId) (layout : Layout) (events : List NetworkEvent)
    (hfree : Crypto.CollisionFree) (hcodec : SettlePostcard.RoundTrip)
    (h : LawfulRun target keys ids layout events) (leaf : OctAddr) (out : NodeOutput)
    (hout : (leaf, out) ∈ (Network.run target keys ids events).outputs) (orderHash : Hash)
    (seq : UInt64) (hash : Hash) (hsuccess : out.success? = some (orderHash, seq, hash)) :
    ∃ order, order.hash = orderHash
      ∧ (Network.run target keys ids events).Credited layout leaf order seq hash := by
  have hinv := h.cascading hfree hcodec
  generalize Network.run target keys ids events = net at hinv hout ⊢
  have hcompleted : ∀ proof, net.Completed layout orderHash seq hash proof →
      ∃ order, order.hash = orderHash ∧ net.Credited layout leaf order seq hash := by
    rintro proof ⟨forward, signers, last, -, hhash, hroute, hheld, hlast, hcredit⟩
    exact ⟨forward.order, hhash, .cascade _ _ signers last hroute hheld hlast hcredit⟩
  have hstatus : ∀ proof, SettlementStatusV2.Truthful (net.Completed layout) (net.log leaf)
      orderHash proof (.applied seq hash) →
      ∃ order, order.hash = orderHash ∧ net.Credited layout leaf order seq hash := by
    rintro proof (⟨order, horder, hholds⟩ | ⟨-, p, -, hknown⟩)
    · exact ⟨order, horder, .direct hholds⟩
    · exact hcompleted p hknown
  have htold := hinv.told leaf out hout
  unfold NodeOutput.success? at hsuccess
  split at hsuccess
  · -- a sender of version 1 is told of direct transfers only
    obtain ⟨seq', hash', hseq, hhash, -, happlied⟩ := htold (by simp)
    obtain ⟨order, horder, hholds⟩ := happlied rfl
    simp only at hseq hhash
    rw [hseq, hhash] at hsuccess
    cases hsuccess
    exact ⟨order, horder, .direct hholds⟩
  · cases hsuccess
    exact hstatus _ htold
  · cases hsuccess
    exact hstatus _ htold
  · cases hsuccess

theorem LawfulRun.nil {target : Target} {keys : OctAddr → LedgerSecretKey}
    {ids : OctAddr → NodeId} {layout : Layout} :
    LawfulRun target keys ids layout [] := by
  intro before ev hprefix
  exact absurd (List.prefix_nil.mp hprefix) (by simp)

theorem LawfulRun.concat {target : Target} {keys : OctAddr → LedgerSecretKey}
    {ids : OctAddr → NodeId} {layout : Layout} {events : List NetworkEvent} {ev : NetworkEvent}
    (h : LawfulRun target keys ids layout events)
    (hev : ev.Lawful layout (Network.run target keys ids events)) :
    LawfulRun target keys ids layout (events ++ [ev]) := by
  intro before ev' hprefix
  rcases List.prefix_concat_iff.mp hprefix with heq | hprefix
  · obtain ⟨rfl, hlast⟩ := List.append_inj' heq rfl
    obtain rfl : ev' = ev := by simpa using hlast
    exact hev
  · exact h before ev' hprefix

end Runs

/-! ## A cascade over three nodes -/

namespace Concrete

abbrev payloadCodec (table : List SettlePayloadV3) : SettlePostcard where
  toAllocvec := encodeAt table
  takeFromBytes bytes := (decodeAt table bytes).map fun p => (p, [])

theorem payloadCodec_roundTrip {table : List SettlePayloadV3} (h : table.length ≤ 256) :
    @SettlePostcard.RoundTrip _ (payloadCodec table) := by
  intro p body hbody
  change (decodeAt table body).map (fun p => (p, [])) = some (p, [])
  rw [decodeAt_encodeAt h hbody]
  rfl

scoped instance hashBytes : HashBytes where
  asBytes h := [UInt8.ofNat h]

/-! The ids of nodes and users are the digits of their addresses, and the users sit on the third
level. The root `0` has two leaves: `00` holds the users `000` and `001`, and `01` the user
`010`. -/

def nameOf (a : OctAddr) : NodeId :=
  String.ofList (a.digits.map fun d => Char.ofNat (48 + d.toNat))

theorem nameOf_injective : Function.Injective nameOf := by
  have hdigit : Function.Injective fun d : UInt8 => Char.ofNat (48 + d.toNat) := by
    intro d e h
    have hvalue : ∀ d : UInt8, (Char.ofNat (48 + d.toNat)).toNat = 48 + d.toNat := by
      intro d
      have hlt := d.toNat_lt
      have hvalid : (48 + d.toNat).isValidChar := Or.inl (by omega)
      rw [Char.ofNat, dif_pos hvalid]
      exact Char.toNat_ofNatAux hvalid
    have hsame := congrArg Char.toNat h
    simp only [hvalue] at hsame
    exact UInt8.toNat_inj.mp (by omega)
  intro a b h
  exact OctAddr.ext (List.map_injective_iff.mpr hdigit (String.ofList_injective h))

def kindAt (a : OctAddr) : ChildKind := if a.depth = 3 then .user else .node

noncomputable def homeOf (id : NodeId) : OctAddr :=
  Function.extend nameOf (fun a => a.parent.getD .root) (fun _ => .root) id

theorem homeOf_nameOf {a p : OctAddr} (h : a.parent = some p) : homeOf (nameOf a) = p := by
  rw [homeOf, nameOf_injective.extend_apply, h, Option.getD_some]

noncomputable def layout : Layout where
  tenant := nameOf
  kind := kindAt
  home := homeOf
  apart a b _ h := nameOf_injective h
  users a h := by
    have hdepth : 0 < a.depth - 1 := by
      unfold kindAt at h
      split at h
      next heq => omega
      next => cases h
    have hparent : a.parent = some (a.takeDigits (a.depth - 1) hdepth) := dif_pos hdepth
    rw [homeOf_nameOf hparent, hparent]

def leafOfU : OctAddr := OctAddr.root.child 0 zero_le_maxSlot
def leafOfV : OctAddr := OctAddr.root.child 1 one_le_maxSlot
def addressOfU : OctAddr := leafOfU.child 0 zero_le_maxSlot
def addressOfW : OctAddr := leafOfU.child 1 one_le_maxSlot
def addressOfV : OctAddr := leafOfV.child 0 zero_le_maxSlot

/-- What is particular to a node of the network; its ledger key is its operator's plus ten. -/
structure Station where
  operator : ℕ
  parent : Option (OctAddr × ℕ)
  children : List (OctAddr × ℕ)

def station (a : OctAddr) : Station :=
  if a = .root then
    { operator := 1, parent := none, children := [(leafOfU, 2), (leafOfV, 3)] }
  else if a = leafOfU then
    { operator := 2, parent := some (.root, 1), children := [(addressOfU, 4), (addressOfW, 6)] }
  else { operator := 3, parent := some (.root, 1), children := [(addressOfV, 5)] }

def stationKey (a : OctAddr) : LedgerSecretKey := ((station a).operator + 10 : ℕ)

def lastSlot (a : OctAddr) : UInt8 := a.slot.getD 0

def stationRecord (a : OctAddr) : NodeRecord where
  nodeId := nameOf a
  address := some a
  parent := (station a).parent.map fun p => { parentId := nameOf p.1, slot := lastSlot a }
  children := (station a).children.map fun child =>
    { childId := nameOf child.1, kind := kindAt child.1, slot := lastSlot child.1
      ethAddress := none }

def stationPeers (a : OctAddr) : List PeerKeys :=
  ((station a).parent.toList ++ (station a).children).map fun neighbor =>
    row (nameOf neighbor.1) (if kindAt neighbor.1 = .user then .user else .node) neighbor.2

def stationDisk (a : OctAddr) : TxEnv where
  locked := true
  readable := true
  isRoot := a == .root
  peers := some (registry (stationPeers a))
  operator := some ((station a).operator : ℕ)
  writeError := fun _ => none
  clock := 100

def stationView (a : OctAddr) : Neighbor where
  addr := a
  node := nameOf a
  kind := if kindAt a = .user then .user else .node

def stationEnv (a : OctAddr) : DispatchEnv where
  record := some (stationRecord a)
  auditRecord := some (stationRecord a)
  receiptRecord := some (stationRecord a)
  snapshot :=
    { this := ⟨a, nameOf a⟩, parent := (station a).parent.map fun p => stationView p.1
      children := (station a).children.map fun child => stationView child.1 }
  lookup := stationDisk a
  assembly := stationDisk a
  apply := stationDisk a
  evidence := stationDisk a
  receipts := fun _ => stationDisk a
  now := 100

def orderTo (payee : OctAddr) (amount : Amount) : PaymentOrder where
  from_ := nameOf addressOfU
  to_ := nameOf payee
  amount
  nonce := 1
  expiry := 900

def sendOrder (payee : OctAddr) (amount : Amount) : NetworkEvent where
  place := leafOfU
  event := .ledger (stationEnv leafOfU)
    { src := ⟨addressOfU, nameOf addressOfU⟩, msgId := Vector.replicate 16 0
      payload := .order (.v2 (orderTo payee amount) ((orderTo payee amount).authorize (4 : ℕ))
        payee) }

/-- The accounts are opened and funded, and `u` sends two units to `w` and three to `v`. -/
def orderEvents : List NetworkEvent :=
  [⟨.root, .operate (stationDisk .root) (.fund (nameOf leafOfU) .node 10 (1 : ℕ) 1 100)⟩,
    ⟨.root, .operate (stationDisk .root) (.ensureAccountOpen (nameOf leafOfV) .node)⟩,
    ⟨leafOfU, .operate (stationDisk leafOfU)
      (.prefund (nameOf addressOfU) .user 10 (2 : ℕ) 1 100)⟩,
    ⟨leafOfU, .operate (stationDisk leafOfU) (.ensureAccountOpen (nameOf addressOfW) .user)⟩,
    ⟨leafOfV, .operate (stationDisk leafOfV) (.ensureAccountOpen (nameOf addressOfV) .user)⟩,
    sendOrder addressOfW 2, sendOrder addressOfV 3]

def deliver (payload : UInt8) (src dst : OctAddr) (hops : List OctAddr) : NetworkEvent where
  place := dst
  event := .settle (stationEnv dst)
    { version := 1, src := ⟨src, nameOf src⟩, dst, msgId := Vector.replicate 16 0, msgType := 0
      nonce := 0, ttl := 8, payload := [settlePayloadVersion, payload]
      hopChain := hops.map fun hop => { addr := hop, node := nameOf hop } }

def toRoot : NetworkEvent := deliver 0 leafOfU .root [leafOfU]
def toLeafOfV : NetworkEvent := deliver 1 leafOfU leafOfV [leafOfU, .root]
def toLeafOfU : NetworkEvent := deliver 2 leafOfV leafOfU []

-- only proofs evaluate the run: inlined, it has no compiled copy at these primitives
@[inline]
def ranWith (table : List SettlePayloadV3) (events : List NetworkEvent) : Network :=
  letI := payloadCodec table
  Network.run .native64 stationKey nameOf events

/-- The forward that the leaf of `u` starts the cascade with. -/
@[inline]
def firstForward : Option SettleForwardV3 :=
  (ranWith [] orderEvents).outputs.findSome? fun out =>
    match out.2 with
    | .settle _ (.forward forward) => some forward
    | _ => none

@[inline]
def secondForward : Option SettleForwardV3 :=
  firstForward.map fun forward =>
    let service := ((ranWith [.forward forward] (orderEvents ++ [toRoot])).node .root).desk.service
    { forward with
      hops := withOwnHop .root forward.hops (service.entryAt 3).toOption
        (buildEntryProof service (stationDisk .root) 3 .root).toOption }

@[inline]
def forwards : List SettlePayloadV3 :=
  (firstForward.toList ++ secondForward.toList).map .forward

@[inline]
def lastResult : Option SettleResultV3 :=
  (ranWith forwards (orderEvents ++ [toRoot, toLeafOfV])).outputs.findSome? fun out =>
    match out.2 with
    | .settle _ (.result result) => some result
    | _ => none

scoped instance settlePostcard : SettlePostcard :=
  payloadCodec (forwards ++ lastResult.toList.map .result)

theorem settlePostcard_roundTrip : SettlePostcard.RoundTrip := by
  have hforward : ∀ x : Option SettleForwardV3, x.toList.length ≤ 1 := by
    intro x
    cases x <;> simp
  have hresult : lastResult.toList.length ≤ 1 := by
    cases lastResult <;> simp
  have hfirst := hforward firstForward
  have hsecond := hforward secondForward
  refine payloadCodec_roundTrip ?_
  simp only [forwards, List.length_append, List.length_map]
  omega

/-- The order for `v` is on its way from the root to the leaf of `v`. -/
def cascadeEvents : List NetworkEvent := orderEvents ++ [toRoot]

/-- The leaf of `v` has credited `v`, and its result is back. -/
def completedEvents : List NetworkEvent := orderEvents ++ [toRoot, toLeafOfV, toLeafOfU]

theorem registry_get {rows : List PeerKeys} {id : NodeId} {keys : PeerKeys}
    (h : (registry rows).get id = some keys) : keys ∈ rows ∧ keys.nodeId = id := by
  have hfold : ∀ (rows : List PeerKeys) (peers : ExtTreeMap NodeId PeerKeys),
      (rows.foldl (fun peers keys => peers.insert keys.nodeId keys) peers)[id]? = some keys →
      peers[id]? = some keys ∨ keys ∈ rows ∧ keys.nodeId = id := by
    intro rows
    induction rows with
    | nil => exact fun _ hget => Or.inl hget
    | cons first rest ih =>
        intro peers hget
        rcases ih _ hget with hold | ⟨hmem, hid⟩
        · rw [ExtTreeMap.getElem?_insert] at hold
          split at hold
          next heq =>
            obtain rfl := Option.some.inj hold
            exact Or.inr ⟨List.mem_cons_self, Std.LawfulEqCmp.eq_of_compare heq⟩
          next => exact Or.inl hold
        · exact Or.inr ⟨List.mem_cons_of_mem _ hmem, hid⟩
  rcases hfold rows ∅ h with hempty | hmem
  · simp at hempty
  · exact hmem

theorem mem_stationPeers {a : OctAddr} {keys : PeerKeys} (h : keys ∈ stationPeers a)
    (huser : keys.role = .user) :
    ∃ neighbor ∈ (station a).parent.toList ++ (station a).children,
      keys.nodeId = nameOf neighbor.1 ∧ kindAt neighbor.1 = .user := by
  obtain ⟨neighbor, hmem, rfl⟩ := List.mem_map.mp h
  refine ⟨neighbor, hmem, rfl, ?_⟩
  by_contra hnode
  simp [row, hnode] at huser

theorem stationEnv_located {a : OctAddr} (ha : a = .root ∨ a = leafOfU ∨ a = leafOfV) :
    (stationEnv a).Located layout a where
  snapshot := rfl
  record record h := by
    obtain rfl := Option.some.inj h
    refine ⟨rfl, ?_⟩
    intro child hchild
    obtain ⟨neighbor, hmem, rfl⟩ := List.mem_map.mp hchild
    have hdigits : ∀ child ∈ (station a).children,
        child.1.digits = a.digits ++ [lastSlot child.1] := by
      rcases ha with rfl | rfl | rfl
      · decide
      · decide
      · decide
    exact ⟨neighbor.1, hdigits neighbor hmem, rfl, rfl⟩
  peers rows h u keys hget hrole := by
    obtain rfl := Option.some.inj h
    obtain ⟨hmem, rfl⟩ := registry_get hget
    obtain ⟨neighbor, hneighbor, hid, hkind⟩ := mem_stationPeers hmem hrole
    have hparent : ∀ neighbor ∈ (station a).parent.toList ++ (station a).children,
        kindAt neighbor.1 = .user → neighbor.1.parent = some a := by
      rcases ha with rfl | rfl | rfl
      · decide
      · decide
      · decide
    exact hid ▸ homeOf_nameOf (hparent neighbor hneighbor hkind)

theorem orderTo_addressable {payee : OctAddr} {amount : Amount} (h : Addressable (nameOf payee)) :
    (orderTo payee amount).Addressable := by
  have hpayer : Addressable (nameOf addressOfU) := by
    unfold Addressable
    decide
  exact ⟨hpayer, h⟩

theorem addressable_addressOfV : Addressable (nameOf addressOfV) := by
  unfold Addressable
  decide

theorem addressable_addressOfW : Addressable (nameOf addressOfW) := by
  unfold Addressable
  decide

/-- Whether a payload was put out. -/
def sends (net : Network) (bytes : List UInt8) : Bool :=
  net.outputs.any fun out => out.2.bytes? == some bytes

theorem sent_of_sends {net : Network} {bytes : List UInt8} (h : sends net bytes = true) :
    net.Sent bytes := by
  obtain ⟨out, hout, hbytes⟩ := List.any_eq_true.mp h
  exact ⟨out.1, out.2, hout, beq_iff_eq.mp hbytes⟩

/-- The payments of a log, with what their entries post to an account. -/
def bookOf (frames : List SignedEntry) (account : AccountRef) : List (Option Hash × ℤ) :=
  frames.map fun s => (s.payment, postedDelta s.entry.postings account)

/-- How the run goes: each payload is put out before it is delivered, the root books the order for
`v` before the leaf of `v` does, and at the end all three hold it and it is reported as applied. -/
theorem cascade_outcome :
    (sends (Network.run .native64 stationKey nameOf orderEvents) [settlePayloadVersion, 0] = true
      ∧ sends (Network.run .native64 stationKey nameOf cascadeEvents) [settlePayloadVersion, 1]
        = true
      ∧ sends (Network.run .native64 stationKey nameOf (cascadeEvents ++ [toLeafOfV]))
        [settlePayloadVersion, 2] = true)
    ∧ (bookOf ((Network.run .native64 stationKey nameOf cascadeEvents).log .root)
          (.child (nameOf leafOfV))
        = [(none, 0), (none, 0), (none, 0), (some (orderTo addressOfV 3).hash, 3)]
      ∧ bookOf ((Network.run .native64 stationKey nameOf cascadeEvents).log leafOfV) .parent
        = [(none, 0)])
    ∧ (∀ a ∈ [.root, leafOfU, leafOfV], (orderTo addressOfV 3).hash
        ∈ payments ((Network.run .native64 stationKey nameOf completedEvents).log a))
    ∧ ((Network.run .native64 stationKey nameOf completedEvents).outputs.any fun out =>
        decide (out.1 = leafOfU) && out.2.success?.any fun success =>
          decide (success.1 = (orderTo addressOfV 3).hash)) = true := by
  decide +kernel

theorem payments_bookOf {frames : List SignedEntry} {account : AccountRef} :
    payments frames = (bookOf frames account).filterMap Prod.fst := by
  rw [bookOf, List.filterMap_map]
  rfl

/-- While the cascade is under way the root holds the order for `v`, the leaf of `v` does not. -/
theorem cascadeEvents_holders :
    (orderTo addressOfV 3).hash
        ∈ payments ((Network.run .native64 stationKey nameOf cascadeEvents).log .root)
      ∧ (orderTo addressOfV 3).hash
        ∉ payments ((Network.run .native64 stationKey nameOf cascadeEvents).log leafOfV) := by
  obtain ⟨-, ⟨hroot, hleaf⟩, -⟩ := cascade_outcome
  rw [payments_bookOf, hroot, payments_bookOf, hleaf]
  simp

theorem orderEvents_lawful : LawfulRun .native64 stationKey nameOf layout orderEvents := by
  have hsend : ∀ {events : List NetworkEvent} {payee : OctAddr} (amount : Amount),
      LawfulRun .native64 stationKey nameOf layout events → Addressable (nameOf payee) →
      LawfulRun .native64 stationKey nameOf layout (events ++ [sendOrder payee amount]) := by
    intro events payee amount h hpayee
    refine h.concat ⟨stationEnv_located (Or.inr (Or.inl rfl)), ?_⟩
    intro order horder
    obtain rfl := Option.some.inj horder
    exact orderTo_addressable hpayee
  have hfunded : LawfulRun .native64 stationKey nameOf layout (orderEvents.take 2) :=
    (LawfulRun.nil.concat (by trivial)).concat (by trivial)
  have hopened : LawfulRun .native64 stationKey nameOf layout (orderEvents.take 5) :=
    ((hfunded.concat (by trivial)).concat (by trivial)).concat (by trivial)
  exact hsend 3 (hsend 2 hopened addressable_addressOfW) addressable_addressOfV

theorem cascadeEvents_lawful : LawfulRun .native64 stationKey nameOf layout cascadeEvents :=
  orderEvents_lawful.concat
    ⟨stationEnv_located (Or.inl rfl), sent_of_sends cascade_outcome.1.1⟩

theorem completedEvents_lawful : LawfulRun .native64 stationKey nameOf layout completedEvents := by
  obtain ⟨⟨-, hsecond, hresult⟩, -⟩ := cascade_outcome
  have hcredited : LawfulRun .native64 stationKey nameOf layout (cascadeEvents ++ [toLeafOfV]) :=
    cascadeEvents_lawful.concat
      ⟨stationEnv_located (Or.inr (Or.inr rfl)), sent_of_sends hsecond⟩
  exact hcredited.concat ⟨stationEnv_located (Or.inr (Or.inl rfl)), sent_of_sends hresult⟩

/-- The leaf of `u` and the root hold the order for `v`, but the leaf of `v` does not. -/
theorem cascade_prefix_half : ∃ payer payee signers held, .root ∈ held ∧ leafOfV ∉ held
    ∧ (Network.run .native64 stationKey nameOf cascadeEvents).Cascaded layout
      (orderTo addressOfV 3) payer payee signers held := by
  obtain ⟨hroot, hleaf⟩ := cascadeEvents_holders
  obtain ⟨-, hnone | ⟨hdirect, -⟩ | ⟨payer, payee, signers, held, hcascaded⟩⟩ :=
    cascade_prefix .native64 stationKey nameOf layout cascadeEvents collisionFree
      settlePostcard_roundTrip cascadeEvents_lawful (orderTo addressOfV 3)
      (orderTo_addressable addressable_addressOfV)
  · exact absurd hroot (hnone .root)
  · have hparent : addressOfU.parent = some leafOfU := by decide
    have hhome : layout.home (orderTo addressOfV 3).from_ = leafOfU := homeOf_nameOf hparent
    have hroot' := (hdirect .root).mp hroot
    rw [hhome] at hroot'
    exact absurd hroot' (by decide)
  · exact ⟨payer, payee, signers, held, (hcascaded.holders _).mp hroot,
      fun hmem => hleaf ((hcascaded.holders _).mpr hmem), hcascaded⟩

/-- The leaf of `u` reports the order for `v` as applied, and `v` has been credited at its leaf. -/
theorem applied_credits_completed : ∃ order seq hash, order.hash = (orderTo addressOfV 3).hash
    ∧ order.hash ∈ payments
      ((Network.run .native64 stationKey nameOf completedEvents).log leafOfV)
    ∧ (Network.run .native64 stationKey nameOf completedEvents).Credited layout leafOfU order seq
      hash := by
  obtain ⟨-, -, hholders, hreported⟩ := cascade_outcome
  obtain ⟨⟨leaf, out⟩, hout, hfound⟩ := List.any_eq_true.mp hreported
  obtain ⟨hleaf, hsome⟩ := Bool.and_eq_true_iff.mp hfound
  obtain rfl : leaf = leafOfU := of_decide_eq_true hleaf
  obtain ⟨⟨orderHash, seq, hash⟩, hsuccess, hsame⟩ := (Option.any_eq_true _ _).mp hsome
  have hsame : orderHash = (orderTo addressOfV 3).hash := of_decide_eq_true hsame
  obtain ⟨order, horder, hcredited⟩ := applied_credits .native64 stationKey nameOf layout
    completedEvents collisionFree settlePostcard_roundTrip completedEvents_lawful leafOfU out hout
    orderHash seq hash hsuccess
  have horder := horder.trans hsame
  refine ⟨order, seq, hash, horder, ?_, hcredited⟩
  rw [horder]
  exact hholders leafOfV (by simp)

end Concrete

end Cawala
