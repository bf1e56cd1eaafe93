import Cawala.Model.SettleRoute
import Cawala.Verification.Settlement

/-! # Planner, node and router agree on a route

The hops of the planner are the addresses a node lists for a cascade, the hops each node
derives from its own record, the addresses `classify_hop` accepts, and the addresses the
router visits from leaf to leaf. -/

namespace Cawala

open Library
open Cawala.Topology (Chain)

/-! ## Stepping from leaf to leaf -/

/-- The addresses visited by at most `fuel` steps of the router. -/
def nextSteps (dst : OctAddr) : ℕ → OctAddr → List OctAddr
  | 0, cur => [cur]
  | fuel + 1, cur =>
      match nextStep cur dst with
      | none => [cur]
      | some step => cur :: nextSteps dst fuel step.addr

theorem nextStep_cases (cur dst : OctAddr) :
    (cur = dst ∧ nextStep cur dst = none)
    ∨ ∃ step, nextStep cur dst = some step
        ∧ route cur.digits dst.digits = cur.digits :: route step.addr.digits dst.digits := by
  by_cases heq : cur = dst
  · exact Or.inl ⟨heq, by simp [nextStep, heq]⟩
  right
  by_cases hanc : cur.isAncestorOf dst = true
  · obtain ⟨hle, -⟩ := OctAddr.isAncestorOf_iff.mp hanc
    obtain ⟨x, hx⟩ := exists_branch hle (fun h => heq (OctAddr.ext h))
    have hget : dst.digits[cur.depth]? = some x := by
      obtain ⟨rest, hrest⟩ := hx
      simp [← hrest, OctAddr.depth]
    have hstep : ∃ next, nextStep cur dst = some (.down next)
        ∧ next.digits = cur.digits ++ [x] := by
      rw [nextStep, if_neg heq, if_pos hanc]
      split
      · rename_i slot hslot
        obtain rfl : x = slot := by
          rw [hget] at hslot
          exact Option.some.inj hslot
        exact ⟨_, rfl, rfl⟩
      · rename_i hnone
        rw [hget] at hnone
        cases hnone
    obtain ⟨next, hnext, hdigits⟩ := hstep
    exact ⟨.down next, hnext, by rw [Step.addr, route_down hx, hdigits]⟩
  · have hoff : ¬ cur.digits <+: dst.digits := fun hle =>
      hanc (OctAddr.isAncestorOf_iff.mpr ⟨hle, heq⟩)
    obtain ⟨d, s, hds⟩ := (List.eq_nil_or_concat' cur.digits).resolve_left cur.digits_ne_nil
    have hd : d ≠ [] := by
      rintro rfl
      have hroot := cur.root_le.eq_of_length_le (by simp [hds])
      exact hoff (hroot ▸ dst.root_le)
    obtain ⟨p, hp, hpd⟩ := OctAddr.exists_parent hds hd
    refine ⟨.up p, ?_, ?_⟩
    · rw [nextStep, if_neg heq, if_neg hanc, hp]
      rfl
    · rw [hds] at hoff ⊢
      rw [Step.addr, route_up hoff, hpd]

theorem nextSteps_digits (dst : OctAddr) {fuel : ℕ} {cur : OctAddr}
    (hfuel : (route cur.digits dst.digits).length ≤ fuel) :
    (nextSteps dst fuel cur).map (·.digits) = route cur.digits dst.digits := by
  induction fuel generalizing cur with
  | zero => simp [route] at hfuel
  | succ fuel ih =>
      obtain ⟨rfl, hstep⟩ | ⟨step, hstep, hroute⟩ := nextStep_cases cur dst
      · simp [nextSteps, hstep, route_self]
      · rw [hroute, List.length_cons] at hfuel
        rw [nextSteps, hstep, List.map_cons, ih (by omega), hroute]

/-! ## The signer list -/

/-- Climbing to an ancestor lists the addresses below it. -/
theorem climbBelow_eq_some {lca cur : OctAddr} (hle : lca.digits <+: cur.digits) {fuel : ℕ}
    (hfuel : cur.depth < lca.depth + fuel) :
    ∃ addrs, climbBelow lca fuel cur = some addrs
      ∧ addrs.map (·.digits) = below lca.digits.length cur.digits := by
  induction fuel generalizing cur with
  | zero =>
      have := hle.length_le
      unfold OctAddr.depth at hfuel
      omega
  | succ fuel ih =>
      by_cases heq : cur = lca
      · subst heq
        exact ⟨[], by simp [climbBelow], by simp [below_of_length_le]⟩
      · obtain ⟨d, s, hds⟩ := (List.eq_nil_or_concat' cur.digits).resolve_left cur.digits_ne_nil
        have hle' : lca.digits <+: d := by
          rw [hds] at hle
          refine (List.prefix_concat_iff.mp hle).resolve_left ?_
          intro h
          exact heq (OctAddr.ext (hds.trans h.symm))
        have hd : d ≠ [] := by
          rintro rfl
          exact lca.digits_ne_nil (List.prefix_nil.mp hle')
        obtain ⟨p, hp, rfl⟩ := OctAddr.exists_parent hds hd
        have hfuel' : p.depth < lca.depth + fuel := by
          simp only [OctAddr.depth, hds, List.length_append, List.length_singleton] at hfuel ⊢
          omega
        obtain ⟨addrs, haddrs, hdigits⟩ := ih hle' hfuel'
        refine ⟨cur :: addrs, ?_, ?_⟩
        · simp [climbBelow, heq, hp, haddrs]
        · rw [List.map_cons, hdigits, hds, below_snoc hle'.length_le]

theorem routeSigners_eq_some {src dst srcLeaf dstLeaf : OctAddr} (hsrc : src.parent = some srcLeaf)
    (hdst : dst.parent = some dstLeaf) (hleft : ¬ srcLeaf.digits <+: dstLeaf.digits)
    (hright : ¬ dstLeaf.digits <+: srcLeaf.digits) :
    ∃ signers, routeSigners src dst = some signers
      ∧ signers.map (·.digits) = route srcLeaf.digits dstLeaf.digits := by
  have hdepth : ∀ {a p : OctAddr}, a.parent = some p → ¬ a.depth < 2 := by
    intro a p h
    obtain ⟨s, hs⟩ := OctAddr.parent_eq_some.mp h
    have := List.length_pos_iff.mpr p.digits_ne_nil
    simp only [OctAddr.depth, hs, List.length_append, List.length_singleton]
    omega
  have hlca := OctAddr.lca_digits srcLeaf dstLeaf
  have hne : srcLeaf ≠ dstLeaf := by
    rintro rfl
    exact hleft List.prefix_rfl
  have hstrict : ¬ (srcLeaf.lca dstLeaf = srcLeaf ∨ srcLeaf.lca dstLeaf = dstLeaf) := by
    rintro (h | h)
    · rw [h] at hlca
      exact hleft (hlca ▸ meet_le_right srcLeaf.digits dstLeaf.digits)
    · rw [h] at hlca
      exact hright (hlca ▸ meet_le_left srcLeaf.digits dstLeaf.digits)
  have hpos := (srcLeaf.lca dstLeaf).depth_pos
  have hup : srcLeaf.depth < (srcLeaf.lca dstLeaf).depth + srcLeaf.depth := by omega
  have hdown : dstLeaf.depth < (srcLeaf.lca dstLeaf).depth + dstLeaf.depth := by omega
  obtain ⟨up, hup, hupDigits⟩ := climbBelow_eq_some (hlca ▸ meet_le_left _ _) hup
  obtain ⟨down, hdown, hdownDigits⟩ := climbBelow_eq_some (hlca ▸ meet_le_right _ _) hdown
  refine ⟨up ++ srcLeaf.lca dstLeaf :: down.reverse, ?_, ?_⟩
  · simp [routeSigners, hdepth hsrc, hdepth hdst, hsrc, hdst, hne, hstrict, hup, hdown]
  · rw [List.map_append, List.map_cons, List.map_reverse, hupDigits, hdownDigits, hlca, route]

/-- The signers between two leaves beside each other. -/
structure SignerRoute (src dst srcLeaf dstLeaf : OctAddr) (signers : List OctAddr) : Prop where
  src : src.parent = some srcLeaf
  dst : dst.parent = some dstLeaf
  left : ¬ srcLeaf.digits <+: dstLeaf.digits
  right : ¬ dstLeaf.digits <+: srcLeaf.digits
  digits : signers.map (·.digits) = route srcLeaf.digits dstLeaf.digits

theorem routeSigners_route {src dst : OctAddr} {signers : List OctAddr}
    (h : routeSigners src dst = some signers) :
    ∃ srcLeaf dstLeaf, SignerRoute src dst srcLeaf dstLeaf signers := by
  have hsome := h
  unfold routeSigners at h
  simp only [Option.bind_eq_bind, Option.bind_eq_some_iff, Option.ite_none_left_eq_some,
    not_or] at h
  obtain ⟨-, srcLeaf, hsrc, dstLeaf, hdst, -, ⟨hsrcNe, hdstNe⟩, -⟩ := h
  have hlca := OctAddr.lca_digits srcLeaf dstLeaf
  have hleft : ¬ srcLeaf.digits <+: dstLeaf.digits := fun hle =>
    hsrcNe (OctAddr.ext (hlca.trans (meet_eq_left hle)))
  have hright : ¬ dstLeaf.digits <+: srcLeaf.digits := fun hle =>
    hdstNe (OctAddr.ext (hlca.trans ((meet_comm _ _).trans (meet_eq_left hle))))
  obtain ⟨signers', hsigners, hdigits⟩ := routeSigners_eq_some hsrc hdst hleft hright
  obtain rfl := Option.some.inj (hsome.symm.trans hsigners)
  exact ⟨srcLeaf, dstLeaf, hsrc, hdst, hleft, hright, hdigits⟩

theorem routeSigners_digits {src dst : OctAddr} {signers : List OctAddr}
    (h : routeSigners src dst = some signers) : ∃ srcLeaf dstLeaf : OctAddr,
      signers.map (·.digits) = route srcLeaf.digits dstLeaf.digits := by
  obtain ⟨srcLeaf, dstLeaf, hroute⟩ := routeSigners_route h
  exact ⟨srcLeaf, dstLeaf, hroute.digits⟩

/-- A strict ancestor of a user is an ancestor of its leaf, or the leaf. -/
theorem OctAddr.isAncestorOf_parent {a b p : OctAddr} (hp : b.parent = some p) :
    a.isAncestorOf b = true ↔ a.digits <+: p.digits := by
  obtain ⟨s, hs⟩ := OctAddr.parent_eq_some.mp hp
  rw [OctAddr.isAncestorOf_iff, hs, List.prefix_concat_iff]
  constructor
  · rintro ⟨heq | hle, hne⟩
    · exact absurd (OctAddr.ext (heq.trans hs.symm)) hne
    · exact hle
  · intro hle
    refine ⟨Or.inr hle, ?_⟩
    rintro rfl
    have := hle.length_le
    simp [hs] at this

/-- The role of an address, in terms of the leaves of the two users. -/
theorem classifyHop_eq_of_parents {src dst srcLeaf dstLeaf addr : OctAddr}
    (hsrc : src.parent = some srcLeaf) (hdst : dst.parent = some dstLeaf)
    (hleft : ¬ srcLeaf.digits <+: dstLeaf.digits) (hright : ¬ dstLeaf.digits <+: srcLeaf.digits) :
    classifyHop src dst addr =
      if addr.digits = meet srcLeaf.digits dstLeaf.digits then some .lca
      else if addr = src
          ∨ (meet srcLeaf.digits dstLeaf.digits <+: addr.digits ∧ addr.digits <+: srcLeaf.digits)
        then some .ascend
      else if addr = dst
          ∨ (meet srcLeaf.digits dstLeaf.digits <+: addr.digits ∧ addr.digits <+: dstLeaf.digits)
        then some .descend
      else none := by
  obtain ⟨x, hx⟩ := OctAddr.parent_eq_some.mp hsrc
  obtain ⟨y, hy⟩ := OctAddr.parent_eq_some.mp hdst
  have hparents : ¬ src.parent = dst.parent := by
    rw [hsrc, hdst, Option.some.injEq]
    rintro rfl
    exact hleft List.prefix_rfl
  have hlca : (src.lca dst).digits = meet srcLeaf.digits dstLeaf.digits := by
    rw [OctAddr.lca_digits, hx, hy]
    apply meet_snoc
    · intro hle
      rcases List.prefix_concat_iff.mp ((List.prefix_append _ [x]).trans hle) with heq | hle
      · exact hright (heq ▸ List.prefix_append _ _)
      · exact hleft hle
    · intro hle
      rcases List.prefix_concat_iff.mp ((List.prefix_append _ [y]).trans hle) with heq | hle
      · exact hleft (heq ▸ List.prefix_append _ _)
      · exact hright hle
  have hiff : addr = src.lca dst ↔ addr.digits = meet srcLeaf.digits dstLeaf.digits := by
    rw [← hlca]
    exact ⟨fun he => he ▸ rfl, OctAddr.ext⟩
  by_cases hmeet : addr.digits = meet srcLeaf.digits dstLeaf.digits
  · simp [classifyHop, hparents, hiff.mpr hmeet, hlca]
  · have hanc : (src.lca dst).isAncestorOf addr = true
        ↔ meet srcLeaf.digits dstLeaf.digits <+: addr.digits := by
      rw [OctAddr.isAncestorOf_iff, hlca]
      exact and_iff_left (fun he => hmeet (hiff.mp he.symm))
    simp only [classifyHop, hparents, ↓reduceIte, hiff, hmeet, hanc,
      OctAddr.isAncestorOf_parent hsrc, OctAddr.isAncestorOf_parent hdst]

section SignerRoute

variable {src dst srcLeaf dstLeaf : OctAddr} {signers : List OctAddr}

theorem SignerRoute.nodup (h : SignerRoute src dst srcLeaf dstLeaf signers) : signers.Nodup :=
  List.Nodup.of_map (·.digits) (h.digits ▸ nodup_route _ _)

theorem SignerRoute.first (h : SignerRoute src dst srcLeaf dstLeaf signers) :
    signers[0]? = some srcLeaf := by
  have hhead := head?_route srcLeaf.digits dstLeaf.digits
  rw [← h.digits, List.head?_map, Option.map_eq_some_iff] at hhead
  obtain ⟨first, hfirst, hdigits⟩ := hhead
  rw [← List.head?_eq_getElem?, hfirst, OctAddr.ext hdigits]

theorem SignerRoute.last (h : SignerRoute src dst srcLeaf dstLeaf signers) :
    signers.getLast? = some dstLeaf := by
  have hlast := getLast?_route srcLeaf.digits dstLeaf.digits
  rw [← h.digits, List.getLast?_map, Option.map_eq_some_iff] at hlast
  obtain ⟨last, hlast, hdigits⟩ := hlast
  rw [hlast, OctAddr.ext hdigits]

theorem SignerRoute.two_le (h : SignerRoute src dst srcLeaf dstLeaf signers) :
    2 ≤ signers.length := by
  rcases hsigners : signers with _ | ⟨first, _ | ⟨second, rest⟩⟩
  · have hfirst := h.first
    rw [hsigners] at hfirst
    cases hfirst
  · have hfirst := h.first
    have hlast := h.last
    rw [hsigners] at hfirst hlast
    obtain rfl := Option.some.inj (hfirst.symm.trans hlast)
    exact absurd List.prefix_rfl h.left
  · simp

theorem SignerRoute.classify_last (h : SignerRoute src dst srcLeaf dstLeaf signers) :
    classifyHop src dst dstLeaf = some .descend := by
  have hmeet : ¬ dstLeaf.digits = meet srcLeaf.digits dstLeaf.digits := fun heq =>
    h.right (heq ▸ meet_le_left srcLeaf.digits dstLeaf.digits)
  have hside : ¬ (dstLeaf = src ∨ (meet srcLeaf.digits dstLeaf.digits <+: dstLeaf.digits
      ∧ dstLeaf.digits <+: srcLeaf.digits)) := by
    rintro (rfl | ⟨-, hle⟩)
    · obtain ⟨s, hs⟩ := OctAddr.parent_eq_some.mp h.src
      exact h.left (hs ▸ List.prefix_append _ _)
    · exact h.right hle
  rw [classifyHop_eq_of_parents h.src h.dst h.left h.right, if_neg hmeet, if_neg hside,
    if_pos (Or.inr ⟨meet_le_right _ _, List.prefix_rfl⟩)]

end SignerRoute

/-! ## The hop of one address -/

section

variable {t : Topology} {order : PaymentOrder} {fromLeaf toLeaf : NodeId} {a b : List UInt8}
  {x y : UInt8} {src dst addr : OctAddr}

/-- `classify_hop` between two leaves, in terms of paths. -/
theorem Cross.classifyHop_eq (h : Cross t order fromLeaf toLeaf a b x y)
    (hsrc : src.digits = a ++ [x]) (hdst : dst.digits = b ++ [y]) :
    classifyHop src dst addr =
      if addr.digits = meet a b then some .lca
      else if addr = src ∨ (meet a b <+: addr.digits ∧ addr.digits <+: a) then some .ascend
      else if addr = dst ∨ (meet a b <+: addr.digits ∧ addr.digits <+: b) then some .descend
      else none := by
  obtain ⟨srcLeaf, hsrcLeaf, rfl⟩ := OctAddr.exists_parent hsrc (Chain.ne_nil h.srcLeaf)
  obtain ⟨dstLeaf, hdstLeaf, rfl⟩ := OctAddr.exists_parent hdst (Chain.ne_nil h.dstLeaf)
  exact classifyHop_eq_of_parents hsrcLeaf hdstLeaf h.left h.right

theorem Cross.classifyHop_of_hopAt (h : Cross t order fromLeaf toLeaf a b x y)
    (hsrc : src.digits = a ++ [x]) (hdst : dst.digits = b ++ [y]) {hop : ExpectedHop}
    (hat : HopAt t (a ++ [x]) (b ++ [y]) hop addr.digits) (hroute : addr.digits ∈ route a b) :
    classifyHop src dst addr = some hop.role := by
  rw [h.classifyHop_eq hsrc hdst]
  have hmeet := meet_le_of_mem_route hroute
  have hown : addr = src → addr.digits <+: a ++ [x] := by
    rintro rfl
    exact hsrc ▸ List.prefix_rfl
  generalize addr.digits = d at *
  cases hat with
  | @ascend _ _ _ s _ _ hs hd =>
      have hlca : d ≠ meet a b := by
        rintro rfl
        exact hd ((meet_le_right a b).trans (List.prefix_append _ _))
      rw [if_neg hlca, if_pos (Or.inr ⟨hmeet, le_of_snoc_le_snoc hs⟩)]
  | lca _ _ hs _ hs' _ =>
      have hle := le_meet_iff.mpr ⟨le_of_snoc_le_snoc hs, le_of_snoc_le_snoc hs'⟩
      rw [if_pos (hle.eq_of_length_le hmeet.length_le)]
  | descend _ _ hs hd =>
      have hlca : d ≠ meet a b := by
        rintro rfl
        exact hd ((meet_le_left a b).trans (List.prefix_append _ _))
      have hside : ¬ (addr = src ∨ (meet a b <+: d ∧ d <+: a)) := by
        rintro (heq | ⟨-, hle⟩)
        · exact hd (hown heq)
        · exact hd (hle.trans (List.prefix_append _ _))
      rw [if_neg hlca, if_neg hside, if_pos (Or.inr ⟨hmeet, le_of_snoc_le_snoc hs⟩)]

/-- Off the route only the two users themselves have a role. -/
theorem Cross.classifyHop_off (h : Cross t order fromLeaf toLeaf a b x y)
    (hsrc : src.digits = a ++ [x]) (hdst : dst.digits = b ++ [y]) (hne : addr ≠ src)
    (hne' : addr ≠ dst) (hoff : addr.digits ∉ route a b) : classifyHop src dst addr = none := by
  have hon : ∀ {e : List UInt8}, (e <+: a ∨ e <+: b) → meet a b <+: e → e ∈ route a b :=
    fun hside hle => mem_route.mpr ⟨hside, hle.length_le⟩
  rw [h.classifyHop_eq hsrc hdst, if_neg, if_neg, if_neg]
  · rintro (heq | ⟨hmeet, hle⟩)
    · exact hne' heq
    · exact hoff (hon (Or.inr hle) hmeet)
  · rintro (heq | ⟨hmeet, hle⟩)
    · exact hne heq
    · exact hoff (hon (Or.inl hle) hmeet)
  · intro heq
    exact hoff (heq ▸ hon (Or.inl (meet_le_left a b)) List.prefix_rfl)

/-! ## The hop a node derives -/

/-- The records the nodes hold agree with the topology. -/
structure RecordsAgree (t : Topology) (records : NodeId → NodeRecord) : Prop where
  children : ∀ id child s,
    (∃ entry ∈ (records id).children, entry.slot = s ∧ entry.childId = child)
      ↔ ∃ record, t.node child = some record ∧ record.parent = some id ∧ record.slot = some s
  address : ∀ id addr, (records id).address = some addr ↔ t.addressOf id = .ok addr

theorem childToward_eq_ok (hvalid : t.Valid) {records : NodeId → NodeRecord}
    (hrecords : RecordsAgree t records) {node child : NodeId} {target : OctAddr} {s : UInt8}
    (hnode : Chain t node addr.digits) (hchild : Chain t child (addr.digits ++ [s]))
    (htarget : addr.digits ++ [s] <+: target.digits) :
    childToward (records node) addr target = .ok child := by
  have hget : target.digits[addr.depth]? = some s := by
    obtain ⟨rest, hrest⟩ := htarget
    simp [← hrest, OctAddr.depth]
  obtain ⟨record, p, hrecord, hparent, hslot, hp⟩ := hchild.snoc_inv hnode.ne_nil
  obtain rfl := hp.injective hvalid hnode
  obtain ⟨entry, hentry, hs, -⟩ :=
    (hrecords.children p child s).mpr ⟨record, hrecord, hparent, hslot⟩
  rw [childToward, hget]
  simp only
  split
  · rename_i hnone
    have := List.find?_eq_none.mp hnone entry hentry
    simp [hs] at this
  · rename_i found hfound
    have hmem := List.mem_of_find?_eq_some hfound
    have hfs : found.slot = s := by simpa using List.find?_some hfound
    obtain ⟨record', hrecord', hparent', hslot'⟩ :=
      (hrecords.children p found.childId s).mp ⟨found, hmem, hfs, rfl⟩
    rw [hvalid.claims _ _ _ _ _ _ hrecord' hrecord hparent' hparent hslot' hslot]

/-- A node on the route derives the planner's hop from its own record. -/
theorem Cross.deriveHop_of_hopAt (h : Cross t order fromLeaf toLeaf a b x y) (hvalid : t.Valid)
    {records : NodeId → NodeRecord} (hrecords : RecordsAgree t records)
    (hsrc : src.digits = a ++ [x]) (hdst : dst.digits = b ++ [y]) {hop : ExpectedHop}
    (hat : HopAt t (a ++ [x]) (b ++ [y]) hop addr.digits) (hroute : addr.digits ∈ route a b) :
    deriveHop (records hop.signer) addr src dst = .ok ⟨hop.role, hop.first, hop.second⟩ := by
  have hrole := h.classifyHop_of_hopAt hsrc hdst hat hroute
  rw [← hsrc, ← hdst] at hat
  cases hat with
  | ascend hn hc hs _ =>
      simp [deriveHop, hrole, childToward_eq_ok hvalid hrecords hn hc hs]
  | lca hn hc hs hc' hs' _ =>
      simp [deriveHop, hrole, childToward_eq_ok hvalid hrecords hn hc hs,
        childToward_eq_ok hvalid hrecords hn hc' hs']
  | descend hn hc hs _ =>
      simp [deriveHop, hrole, childToward_eq_ok hvalid hrecords hn hc hs]

/-! ## The agreement -/

/-- A single hop at the leaf of both users. -/
def IsDirect (hops : List ExpectedHop) : Prop := ∃ hop, hops = [hop] ∧ hop.role = .direct

def IsCascade (hops : List ExpectedHop) : Prop :=
  ∃ ups lca downs, hops = ups ++ lca :: downs ∧ ups ≠ [] ∧ downs ≠ []
    ∧ (∀ hop ∈ ups, hop.role = .ascend) ∧ lca.role = .lca ∧ ∀ hop ∈ downs, hop.role = .descend

theorem Cross.isCascade (h : Cross t order fromLeaf toLeaf a b x y) {hops : List ExpectedHop}
    (hroute : List.Forall₂ (HopAt t (a ++ [x]) (b ++ [y])) hops (route a b)) : IsCascade hops := by
  have hstrictA : meet a b ≠ a := fun heq => h.left (heq ▸ meet_le_right a b)
  have hstrictB : meet a b ≠ b := fun heq => h.right (heq ▸ meet_le_left a b)
  have hlenA := lt_of_le_of_ne (meet_le_left a b).length_le
    (fun hlen => hstrictA ((meet_le_left a b).eq_of_length hlen))
  have hlenB := lt_of_le_of_ne (meet_le_right a b).length_le
    (fun hlen => hstrictB ((meet_le_right a b).eq_of_length hlen))
  have hwiden : ∀ {n : ℕ} {e p : List UInt8} {z : UInt8}, p ∈ below n e → p ∈ below n (e ++ [z]) :=
    fun hp => mem_below.mpr ⟨(mem_below.mp hp).1.trans (List.prefix_append _ _),
      (mem_below.mp hp).2⟩
  obtain ⟨ups, rest, hups, hrest, rfl⟩ := forall₂_append_right hroute
  cases hrest with
  | @cons lca _ downs _ hlca hdowns =>
      refine ⟨ups, lca, downs, rfl, ?_, ?_, ?_, ?_, ?_⟩
      · rintro rfl
        cases hups' : below (meet a b).length a with
        | nil => exact below_ne_nil hlenA hups'
        | cons => rw [hups'] at hups; cases hups
      · rintro rfl
        have hnil := List.forall₂_nil_left_iff.mp hdowns
        exact below_ne_nil hlenB (List.reverse_eq_nil_iff.mp hnil)
      · intro hop hhop
        obtain ⟨p, hp, hat⟩ := exists_of_forall₂_left hups hhop
        cases hat with
        | ascend => rfl
        | lca _ _ _ _ hs' =>
            exact absurd ((List.prefix_append _ _).trans hs') (h.not_le_dst (hwiden hp))
        | descend _ _ hs =>
            exact absurd ((List.prefix_append _ _).trans hs) (h.not_le_dst (hwiden hp))
      · have hsrc := (meet_le_left a b).trans (List.prefix_append a [x])
        have hdst := (meet_le_right a b).trans (List.prefix_append b [y])
        cases hlca with
        | ascend _ _ _ hd => exact absurd hdst hd
        | lca => rfl
        | descend _ _ _ hd => exact absurd hsrc hd
      · intro hop hhop
        obtain ⟨p, hp, hat⟩ := exists_of_forall₂_left hdowns hhop
        have hp := List.mem_reverse.mp hp
        cases hat with
        | ascend _ _ hs =>
            exact absurd ((List.prefix_append _ _).trans hs) (h.not_le_src (hwiden hp))
        | lca _ _ hs => exact absurd ((List.prefix_append _ _).trans hs) (h.not_le_src (hwiden hp))
        | descend => rfl

/-- How the four computations of the route of an order agree. -/
structure Agreement (t : Topology) (records : NodeId → NodeRecord) (order : PaymentOrder)
    (fromLeaf toLeaf : NodeId) (src dst srcLeaf dstLeaf : OctAddr) (hops : List ExpectedHop) :
    Prop where
  derived : fromLeaf ≠ toLeaf → ∃ signers, routeSigners src dst = some signers
    ∧ List.Forall₂ (fun hop addr => (records hop.signer).address = some addr
        ∧ deriveHop (records hop.signer) addr src dst = .ok ⟨hop.role, hop.first, hop.second⟩)
        hops signers
  classified : ∀ node addr role, node ≠ order.from_ → node ≠ order.to_ →
    t.addressOf node = .ok addr →
    (classifyHop src dst addr = some role ↔ ∃ hop ∈ hops, hop.signer = node ∧ hop.role = role)
  shape : (fromLeaf = toLeaf ∧ IsDirect hops) ∨ (fromLeaf ≠ toLeaf ∧ IsCascade hops)
  stepped : ∀ fuel, hops.length ≤ fuel →
    List.Forall₂ (fun hop addr => t.addressOf hop.signer = .ok addr) hops
      (nextSteps dstLeaf fuel srcLeaf)

theorem agreement_cross (hvalid : t.Valid) {records : NodeId → NodeRecord}
    (hrecords : RecordsAgree t records) {srcLeaf dstLeaf : OctAddr} {hops : List ExpectedHop}
    (h : Cross t order fromLeaf toLeaf srcLeaf.digits dstLeaf.digits x y)
    (hsrc : src.digits = srcLeaf.digits ++ [x]) (hdst : dst.digits = dstLeaf.digits ++ [y])
    (hroute : List.Forall₂ (HopAt t (srcLeaf.digits ++ [x]) (dstLeaf.digits ++ [y])) hops
      (route srcLeaf.digits dstLeaf.digits)) :
    Agreement t records order fromLeaf toLeaf src dst srcLeaf dstLeaf hops := by
  have hne : fromLeaf ≠ toLeaf := by
    rintro rfl
    exact h.left (h.srcLeaf.unique h.dstLeaf ▸ List.prefix_rfl)
  have hnodup := nodup_signers hroute
  refine ⟨fun _ => ?_, ?_, Or.inr ⟨hne, h.isCascade hroute⟩, ?_⟩
  · obtain ⟨signers, hsigners, hdigits⟩ :=
      routeSigners_eq_some (OctAddr.parent_eq_some.mpr ⟨x, hsrc⟩)
      (OctAddr.parent_eq_some.mpr ⟨y, hdst⟩) h.left h.right
    refine ⟨signers, hsigners, ?_⟩
    have hmem : ∀ addr ∈ signers, addr.digits ∈ route srcLeaf.digits dstLeaf.digits := by
      intro addr haddr
      exact hdigits ▸ List.mem_map_of_mem haddr
    rw [← hdigits, List.forall₂_map_right_iff] at hroute
    refine ((List.forall₂_and_left _ _).mpr ⟨hmem, hroute.flip⟩).flip.imp ?_
    rintro hop addr ⟨haddr, hat⟩
    exact ⟨(hrecords.address _ _).mpr ((Topology.addressOf_eq_ok hvalid).mpr hat.signer),
      h.deriveHop_of_hopAt hvalid hrecords hsrc hdst hat haddr⟩
  · intro node addr role hfrom hto haddr
    have hnode := (Topology.addressOf_eq_ok hvalid).mp haddr
    by_cases hmem : addr.digits ∈ route srcLeaf.digits dstLeaf.digits
    · obtain ⟨hop, hhop, hat⟩ := exists_of_forall₂_right hroute hmem
      obtain rfl := hat.signer.injective hvalid hnode
      rw [h.classifyHop_of_hopAt hsrc hdst hat hmem, Option.some.injEq]
      constructor
      · intro hrole
        exact ⟨hop, hhop, rfl, hrole⟩
      · rintro ⟨hop', hhop', hsame, hrole⟩
        rw [← hrole, List.inj_on_of_nodup_map hnodup hhop' hhop hsame]
    · have hoff : node ∉ hops.map (·.signer) := fun hs =>
        hmem ((mem_signers_iff hvalid hroute hnode).mp hs)
      have hneSrc : addr ≠ src := by
        rintro rfl
        exact hfrom ((hsrc ▸ hnode).injective hvalid h.src)
      have hneDst : addr ≠ dst := by
        rintro rfl
        exact hto ((hdst ▸ hnode).injective hvalid h.dst)
      rw [h.classifyHop_off hsrc hdst hneSrc hneDst hmem]
      constructor
      · intro hnone
        cases hnone
      · rintro ⟨hop, hhop, rfl, -⟩
        exact absurd (List.mem_map_of_mem hhop) hoff
  · intro fuel hfuel
    have hlen : (route srcLeaf.digits dstLeaf.digits).length ≤ fuel := hroute.length_eq ▸ hfuel
    have hsteps := nextSteps_digits dstLeaf hlen
    rw [← hsteps, List.forall₂_map_right_iff] at hroute
    exact hroute.imp fun hop addr hat => (Topology.addressOf_eq_ok hvalid).mpr hat.signer

theorem agreement_direct (hvalid : t.Valid) {records : NodeId → NodeRecord} {leafAddr : OctAddr}
    (hleaf : Chain t fromLeaf leafAddr.digits) (hsrc : src.digits = leafAddr.digits ++ [x])
    (hdst : dst.digits = leafAddr.digits ++ [y]) :
    Agreement t records order fromLeaf fromLeaf src dst leafAddr leafAddr
      [⟨fromLeaf, .direct, .child order.from_, .child order.to_⟩] := by
  have hsrcParent := OctAddr.parent_eq_some.mpr ⟨x, hsrc⟩
  have hdstParent := OctAddr.parent_eq_some.mpr ⟨y, hdst⟩
  refine ⟨fun hne => absurd rfl hne, ?_, Or.inl ⟨rfl, _, rfl, rfl⟩, ?_⟩
  · intro node addr role _ _ haddr
    have hnode := (Topology.addressOf_eq_ok hvalid).mp haddr
    have hiff : leafAddr = addr ↔ fromLeaf = node := by
      constructor
      · rintro rfl
        exact hleaf.injective hvalid hnode
      · rintro rfl
        exact OctAddr.ext (hleaf.unique hnode)
    simp [classifyHop, hsrcParent, hdstParent, hiff]
  · intro fuel hfuel
    have hlen : (route leafAddr.digits leafAddr.digits).length ≤ fuel := by
      rw [route_self]
      exact hfuel
    have hsteps := nextSteps_digits leafAddr hlen
    rw [route_self] at hsteps
    obtain ⟨addr, hcons, hdigits⟩ := List.map_eq_singleton_iff.mp hsteps
    rw [hcons]
    exact .cons ((Topology.addressOf_eq_ok hvalid).mpr (hdigits ▸ hleaf)) .nil

/-- Planner, nodes and router agree on the route of every order between two users. -/
theorem route_agreement [Crypto] {records : NodeId → NodeRecord} (hvalid : t.validate = .ok ())
    (hrecords : RecordsAgree t records) (hfrom : userLeaf t order.from_ = .ok fromLeaf)
    (hto : userLeaf t order.to_ = .ok toLeaf) (hsrc : t.addressOf order.from_ = .ok src)
    (hdst : t.addressOf order.to_ = .ok dst) :
    ∃ hops srcLeaf dstLeaf, expectedHops t order = .ok hops
      ∧ t.addressOf fromLeaf = .ok srcLeaf ∧ t.addressOf toLeaf = .ok dstLeaf
      ∧ Agreement t records order fromLeaf toLeaf src dst srcLeaf dstLeaf hops := by
  have hv := Topology.validate_spec hvalid
  have hheld := userLeaf_spec hv hfrom
  have hheld' := userLeaf_spec hv hto
  rw [Topology.addressOf_eq_ok hv] at hsrc hdst
  by_cases hleaf : fromLeaf = toLeaf
  · subst hleaf
    obtain ⟨record, hnode, -, hparent⟩ := hheld.user
    obtain ⟨record', hnode', -, hparent'⟩ := hheld'.user
    obtain ⟨x, a, -, hsrcDigits, ha⟩ := hsrc.of_parent hnode hparent
    obtain ⟨y, b, -, hdstDigits, hb⟩ := hdst.of_parent hnode' hparent'
    obtain rfl := ha.unique hb
    obtain ⟨leafAddr, -, rfl⟩ := OctAddr.exists_parent hsrcDigits ha.ne_nil
    refine ⟨_, leafAddr, leafAddr, ?_, (Topology.addressOf_eq_ok hv).mpr ha,
      (Topology.addressOf_eq_ok hv).mpr ha, agreement_direct hv ha hsrcDigits hdstDigits⟩
    simp [expectedHops, hfrom, hto]
  · obtain ⟨a, b, x, y, hsrcDigits, hdstDigits, hcross⟩ :=
      cross_of_heldBy hv hheld hheld' hleaf hsrc hdst
    obtain ⟨hops, hhops, hroute⟩ := expectedHops_cross hv hfrom hto hcross
    obtain ⟨srcLeaf, -, rfl⟩ := OctAddr.exists_parent hsrcDigits hcross.srcLeaf.ne_nil
    obtain ⟨dstLeaf, -, rfl⟩ := OctAddr.exists_parent hdstDigits hcross.dstLeaf.ne_nil
    exact ⟨hops, srcLeaf, dstLeaf, hhops, (Topology.addressOf_eq_ok hv).mpr hcross.srcLeaf,
      (Topology.addressOf_eq_ok hv).mpr hcross.dstLeaf,
      agreement_cross hv hrecords hcross hsrcDigits hdstDigits hroute⟩

end

section

open Concrete

def twoLeavesRecord (id : NodeId) : NodeRecord where
  nodeId := id
  address := (twoLeaves.addressOf id).toOption
  parent := none
  children := twoLeaves.nodes.toList.filterMap fun (child, record) =>
    if record.parent = some id then
      record.slot.map fun slot =>
        { childId := child, kind := record.kind, slot, ethAddress := none }
    else none

theorem twoLeaves_recordsAgree : RecordsAgree twoLeaves twoLeavesRecord := by
  refine ⟨?_, ?_⟩
  · intro id child s
    simp only [twoLeavesRecord, List.mem_filterMap]
    constructor
    · rintro ⟨entry, ⟨⟨c, record⟩, hmem, hentry⟩, rfl, rfl⟩
      simp only [Option.ite_none_right_eq_some, Option.map_eq_some_iff] at hentry
      obtain ⟨hparent, slot, hslot, rfl⟩ := hentry
      exact ⟨record, Topology.mem_toList_iff_node.mp hmem, hparent, hslot⟩
    · rintro ⟨record, hnode, hparent, hslot⟩
      exact ⟨_, ⟨(child, record), Topology.mem_toList_iff_node.mpr hnode, by
        rw [if_pos hparent, hslot]
        rfl⟩, rfl, rfl⟩
  · intro id addr
    simp only [twoLeavesRecord]
    cases twoLeaves.addressOf id <;> simp [Except.toOption]

theorem route_agreement_twoLeaves :
    ∃ src dst hops srcLeaf dstLeaf, twoLeaves.addressOf "u" = .ok src
      ∧ twoLeaves.addressOf "v" = .ok dst ∧ expectedHops twoLeaves crossOrder = .ok hops
      ∧ Agreement twoLeaves twoLeavesRecord crossOrder "a" "b" src dst srcLeaf dstLeaf hops := by
  have hfrom : userLeaf twoLeaves crossOrder.from_ = .ok "a" := by decide +kernel
  have hto : userLeaf twoLeaves crossOrder.to_ = .ok "b" := by decide +kernel
  have hsrcOk : (twoLeaves.addressOf "u").toBool = true := by decide +kernel
  have hdstOk : (twoLeaves.addressOf "v").toBool = true := by decide +kernel
  obtain ⟨src, hsrc⟩ := exists_ok_of_toBool hsrcOk
  obtain ⟨dst, hdst⟩ := exists_ok_of_toBool hdstOk
  obtain ⟨hops, srcLeaf, dstLeaf, hhops, -, -, hagree⟩ :=
    route_agreement twoLeaves_valid twoLeaves_recordsAgree hfrom hto hsrc hdst
  exact ⟨src, dst, hops, srcLeaf, dstLeaf, hsrc, hdst, hhops, hagree⟩

end

end Cawala
