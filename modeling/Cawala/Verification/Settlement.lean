import Cawala.Model.Concrete
import Cawala.Verification.Ledger
import Cawala.Verification.Route

/-! # Settlement conserves value

A plan carries one entry for each hop of the route. Executed, it debits the payer and
credits the payee, and on the edges in between both mirrored accounts move together. -/

namespace Cawala

open Std (ExtTreeMap)
open Library
open Cawala.Topology

section

variable [Crypto]

/-! ## The postings of one hop -/

theorem checkedI64_eq_ok {value : Amount} {m : SignedAmount} (h : checkedI64 value = .ok m) :
    m.toInt = value.toNat ∧ (-m).toInt = -value.toNat := by
  simp only [checkedI64, ite_ok_eq_ok, Except.ok.injEq] at h
  obtain ⟨hlt, rfl⟩ := h
  have hpos : (Int64.ofNat value.toNat).toInt = value.toNat :=
    Int64.toInt_ofNat_of_lt hlt
  refine ⟨hpos, ?_⟩
  rw [Int64.toInt_neg, hpos]
  exact Int.bmod_eq_of_le (by omega) (by omega)

def hopDelta (hop : ExpectedHop) (m : SignedAmount) (a : AccountRef) : ℤ :=
  postedDelta (hopPostings hop.role hop.first hop.second m) a

omit [Crypto] in
theorem postedDelta_pair (p q : Posting) (a : AccountRef) :
    postedDelta [p, q] a = (if p.account = a then p.delta.toInt else 0)
      + (if q.account = a then q.delta.toInt else 0) := by
  rw [← List.singleton_append, postedDelta_append, postedDelta_singleton, postedDelta_singleton]

omit [Crypto] in
theorem hopDelta_eq_zero {hop : ExpectedHop} {a : AccountRef} (m : SignedAmount)
    (hfirst : a ≠ hop.first) (hsecond : a ≠ hop.second) : hopDelta hop m a = 0 := by
  unfold hopDelta hopPostings
  cases hop.role <;> simp [postedDelta_pair, hfirst.symm, hsecond.symm]

/-- The movement of one account at a node, over a whole cascade. -/
def cascadeDelta (hops : List ExpectedHop) (m : SignedAmount) (node : NodeId) (a : AccountRef) :
    ℤ :=
  ((hops.filter (fun hop => decide (hop.signer = node))).map (hopDelta · m a)).sum

omit [Crypto] in
theorem cascadeDelta_of_not_mem {hops : List ExpectedHop} {node : NodeId} (m : SignedAmount)
    (a : AccountRef) (h : node ∉ hops.map (·.signer)) : cascadeDelta hops m node a = 0 := by
  have hnil : hops.filter (fun hop => decide (hop.signer = node)) = [] := by
    apply List.filter_eq_nil_iff.mpr
    intro hop hhop
    simp only [decide_eq_true_eq]
    rintro rfl
    exact h (List.mem_map_of_mem hhop)
  simp [cascadeDelta, hnil]

omit [Crypto] in
theorem cascadeDelta_of_mem {hops : List ExpectedHop} {hop : ExpectedHop} (m : SignedAmount)
    (a : AccountRef) (hnodup : (hops.map (·.signer)).Nodup) (h : hop ∈ hops) :
    cascadeDelta hops m hop.signer a = hopDelta hop m a := by
  induction hops with
  | nil => cases h
  | cons first rest ih =>
      rw [List.map_cons, List.nodup_cons] at hnodup
      rcases List.mem_cons.mp h with rfl | hmem
      · have hrest := cascadeDelta_of_not_mem m a hnodup.1
        simp only [cascadeDelta] at hrest ⊢
        simp [hrest]
      · have hdiff : first.signer ≠ hop.signer := fun heq =>
          hnodup.1 (heq ▸ List.mem_map_of_mem hmem)
        rw [← ih hnodup.2 hmem]
        simp [cascadeDelta, hdiff]

/-! ## What a cascade moves -/

variable {t : Topology}

/-- The value an edge carries away from the root, by the path of its lower end. -/
def edgeDelta (src dst : List UInt8) (m : SignedAmount) (e : List UInt8) : ℤ :=
  if e <+: src ∧ ¬ e <+: dst then (-m).toInt
  else if e <+: dst ∧ ¬ e <+: src then m.toInt
  else 0

namespace Cross

variable {order : PaymentOrder} {fromLeaf toLeaf : NodeId} {a b : List UInt8} {x y : UInt8}
  {hops : List ExpectedHop}

omit [Crypto] in
/-- Off the route the two users are on the same side. -/
theorem edgeDelta_eq_zero (h : Cross t order fromLeaf toLeaf a b x y) (m : SignedAmount)
    {e : List UInt8} (he : e.length ≤ (meet a b).length ∨ (¬ e <+: a ++ [x] ∧ ¬ e <+: b ++ [y])) :
    edgeDelta (a ++ [x]) (b ++ [y]) m e = 0 := by
  have hsides : e <+: a ++ [x] ↔ e <+: b ++ [y] := by
    rcases he with hlen | ⟨hsrc, hdst⟩
    · rw [← h.meet_eq] at hlen
      constructor
      · intro hle
        exact (List.prefix_of_prefix_length_le hle (meet_le_left _ _) hlen).trans
          (meet_le_right _ _)
      · intro hle
        exact (List.prefix_of_prefix_length_le hle (meet_le_right _ _) hlen).trans
          (meet_le_left _ _)
    · exact iff_of_false hsrc hdst
  simp [edgeDelta, hsides]

omit [Crypto] in
/-- A node's `Parent` account carries the value of the edge above it. -/
theorem cascadeDelta_parent (hvalid : t.Valid) (h : Cross t order fromLeaf toLeaf a b x y)
    (hroute : List.Forall₂ (HopAt t (a ++ [x]) (b ++ [y])) hops (route a b)) (m : SignedAmount)
    {node : NodeId} {e : List UInt8} (hnode : Chain t node e) (hsrc : e ≠ a ++ [x])
    (hdst : e ≠ b ++ [y]) :
    cascadeDelta hops m node .parent = edgeDelta (a ++ [x]) (b ++ [y]) m e := by
  by_cases hmem : e ∈ route a b
  · obtain ⟨hop, hhop, hat⟩ := exists_of_forall₂_right hroute hmem
    obtain rfl := hat.signer.injective hvalid hnode
    rw [cascadeDelta_of_mem m .parent (nodup_signers hroute) hhop]
    cases hat with
    | @ascend _ _ _ s _ _ hs hd =>
        have hle := (List.prefix_append e [s]).trans hs
        simp [hopDelta, hopPostings, postedDelta_pair, edgeDelta, hle, hd]
    | @lca _ _ _ _ s s' _ _ hs _ hs' _ =>
        have hle := (List.prefix_append e [s]).trans hs
        have hle' := (List.prefix_append e [s']).trans hs'
        simp [hopDelta, hopPostings, postedDelta_pair, edgeDelta, hle, hle']
    | @descend _ _ _ s _ _ hs hd =>
        have hle := (List.prefix_append e [s]).trans hs
        simp [hopDelta, hopPostings, postedDelta_pair, edgeDelta, hle, hd]
  · have hout := mt (mem_signers_iff hvalid hroute hnode).mp hmem
    rw [cascadeDelta_of_not_mem m .parent hout]
    symm
    apply h.edgeDelta_eq_zero
    by_contra hboth
    push Not at hboth
    obtain ⟨hlen, hside⟩ := hboth
    refine hmem (mem_route.mpr ⟨?_, by omega⟩)
    by_cases hle : e <+: a ++ [x]
    · exact Or.inl ((List.prefix_concat_iff.mp hle).resolve_left hsrc)
    · exact Or.inr ((List.prefix_concat_iff.mp (hside hle)).resolve_left hdst)

omit [Crypto] in
/-- A node's account for a child carries the value of the edge between them. -/
theorem cascadeDelta_child (hvalid : t.Valid) (h : Cross t order fromLeaf toLeaf a b x y)
    (hroute : List.Forall₂ (HopAt t (a ++ [x]) (b ++ [y])) hops (route a b)) (m : SignedAmount)
    {node child : NodeId} {d : List UInt8} {s : UInt8} (hnode : Chain t node d)
    (hchild : Chain t child (d ++ [s])) :
    cascadeDelta hops m node (.child child) = edgeDelta (a ++ [x]) (b ++ [y]) m (d ++ [s]) := by
  by_cases hmem : d ∈ route a b
  · obtain ⟨hop, hhop, hat⟩ := exists_of_forall₂_right hroute hmem
    obtain rfl := hat.signer.injective hvalid hnode
    rw [cascadeDelta_of_mem m _ (nodup_signers hroute) hhop]
    -- The child on the way to a user is this child exactly when the branches agree.
    have hsame : ∀ {other : NodeId} {z : UInt8}, Chain t other (d ++ [z]) →
        (other = child ↔ z = s) := by
      intro other z hother
      constructor
      · rintro rfl
        simpa using hother.unique hchild
      · rintro rfl
        exact hother.injective hvalid hchild
    have hbranch : ∀ {z : UInt8} {l : List UInt8}, d ++ [z] <+: l →
        (d ++ [s] <+: l ↔ z = s) := by
      intro z l hz
      constructor
      · intro hs
        exact branch_unique hz hs
      · rintro rfl
        exact hz
    have hoff : ∀ {l : List UInt8}, ¬ d <+: l → ¬ d ++ [s] <+: l := fun hd hs =>
      hd ((List.prefix_append d [s]).trans hs)
    cases hat with
    | ascend _ hx hs hd =>
        simp [hopDelta, hopPostings, postedDelta_pair, edgeDelta, hbranch hs, hoff hd, hsame hx]
    | lca _ hx hs hx' hs' hne =>
        simp only [hopDelta, hopPostings, postedDelta_pair, edgeDelta, hbranch hs, hbranch hs',
          AccountRef.child.injEq, hsame hx, hsame hx']
        split_ifs <;> simp_all
    | descend _ hx hs hd =>
        simp [hopDelta, hopPostings, postedDelta_pair, edgeDelta, hbranch hs, hoff hd, hsame hx]
  · rw [cascadeDelta_of_not_mem m _ (fun hs => hmem ((mem_signers_iff hvalid hroute hnode).mp hs))]
    symm
    apply h.edgeDelta_eq_zero
    by_contra hboth
    push Not at hboth
    obtain ⟨hlen, hside⟩ := hboth
    simp only [List.length_append, List.length_singleton] at hlen
    refine hmem (mem_route.mpr ⟨?_, by omega⟩)
    by_cases hle : d ++ [s] <+: a ++ [x]
    · exact Or.inl (le_of_snoc_le_snoc hle)
    · exact Or.inr (le_of_snoc_le_snoc (hside hle))

end Cross

structure Moves (t : Topology) (order : PaymentOrder) (hops : List ExpectedHop)
    (m : SignedAmount) : Prop where
  nodup : (hops.map (·.signer)).Nodup
  payer : ∃ leaf ∈ hops.map (·.signer), HeldBy t order.from_ leaf
    ∧ cascadeDelta hops m leaf (.child order.from_) = (-m).toInt
  payee : ∃ leaf ∈ hops.map (·.signer), HeldBy t order.to_ leaf
    ∧ cascadeDelta hops m leaf (.child order.to_) = m.toInt
  edge : ∀ child record parent, t.node child = some record → record.parent = some parent →
    child ≠ order.from_ → child ≠ order.to_ →
    cascadeDelta hops m parent (.child child) = cascadeDelta hops m child .parent

omit [Crypto] in
theorem moves_direct {order : PaymentOrder} {leaf : NodeId} (m : SignedAmount)
    (hpayer : HeldBy t order.from_ leaf) (hpayee : HeldBy t order.to_ leaf)
    (hne : order.from_ ≠ order.to_) :
    Moves t order [⟨leaf, .direct, .child order.from_, .child order.to_⟩] m := by
  refine ⟨by simp, ⟨leaf, by simp, hpayer, ?_⟩, ⟨leaf, by simp, hpayee, ?_⟩, ?_⟩
  · simp [cascadeDelta, hopDelta, hopPostings, postedDelta_pair, hne.symm]
  · simp [cascadeDelta, hopDelta, hopPostings, postedDelta_pair, hne]
  · intro child record parent _ _ hfrom hto
    have hzero : ∀ a, a ≠ .child order.from_ → a ≠ .child order.to_ → ∀ node,
        cascadeDelta [⟨leaf, .direct, .child order.from_, .child order.to_⟩] m node a = 0 := by
      intro a hfirst hsecond node
      have : hopDelta ⟨leaf, .direct, .child order.from_, .child order.to_⟩ m a = 0 :=
        hopDelta_eq_zero m hfirst hsecond
      by_cases hnode : leaf = node
      · subst hnode
        simp [cascadeDelta, this]
      · simp [cascadeDelta, hnode]
    rw [hzero (.child child) (by simpa using hfrom) (by simpa using hto),
      hzero .parent (by simp) (by simp)]

omit [Crypto] in
theorem moves_cross (hvalid : t.Valid) {order : PaymentOrder} {fromLeaf toLeaf : NodeId}
    {a b : List UInt8} {x y : UInt8} {hops : List ExpectedHop} (m : SignedAmount)
    (h : Cross t order fromLeaf toLeaf a b x y)
    (hroute : List.Forall₂ (HopAt t (a ++ [x]) (b ++ [y])) hops (route a b)) :
    Moves t order hops m := by
  have hlenA : (meet a b).length < (a ++ [x]).length := by
    have := (meet_le_left a b).length_le
    simp only [List.length_append, List.length_singleton]
    omega
  have hlenB : (meet a b).length < (b ++ [y]).length := by
    have := (meet_le_right a b).length_le
    simp only [List.length_append, List.length_singleton]
    omega
  have hdst := h.not_le_dst (mem_below.mpr ⟨List.prefix_rfl, hlenA⟩)
  have hsrc := h.not_le_src (mem_below.mpr ⟨List.prefix_rfl, hlenB⟩)
  refine ⟨nodup_signers hroute, ⟨fromLeaf, ?_, h.payer, ?_⟩, ⟨toLeaf, ?_, h.payee, ?_⟩, ?_⟩
  · refine (mem_signers_iff hvalid hroute h.srcLeaf).mpr (mem_route.mpr ⟨?_, ?_⟩)
    · exact Or.inl List.prefix_rfl
    · exact (meet_le_left a b).length_le
  · rw [h.cascadeDelta_child hvalid hroute m h.srcLeaf h.src]
    simp [edgeDelta, hdst]
  · refine (mem_signers_iff hvalid hroute h.dstLeaf).mpr (mem_route.mpr ⟨?_, ?_⟩)
    · exact Or.inr List.prefix_rfl
    · exact (meet_le_right a b).length_le
  · rw [h.cascadeDelta_child hvalid hroute m h.dstLeaf h.dst]
    simp [edgeDelta, hsrc]
  · intro child record parent hnode hparent hfrom hto
    obtain ⟨-, s, -, -, -, hslot, hs, -⟩ := (hvalid.nodes _ _ hnode).link _ hparent
    by_cases hchain : ∃ d, Chain t parent d
    · obtain ⟨d, hd⟩ := hchain
      have hchild := Chain.child hnode hparent hslot hs hd
      have hneSrc : d ++ [s] ≠ a ++ [x] := fun heq =>
        hfrom ((heq ▸ hchild).injective hvalid h.src)
      have hneDst : d ++ [s] ≠ b ++ [y] := fun heq =>
        hto ((heq ▸ hchild).injective hvalid h.dst)
      rw [h.cascadeDelta_child hvalid hroute m hd hchild,
        h.cascadeDelta_parent hvalid hroute m hchild hneSrc hneDst]
    · -- Neither end is attached to the root, so neither signs a hop.
      have hoff : ∀ {node : NodeId}, (¬ ∃ d, Chain t node d) → node ∉ hops.map (·.signer) := by
        intro node hno hmem
        obtain ⟨hop, hhop, rfl⟩ := List.mem_map.mp hmem
        obtain ⟨d, -, hat⟩ := exists_of_forall₂_left hroute hhop
        exact hno ⟨d, hat.signer⟩
      have hchild : ¬ ∃ d, Chain t child d := by
        rintro ⟨d, hd⟩
        obtain ⟨_, parentDigits, -, -, hp⟩ := hd.of_parent hnode hparent
        exact hchain ⟨parentDigits, hp⟩
      rw [cascadeDelta_of_not_mem m _ (hoff hchain), cascadeDelta_of_not_mem m _ (hoff hchild)]

theorem expectedHops_moves (hvalid : t.Valid) {order : PaymentOrder} {hops : List ExpectedHop}
    (m : SignedAmount) (hne : order.from_ ≠ order.to_) (h : expectedHops t order = .ok hops) :
    Moves t order hops m := by
  rcases expectedHops_spec hvalid h with ⟨leaf, hpayer, hpayee, rfl⟩ | ⟨_, _, _, _, _, _, hc, hr⟩
  · exact moves_direct m hpayer hpayee hne
  · exact moves_cross hvalid m hc hr

/-! ## Planning -/

theorem ledgerFor_eq_ok {ledgers : LedgerSet} {node : NodeId} {ledger : Ledger} :
    ledgerFor ledgers node = .ok ledger ↔ ledgers.get node = some ledger := by
  unfold ledgerFor
  cases ledgers.get node <;> simp

/-- The planned hop of an expected hop: its entry on top of the signer's head. -/
def PlannedFrom (ledgers : LedgerSet) (order : PaymentOrder) (auth : AuthRef) (m : SignedAmount)
    (issuedAt : UInt64) (hop : ExpectedHop) (planned : PlannedHop) : Prop :=
  ∃ ledger, ledgers.get hop.signer = some ledger ∧ planned =
    { signer := hop.signer
      entry := hopEntry ledger order.hash order.amount hop.role
        (hopPostings hop.role hop.first hop.second m) auth issuedAt }

theorem planTransfer_spec {t : Topology} {order : PaymentOrder} {auth : AuthRef}
    {ledgers : LedgerSet} {issuedAt : UInt64} {plan : SettlementPlan}
    (h : planTransfer t order auth ledgers issuedAt = .ok plan) :
    plan.order = order ∧ ∃ m hops, checkedI64 order.amount = .ok m
      ∧ expectedHops t order = .ok hops
      ∧ List.Forall₂ (PlannedFrom ledgers order auth m issuedAt) hops plan.hops := by
  simp only [planTransfer, ite_error_eq_ok, bind_eq_ok, pure_eq_ok] at h
  obtain ⟨-, m, hm, hops, hhops, _, -, _, -, planned, hplanned, _, -, rfl⟩ := h
  refine ⟨rfl, m, hops, hm, hhops, ?_⟩
  rw [mapM_eq_ok_iff_forall₂] at hplanned
  refine hplanned.imp ?_
  intro hop p hp
  simp only [planHop, bind_eq_ok, ledgerFor_eq_ok, pure_eq_ok] at hp
  obtain ⟨ledger, hledger, rfl⟩ := hp
  exact ⟨ledger, hledger, rfl⟩

/-! ## Execution -/

variable [Postcard]

/-- What phase 1 establishes of a hop and its signed entry. -/
structure Preflighted (plan : SettlementPlan) (ledgers : LedgerSet)
    (keys : ExtTreeMap NodeId LedgerSecretKey) (registry : PeerRegistry) (now : UInt64)
    (hop : PlannedHop) (signed : SignedEntry) : Prop where
  key : ∃ key, keys[hop.signer]? = some key ∧ SignedEntry.sign hop.entry key = .ok signed
  transfer : verifyTransfer signed plan.order registry now = .ok ()
  entry : signed.entry = hop.entry

theorem preflightHop_spec {plan : SettlementPlan} {ledgers : LedgerSet}
    {keys : ExtTreeMap NodeId LedgerSecretKey} {registry : PeerRegistry} {now : UInt64}
    {hop : PlannedHop} {signed : SignedEntry}
    (h : preflightHop plan ledgers keys registry now hop = .ok signed) :
    Preflighted plan ledgers keys registry now hop signed := by
  unfold preflightHop at h
  split at h
  · cases h
  · rename_i key hkey
    simp only [bind_eq_ok, ite_error_eq_ok, Except.ok.injEq] at h
    obtain ⟨signed', hsign, _, htransfer, ledger, -, -, -, -, rfl⟩ := h
    refine ⟨⟨key, hkey, hsign⟩, htransfer, ?_⟩
    simp only [SignedEntry.sign, bind_eq_ok, pure_eq_ok] at hsign
    obtain ⟨bytes, -, rfl⟩ := hsign
    rfl

structure Staged (hops : List PlannedHop) (signed : List SignedEntry) (before after : LedgerSet) :
    Prop where
  appended : List.Forall₂ (fun hop s => ∃ l l', before.get hop.signer = some l
    ∧ after.get hop.signer = some l' ∧ Appended l l' s) hops signed
  others : ∀ node, node ∉ hops.map (·.signer) → after.get node = before.get node

theorem stageHop_spec {staged next : LedgerSet} {hop : PlannedHop} {signed : SignedEntry}
    (h : stageHop staged (hop, signed) = .ok next) :
    ∃ l l', staged.get hop.signer = some l ∧ next.get hop.signer = some l' ∧ Appended l l' signed
      ∧ ∀ node, node ≠ hop.signer → next.get node = staged.get node := by
  simp only [stageHop] at h
  split at h
  · cases h
  · rename_i ledger hledger
    simp only [bind_eq_ok, pure_eq_ok] at h
    obtain ⟨l', happend, rfl⟩ := h
    refine ⟨ledger, l', hledger, by simp [LedgerSet.get], append_spec happend, ?_⟩
    intro node hnode
    simp [LedgerSet.get, ExtTreeMap.getElem?_insert, hnode.symm]

theorem stageHops_spec {hops : List PlannedHop} {signed : List SignedEntry}
    {before after : LedgerSet} (hlen : hops.length = signed.length)
    (hnodup : (hops.map (·.signer)).Nodup)
    (h : (hops.zip signed).foldlM stageHop before = .ok after) :
    Staged hops signed before after := by
  induction hops generalizing signed before with
  | nil =>
      obtain rfl : signed = [] := List.length_eq_zero_iff.mp hlen.symm
      simp only [List.zip_nil_left, List.foldlM_nil, pure_eq_ok] at h
      subst h
      exact ⟨.nil, fun _ _ => rfl⟩
  | cons hop hops ih =>
      cases signed with
      | nil => simp at hlen
      | cons s signed =>
          rw [List.map_cons, List.nodup_cons] at hnodup
          obtain ⟨mid, hmid, hrest⟩ := foldlM_cons_eq_ok.mp h
          obtain ⟨l, l', hl, hl', happ, hsame⟩ := stageHop_spec hmid
          obtain ⟨happended, hothers⟩ := ih (by simpa using hlen) hnodup.2 hrest
          refine ⟨.cons ⟨l, l', hl, ?_, happ⟩ ?_, ?_⟩
          · rw [hothers _ hnodup.1, hl']
          · have hdiff : ∀ p ∈ hops, p.signer ≠ hop.signer := fun p hp heq =>
              hnodup.1 (heq ▸ List.mem_map_of_mem hp)
            refine ((List.forall₂_and_left _ _).mpr ⟨hdiff, happended⟩).imp ?_
            rintro p sp ⟨hp, lp, lp', hlp, hlp', happ'⟩
            exact ⟨lp, lp', hsame _ hp ▸ hlp, hlp', happ'⟩
          · intro node hnode
            rw [List.map_cons, List.mem_cons, not_or] at hnode
            rw [hothers node hnode.2, hsame node hnode.1]

/-- An executed cascade: every hop appended its entry to its signer's ledger, once. -/
structure Executed (order : PaymentOrder) (hops : List ExpectedHop) (m : SignedAmount)
    (before after : LedgerSet) (signed : List SignedEntry) : Prop where
  appended : List.Forall₂ (fun hop s => ∃ l l', before.get hop.signer = some l
    ∧ after.get hop.signer = some l' ∧ Appended l l' s
    ∧ s.entry.body = .transfer order.hash order.amount hop.role
    ∧ s.entry.postings = hopPostings hop.role hop.first hop.second m) hops signed
  others : ∀ node, node ∉ hops.map (·.signer) → after.get node = before.get node

theorem executePlan_eq_ok {plan : SettlementPlan} {ledgers after : LedgerSet}
    {keys : ExtTreeMap NodeId LedgerSecretKey} {registry : PeerRegistry} {now : UInt64}
    {signed : List SignedEntry} :
    executePlan plan ledgers keys registry now = (after, .ok signed) ↔
      signHops plan ledgers keys registry now = .ok signed
        ∧ (plan.hops.zip signed).foldlM stageHop ledgers = .ok after := by
  unfold executePlan
  constructor
  · intro h
    split at h
    · cases h
    next signedHops hsigned =>
      split at h
      · cases h
      next staged hstaged =>
        simp only [Prod.mk.injEq, Except.ok.injEq] at h
        obtain ⟨rfl, rfl⟩ := h
        exact ⟨hsigned, hstaged⟩
  · intro h
    rw [h.1]
    simp only [h.2]

theorem signHops_spec {plan : SettlementPlan} {ledgers : LedgerSet}
    {keys : ExtTreeMap NodeId LedgerSecretKey} {registry : PeerRegistry} {now : UInt64}
    {signed : List SignedEntry} (h : signHops plan ledgers keys registry now = .ok signed) :
    List.Forall₂ (Preflighted plan ledgers keys registry now) plan.hops signed :=
  (mapM_eq_ok_iff_forall₂.mp h).imp fun _ _ => preflightHop_spec

/-- The spec lemma of `execute_plan` on a plan of `plan_transfer`, made for these ledgers
or for others. -/
theorem executePlan_spec {order : PaymentOrder} {auth : AuthRef} {m : SignedAmount}
    {planned ledgers after : LedgerSet} {issuedAt now : UInt64} {plan : SettlementPlan}
    {keys : ExtTreeMap NodeId LedgerSecretKey} {registry : PeerRegistry}
    {hops : List ExpectedHop} {signed : List SignedEntry}
    (hnodup : (hops.map (·.signer)).Nodup)
    (hplan : List.Forall₂ (PlannedFrom planned order auth m issuedAt) hops plan.hops)
    (h : executePlan plan ledgers keys registry now = (after, .ok signed)) :
    Executed order hops m ledgers after signed := by
  obtain ⟨hsigned, hstaged⟩ := executePlan_eq_ok.mp h
  have hpre := signHops_spec hsigned
  have hsigners : hops.map (·.signer) = plan.hops.map (·.signer) := by
    apply map_eq_of_forall₂
    refine hplan.imp ?_
    rintro hop _ ⟨ledger, -, rfl⟩
    rfl
  obtain ⟨happended, hothers⟩ := stageHops_spec hpre.length_eq (hsigners ▸ hnodup) hstaged
  refine ⟨?_, hsigners ▸ hothers⟩
  refine (forall₂_comp hplan (hpre.mp (fun _ _ => And.intro) happended)).imp ?_
  rintro hop s ⟨_, ⟨ledger, -, rfl⟩, hpreflight, l, l', hl, hl', happ⟩
  refine ⟨l, l', hl, hl', happ, ?_, ?_⟩
  · rw [hpreflight.entry]
    rfl
  · rw [hpreflight.entry]
    rfl

omit [Postcard] in
/-- The mirror difference of an edge: what the parent owes the child less what the child
holds with its parent. -/
def mirrorDifference (ledgers : LedgerSet) (parent child : NodeId) : Option ℤ := do
  let upper ← ledgers.get parent
  let lower ← ledgers.get child
  pure (upper.balances.balance (.child child) - lower.balances.balance .parent)

/-- What a settled order did to a set of ledgers. -/
structure Settled (t : Topology) (order : PaymentOrder) (hops : List ExpectedHop)
    (before after : LedgerSet) : Prop where
  payer : ∃ leaf l l', HeldBy t order.from_ leaf ∧ before.get leaf = some l
    ∧ after.get leaf = some l' ∧ l'.balances.balance (.child order.from_)
      = l.balances.balance (.child order.from_) - order.amount.toNat
  payee : ∃ leaf l l', HeldBy t order.to_ leaf ∧ before.get leaf = some l
    ∧ after.get leaf = some l' ∧ l'.balances.balance (.child order.to_)
      = l.balances.balance (.child order.to_) + order.amount.toNat
  equity : ∀ node l', after.get node = some l' →
    ∃ l, before.get node = some l ∧ l'.balances.equity = l.balances.equity
  mirror : ∀ child record parent, t.node child = some record → record.parent = some parent →
    child ≠ order.from_ → child ≠ order.to_ →
    mirrorDifference after parent child = mirrorDifference before parent child
  signers : (hops.map (·.signer)).Nodup
  entries : ∀ hop ∈ hops, ∃ l l' s, before.get hop.signer = some l
    ∧ after.get hop.signer = some l' ∧ l'.log.entries = l.log.entries ++ [s]
  accounts : ∀ hop ∈ hops, ∀ l l', before.get hop.signer = some l →
    after.get hop.signer = some l' → ∀ a, a ≠ hop.first → a ≠ hop.second →
    l'.balances.balance a = l.balances.balance a
  opened : ∀ node l l', before.get node = some l → after.get node = some l' →
    ∀ id, id ∈ l'.balances.children ↔ id ∈ l.balances.children
  others : ∀ node, node ∉ hops.map (·.signer) → after.get node = before.get node

theorem Executed.ledger {order : PaymentOrder} {hops : List ExpectedHop} {m : SignedAmount}
    {before after : LedgerSet} {signed : List SignedEntry}
    (h : Executed order hops m before after signed)
    (hnodup : (hops.map (·.signer)).Nodup) (node : NodeId) :
    (before.get node = none ∧ after.get node = none) ∨ ∃ l l', before.get node = some l
      ∧ after.get node = some l' ∧ l'.balances.equity = l.balances.equity
      ∧ (∀ a, l'.balances.balance a = l.balances.balance a + cascadeDelta hops m node a)
      ∧ (∀ id, id ∈ l'.balances.children ↔ id ∈ l.balances.children) := by
  by_cases hmem : node ∈ hops.map (·.signer)
  · obtain ⟨hop, hhop, rfl⟩ := List.mem_map.mp hmem
    obtain ⟨s, -, l, l', hl, hl', happ, hbody, hpostings⟩ :=
      exists_of_forall₂_left h.appended hhop
    refine Or.inr ⟨l, l', hl, hl', ?_, ?_, ?_⟩
    · rw [happ.effect.equity, hbody]
      exact add_zero _
    · intro a
      rw [happ.effect.balance, hpostings, cascadeDelta_of_mem m a hnodup hhop, hopDelta]
    · intro id
      rw [happ.effect.children, or_iff_left]
      simp [Entry.opens, hbody]
  · rw [h.others node hmem]
    cases hl : before.get node with
    | none => exact Or.inl ⟨rfl, rfl⟩
    | some l =>
        refine Or.inr ⟨l, l, rfl, rfl, rfl, ?_, fun _ => Iff.rfl⟩
        intro a
        rw [cascadeDelta_of_not_mem m a hmem, add_zero]

theorem Executed.settled {order : PaymentOrder} {hops : List ExpectedHop} {m : SignedAmount}
    {before after : LedgerSet} {signed : List SignedEntry}
    (h : Executed order hops m before after signed) (hmoves : Moves t order hops m)
    (hm : checkedI64 order.amount = .ok m) : Settled t order hops before after := by
  obtain ⟨hpos, hneg⟩ := checkedI64_eq_ok hm
  have hledger := h.ledger hmoves.nodup
  have hsigner : ∀ node ∈ hops.map (·.signer), ∃ l, before.get node = some l := by
    intro node hmem
    obtain ⟨hop, hhop, rfl⟩ := List.mem_map.mp hmem
    obtain ⟨_, -, l, -, hl, -⟩ := exists_of_forall₂_left h.appended hhop
    exact ⟨l, hl⟩
  have hbalance : ∀ node ∈ hops.map (·.signer), ∃ l l', before.get node = some l
      ∧ after.get node = some l'
      ∧ ∀ a, l'.balances.balance a = l.balances.balance a + cascadeDelta hops m node a := by
    intro node hmem
    obtain ⟨l, hl⟩ := hsigner node hmem
    rcases hledger node with ⟨hnone, -⟩ | ⟨l, l', hl, hl', -, hdelta, -⟩
    · rw [hnone] at hl
      cases hl
    · exact ⟨l, l', hl, hl', hdelta⟩
  refine ⟨?_, ?_, ?_, ?_, hmoves.nodup, ?_, ?_, ?_, h.others⟩
  · obtain ⟨leaf, hmem, hheld, hdelta⟩ := hmoves.payer
    obtain ⟨l, l', hl, hl', hb⟩ := hbalance leaf hmem
    refine ⟨leaf, l, l', hheld, hl, hl', ?_⟩
    rw [hb, hdelta, hneg, sub_eq_add_neg]
  · obtain ⟨leaf, hmem, hheld, hdelta⟩ := hmoves.payee
    obtain ⟨l, l', hl, hl', hb⟩ := hbalance leaf hmem
    refine ⟨leaf, l, l', hheld, hl, hl', ?_⟩
    rw [hb, hdelta, hpos]
  · intro node l' hl'
    rcases hledger node with ⟨-, hnone⟩ | ⟨l, l'', hl, hl'', hequity, -⟩
    · rw [hnone] at hl'
      cases hl'
    · rw [hl'', Option.some.injEq] at hl'
      subst hl'
      exact ⟨l, hl, hequity⟩
  · intro child record parent hnode hparent hfrom hto
    have hedge := hmoves.edge child record parent hnode hparent hfrom hto
    unfold mirrorDifference
    rcases hledger parent with ⟨hp, hp'⟩ | ⟨lp, lp', hp, hp', -, hup, -⟩
    · rw [hp, hp']
      rfl
    · rcases hledger child with ⟨hc, hc'⟩ | ⟨lc, lc', hc, hc', -, hdown, -⟩
      · rw [hp, hp', hc, hc']
        rfl
      · rw [hp, hp', hc, hc']
        simp only [Option.bind_eq_bind, Option.bind_some, Option.pure_def, Option.some.injEq]
        rw [hup, hdown, hedge]
        ring
  · intro hop hhop
    obtain ⟨s, -, l, l', hl, hl', happ, -⟩ := exists_of_forall₂_left h.appended hhop
    exact ⟨l, l', s, hl, hl', happ.entries⟩
  · intro hop hhop l l' hl hl' a hfirst hsecond
    obtain ⟨k, k', hk, hk', hb⟩ := hbalance hop.signer (List.mem_map_of_mem hhop)
    rw [hk, Option.some.injEq] at hl
    rw [hk', Option.some.injEq] at hl'
    subst hl hl'
    rw [hb, cascadeDelta_of_mem m a hmoves.nodup hhop, hopDelta_eq_zero m hfirst hsecond, add_zero]
  · intro node l l' hl hl'
    rcases hledger node with ⟨hnone, -⟩ | ⟨k, k', hk, hk', -, -, hchildren⟩
    · rw [hnone] at hl
      cases hl
    · rw [hk, Option.some.injEq] at hl
      rw [hk', Option.some.injEq] at hl'
      subst hl hl'
      exact hchildren

/-- Executing a plan settles its order between the two users, or changes nothing. -/
theorem executePlan_conserves {order : PaymentOrder} {auth : AuthRef} {ledgers after : LedgerSet}
    {issuedAt now : UInt64} {plan : SettlementPlan} {keys : ExtTreeMap NodeId LedgerSecretKey}
    {registry : PeerRegistry} {result : Except LedgerError (List SignedEntry)}
    (hvalid : t.validate = .ok ()) (hne : order.from_ ≠ order.to_)
    (hplan : planTransfer t order auth ledgers issuedAt = .ok plan)
    (hexec : executePlan plan ledgers keys registry now = (after, result)) :
    (∀ signed, result = .ok signed →
      ∃ hops, expectedHops t order = .ok hops ∧ Settled t order hops ledgers after)
    ∧ (∀ e, result = .error e → after = ledgers) := by
  refine ⟨?_, ?_⟩
  · rintro signed rfl
    obtain ⟨-, m, hops, hm, hhops, hplanned⟩ := planTransfer_spec hplan
    have hmoves := expectedHops_moves (validate_spec hvalid) m hne hhops
    exact ⟨hops, hhops, (executePlan_spec hmoves.nodup hplanned hexec).settled hmoves hm⟩
  · rintro e rfl
    simp only [executePlan] at hexec
    split at hexec
    · exact (congrArg Prod.fst hexec).symm
    · split at hexec
      · exact (congrArg Prod.fst hexec).symm
      · cases (congrArg Prod.snd hexec)

end

section

open Concrete

def topologyRow (nodeId : NodeId) (kind : ChildKind) (link : Option (NodeId × UInt8))
    (slots : List UInt8) : NodeId × Topology.NodeRecord :=
  (nodeId,
    { nodeId, kind, parent := link.map Prod.fst, slot := link.map Prod.snd
      children := .ofList slots })

/-- The root `r` above two leaves `a` and `b`, which hold the users `u` and `v`. -/
def twoLeaves : Topology where
  root := "r"
  nodes := .ofList
    [topologyRow "r" .node none [1, 2], topologyRow "a" .node (some ("r", 1)) [3],
      topologyRow "b" .node (some ("r", 2)) [4], topologyRow "u" .user (some ("a", 3)) [],
      topologyRow "v" .user (some ("b", 4)) []]

/-- A ledger of given balances without history. -/
def freshLedger (key : ℕ) (parent : Amount) (children : List (NodeId × Amount)) : Ledger where
  ledgerId := key
  ledgerPubkey := key
  balances := { parent, children := .ofList children }
  log := .new
  height := 0

def twoLeavesLedgers : LedgerSet where
  ledgers := .ofList
    [("r", freshLedger 10 0 [("a", 50), ("b", 0)]), ("a", freshLedger 11 50 [("u", 50)]),
      ("b", freshLedger 12 0 [("v", 0)])]

def twoLeavesKeys : ExtTreeMap NodeId LedgerSecretKey :=
  .ofList [("r", (10 : ℕ)), ("a", (11 : ℕ)), ("b", (12 : ℕ))]

def registryRow (nodeId : NodeId) (operator : ℕ) (ledger : Option ℕ) : NodeId × PeerKeys :=
  (nodeId, { nodeId, operator, ledger, role := if ledger.isSome then .node else .user })

def twoLeavesRegistry : PeerRegistry where
  peers := .ofList
    [registryRow "r" 20 (some 10), registryRow "a" 21 (some 11), registryRow "b" 22 (some 12),
      registryRow "u" 23 none,
      registryRow "v" 24 none]

def crossOrder : PaymentOrder where
  from_ := "u"
  to_ := "v"
  amount := 30
  nonce := 1
  expiry := 100

@[inline]
def settleCrossOrder : Except LedgerError (SettlementPlan × LedgerSet × List SignedEntry) := do
  let plan ← planTransfer twoLeaves crossOrder (crossOrder.authorize (23 : ℕ)) twoLeavesLedgers 1
  match executePlan plan twoLeavesLedgers twoLeavesKeys twoLeavesRegistry 1 with
  | (_, .error e) => .error e
  | (after, .ok signed) => .ok (plan, after, signed)

theorem settleCrossOrder_isOk : settleCrossOrder.toBool = true := by decide +kernel

theorem settleCrossOrder_eq_ok {plan : SettlementPlan} {after : LedgerSet}
    {signed : List SignedEntry} (h : settleCrossOrder = .ok (plan, after, signed)) :
    planTransfer twoLeaves crossOrder (crossOrder.authorize (23 : ℕ)) twoLeavesLedgers 1 = .ok plan
      ∧ executePlan plan twoLeavesLedgers twoLeavesKeys twoLeavesRegistry 1
          = (after, .ok signed) := by
  simp only [settleCrossOrder, bind_eq_ok] at h
  obtain ⟨plan', hplan, h⟩ := h
  split at h
  · cases h
  · rename_i after' signed' hexec
    simp only [Except.ok.injEq, Prod.mk.injEq] at h
    obtain ⟨rfl, rfl, rfl⟩ := h
    exact ⟨hplan, hexec⟩

theorem twoLeaves_valid : twoLeaves.validate = .ok () := by decide +kernel

/-- A payment of 30 between two leaves settles. -/
theorem executePlan_conserves_twoLeaves :
    ∃ plan after signed hops, settleCrossOrder = .ok (plan, after, signed)
      ∧ expectedHops twoLeaves crossOrder = .ok hops
      ∧ Settled twoLeaves crossOrder hops twoLeavesLedgers after := by
  obtain ⟨⟨plan, after, signed⟩, h⟩ := exists_ok_of_toBool settleCrossOrder_isOk
  obtain ⟨hplan, hexec⟩ := settleCrossOrder_eq_ok h
  obtain ⟨hops, hhops, hsettled⟩ :=
    (executePlan_conserves twoLeaves_valid (by decide) hplan hexec).1 signed rfl
  exact ⟨plan, after, signed, hops, h, hhops, hsettled⟩

end

end Cawala
