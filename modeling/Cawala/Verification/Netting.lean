import Cawala.Model.Netting
import Cawala.Verification.Auth
import Cawala.Verification.Settlement

/-! # The route audit is exact

`net` objects to an order unless the transfers its authorisation backs are the hops of the
route, one for one; and it objects to no order that was executed once. -/

namespace Cawala

open Std (ExtTreeMap)
open Library

section

variable [Crypto]

/-! ## The accounts of a canonical transfer -/

/-- The signs a role gives its first and its second account. -/
def HopRole.signs : HopRole → ℤ × ℤ
  | .ascend => (-1, -1)
  | .descend => (1, 1)
  | .lca | .direct => (-1, 1)

/-- What a transfer of `amount` in a role moves on an account. -/
def roleMove (role : HopRole) (first second : AccountRef) (amount : ℤ) (a : AccountRef) : ℤ :=
  (if first = a then role.signs.1 * amount else 0)
    + (if second = a then role.signs.2 * amount else 0)

def HopRole.names (role : HopRole) (first second : AccountRef) : Prop :=
  match role with
  | .ascend | .descend => first = .parent ∧ ∃ id, second = .child id
  | .lca | .direct => (∃ id, first = .child id) ∧ ∃ id, second = .child id

omit [Crypto] in
theorem hopDelta_eq_roleMove {m : SignedAmount} (h : (-m).toInt = -m.toInt) (hop : ExpectedHop)
    (a : AccountRef) : hopDelta hop m a = roleMove hop.role hop.first hop.second m.toInt a := by
  unfold hopDelta hopPostings roleMove
  cases hop.role <;> simp [postedDelta_pair, HopRole.signs, h]

omit [Crypto] in
theorem roleMove_injective {role : HopRole} {first second first' second' : AccountRef} {amount : ℤ}
    (hpos : 0 < amount) (hnames : role.names first second) (hne : first ≠ second)
    (hnames' : role.names first' second')
    (h : ∀ a, roleMove role first second amount a = roleMove role first' second' amount a) :
    first' = first ∧ second' = second := by
  have hfirst := h first
  have hsecond := h second
  simp only [roleMove, ↓reduceIte, if_neg hne, if_neg hne.symm] at hfirst hsecond
  cases role with
  | ascend =>
      obtain ⟨rfl, id, rfl⟩ := hnames
      obtain ⟨rfl, id', rfl⟩ := hnames'
      simp only [HopRole.signs] at hsecond
      refine ⟨rfl, ?_⟩
      by_contra hno
      simp [hno] at hsecond
      omega
  | descend =>
      obtain ⟨rfl, id, rfl⟩ := hnames
      obtain ⟨rfl, id', rfl⟩ := hnames'
      simp only [HopRole.signs] at hsecond
      refine ⟨rfl, ?_⟩
      by_contra hno
      simp [hno] at hsecond
      omega
  | lca =>
      simp only [HopRole.signs] at hfirst hsecond
      constructor
      · by_contra hno
        simp only [hno, ↓reduceIte] at hfirst
        split_ifs at hfirst <;> omega
      · by_contra hno
        simp only [hno, ↓reduceIte] at hsecond
        split_ifs at hsecond <;> omega
  | direct =>
      simp only [HopRole.signs] at hfirst hsecond
      constructor
      · by_contra hno
        simp only [hno, ↓reduceIte] at hfirst
        split_ifs at hfirst <;> omega
      · by_contra hno
        simp only [hno, ↓reduceIte] at hsecond
        split_ifs at hsecond <;> omega

omit [Crypto] in
/-- A canonical transfer moves exactly the two accounts of its role. -/
theorem canonicalTransfer_spec {deltas : Deltas} {amount : ℤ} {role : HopRole} (hpos : 0 < amount)
    (h : Entry.canonicalTransfer deltas amount role = true) :
    ∃ first second, role.names first second ∧ first ≠ second
      ∧ deltas.toList.Perm [(first, role.signs.1 * amount), (second, role.signs.2 * amount)] := by
  have hsize : deltas.size = 2 := by
    cases role <;> simp only [Entry.canonicalTransfer, Bool.and_eq_true, beq_iff_eq] at h <;>
      simp [h]
  have hlen : deltas.toList.length = 2 := by rw [ExtTreeMap.length_toList, hsize]
  obtain ⟨e, e', hlist⟩ := List.length_eq_two.mp hlen
  have hkeys : e.1 ≠ e'.1 := by
    have hnodup : (deltas.toList.map Prod.fst).Nodup := by
      rw [ExtTreeMap.map_fst_toList_eq_keys]
      exact ExtTreeMap.nodup_keys
    simpa [hlist] using hnodup
  -- A parent delta that is not zero is one of the two entries.
  have hparent : ∀ {v : ℤ}, v ≠ 0 → deltas.getD .parent 0 = v →
      e = (.parent, v) ∨ e' = (.parent, v) := by
    intro v hv hget
    have hin : deltas[AccountRef.parent]? = some v := by
      rw [ExtTreeMap.getD_eq_getD_getElem?] at hget
      cases hp : deltas[AccountRef.parent]? with
      | none =>
          rw [hp] at hget
          exact absurd hget.symm hv
      | some w =>
          rw [hp] at hget
          exact congrArg some hget
    have hmem := ExtTreeMap.mem_toList_iff_getElem?_eq_some.mpr hin
    rw [hlist] at hmem
    simpa [eq_comm] using hmem
  obtain ⟨account, delta⟩ := e
  obtain ⟨account', delta'⟩ := e'
  rw [hlist]
  have hedge : ∀ {v : ℤ}, v ≠ 0 → deltas.getD .parent 0 = v →
      (Entry.childDeltas deltas).length = 1 →
      (Entry.childDeltas deltas)[0]? = some v → ∃ id,
        [(account, delta), (account', delta')].Perm [(.parent, v), (.child id, v)] := by
    intro v hv hget hone hchild
    simp only [Entry.childDeltas, hlist] at hone hchild
    rcases hparent hv hget with heq | heq
    · simp only [Prod.mk.injEq] at heq
      obtain ⟨rfl, rfl⟩ := heq
      cases account' with
      | parent => exact absurd rfl hkeys
      | child id =>
          simp at hchild
          exact ⟨id, by rw [hchild]⟩
    · simp only [Prod.mk.injEq] at heq
      obtain ⟨rfl, rfl⟩ := heq
      cases account with
      | parent => exact absurd rfl hkeys
      | child id =>
          simp at hchild
          exact ⟨id, by rw [hchild]; exact List.Perm.swap _ _ _⟩
  have hmove : Entry.canonicalTransfer deltas amount .lca = true → ∃ id id', id ≠ id'
      ∧ [(account, delta), (account', delta')].Perm
        [(.child id, -amount), (.child id', amount)] := by
    intro h
    simp only [Entry.canonicalTransfer, Entry.childDeltas, hlist, Bool.and_eq_true, beq_iff_eq,
      ← ExtTreeMap.map_fst_toList_eq_keys, List.map_cons, List.map_nil, List.all_cons,
      List.all_nil, Bool.and_true] at h
    obtain ⟨⟨⟨⟨-, -⟩, hchild, hchild'⟩, hplus⟩, hminus⟩ := h
    cases account with
    | parent => cases hchild
    | child id =>
        cases account' with
        | parent => cases hchild'
        | child id' =>
            have hids : id ≠ id' := by simpa using hkeys
            have hdeltas : (delta = amount ∧ delta' = -amount)
                ∨ (delta = -amount ∧ delta' = amount) := by
              simp only [List.filterMap_cons, List.filterMap_nil, List.filter_cons,
                List.filter_nil, beq_iff_eq] at hplus hminus
              split_ifs at hplus hminus <;> simp_all <;> omega
            rcases hdeltas with ⟨rfl, rfl⟩ | ⟨rfl, rfl⟩
            · exact ⟨id', id, hids.symm, List.Perm.swap _ _ _⟩
            · exact ⟨id, id', hids, .refl _⟩
  cases role with
  | ascend =>
      simp only [Entry.canonicalTransfer, Bool.and_eq_true, beq_iff_eq] at h
      obtain ⟨id, hperm⟩ := hedge (by omega) h.1.1.2 h.1.2 h.2
      exact ⟨.parent, .child id, ⟨rfl, id, rfl⟩, by simp, by simpa [HopRole.signs] using hperm⟩
  | descend =>
      simp only [Entry.canonicalTransfer, Bool.and_eq_true, beq_iff_eq] at h
      obtain ⟨id, hperm⟩ := hedge (by omega) h.1.1.2 h.1.2 h.2
      exact ⟨.parent, .child id, ⟨rfl, id, rfl⟩, by simp, by simpa [HopRole.signs] using hperm⟩
  | lca =>
      obtain ⟨id, id', hids, hperm⟩ := hmove h
      exact ⟨.child id, .child id', ⟨⟨id, rfl⟩, id', rfl⟩, by simpa using hids,
        by simpa [HopRole.signs] using hperm⟩
  | direct =>
      obtain ⟨id, id', hids, hperm⟩ := hmove h
      exact ⟨.child id, .child id', ⟨⟨id, rfl⟩, id', rfl⟩, by simpa using hids,
        by simpa [HopRole.signs] using hperm⟩

/-- The audit reads the two accounts off the postings of a conserved transfer. -/
theorem entryHopAccounts_spec {e : Entry} {paymentId : Hash} {amount : Amount} {role : HopRole}
    (hcons : e.checkConservation = .ok ()) (hbody : e.body = .transfer paymentId amount role) :
    ∃ first second, entryHopAccounts e role = .ok (first, second) ∧ role.names first second
      ∧ first ≠ second ∧ 0 < (amount.toNat : ℤ)
      ∧ ∀ a, postedDelta e.postings a = roleMove role first second amount.toNat a := by
  obtain ⟨deltas, hagg, -, hshape⟩ := checkConservation_spec hcons
  simp only [Entry.validateShape, hbody, ite_error_eq_ok, ite_ok_eq_ok] at hshape
  obtain ⟨hzero, hcanonical, -⟩ := hshape
  have hpos : 0 < (amount.toNat : ℤ) := by
    have : amount.toNat ≠ 0 := fun h => hzero (UInt64.toNat_inj.mp h)
    omega
  obtain ⟨first, second, hnames, hne, hperm⟩ := canonicalTransfer_spec hpos hcanonical
  refine ⟨first, second, ?_, hnames, hne, hpos, ?_⟩
  · have hlist := List.perm_pair.mp hperm
    have hedge : ∀ id : NodeId, first = .parent → second = .child id →
        .parent ∈ deltas ∧ soleChild deltas = .ok (some id) := by
      rintro id rfl rfl
      refine ⟨?_, ?_⟩
      · rw [← ExtTreeMap.mem_keys, ← ExtTreeMap.map_fst_toList_eq_keys]
        exact List.mem_map_of_mem (hperm.mem_iff.mpr List.mem_cons_self)
      · rw [soleChild, ← ExtTreeMap.map_fst_toList_eq_keys]
        rcases hlist with h | h <;> rw [h] <;> rfl
    have hnat : 0 < amount.toNat := by omega
    have hmove : ∀ id id' : NodeId, role.signs = (-1, 1) → first = .child id → second = .child id' →
        movedChildren deltas = .ok (some id, some id') := by
      rintro id id' hsigns rfl rfl
      rw [movedChildren]
      rcases hlist with h | h <;> rw [h, hsigns] <;> simp [List.foldlM, hnat]
    cases role with
    | ascend =>
        obtain ⟨hfirst, id, hsecond⟩ := hnames
        obtain ⟨hcontains, hsole⟩ := hedge id hfirst hsecond
        simp [entryHopAccounts, hagg, hcontains, hsole, hfirst, hsecond]
    | descend =>
        obtain ⟨hfirst, id, hsecond⟩ := hnames
        obtain ⟨hcontains, hsole⟩ := hedge id hfirst hsecond
        simp [entryHopAccounts, hagg, hcontains, hsole, hfirst, hsecond]
    | lca =>
        obtain ⟨⟨id, hfirst⟩, id', hsecond⟩ := hnames
        simp [entryHopAccounts, hagg, hmove id id' rfl hfirst hsecond, hfirst, hsecond]
    | direct =>
        obtain ⟨⟨id, hfirst⟩, id', hsecond⟩ := hnames
        simp [entryHopAccounts, hagg, hmove id id' rfl hfirst hsecond, hfirst, hsecond]
  · intro a
    rw [← deltaAt_toList hagg, deltaAt, ((hperm.filter _).map _).sum_eq]
    by_cases hf : first = a
    · subst hf
      simp [roleMove, hne.symm]
    · by_cases hs : second = a
      · subst hs
        simp [roleMove, hf]
      · simp [roleMove, hf, hs]

/-- In terms of what it moves, a transfer names the accounts of an expected hop. -/
theorem entryHopAccounts_eq_ok_iff {e : Entry} {paymentId : Hash} {amount : Amount} {role : HopRole}
    (hcons : e.checkConservation = .ok ()) (hbody : e.body = .transfer paymentId amount role)
    {first second : AccountRef} (hnames : role.names first second) :
    entryHopAccounts e role = .ok (first, second) ↔
      ∀ a, postedDelta e.postings a = roleMove role first second amount.toNat a := by
  obtain ⟨first', second', hok, hnames', hne, hpos, hmoves⟩ := entryHopAccounts_spec hcons hbody
  constructor
  · intro h
    rw [hok, Except.ok.injEq, Prod.mk.injEq] at h
    obtain ⟨rfl, rfl⟩ := h
    exact hmoves
  · intro h
    obtain ⟨rfl, rfl⟩ := roleMove_injective hpos hnames' hne hnames
      (fun a => (hmoves a).symm.trans (h a))
    exact hok

theorem verifyDirectEndpoints_of_accounts {e : Entry} {order : PaymentOrder}
    (h : entryHopAccounts e .direct = .ok (.child order.from_, .child order.to_)) :
    verifyDirectEndpoints e.postings order = .ok () := by
  simp only [entryHopAccounts, bind_eq_ok] at h
  obtain ⟨deltas, hagg, moved, hmoved, h⟩ := h
  -- The stricter fold of the audit only refuses more.
  have hdebited : debitedCredited deltas = .ok moved := by
    refine foldlM_mono ?_ hmoved
    rintro ⟨first, second⟩ ⟨account, delta⟩ r hstep
    cases account with
    | parent => cases hstep
    | child id =>
        simp only at hstep ⊢
        split_ifs at hstep ⊢ <;> exact hstep
  split at h
  · rename_i first second
    simp only [Except.ok.injEq, Prod.mk.injEq, AccountRef.child.injEq] at h
    obtain ⟨rfl, rfl⟩ := h
    simp [verifyDirectEndpoints, hagg, hdebited]
  · cases h

/-! ## The hops of a route -/

/-- An expected hop names the accounts of its role, a direct one those of the two users. -/
structure HopShape (order : PaymentOrder) (hop : ExpectedHop) : Prop where
  names : hop.role.names hop.first hop.second
  direct : hop.role = .direct → hop.first = .child order.from_ ∧ hop.second = .child order.to_

theorem expectedHops_shape {t : Topology} (hvalid : t.Valid) {order : PaymentOrder}
    {hops : List ExpectedHop} (h : expectedHops t order = .ok hops) :
    (hops.map (·.signer)).Nodup ∧ ∀ hop ∈ hops, HopShape order hop := by
  rcases expectedHops_spec hvalid h with ⟨leaf, -, -, rfl⟩ | ⟨_, _, _, _, _, _, -, hroute⟩
  · refine ⟨by simp, ?_⟩
    intro hop hhop
    obtain rfl := List.mem_singleton.mp hhop
    exact ⟨⟨⟨_, rfl⟩, _, rfl⟩, fun _ => ⟨rfl, rfl⟩⟩
  · refine ⟨nodup_signers hroute, ?_⟩
    intro hop hhop
    obtain ⟨d, -, hat⟩ := exists_of_forall₂_left hroute hhop
    cases hat with
    | ascend => exact ⟨⟨rfl, _, rfl⟩, by simp⟩
    | lca => exact ⟨⟨⟨_, rfl⟩, _, rfl⟩, by simp⟩
    | descend => exact ⟨⟨rfl, _, rfl⟩, by simp⟩

theorem expectedHops_getLast? {t : Topology} {order : PaymentOrder} {hops : List ExpectedHop}
    (h : expectedHops t order = .ok hops) :
    ∃ terminal, hops.getLast? = some terminal ∧ terminal.second = .child order.to_ := by
  simp only [expectedHops, bind_eq_ok] at h
  obtain ⟨fromLeaf, -, toLeaf, -, h⟩ := h
  split at h
  · rw [Except.ok.injEq] at h
    subst h
    exact ⟨_, rfl, rfl⟩
  · simp only [bind_eq_ok, Except.ok.injEq] at h
    obtain ⟨_, -, _, -, lca, -, ups, -, downs, -, rfl⟩ := h
    cases downs with
    | nil =>
        refine ⟨_, by rw [List.reverse_nil, descendHops, List.append_nil, List.getLast?_concat], ?_⟩
        rfl
    | cons node rest =>
        refine ⟨⟨node, .descend, .parent, .child order.to_⟩, ?_, rfl⟩
        rw [List.reverse_cons, descendHops_snoc, ← List.append_assoc, List.getLast?_concat]

/-! ## The entries of an order -/

variable [Postcard]

/-- The entry is the expected hop of the order: signed by the ledger key registered for the
expected signer, in the expected role, moving the order's amount between the expected
accounts, and authorised by the payer. -/
structure HopEntry (registry : PeerRegistry) (order : PaymentOrder) (hop : ExpectedHop)
    (s : SignedEntry) : Prop where
  signer : registry.ledgerOf hop.signer = some s.entry.ledgerId
  authentic : s.Authentic
  body : s.entry.body = .transfer order.hash order.amount hop.role
  moves : ∀ a, postedDelta s.entry.postings a
    = roleMove hop.role hop.first hop.second order.amount.toNat a
  payer : PayerSigned registry order s

/-- The entries are the hops of the order's route, one for one. -/
def Cascaded (t : Topology) (registry : PeerRegistry) (order : PaymentOrder)
    (entries : List SignedEntry) : Prop :=
  ∃ hops matched, expectedHops t order = .ok hops
    ∧ List.Forall₂ (HopEntry registry order) hops matched ∧ matched.Perm entries

/-- The entry verifies as a hop of the order signed by a node. -/
structure SignedFor (registry : PeerRegistry) (order : PaymentOrder) (id : NodeId)
    (s : SignedEntry) : Prop where
  signer : registry.ledgerOf id = some s.entry.ledgerId
  authentic : s.Authentic
  transfer : verifyTransfer s order registry order.expiry = .ok ()

variable {registry : PeerRegistry} {order : PaymentOrder}

theorem matchSigner_eq_ok (hr : registry.Registered) {m m' : ExtTreeMap NodeId SignedEntry}
    {s : SignedEntry} :
    matchSigner order registry m s = .ok m'
      ↔ ∃ id, SignedFor registry order id s ∧ id ∉ m ∧ m' = m.insert id s := by
  simp only [matchSigner, bind_eq_ok]
  constructor
  · rintro ⟨peer, hpeer, _, htransfer, h⟩
    simp only [ite_error_eq_ok, pure_eq_ok] at h
    obtain ⟨hfresh, rfl⟩ := h
    obtain ⟨hledger, hauth⟩ := (PeerRegistry.exists_verifyEntry_iff hr).mp ⟨peer, hpeer, rfl⟩
    exact ⟨peer.nodeId, ⟨hledger, hauth, htransfer⟩, by simpa using hfresh, rfl⟩
  · rintro ⟨id, ⟨hledger, hauth, htransfer⟩, hfresh, rfl⟩
    obtain ⟨peer, hpeer, rfl⟩ := (PeerRegistry.exists_verifyEntry_iff hr).mpr ⟨hledger, hauth⟩
    exact ⟨peer, hpeer, _, htransfer, by simp [hfresh]⟩

/-- Keying entries by signer succeeds when each verifies and no two share a signer. -/
theorem foldlM_matchSigner (hr : registry.Registered) {pairs : List (NodeId × SignedEntry)}
    (hsigned : ∀ e ∈ pairs, SignedFor registry order e.1 e.2)
    (hnodup : (pairs.map Prod.fst).Nodup) {m : ExtTreeMap NodeId SignedEntry}
    (hfresh : ∀ e ∈ pairs, e.1 ∉ m) :
    ∃ m', (pairs.map Prod.snd).foldlM (matchSigner order registry) m = .ok m'
      ∧ m'.toList.Perm (pairs ++ m.toList) := by
  induction pairs generalizing m with
  | nil => exact ⟨m, rfl, .refl _⟩
  | cons e pairs ih =>
      rw [List.map_cons, List.nodup_cons] at hnodup
      have hnot := hfresh e List.mem_cons_self
      obtain ⟨m', hm', hperm⟩ := ih (fun e' he' => hsigned e' (List.mem_cons_of_mem _ he'))
        hnodup.2 (m := m.insert e.1 e.2) (by
          intro e' he'
          have hdiff : e.1 ≠ e'.1 := fun heq => hnodup.1 (heq ▸ List.mem_map_of_mem he')
          simp [hdiff, hfresh e' (List.mem_cons_of_mem _ he')])
      refine ⟨m', ?_, ?_⟩
      · exact foldlM_cons_eq_ok.mpr ⟨_, (matchSigner_eq_ok hr).mpr
          ⟨e.1, hsigned e List.mem_cons_self, hnot, rfl⟩, hm'⟩
      · refine hperm.trans (((toList_insert_of_notMem hnot e.2).append_left pairs).trans ?_)
        exact List.perm_middle

theorem foldlM_matchSigner_spec (hr : registry.Registered) {entries : List SignedEntry}
    {m : ExtTreeMap NodeId SignedEntry}
    (h : entries.foldlM (matchSigner order registry) ∅ = .ok m) :
    ∃ pairs, pairs.map Prod.snd = entries ∧ m.toList.Perm pairs
      ∧ ∀ e ∈ pairs, SignedFor registry order e.1 e.2 := by
  have hinv := foldlM_induction (σ := ExtTreeMap NodeId SignedEntry)
    (P := fun done m => ∃ pairs : List (NodeId × SignedEntry), pairs.map Prod.snd = done
      ∧ m.toList.Perm pairs ∧ ∀ e ∈ pairs, SignedFor registry order e.1 e.2)
    (d := []) (s := ∅) (fun done s m m' hm hstep => ?_) ⟨[], rfl, by simp, by simp⟩ h
  · simpa using hinv
  · obtain ⟨pairs, rfl, hperm, hsigned⟩ := hm
    obtain ⟨id, hs, hfresh, rfl⟩ := (matchSigner_eq_ok hr).mp hstep
    refine ⟨pairs ++ [(id, s)], by simp, ?_, ?_⟩
    · exact (toList_insert_of_notMem hfresh s).trans
        ((hperm.cons _).trans (List.perm_append_singleton _ _).symm)
    · intro e he
      rcases List.mem_append.mp he with he | he
      · exact hsigned e he
      · rw [List.mem_singleton.mp he]
        exact hs

/-! ## The cascade of an order -/

variable {t : Topology} {ledgers : LedgerSet}

theorem cascaded_of_verifyCascade (hvalid : t.Valid) (hr : registry.Registered)
    {out : List PlannedHop} (h : verifyCascade t order ledgers registry = .ok out) :
    Cascaded t registry order (collectAuthorizedTransfers ledgers order) := by
  simp only [verifyCascade, bind_eq_ok, ite_error_eq_ok, not_not, mapM_eq_ok_iff_forall₂] at h
  obtain ⟨hops, hhops, m, hm, hsize, out, hout, -⟩ := h
  obtain ⟨hnodup, hshape⟩ := expectedHops_shape hvalid hhops
  obtain ⟨pairs, hpairs, hperm, hsigned⟩ := foldlM_matchSigner_spec hr hm
  have hentry : ∀ hop ∈ hops, ∃ s, m[hop.signer]? = some s ∧ HopEntry registry order hop s := by
    intro hop hhop
    obtain ⟨planned, -, hmatch⟩ := exists_of_forall₂_left hout hhop
    unfold matchHop at hmatch
    split at hmatch
    · cases hmatch
    · rename_i s hs
      have hmem := hperm.mem_iff.mp (ExtTreeMap.mem_toList_iff_getElem?_eq_some.mpr hs)
      have hfor : SignedFor registry order hop.signer s := hsigned _ hmem
      obtain ⟨hsigner, hauth, htransfer⟩ := hfor
      obtain ⟨hcons, -, hpayer, -, role, hbody, -⟩ := verifyTransfer_eq_ok.mp htransfer
      simp only [hbody, ite_error_eq_ok, ne_eq, not_or, not_not, bind_eq_ok] at hmatch
      obtain ⟨⟨rfl, -⟩, ⟨first, second⟩, haccounts, ⟨rfl, rfl⟩, -⟩ := hmatch
      exact ⟨s, hs, hsigner, hauth, hbody, (entryHopAccounts_eq_ok_iff hcons hbody
        (hshape hop hhop).names).mp haccounts, hpayer⟩
  obtain ⟨matched, hmatched⟩ := exists_forall₂ hentry
  refine ⟨hops, matched, hhops, hmatched.imp fun _ _ h => h.2, ?_⟩
  rw [← hpairs]
  refine List.Perm.trans ?_ (hperm.map Prod.snd)
  have hlookups : List.Forall₂ (fun id s => m[id]? = some s) (hops.map (·.signer)) matched := by
    rw [List.forall₂_map_left_iff]
    exact hmatched.imp fun _ _ h => h.1
  exact perm_values_of_lookups hlookups hnodup (by simpa using hsize)

theorem SignedFor.of_hopEntry (hr : registry.Registered) {hop : ExpectedHop} {s : SignedEntry}
    (hshape : HopShape order hop) (hcons : s.entry.checkConservation = .ok ())
    (h : HopEntry registry order hop s) : SignedFor registry order hop.signer s := by
  refine ⟨h.signer, h.authentic, verifyTransfer_eq_ok.mpr ⟨hcons, ?_, h.payer, ?_, _, h.body, ?_⟩⟩
  · obtain ⟨peer, hpeer, -⟩ := (PeerRegistry.exists_verifyEntry_iff hr).mpr ⟨h.signer, h.authentic⟩
    exact ⟨peer, hpeer⟩
  · exact UInt64.lt_irrefl _
  · intro hdirect
    obtain ⟨hfirst, hsecond⟩ := hshape.direct hdirect
    have haccounts := (entryHopAccounts_eq_ok_iff hcons h.body hshape.names).mpr h.moves
    rw [hdirect, hfirst, hsecond] at haccounts
    exact verifyDirectEndpoints_of_accounts haccounts

/-- The hops of a route are signed by different ledgers. -/
theorem Cascaded.nodup_ledgers (hvalid : t.Valid) (hr : registry.Registered)
    {entries : List SignedEntry} (h : Cascaded t registry order entries) :
    (entries.map (·.entry.ledgerId)).Nodup := by
  obtain ⟨hops, matched, hhops, hmatched, hperm⟩ := h
  have hnodup := (expectedHops_shape hvalid hhops).1
  rw [← (hperm.map (·.entry.ledgerId)).nodup_iff]
  clear hperm hhops
  induction hmatched with
  | nil => simp
  | @cons hop s hops matched hentry hrest ih =>
      rw [List.map_cons, List.nodup_cons] at hnodup ⊢
      refine ⟨?_, ih hnodup.2⟩
      intro hmem
      obtain ⟨s', hs', heq⟩ := List.mem_map.mp hmem
      obtain ⟨hop', hhop', hentry'⟩ := exists_of_forall₂_right hrest hs'
      have hsame := PeerRegistry.ledgerOf_injective hr hentry.signer (heq ▸ hentry'.signer)
      exact hnodup.1 (hsame ▸ List.mem_map_of_mem hhop')

theorem verifyCascade_of_cascaded (hvalid : t.Valid) (hr : registry.Registered)
    (hcons : ∀ s ∈ collectAuthorizedTransfers ledgers order,
      s.entry.checkConservation = .ok ())
    (h : Cascaded t registry order (collectAuthorizedTransfers ledgers order)) :
    ∃ out, verifyCascade t order ledgers registry = .ok out := by
  have hledgers := h.nodup_ledgers hvalid hr
  obtain ⟨hops, matched, hhops, hmatched, hperm⟩ := h
  obtain ⟨hnodup, hshape⟩ := expectedHops_shape hvalid hhops
  unfold verifyCascade
  generalize collectAuthorizedTransfers ledgers order = actual at *
  have hfor : ∀ s ∈ actual, ∃ id, SignedFor registry order id s := by
    intro s hs
    obtain ⟨hop, hhop, hentry⟩ := exists_of_forall₂_right hmatched (hperm.mem_iff.mpr hs)
    exact ⟨hop.signer, .of_hopEntry hr (hshape hop hhop) (hcons s hs) hentry⟩
  obtain ⟨ids, hids⟩ := exists_forall₂ hfor
  have hfst : (ids.zip actual).map Prod.fst = ids := List.map_fst_zip hids.length_eq.ge
  have hsnd : (ids.zip actual).map Prod.snd = actual := List.map_snd_zip hids.length_eq.le
  have hsigned : ∀ e ∈ ids.zip actual, SignedFor registry order e.1 e.2 := by
    rintro ⟨id, s⟩ he
    exact List.forall₂_zip hids.flip he
  have hkeys : ids.Nodup := by
    have hlookup : ids.map registry.ledgerOf = actual.map fun s => some s.entry.ledgerId :=
      map_eq_of_forall₂ (hids.flip.imp fun _ _ h => h.signer)
    refine List.Nodup.of_map registry.ledgerOf ?_
    rw [hlookup]
    simpa [List.map_map, Function.comp_def] using hledgers.map (Option.some_injective _)
  obtain ⟨m, hm, hmperm⟩ := foldlM_matchSigner hr (m := ∅) hsigned (hfst.symm ▸ hkeys) (by simp)
  rw [hsnd] at hm
  have hsize : m.size = hops.length := by
    rw [← ExtTreeMap.length_toList, hmperm.length_eq, hmatched.length_eq, hperm.length_eq]
    simp [hids.length_eq]
  have hget : ∀ {hop s}, HopEntry registry order hop s → s ∈ matched → m[hop.signer]? = some s := by
    intro hop s hentry hs
    have hin : s ∈ (ids.zip actual).map Prod.snd := hsnd.symm ▸ hperm.mem_iff.mp hs
    obtain ⟨⟨id, s⟩, he, rfl⟩ := List.mem_map.mp hin
    obtain rfl := PeerRegistry.ledgerOf_injective hr hentry.signer (hsigned _ he).signer
    apply ExtTreeMap.mem_toList_iff_getElem?_eq_some.mp
    exact hmperm.mem_iff.mpr (List.mem_append_left _ he)
  have haccounts : ∀ {hop s}, hop ∈ hops → s ∈ matched → HopEntry registry order hop s →
      entryHopAccounts s.entry hop.role = .ok (hop.first, hop.second) := by
    intro hop s hhop hs hentry
    exact (entryHopAccounts_eq_ok_iff (hcons s (hperm.mem_iff.mp hs)) hentry.body
      (hshape hop hhop).names).mpr hentry.moves
  have hmatch : ∀ hop ∈ hops, ∃ planned, matchHop order m hop = .ok planned := by
    intro hop hhop
    obtain ⟨s, hs, hentry⟩ := exists_of_forall₂_left hmatched hhop
    refine ⟨⟨hop.signer, s.entry⟩, ?_⟩
    simp [matchHop, hget hentry hs, hentry.body, haccounts hhop hs hentry]
  obtain ⟨out, hout⟩ := exists_forall₂ hmatch
  have hterminal : checkTerminal order m hops = .ok () := by
    obtain ⟨terminal, hlast, hsecond⟩ := expectedHops_getLast? hhops
    have hin := List.mem_of_getLast? hlast
    obtain ⟨s, hs, hentry⟩ := exists_of_forall₂_left hmatched hin
    simp [checkTerminal, hlast, hget hentry hs, hentry.body, haccounts hin hs hentry, hsecond]
  refine ⟨out, ?_⟩
  simp only [bind_eq_ok]
  refine ⟨hops, hhops, m, hm, ?_⟩
  rw [if_neg (by simp [hsize])]
  simp only [bind_eq_ok, mapM_eq_ok_iff_forall₂, pure_eq_ok]
  exact ⟨out, hout, _, hterminal, rfl⟩

omit [Postcard] in
theorem duplicateLedgerFrom_eq_false {seen : List LedgerId} {entries : List SignedEntry} :
    duplicateLedgerFrom seen entries = false ↔
      (entries.map (·.entry.ledgerId)).Nodup ∧ ∀ s ∈ entries, s.entry.ledgerId ∉ seen := by
  induction entries generalizing seen with
  | nil => simp [duplicateLedgerFrom]
  | cons s entries ih =>
      by_cases h : s.entry.ledgerId ∈ seen
      · simp [duplicateLedgerFrom, h]
      · rw [List.forall_mem_cons]
        simp only [duplicateLedgerFrom, h, ↓reduceIte, ih, List.map_cons, List.nodup_cons,
          List.mem_cons, not_or, List.mem_map, not_exists, not_and]
        constructor
        · rintro ⟨hnodup, hout⟩
          exact ⟨⟨fun s' hs' => (hout s' hs').1, hnodup⟩, not_false, fun s' hs' => (hout s' hs').2⟩
        · rintro ⟨⟨hdiff, hnodup⟩, -, hout⟩
          exact ⟨hnodup, fun s' hs' => ⟨hdiff s' hs', hout s' hs'⟩⟩

/-- The audit of one order is exact: it is silent when and only when the transfers that
the order's authorisation backs are the hops of its route. -/
theorem auditOneOrder_eq_nil_iff (hvalid : t.Valid) (hr : registry.Registered)
    (hcons : ∀ s ∈ collectAuthorizedTransfers ledgers order,
      s.entry.checkConservation = .ok ()) :
    auditOneOrder order t ledgers registry = []
      ↔ Cascaded t registry order (collectAuthorizedTransfers ledgers order) := by
  constructor
  · intro h
    cases hcascade : verifyCascade t order ledgers registry with
    | ok out => exact cascaded_of_verifyCascade hvalid hr hcascade
    | error e =>
        simp only [auditOneOrder, hcascade] at h
        split_ifs at h
  · intro h
    obtain ⟨out, hout⟩ := verifyCascade_of_cascaded hvalid hr hcons h
    have hdup : hasDuplicateLedger (collectAuthorizedTransfers ledgers order) = false :=
      duplicateLedgerFrom_eq_false.mpr ⟨h.nodup_ledgers hvalid hr, by simp⟩
    obtain ⟨hops, matched, hhops, hmatched, hperm⟩ := h
    have hlen : (collectAuthorizedTransfers ledgers order).length = hops.length := by
      rw [← hperm.length_eq, hmatched.length_eq]
    simp [auditOneOrder, hhops, hlen, hdup, hout, Except.toOption]

/-! ## The findings of a pass -/

def Finding.objectsTo (paymentId : Hash) : Finding → Prop
  | .replay id _ | .routeInvalid id _ => id = paymentId
  | _ => False

def Finding.objects (f : Finding) : Prop := ∃ paymentId, f.objectsTo paymentId

/-- The step of the audit that a finding comes from. -/
inductive AuditStep where
  | chains
  | mirrors
  | islands
  | routes
  | overdraws
deriving DecidableEq, Repr

def Finding.step : Finding → AuditStep
  | .fork .. | .chainInvalid .. => .chains
  | .mirrorMismatch .. => .mirrors
  | .detached .. | .staleChildLink .. => .islands
  | .routeInvalid .. | .replay .. => .routes
  | .overdraw .. => .overdraws

omit [Postcard] in
theorem not_objects_of_step {f : Finding} (h : f.step ≠ .routes) : ¬ f.objects := by
  rintro ⟨paymentId, hobj⟩
  cases f with
  | replay id reason => exact h rfl
  | routeInvalid id reason => exact h rfl
  | _ => exact hobj

omit [Postcard] in
theorem step_auditChain {node : NodeId} {chain : List SignedCommitment} {f : Finding}
    (h : f ∈ auditChain registry node chain) : f.step = .chains := by
  unfold auditChain at h
  split at h
  · cases h
  · rcases List.mem_append.mp h with h | h
    · split at h
      · cases h
      · rw [List.mem_singleton.mp h]
        rfl
    · obtain ⟨⟨height, group⟩, -, h⟩ := List.mem_flatMap.mp h
      simp only at h
      split at h
      · rw [List.mem_singleton.mp h]
        rfl
      · cases h

omit [Postcard] in
theorem step_auditMirrors {f : Finding} (h : f ∈ auditMirrors t ledgers) :
    f.step = .mirrors := by
  obtain ⟨parent, -, h⟩ := List.mem_flatMap.mp h
  split at h
  · obtain ⟨child, -, h⟩ := List.mem_flatMap.mp h
    simp only [auditEdge] at h
    split at h
    · cases h
    · split at h
      · rw [List.mem_singleton.mp h]
        rfl
      · cases h
  · cases h

omit [Postcard] in
theorem step_auditOverdraw {f : Finding} (h : f ∈ auditOverdraw ledgers) :
    f.step = .overdraws := by
  obtain ⟨node, -, h⟩ := List.mem_flatMap.mp h
  split at h
  · cases h
  · obtain ⟨⟨account, low⟩, -, h⟩ := List.mem_filterMap.mp h
    simp only at h
    split at h
    · rw [← Option.some.inj h]
      rfl
    · cases h

theorem objectsTo_auditOneOrder {f : Finding} {paymentId : Hash}
    (h : f ∈ auditOneOrder order t ledgers registry) :
    f.objectsTo paymentId ↔ order.hash = paymentId := by
  simp only [auditOneOrder] at h
  split_ifs at h
  · rw [List.mem_singleton.mp h]
    rfl
  · cases hcascade : verifyCascade t order ledgers registry with
    | ok out =>
        rw [hcascade] at h
        cases h
    | error e =>
        rw [hcascade] at h
        rw [List.mem_singleton.mp h]
        rfl

theorem step_auditRoute {components : List NetComponent} {f : Finding}
    (h : f ∈ auditRoute components ledgers registry order) : f.step = .routes := by
  simp only [auditRoute] at h
  split at h
  · rw [List.mem_singleton.mp h]
    rfl
  · split at h
    · cases h
    · have hobj := (objectsTo_auditOneOrder h).mpr rfl
      by_contra hstep
      exact not_objects_of_step hstep ⟨_, hobj⟩

theorem auditRoute_single (component : NetComponent) :
    auditRoute [component] ledgers registry order
      = auditOneOrder order component.topology (componentLedgers ledgers component.topology)
          registry := by
  have hmember : ∀ node, membership [component] node = some 0
      ∨ membership [component] node = none := by
    intro node
    by_cases h : node ∈ component.topology.nodeIds
    · exact Or.inl (by simp [membership, List.findIdx?_cons, h])
    · exact Or.inr (by simp [membership, List.findIdx?_cons, h])
  unfold auditRoute
  rcases hmember order.from_ with hfrom | hfrom <;> rcases hmember order.to_ with hto | hto <;>
    simp [hfrom, hto]

/-- The objections of a pass are those of the route audit. -/
theorem net_objects_iff {orders : List PaymentOrder}
    {commitments : ExtTreeMap NodeId (List SignedCommitment)} {paymentId : Hash} :
    (∃ f ∈ (net t ledgers registry orders commitments).findings, f.objectsTo paymentId)
      ↔ ∃ order ∈ orders, order.hash = paymentId
          ∧ auditOneOrder order t (componentLedgers ledgers t) registry ≠ [] := by
  have hroutes : auditRoutesPartition orders [{ topology := t, strandedParent := none }] ledgers
      registry = orders.flatMap fun order =>
        auditOneOrder order t (componentLedgers ledgers t) registry := by
    exact congrArg orders.flatMap (funext fun order => auditRoute_single _)
  simp only [net, netPartition, List.isEmpty_cons, Bool.false_eq_true, ↓reduceIte, hroutes,
    List.mem_append, List.zipIdx_cons, List.zipIdx_nil, List.flatMap_cons, List.flatMap_nil,
    List.append_nil, auditComponent, lt_irrefl]
  constructor
  · rintro ⟨f, ((hf | hf) | hf) | hf, hobj⟩
    · obtain ⟨⟨node, chain⟩, -, hf⟩ := List.mem_flatMap.mp hf
      exact absurd ⟨_, hobj⟩ (not_objects_of_step (by simp [step_auditChain hf]))
    · exact absurd ⟨_, hobj⟩ (not_objects_of_step (by simp [step_auditMirrors hf]))
    · obtain ⟨order, horder, hf⟩ := List.mem_flatMap.mp hf
      exact ⟨order, horder, (objectsTo_auditOneOrder hf).mp hobj, List.ne_nil_of_mem hf⟩
    · exact absurd ⟨_, hobj⟩ (not_objects_of_step (by simp [step_auditOverdraw hf]))
  · rintro ⟨order, horder, hhash, hne⟩
    obtain ⟨f, hf⟩ := List.exists_mem_of_ne_nil _ hne
    exact ⟨f, Or.inl (Or.inr (List.mem_flatMap.mpr ⟨order, horder, hf⟩)),
      (objectsTo_auditOneOrder hf).mpr hhash⟩

theorem mem_auditMirrors_of_net {orders : List PaymentOrder}
    {commitments : ExtTreeMap NodeId (List SignedCommitment)} {f : Finding}
    (hf : f ∈ (net t ledgers registry orders commitments).findings) (hstep : f.step = .mirrors) :
    f ∈ auditMirrors t ledgers := by
  simp only [net, netPartition, List.isEmpty_cons, Bool.false_eq_true, ↓reduceIte,
    List.mem_append, List.zipIdx_cons, List.zipIdx_nil, List.flatMap_cons, List.flatMap_nil,
    List.append_nil, auditComponent, lt_irrefl] at hf
  rcases hf with ((hf | hf) | hf) | hf
  · obtain ⟨⟨node, chain⟩, -, hf⟩ := List.mem_flatMap.mp hf
    rw [step_auditChain hf] at hstep
    cases hstep
  · exact hf
  · obtain ⟨order, -, hf⟩ := List.mem_flatMap.mp hf
    rw [step_auditRoute hf] at hstep
    cases hstep
  · rw [step_auditOverdraw hf] at hstep
    cases hstep

omit [Postcard] in
theorem get_addComponentLedger {subset : LedgerSet} (id node : NodeId)
    (hsub : ∀ n l, subset.get n = some l → ledgers.get n = some l) :
    (addComponentLedger ledgers subset id).get node
      = if node = id then ledgers.get node else subset.get node := by
  by_cases heq : node = id
  · subst heq
    rw [if_pos rfl, addComponentLedger]
    cases hl : ledgers.get node with
    | none =>
        cases hs : subset.get node with
        | none => rfl
        | some l => exact absurd (hsub node l hs) (by simp [hl])
    | some l =>
        by_cases hmem : node ∈ subset.ledgers
        · have hsome := ExtTreeMap.mem_iff_isSome_getElem?.mp hmem
          obtain ⟨l', hl'⟩ := Option.isSome_iff_exists.mp hsome
          have := hsub node l' hl'
          simp only [LedgerSet.insert, hmem, ExtTreeMap.contains_iff_mem, ↓reduceIte]
          rw [← hl, this]
          exact hl'
        · simp [LedgerSet.insert, LedgerSet.get, hmem]
  · rw [if_neg heq, addComponentLedger]
    cases ledgers.get id with
    | none => rfl
    | some l =>
        by_cases hmem : id ∈ subset.ledgers
        · simp [LedgerSet.insert, hmem]
        · simp [LedgerSet.insert, LedgerSet.get, hmem, ExtTreeMap.getElem?_insert, Ne.symm heq]

omit [Postcard] in
theorem get_foldl_addComponentLedger {ids : List NodeId} {subset : LedgerSet} (node : NodeId)
    (hsub : ∀ n l, subset.get n = some l → ledgers.get n = some l) :
    (ids.foldl (addComponentLedger ledgers) subset).get node
      = if node ∈ ids then ledgers.get node else subset.get node := by
  induction ids generalizing subset with
  | nil => simp
  | cons id ids ih =>
      have hnext : ∀ n l, (addComponentLedger ledgers subset id).get n = some l →
          ledgers.get n = some l := by
        intro n l h
        rw [get_addComponentLedger id n hsub] at h
        split at h
        · exact h
        · exact hsub n l h
      rw [List.foldl_cons, ih hnext, get_addComponentLedger id node hsub]
      by_cases hmem : node ∈ ids
      · simp [hmem]
      · by_cases heq : node = id <;> simp [hmem, heq]

omit [Postcard] in
theorem componentLedgers_eq (hkeyed : ∀ node l, ledgers.get node = some l → node ∈ t.nodeIds) :
    componentLedgers ledgers t = ledgers := by
  have hget : ∀ node, (componentLedgers ledgers t).get node = ledgers.get node := by
    intro node
    rw [componentLedgers,
      get_foldl_addComponentLedger node (by simp [LedgerSet.get, LedgerSet.new])]
    split
    · rfl
    · rename_i hnot
      cases h : ledgers.get node with
      | none => simp [LedgerSet.get, LedgerSet.new]
      | some l => exact absurd (hkeyed node l h) hnot
  have hmap : (componentLedgers ledgers t).ledgers = ledgers.ledgers :=
    ExtTreeMap.ext_getElem? fun {node} => hget node
  exact congrArg LedgerSet.mk hmap

end

end Cawala
