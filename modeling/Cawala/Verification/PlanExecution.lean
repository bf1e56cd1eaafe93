import Cawala.Verification.Acceptance
import Cawala.Verification.Audit

/-! # A plan that is returned can be executed

What the planner checks of balances implies what signing, authorisation and append check of the
entries, unless the payer pays itself. -/

namespace Cawala

open Std (ExtTreeMap)
open Library
open Cawala.Topology

section

variable [Crypto]

/-! ## The accounts of a hop -/

/-- Between two users every hop moves two different accounts. -/
theorem expectedHops_distinct {t : Topology} (hvalid : t.Valid) {order : PaymentOrder}
    {hops : List ExpectedHop} (hne : order.from_ ≠ order.to_)
    (h : expectedHops t order = .ok hops) : ∀ hop ∈ hops, hop.first ≠ hop.second := by
  intro hop hhop
  rcases expectedHops_spec hvalid h with ⟨leaf, -, -, rfl⟩ | ⟨_, _, _, _, _, _, -, hroute⟩
  · obtain rfl := List.mem_singleton.mp hhop
    simpa using hne
  · obtain ⟨d, -, hat⟩ := exists_of_forall₂_left hroute hhop
    cases hat with
    | ascend => simp
    | descend => simp
    | lca _ hchild _ hchild' _ hturn =>
        intro heq
        rw [AccountRef.child.injEq] at heq
        subst heq
        have hpath := hchild.unique hchild'
        simp only [List.append_cancel_left_eq, List.cons.injEq, and_true] at hpath
        exact hturn hpath

theorem nets_pair {deltas : Deltas} {p q : Posting} (hne : p.account ≠ q.account)
    (hagg : aggregateDeltas [p, q] = .ok deltas) :
    Nets (fun x => deltas[x]?) [(p.account, p.delta.toInt), (q.account, q.delta.toInt)] := by
  intro a v
  change deltas[a]? = some v ↔ _
  rw [(aggregateDeltas_spec hagg).getElem?_eq, netDelta]
  simp only [List.mem_cons, List.not_mem_nil, or_false, exists_eq_or_imp, exists_eq_left,
    postedDelta_pair, Prod.mk.injEq]
  by_cases hp : p.account = a
  · subst hp
    simp [hne, hne.symm, eq_comm]
  · by_cases hq : q.account = a
    · subst hq
      simp [hne, hne.symm, eq_comm]
    · simp [hp, hq, Ne.symm hp, Ne.symm hq]

/-- A hop with two different accounts is canonical. -/
theorem hopEntry_conserves {ledger : Ledger} {order : PaymentOrder} {auth : AuthRef}
    {m : SignedAmount} {issuedAt : UInt64} {hop : ExpectedHop} (hamount : order.amount ≠ 0)
    (hm : checkedI64 order.amount = .ok m) (hhash : auth.orderHash = order.hash)
    (hshape : HopShape order hop) (hne : hop.first ≠ hop.second) :
    (hopEntry ledger order.hash order.amount hop.role
      (hopPostings hop.role hop.first hop.second m) auth issuedAt).checkConservation = .ok () := by
  obtain ⟨hpos, hneg⟩ := checkedI64_eq_ok hm
  have hlen : (hopPostings hop.role hop.first hop.second m).length < 2 ^ 62 := by
    cases hop.role <;> simp [hopPostings]
  obtain ⟨deltas, hagg, -⟩ := aggregateDeltas_exists hlen
  have hpositive : 0 < order.amount := by
    rw [UInt64.lt_iff_toNat_lt]
    have hzero : order.amount.toNat ≠ 0 := fun h => hamount (UInt64.toNat_inj.mp h)
    exact Nat.pos_of_ne_zero hzero
  have hcanonical : (EntryBody.transfer order.hash order.amount hop.role).Canonical
      fun x => deltas[x]? := by
    have hnames := hshape.names
    cases hrole : hop.role with
    | ascend =>
        rw [hrole] at hnames hagg
        obtain ⟨hfirst, c, hsecond⟩ := hnames
        have hnets := nets_pair (by simpa using hne) hagg
        exact ⟨c, by simpa only [hfirst, hsecond, hneg] using hnets⟩
    | descend =>
        rw [hrole] at hnames hagg
        obtain ⟨hfirst, c, hsecond⟩ := hnames
        have hnets := nets_pair (by simpa using hne) hagg
        exact ⟨c, by simpa only [hfirst, hsecond, hpos] using hnets⟩
    | lca =>
        rw [hrole] at hnames hagg
        obtain ⟨⟨c, hfirst⟩, d, hsecond⟩ := hnames
        have hnets := nets_pair (by simpa using hne) hagg
        refine ⟨c, d, ?_, by simpa only [hfirst, hsecond, hneg, hpos] using hnets⟩
        rintro rfl
        exact hne (hfirst.trans hsecond.symm)
    | direct =>
        rw [hrole] at hnames hagg
        obtain ⟨⟨c, hfirst⟩, d, hsecond⟩ := hnames
        have hnets := nets_pair (by simpa using hne) hagg
        refine ⟨c, d, ?_, by simpa only [hfirst, hsecond, hneg, hpos] using hnets⟩
        rintro rfl
        exact hne (hfirst.trans hsecond.symm)
  refine checkConservation_iff_stages.mpr ⟨⟨auth, rfl, hhash.symm⟩, by simp [hopEntry], deltas,
    hagg, hcanonical.rule hpositive hlen hagg, ?_⟩
  exact (validateShape_iff hagg).mpr ⟨hpositive, hcanonical⟩

/-! ## The dry run -/

def StagedFrom (ledgers : LedgerSet) (staged : ExtTreeMap NodeId Balances) (node : NodeId) : Prop :=
  ∀ balances, staged[node]? = some balances →
    ∃ ledger, ledgers.get node = some ledger ∧ balances = ledger.balances

theorem stageBalances_stagedFrom {ledgers : LedgerSet} {hops : List PlannedHop}
    {staged : ExtTreeMap NodeId Balances}
    (h : hops.foldlM (stageBalances ledgers) ∅ = .ok staged) (node : NodeId) :
    StagedFrom ledgers staged node := by
  refine foldlM_induction (P := fun _ staged => StagedFrom ledgers staged node) (d := []) ?_ ?_ h
  · intro done hop staged next hstaged hstep
    unfold stageBalances at hstep
    split_ifs at hstep with hcontains
    · rw [pure_eq_ok] at hstep
      exact hstep ▸ hstaged
    · simp only [bind_eq_ok, ledgerFor_eq_ok, pure_eq_ok] at hstep
      obtain ⟨ledger, hledger, rfl⟩ := hstep
      intro balances hbalances
      rw [ExtTreeMap.getElem?_insert] at hbalances
      split at hbalances
      · rename_i heq
        rw [compare_eq_iff_eq] at heq
        subst heq
        exact ⟨ledger, hledger, (Option.some.inj hbalances).symm⟩
      · exact hstaged balances hbalances
  · intro balances hbalances
    simp at hbalances

/-- Applied to staged balances, each of the hops of different signers meets its own ledger. -/
theorem applyStaged_applies {ledgers : LedgerSet} {hops : List PlannedHop}
    {staged final : ExtTreeMap NodeId Balances} (hnodup : (hops.map (·.signer)).Nodup)
    (hstaged : ∀ hop ∈ hops, StagedFrom ledgers staged hop.signer)
    (h : hops.foldlM applyStaged staged = .ok final) :
    ∀ hop ∈ hops, ∃ ledger next, ledgers.get hop.signer = some ledger
      ∧ ledger.balances.apply hop.entry.postings = .ok next := by
  induction hops generalizing staged with
  | nil => simp
  | cons hop hops ih =>
      obtain ⟨mid, hmid, hrest⟩ := foldlM_cons_eq_ok.mp h
      rw [List.map_cons, List.nodup_cons] at hnodup
      unfold applyStaged at hmid
      split at hmid
      · cases hmid
      · rename_i balances hbalances
        simp only [bind_eq_ok, pure_eq_ok] at hmid
        obtain ⟨next, hnext, rfl⟩ := hmid
        obtain ⟨ledger, hledger, rfl⟩ := hstaged hop List.mem_cons_self balances hbalances
        intro hop' hhop'
        rcases List.mem_cons.mp hhop' with rfl | hhop'
        · exact ⟨ledger, next, hledger, hnext⟩
        · refine ih hnodup.2 ?_ hrest hop' hhop'
          intro other hother balances' hbalances'
          have hdiff : hop.signer ≠ other.signer := fun heq =>
            hnodup.1 (heq ▸ List.mem_map_of_mem hother)
          refine hstaged other (List.mem_cons_of_mem _ hother) balances' ?_
          rwa [ExtTreeMap.getElem?_insert, if_neg (by simpa using hdiff)] at hbalances'

/-- The planner made each hop of the route, and its postings apply to the signer's ledger. -/
theorem planTransfer_applies {t : Topology} {order : PaymentOrder} {auth : AuthRef}
    {ledgers : LedgerSet} {issuedAt : UInt64} {plan : SettlementPlan} (hvalid : t.Valid)
    (h : planTransfer t order auth ledgers issuedAt = .ok plan) :
    order.amount ≠ 0 ∧ (plan.hops.map (·.signer)).Nodup
      ∧ ∀ hop ∈ plan.hops, ∃ ledger next, ledgers.get hop.signer = some ledger
        ∧ ledger.balances.apply hop.entry.postings = .ok next := by
  have hspec := (planTransfer_spec h).2
  simp only [planTransfer, ite_error_eq_ok, bind_eq_ok, pure_eq_ok] at h
  obtain ⟨hamount, _, -, _, -, _, -, _, -, planned, -, _, hdry, rfl⟩ := h
  simp only [dryRun, bind_eq_ok, pure_eq_ok] at hdry
  obtain ⟨staged, hstaged, final, hfinal, -⟩ := hdry
  have hnodup : (planned.map (·.signer)).Nodup := by
    obtain ⟨m, hops, -, hhops, hplanned⟩ := hspec
    have hsigners : hops.map (·.signer) = planned.map (·.signer) := by
      apply map_eq_of_forall₂
      refine hplanned.imp ?_
      intro hop _ hfrom
      obtain ⟨ledger, -, rfl⟩ := hfrom
      rfl
    exact hsigners ▸ (expectedHops_shape hvalid hhops).1
  exact ⟨hamount, hnodup, applyStaged_applies hnodup
    (fun hop _ => stageBalances_stagedFrom hstaged hop.signer) hfinal⟩

/-! ## Execution -/

variable [Postcard]

def EncodesEntries : Prop := ∀ e : Entry, ∃ bytes, Postcard.toAllocvec e = .ok bytes

/-- What the caller provides for the execution of a plan: the ledger key of each signer, which
the registry lists, the payer's operator, the payer's signature of the order, and the time. -/
structure Provided (plan : SettlementPlan) (order : PaymentOrder) (auth : AuthRef)
    (ledgers : LedgerSet) (keys : ExtTreeMap NodeId LedgerSecretKey) (registry : PeerRegistry)
    (now : UInt64) : Prop where
  signers : ∀ hop ∈ plan.hops, ∀ ledger, ledgers.get hop.signer = some ledger →
    ∃ key, keys[hop.signer]? = some key ∧ Crypto.pubKey key = ledger.ledgerPubkey
      ∧ registry.ledgerOf hop.signer = some ledger.ledgerPubkey
  payer : registry.operatorOf order.from_ = some auth.operator
  hash : auth.orderHash = order.hash
  nonce : auth.nonce = order.nonce
  signature : Crypto.verify auth.operator [.digest order.hash] auth.signature = true
  time : now ≤ order.expiry

/-- A ledger built by appends is named by its key. -/
theorem Ledger.Built.ledgerId_eq {l : Ledger} (hl : l.Built) : l.ledgerId = l.ledgerPubkey := by
  refine hl.induction (P := fun l => l.ledgerId = l.ledgerPubkey) (fun key => rfl) ?_
  intro l l' s hid happend
  have hspec := append_spec happend
  rw [hspec.sameId, hspec.sameKey, hid]

variable {order : PaymentOrder} {auth : AuthRef} {m : SignedAmount} {ledgers : LedgerSet}
  {keys : ExtTreeMap NodeId LedgerSecretKey} {registry : PeerRegistry} {now issuedAt : UInt64}
  {plan : SettlementPlan} {hop : ExpectedHop} {ledger : Ledger}

omit [Postcard] in
theorem hopEntry_endpoints (hm : checkedI64 order.amount = .ok m)
    (hshape : HopShape order hop) (hdirect : hop.role = .direct)
    (hcons : (hopEntry ledger order.hash order.amount hop.role
      (hopPostings hop.role hop.first hop.second m) auth issuedAt).checkConservation = .ok ()) :
    verifyDirectEndpoints (hopPostings hop.role hop.first hop.second m) order = .ok () := by
  obtain ⟨hpos, hneg⟩ := checkedI64_eq_ok hm
  obtain ⟨hfirst, hsecond⟩ := hshape.direct hdirect
  have haccounts := (entryHopAccounts_eq_ok_iff hcons rfl hshape.names).mpr (fun a => by
    have hdelta := hopDelta_eq_roleMove (by rw [hneg, hpos]) hop a
    rw [hpos] at hdelta
    exact hdelta)
  rw [hdirect, hfirst, hsecond] at haccounts ⊢
  exact verifyDirectEndpoints_of_accounts haccounts

theorem preflightHop_ok (hcodec : EncodesEntries) (hsign : Crypto.SignCorrect)
    (hr : registry.Registered)
    (hprovided : Provided plan plan.order auth ledgers keys registry now)
    (hm : checkedI64 plan.order.amount = .ok m) (hamount : plan.order.amount ≠ 0)
    (hshape : HopShape plan.order hop) (hne : hop.first ≠ hop.second)
    (hledger : ledgers.get hop.signer = some ledger) (hbuilt : ledger.Built)
    {planned : PlannedHop} (hmem : planned ∈ plan.hops)
    (hplanned : planned =
      { signer := hop.signer
        entry := hopEntry ledger plan.order.hash plan.order.amount hop.role
          (hopPostings hop.role hop.first hop.second m) auth issuedAt }) :
    ∃ signed, preflightHop plan ledgers keys registry now planned = .ok signed
      ∧ signed.entry = planned.entry ∧ signed.Authentic := by
  have hcons : (hopEntry ledger plan.order.hash plan.order.amount hop.role
      (hopPostings hop.role hop.first hop.second m) auth issuedAt).checkConservation = .ok () :=
    hopEntry_conserves hamount hm hprovided.hash hshape hne
  obtain ⟨key, hkey, hpub, hlisted⟩ := hprovided.signers planned hmem ledger (hplanned ▸ hledger)
  obtain ⟨body, hbody⟩ := hcodec planned.entry
  have hbytes : planned.entry.canonicalBytes = .ok (.byte 4 :: body) := by
    rw [Entry.canonicalBytes, hbody]
  let signed : SignedEntry :=
    { entry := planned.entry, signature := Crypto.sign key (.byte 4 :: body) }
  have hid : planned.entry.ledgerId = Crypto.pubKey key := by
    rw [hplanned, hpub]
    exact hbuilt.ledgerId_eq
  have hauthentic : signed.Authentic := by
    refine ⟨.byte 4 :: body, hbytes, ?_⟩
    change Crypto.verify planned.entry.ledgerId _ _ = true
    rw [hid]
    exact hsign key _
  have hsigner : ∃ peer, registry.verifyEntry signed = .ok peer := by
    have hlist : registry.ledgerOf planned.signer = some signed.entry.ledgerId := by
      rw [hlisted, ← hpub, ← hid]
    obtain ⟨peer, hpeer, -⟩ :=
      (PeerRegistry.exists_verifyEntry_iff hr).mpr ⟨hlist, hauthentic⟩
    exact ⟨peer, hpeer⟩
  have htransfer : verifyTransfer signed plan.order registry now = .ok () := by
    refine verifyTransfer_eq_ok.mpr ⟨?_, hsigner, ⟨auth, ?_, hprovided.payer, hprovided.hash,
      hprovided.nonce, hprovided.signature⟩, ?_, hop.role, ?_, ?_⟩
    · change planned.entry.checkConservation = .ok ()
      rw [hplanned]
      exact hcons
    · change planned.entry.auth = some auth
      rw [hplanned]
      rfl
    · exact UInt64.not_lt.mpr hprovided.time
    · change planned.entry.body = _
      rw [hplanned]
      rfl
    · intro hdirect
      change verifyDirectEndpoints planned.entry.postings plan.order = .ok ()
      rw [hplanned]
      exact hopEntry_endpoints hm hshape hdirect hcons
  refine ⟨signed, ?_, rfl, hauthentic⟩
  have hsigned : SignedEntry.sign planned.entry key = .ok signed := by
    rw [SignedEntry.sign, hbytes]
    rfl
  simp only [preflightHop, hkey, hsigned, bind_eq_ok, Except.ok.injEq]
  refine ⟨signed, rfl, (), htransfer, ledger, ledgerFor_eq_ok.mpr (hplanned ▸ hledger), ?_⟩
  simp [hplanned, hopEntry]

/-- An entry on top of its ledger is appended if it is signed, conserved and applies. -/
theorem append_exists {signed : SignedEntry} {next : Balances}
    (hid : signed.entry.ledgerId = ledger.ledgerId) (hkey : ledger.ledgerId = ledger.ledgerPubkey)
    (hbody : ∀ key sig, signed.entry.body ≠ .rotateLedgerKey key sig)
    (hseq : signed.entry.seq = UInt64.ofNat ledger.len)
    (hheight : signed.entry.height = signed.entry.seq)
    (hprev : signed.entry.prevHash = ledger.headHash)
    (hcons : signed.entry.checkConservation = .ok ()) (hauthentic : signed.Authentic)
    (happly : ledger.balances.applyEntry signed.entry = .ok next) :
    ∃ ledger', ledger.append signed = .ok ledger' := by
  obtain ⟨bytes, hbytes, hverify⟩ := hauthentic
  rw [hid, hkey] at hverify
  have hheader : ledger.checkHeader signed = .ok () := by
    rw [Ledger.checkHeader, if_neg (not_not.mpr hid)]
    cases hkind : signed.entry.body with
    | rotateLedgerKey key sig => exact absurd hkind (hbody key sig)
    | _ => simp [hbytes, hverify, hseq, hheight, hprev]
  have hhash : entryHash signed.entry = .ok (derive "cawala-ledger/entry/v1" [bytes]) := by
    rw [entryHash, hbytes]
    rfl
  rw [Ledger.append, hheader, hcons, happly, MemLog.append, hhash]
  exact ⟨_, rfl⟩

theorem append_hopEntry {paymentId : Hash} {amount : Amount} {role : HopRole}
    {postings : List Posting} {signed : SignedEntry} {next : Balances} (hbuilt : ledger.Built)
    (hentry : signed.entry = hopEntry ledger paymentId amount role postings auth issuedAt)
    (hcons : signed.entry.checkConservation = .ok ()) (hauthentic : signed.Authentic)
    (happly : ledger.balances.apply postings = .ok next) :
    ∃ ledger', ledger.append signed = .ok ledger' := by
  have hbalances : ledger.balances.applyEntry signed.entry = .ok next := by
    rw [hentry]
    exact happly
  refine append_exists ?_ hbuilt.ledgerId_eq ?_ ?_ ?_ ?_ hcons hauthentic hbalances
  · rw [hentry]
    rfl
  · intro key sig
    rw [hentry]
    simp [hopEntry]
  · rw [hentry]
    rfl
  · rw [hentry]
    rfl
  · rw [hentry]
    rfl

theorem stageHops_ok {hops : List PlannedHop} {signed : List SignedEntry} {staged : LedgerSet}
    (hnodup : (hops.map (·.signer)).Nodup)
    (happends : List.Forall₂ (fun hop s => ∃ l l', staged.get hop.signer = some l
      ∧ l.append s = .ok l') hops signed) :
    ∃ after, (hops.zip signed).foldlM stageHop staged = .ok after := by
  induction hops generalizing signed staged with
  | nil =>
      cases happends
      exact ⟨staged, rfl⟩
  | cons hop hops ih =>
      cases happends with
      | @cons _ s _ signed happend hrest =>
          rw [List.map_cons, List.nodup_cons] at hnodup
          obtain ⟨l, l', hl, hl'⟩ := happend
          have hstep : stageHop staged (hop, s)
              = .ok { ledgers := staged.ledgers.insert hop.signer l' } := by
            rw [stageHop, hl]
            simp only [hl']
            rfl
          have hafter := @ih signed { ledgers := staged.ledgers.insert hop.signer l' } hnodup.2 ?_
          · obtain ⟨after, hafter⟩ := hafter
            exact ⟨after, foldlM_cons_eq_ok.mpr ⟨_, hstep, hafter⟩⟩
          · have hdiff : ∀ p ∈ hops, hop.signer ≠ p.signer := fun p hp heq =>
              hnodup.1 (heq ▸ List.mem_map_of_mem hp)
            refine forall₂_imp_of_mem hrest ?_
            intro p hp sp _ hpending
            obtain ⟨lp, lp', hlp, hlp'⟩ := hpending
            refine ⟨lp, lp', ?_, hlp'⟩
            rw [← hlp, LedgerSet.get, LedgerSet.get, ExtTreeMap.getElem?_insert,
              if_neg (by simpa using hdiff p hp)]

omit [Postcard] in
/-- The route of a payment of a user to itself is one direct hop at its leaf. -/
theorem expectedHops_self {t : Topology} (hvalid : t.Valid) {hops : List ExpectedHop}
    (hself : order.from_ = order.to_) (h : expectedHops t order = .ok hops) :
    ∃ leaf, hops = [⟨leaf, .direct, .child order.from_, .child order.from_⟩] := by
  rcases expectedHops_spec hvalid h with ⟨leaf, -, -, rfl⟩ | ⟨_, _, a, b, x, y, hcross, -⟩
  · exact ⟨leaf, by rw [hself]⟩
  · -- one user has one path, so that it cannot be below two leaves
    have hpath := hcross.src.unique (hself ▸ hcross.dst)
    exact absurd ((List.append_inj_left' hpath rfl) ▸ List.prefix_rfl) hcross.left

/-- A plan of a payment of a user to itself is refused. -/
theorem not_executed_of_self {t : Topology} (hvalid : t.Valid) (hself : order.from_ = order.to_)
    (hplan : planTransfer t order auth ledgers issuedAt = .ok plan) :
    ¬ ∃ after signed, executePlan plan ledgers keys registry now = (after, .ok signed) := by
  intro hexec
  obtain ⟨after, signed, hexec⟩ := hexec
  obtain ⟨-, m, hops, hm, hhops, hplanned⟩ := planTransfer_spec hplan
  obtain ⟨leaf, rfl⟩ := expectedHops_self hvalid hself hhops
  obtain ⟨planned, hmem, ledger, -, rfl⟩ :=
    exists_of_forall₂_left hplanned (List.mem_singleton_self _)
  obtain ⟨s, -, hpre⟩ :=
    exists_of_forall₂_left (signHops_spec (executePlan_eq_ok.mp hexec).1) hmem
  have hcons := (verifyTransfer_eq_ok.mp hpre.transfer).1
  rw [hpre.entry] at hcons
  obtain ⟨first, second, -, -, hne, hpos, hmoves⟩ := entryHopAccounts_spec hcons rfl
  -- the two postings cancel out, so that nothing moves
  obtain ⟨hplus, hminus⟩ := checkedI64_eq_ok hm
  have hzero : postedDelta (hopPostings .direct (.child order.from_) (.child order.from_) m) first
      = 0 := by
    by_cases heq : AccountRef.child order.from_ = first <;>
      simp [hopPostings, postedDelta_pair, heq, hplus, hminus]
  have hmove := hmoves first
  simp only [hopEntry, hzero, roleMove, HopRole.signs, ↓reduceIte, if_neg hne.symm] at hmove
  omega

/-- A plan that is returned can be executed, given the keys, the registry rows and the payer's
signature, exactly when the payer and the payee differ. -/
theorem plan_executes_iff {t : Topology} (hcodec : EncodesEntries) (hsign : Crypto.SignCorrect)
    (hvalid : t.validate = .ok ()) (hbuilt : ∀ node l, ledgers.get node = some l → l.Built)
    (hregistry : registry.Built)
    (hplan : planTransfer t order auth ledgers issuedAt = .ok plan)
    (hprovided : Provided plan order auth ledgers keys registry now) :
    (∃ after signed, executePlan plan ledgers keys registry now = (after, .ok signed))
      ↔ order.from_ ≠ order.to_ := by
  constructor
  · intro hexec hself
    exact not_executed_of_self (validate_spec hvalid) hself hplan hexec
  · intro hne
    have hr := PeerRegistry.registered_of_built hregistry
    obtain ⟨rfl, m, hops, hm, hhops, hplanned⟩ := planTransfer_spec hplan
    obtain ⟨hamount, hnodup, happlies⟩ := planTransfer_applies (validate_spec hvalid) hplan
    have hshape := (expectedHops_shape (validate_spec hvalid) hhops).2
    have hdistinct := expectedHops_distinct (validate_spec hvalid) hne hhops
    have hhop : ∀ planned ∈ plan.hops, ∃ signed,
        preflightHop plan ledgers keys registry now planned = .ok signed
          ∧ ∃ l l', ledgers.get planned.signer = some l ∧ l.append signed = .ok l' := by
      intro planned hmem
      obtain ⟨hop, hin, ledger, hledger, rfl⟩ := exists_of_forall₂_right hplanned hmem
      obtain ⟨signed, hok, hentry, hauthentic⟩ := preflightHop_ok hcodec hsign hr hprovided hm
        hamount (hshape hop hin) (hdistinct hop hin) hledger (hbuilt _ _ hledger) hmem rfl
      obtain ⟨ledger', next, hledger', happly⟩ := happlies _ hmem
      obtain rfl : ledger = ledger' := Option.some.inj (hledger.symm.trans hledger')
      have hcons : signed.entry.checkConservation = .ok () := by
        rw [hentry]
        exact hopEntry_conserves hamount hm hprovided.hash (hshape hop hin) (hdistinct hop hin)
      obtain ⟨l', hl'⟩ := append_hopEntry (hbuilt _ _ hledger) hentry hcons hauthentic happly
      exact ⟨signed, hok, ledger, l', hledger, hl'⟩
    obtain ⟨signed, hsigned⟩ := exists_forall₂ hhop
    have hsignHops : signHops plan ledgers keys registry now = .ok signed :=
      mapM_eq_ok_iff_forall₂.mpr (hsigned.imp fun _ _ h => h.1)
    obtain ⟨after, hafter⟩ := stageHops_ok hnodup (hsigned.imp fun _ _ h => h.2)
    exact ⟨after, signed, executePlan_eq_ok.mpr ⟨hsignHops, hafter⟩⟩

end

section Concrete

open Concrete

/-- The plan of an order of `u` over the funded ledgers, with the registry of the two leaves. -/
def planFunded (order : PaymentOrder) : Except LedgerError (PeerRegistry × SettlementPlan) := do
  let registry ← twoLeavesRegistry.rows.foldlM PeerRegistry.insert PeerRegistry.new
  let plan ← planTransfer twoLeaves order (order.authorize (23 : ℕ)) fundedLedgers 1
  let listed := plan.hops.all fun hop =>
    match fundedLedgers.get hop.signer, twoLeavesKeys[hop.signer]? with
    | some l, some key => decide (Crypto.pubKey key = l.ledgerPubkey)
        && decide (registry.ledgerOf hop.signer = some l.ledgerPubkey)
    | _, _ => false
  if listed && decide (registry.operatorOf order.from_ = some (23 : ℕ)) then
    .ok (registry, plan)
  else .error .unauthorized

theorem planFunded_provided {order : PaymentOrder} {registry : PeerRegistry}
    {plan : SettlementPlan} (hexpiry : 1 ≤ order.expiry)
    (h : planFunded order = .ok (registry, plan)) :
    registry.Built
      ∧ planTransfer twoLeaves order (order.authorize (23 : ℕ)) fundedLedgers 1 = .ok plan
      ∧ Provided plan order (order.authorize (23 : ℕ)) fundedLedgers twoLeavesKeys registry 1 := by
  simp only [planFunded, bind_eq_ok, ite_ok_eq_ok, Except.ok.injEq, Prod.mk.injEq,
    Bool.and_eq_true, decide_eq_true_eq, List.all_eq_true] at h
  obtain ⟨registry', hregistry, plan', hplan, ⟨hlisted, hoperator⟩, rfl, rfl⟩ := h
  refine ⟨built_of_inserts hregistry, hplan, ?_, hoperator, rfl, rfl, signCorrect _ _, hexpiry⟩
  intro hop hhop ledger hledger
  have hsigner := hlisted hop hhop
  rw [hledger] at hsigner
  cases hkey : twoLeavesKeys[hop.signer]? with
  | none => simp [hkey] at hsigner
  | some key =>
      simp only [hkey, Bool.and_eq_true, decide_eq_true_eq] at hsigner
      exact ⟨key, rfl, hsigner.1, hsigner.2⟩

/-- The payment of 30 between the leaves is planned and executed. -/
theorem plan_executes_cross :
    ∃ registry plan after signed, planFunded crossOrder = .ok (registry, plan)
      ∧ executePlan plan fundedLedgers twoLeavesKeys registry 1 = (after, .ok signed) := by
  have hok : (planFunded crossOrder).toBool = true := by decide +kernel
  obtain ⟨⟨registry, plan⟩, h⟩ := exists_ok_of_toBool hok
  obtain ⟨hbuilt, hplan, hprovided⟩ := planFunded_provided (by decide) h
  obtain ⟨after, signed, hexec⟩ := (plan_executes_iff (fun e => ⟨_, rfl⟩) signCorrect
    twoLeaves_valid (fun _ _ => fundedLedgers_built) hbuilt hplan hprovided).mpr (by decide)
  exact ⟨registry, plan, after, signed, h, hexec⟩

/-- `u` pays itself. -/
def selfOrder : PaymentOrder := { crossOrder with to_ := "u" }

/-- The payment of a user to itself is planned, and with everything provided it is refused. -/
theorem plan_refused_self :
    ∃ registry plan, planFunded selfOrder = .ok (registry, plan)
      ∧ Provided plan selfOrder (selfOrder.authorize (23 : ℕ)) fundedLedgers twoLeavesKeys
          registry 1
      ∧ (executePlan plan fundedLedgers twoLeavesKeys registry 1).2.toBool = false := by
  have hok : (planFunded selfOrder >>= fun p =>
      (executePlan p.2 fundedLedgers twoLeavesKeys p.1 1).2).toBool = false
        ∧ (planFunded selfOrder).toBool = true := by decide +kernel
  obtain ⟨⟨registry, plan⟩, h⟩ := exists_ok_of_toBool hok.2
  have hrefused := hok.1
  rw [h] at hrefused
  exact ⟨registry, plan, h, (planFunded_provided (by decide) h).2.2, hrefused⟩

end Concrete

end Cawala
