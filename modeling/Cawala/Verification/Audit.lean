import Cawala.Verification.Netting

/-! # The route audit of executed orders

Ledgers whose transfers come from one execution for each order pass the audit, and the audit
of append-built ledgers is exact. -/

namespace Cawala

open Std (ExtTreeMap)
open Library

section

variable [Crypto]

/-! ## The transfers of an order -/

theorem collectAuthorizedTransfers_eq (ledgers : LedgerSet) (order : PaymentOrder) :
    collectAuthorizedTransfers ledgers order = ledgers.ledgers.toList.flatMap
      fun e => e.2.log.entries.filter (authorizedFor order.hash) := by
  rw [collectAuthorizedTransfers, LedgerSet.nodeIds, ← ExtTreeMap.map_fst_toList_eq_keys,
    List.flatMap_map]
  apply List.flatMap_congr
  rintro ⟨node, l⟩ hmem
  have hget := ExtTreeMap.mem_toList_iff_getElem?_eq_some.mp hmem
  simp only [LedgerSet.get, hget]

theorem mem_collectAuthorizedTransfers {ledgers : LedgerSet} {order : PaymentOrder}
    {s : SignedEntry} : s ∈ collectAuthorizedTransfers ledgers order ↔
      ∃ node l, ledgers.get node = some l ∧ s ∈ l.log.entries
        ∧ authorizedFor order.hash s = true := by
  rw [collectAuthorizedTransfers_eq]
  simp only [List.mem_flatMap, Prod.exists, ExtTreeMap.mem_toList_iff_getElem?_eq_some,
    List.mem_filter]
  rfl

theorem collectAuthorizedTransfers_append {before after : LedgerSet} {node : NodeId}
    {l l' : Ledger} {s : SignedEntry} (order : PaymentOrder) (hl : before.get node = some l)
    (hl' : after.get node = some l') (hentries : l'.log.entries = l.log.entries ++ [s])
    (hothers : ∀ n, n ≠ node → after.get n = before.get n) :
    (collectAuthorizedTransfers after order).Perm
      (collectAuthorizedTransfers before order ++ [s].filter (authorizedFor order.hash)) := by
  have hafter : after.ledgers = before.ledgers.insert node l' := by
    apply ExtTreeMap.ext_getElem?
    intro n
    rw [ExtTreeMap.getElem?_insert]
    by_cases hn : n = node
    · subst hn
      simpa [LedgerSet.get] using hl'
    · simpa [Ne.symm hn, LedgerSet.get] using hothers n hn
  obtain ⟨rest, hold, hnew⟩ := flatMap_toList_insert
    (fun e : NodeId × Ledger => e.2.log.entries.filter (authorizedFor order.hash)) l' hl
  rw [collectAuthorizedTransfers_eq, collectAuthorizedTransfers_eq, hafter]
  refine hnew.trans (List.Perm.trans ?_ (hold.symm.append_right _))
  simp only [hentries, List.filter_append, List.append_assoc]
  exact List.perm_append_comm.append_left _

variable [Postcard]

/-- A staged cascade adds its entries to the transfers of the orders they are for. -/
theorem collectAuthorizedTransfers_stageHops {before after : LedgerSet}
    {pairs : List (PlannedHop × SignedEntry)} (order : PaymentOrder)
    (h : pairs.foldlM stageHop before = .ok after) :
    (collectAuthorizedTransfers after order).Perm (collectAuthorizedTransfers before order
      ++ (pairs.map Prod.snd).filter (authorizedFor order.hash)) := by
  have hinv := foldlM_induction (P := fun done after =>
    (collectAuthorizedTransfers after order).Perm (collectAuthorizedTransfers before order
      ++ (done.map Prod.snd).filter (authorizedFor order.hash))) (d := []) (s := before)
    ?_ (by simp) h
  · simpa using hinv
  · rintro done ⟨hop, s⟩ mid next hmid hstep
    obtain ⟨l, l', hl, hl', happ, hothers⟩ := stageHop_spec hstep
    have hperm := collectAuthorizedTransfers_append order hl hl' happ.entries hothers
    refine hperm.trans ((hmid.append_right _).trans (.of_eq ?_))
    rw [List.map_append, List.filter_append, List.append_assoc]
    rfl

/-- Execution keeps append-built ledgers append-built. -/
theorem built_of_stageHops {before after : LedgerSet} {pairs : List (PlannedHop × SignedEntry)}
    (hbuilt : ∀ node l, before.get node = some l → l.Built)
    (h : pairs.foldlM stageHop before = .ok after) :
    ∀ node l, after.get node = some l → l.Built := by
  refine foldlM_induction (P := fun _ after => ∀ node l, after.get node = some l → l.Built)
    (d := []) ?_ hbuilt h
  rintro done ⟨hop, s⟩ mid next hmid hstep node l hl
  simp only [stageHop] at hstep
  split at hstep
  · cases hstep
  next ledger hledger =>
    simp only [bind_eq_ok, pure_eq_ok] at hstep
    obtain ⟨l', happend, rfl⟩ := hstep
    rw [LedgerSet.get, ExtTreeMap.getElem?_insert] at hl
    split at hl
    · rw [Option.some.injEq] at hl
      subst hl
      exact (hmid _ _ hledger).append happend
    · exact hmid node l hl

/-! ## Runs of executions -/

/-- The ledgers of a network that executed the listed orders, once each, among appends that
carry no authorisation of any order of the list. A plan may be older than its execution. -/
inductive Produced (t : Topology) (registry : PeerRegistry) (orders : List PaymentOrder) :
    List PaymentOrder → LedgerSet → Prop where
  | start {ledgers : LedgerSet}
      (h : ∀ order ∈ orders, collectAuthorizedTransfers ledgers order = []) :
      Produced t registry orders [] ledgers
  | append {done : List PaymentOrder} {ledgers : LedgerSet} {node : NodeId} {l l' : Ledger}
      {s : SignedEntry} (hrun : Produced t registry orders done ledgers)
      (hl : ledgers.get node = some l) (happend : l.append s = .ok l')
      (hother : ∀ order ∈ orders, authorizedFor order.hash s = false) :
      Produced t registry orders done { ledgers := ledgers.ledgers.insert node l' }
  | execute {done : List PaymentOrder} {order : PaymentOrder} {planned before after : LedgerSet}
      {auth : AuthRef} {issuedAt now : UInt64} {plan : SettlementPlan}
      {keys : ExtTreeMap NodeId LedgerSecretKey} {signed : List SignedEntry}
      (hrun : Produced t registry orders done before) (horder : order ∈ orders)
      (honce : order ∉ done) (hplan : planTransfer t order auth planned issuedAt = .ok plan)
      (hexec : executePlan plan before keys registry now = (after, .ok signed)) :
      Produced t registry orders (done ++ [order]) after

def SignersRegistered (t : Topology) (registry : PeerRegistry) (orders : List PaymentOrder)
    (ledgers : LedgerSet) : Prop :=
  ∀ order ∈ orders, ∀ hops, expectedHops t order = .ok hops → ∀ hop ∈ hops, ∀ l,
    ledgers.get hop.signer = some l → registry.ledgerOf hop.signer = some l.ledgerId

structure PlacedHop (registry : PeerRegistry) (ledgers : LedgerSet) (order : PaymentOrder)
    (hop : ExpectedHop) (s : SignedEntry) : Prop where
  placed : ∃ l, ledgers.get hop.signer = some l ∧ l.ledgerId = s.entry.ledgerId
  authentic : s.Authentic
  body : s.entry.body = .transfer order.hash order.amount hop.role
  moves : ∀ a, postedDelta s.entry.postings a
    = roleMove hop.role hop.first hop.second order.amount.toNat a
  payer : PayerSigned registry order s

/-- The ledgers keep their ids from one state to the next. -/
def KeepsIds (before after : LedgerSet) : Prop :=
  ∀ node l, before.get node = some l → ∃ l', after.get node = some l' ∧ l'.ledgerId = l.ledgerId

variable {t : Topology} {registry : PeerRegistry} {orders : List PaymentOrder}

theorem PlacedHop.keep {before after : LedgerSet} {order : PaymentOrder} {hop : ExpectedHop}
    {s : SignedEntry} (h : PlacedHop registry before order hop s) (hkeep : KeepsIds before after) :
    PlacedHop registry after order hop s := by
  obtain ⟨l, hl, hid⟩ := h.placed
  obtain ⟨l', hl', hid'⟩ := hkeep _ _ hl
  exact ⟨⟨l', hl', hid'.trans hid⟩, h.authentic, h.body, h.moves, h.payer⟩

/-- The executed hops of an order, each on the ledger of its signer. -/
def Recorded (t : Topology) (registry : PeerRegistry) (ledgers : LedgerSet)
    (order : PaymentOrder) : Prop :=
  ∃ hops matched, expectedHops t order = .ok hops
    ∧ List.Forall₂ (PlacedHop registry ledgers order) hops matched
    ∧ matched.Perm (collectAuthorizedTransfers ledgers order)

theorem executePlan_recorded (hvalid : t.Valid) (hr : registry.Registered) {order : PaymentOrder}
    {planned before after : LedgerSet} {auth : AuthRef} {issuedAt now : UInt64}
    {plan : SettlementPlan} {keys : ExtTreeMap NodeId LedgerSecretKey} {signed : List SignedEntry}
    (hplan : planTransfer t order auth planned issuedAt = .ok plan)
    (hexec : executePlan plan before keys registry now = (after, .ok signed)) :
    KeepsIds before after
      ∧ (∀ other : PaymentOrder, other.hash ≠ order.hash →
          (collectAuthorizedTransfers after other).Perm (collectAuthorizedTransfers before other))
      ∧ ∃ hops matched, expectedHops t order = .ok hops
          ∧ List.Forall₂ (PlacedHop registry after order) hops matched
          ∧ (collectAuthorizedTransfers after order).Perm
              (collectAuthorizedTransfers before order ++ matched) := by
  obtain ⟨horder, m, hops, hm, hhops, hplanned⟩ := planTransfer_spec hplan
  obtain ⟨hpos, hneg⟩ := checkedI64_eq_ok hm
  obtain ⟨hnodup, -⟩ := expectedHops_shape hvalid hhops
  have hexecuted := executePlan_spec hnodup hplanned hexec
  obtain ⟨hsigned, hstaged⟩ := executePlan_eq_ok.mp hexec
  have hpre := signHops_spec hsigned
  have hverified : ∀ s ∈ signed, s.Authentic ∧ PayerSigned registry order s := by
    intro s hs
    obtain ⟨hop, -, hpreflight⟩ := exists_of_forall₂_right hpre hs
    have htransfer := hpreflight.transfer
    rw [horder] at htransfer
    obtain ⟨-, ⟨peer, hpeer⟩, hpayer, -⟩ := verifyTransfer_eq_ok.mp htransfer
    exact ⟨((PeerRegistry.verifyEntry_eq_ok hr).mp hpeer).2.2, hpayer⟩
  have hfilter : ∀ other : PaymentOrder, signed.filter (authorizedFor other.hash)
      = if other.hash = order.hash then signed else [] := by
    intro other
    have hauth : ∀ s ∈ signed, (authorizedFor other.hash s = true ↔ other.hash = order.hash) := by
      intro s hs
      obtain ⟨auth, hauth, -, hhash, -⟩ := (hverified s hs).2.auth
      obtain ⟨hop, -, _, _, -, -, -, hbody, -⟩ := exists_of_forall₂_right hexecuted.appended hs
      simp only [authorizedFor, hbody, hauth, hhash, beq_iff_eq]
      exact eq_comm
    split
    next heq => exact List.filter_eq_self.mpr fun s hs => (hauth s hs).mpr heq
    next hne => exact List.filter_eq_nil_iff.mpr fun s hs h => hne ((hauth s hs).mp h)
  have hsnd : (plan.hops.zip signed).map Prod.snd = signed := List.map_snd_zip hpre.length_eq.ge
  have hcollect : ∀ other : PaymentOrder, (collectAuthorizedTransfers after other).Perm
      (collectAuthorizedTransfers before other
        ++ if other.hash = order.hash then signed else []) := by
    intro other
    have hperm := collectAuthorizedTransfers_stageHops other hstaged
    rwa [hsnd, hfilter] at hperm
  refine ⟨?_, ?_, hops, signed, hhops, ?_, by simpa using hcollect order⟩
  · intro node l hl
    by_cases hmem : node ∈ hops.map (·.signer)
    · obtain ⟨hop, hhop, rfl⟩ := List.mem_map.mp hmem
      obtain ⟨s, -, k, k', hk, hk', happ, -⟩ := exists_of_forall₂_left hexecuted.appended hhop
      rw [hk, Option.some.injEq] at hl
      subst hl
      exact ⟨k', hk', happ.sameId⟩
    · exact ⟨l, by rw [hexecuted.others node hmem, hl], rfl⟩
  · intro other hne
    simpa [hne] using hcollect other
  · refine forall₂_imp_of_mem hexecuted.appended ?_
    rintro hop - s hs ⟨l, l', hl, hl', happ, hbody, hpostings⟩
    refine ⟨⟨l', hl', happ.sameId.trans happ.ledgerId.symm⟩, (hverified s hs).1, hbody, ?_,
      (hverified s hs).2⟩
    intro a
    rw [hpostings, ← hpos, ← hopDelta_eq_roleMove (by omega)]
    rfl

/-- What a run has recorded: nothing for an order that was not executed, and the hops of the
route for one that was. -/
theorem Produced.recorded (hvalid : t.Valid) (hr : registry.Registered)
    (hdistinct : (orders.map (·.hash)).Nodup) {done : List PaymentOrder} {ledgers : LedgerSet}
    (h : Produced t registry orders done ledgers) :
    ∀ order ∈ orders,
      (order ∉ done → collectAuthorizedTransfers ledgers order = [])
        ∧ (order ∈ done → Recorded t registry ledgers order) := by
  induction h with
  | start h => exact fun order horder => ⟨fun _ => h order horder, fun hin => absurd hin (by simp)⟩
  | @append done ledgers node l l' s hrun hl happend hother ih =>
      intro order horder
      obtain ⟨hfresh, hdone⟩ := ih order horder
      have happ := append_spec happend
      have hperm : (collectAuthorizedTransfers { ledgers := ledgers.ledgers.insert node l' }
          order).Perm (collectAuthorizedTransfers ledgers order) := by
        have hothers : ∀ n, n ≠ node →
            LedgerSet.get { ledgers := ledgers.ledgers.insert node l' } n = ledgers.get n := by
          intro n hn
          simp [LedgerSet.get, ExtTreeMap.getElem?_insert, Ne.symm hn]
        have hperm := collectAuthorizedTransfers_append order hl (by simp [LedgerSet.get])
          happ.entries hothers
        simpa [hother order horder] using hperm
      have hkeep : KeepsIds ledgers { ledgers := ledgers.ledgers.insert node l' } := by
        intro n k hk
        by_cases hn : n = node
        · subst hn
          rw [hl, Option.some.injEq] at hk
          subst hk
          exact ⟨l', by simp [LedgerSet.get], happ.sameId⟩
        · refine ⟨k, ?_, rfl⟩
          rw [← hk]
          simp [LedgerSet.get, ExtTreeMap.getElem?_insert, Ne.symm hn]
      refine ⟨?_, ?_⟩
      · intro hnot
        exact List.perm_nil.mp (hfresh hnot ▸ hperm)
      · intro hin
        obtain ⟨hops, matched, hhops, hplaced, hmatched⟩ := hdone hin
        exact ⟨hops, matched, hhops, hplaced.imp fun _ _ h => h.keep hkeep,
          hmatched.trans hperm.symm⟩
  | @execute done executed planned before after auth issuedAt now plan keys signed hrun hexecuted
      honce hplan hexec ih =>
      obtain ⟨hkeep, hothers, hops, matched, hhops, hplaced, hcollect⟩ :=
        executePlan_recorded hvalid hr hplan hexec
      intro order horder
      obtain ⟨hfresh, hdone⟩ := ih order horder
      by_cases heq : order = executed
      · subst heq
        have hdone := List.mem_append_right done (List.mem_singleton_self order)
        refine ⟨fun hnot => absurd hdone hnot,
          fun _ => ⟨hops, matched, hhops, hplaced, ?_⟩⟩
        rw [hfresh honce, List.nil_append] at hcollect
        exact hcollect.symm
      · have hhash : order.hash ≠ executed.hash := fun hsame =>
          heq (List.inj_on_of_nodup_map hdistinct horder hexecuted hsame)
        have hperm := hothers order hhash
        have hmem : order ∈ done ++ [executed] ↔ order ∈ done := by simp [heq]
        rw [hmem]
        refine ⟨?_, ?_⟩
        · intro hnot
          exact List.perm_nil.mp (hfresh hnot ▸ hperm)
        · intro hin
          obtain ⟨hops, matched, hhops, hplaced, hmatched⟩ := hdone hin
          exact ⟨hops, matched, hhops, hplaced.imp fun _ _ h => h.keep hkeep,
            hmatched.trans hperm.symm⟩

theorem Recorded.cascaded {ledgers : LedgerSet}
    (hsigners : SignersRegistered t registry orders ledgers)
    {order : PaymentOrder} (horder : order ∈ orders) (h : Recorded t registry ledgers order) :
    Cascaded t registry order (collectAuthorizedTransfers ledgers order) := by
  obtain ⟨hops, matched, hhops, hplaced, hperm⟩ := h
  refine ⟨hops, matched, hhops, forall₂_imp_of_mem hplaced ?_, hperm⟩
  intro hop hhop s _ h
  obtain ⟨l, hl, hid⟩ := h.placed
  exact ⟨hid ▸ hsigners order horder hops hhops hop hhop l hl, h.authentic, h.body, h.moves,
    h.payer⟩

/-! ## The whole pass -/

/-- A netting pass over one network objects to an order exactly when the transfers its
authorisation backs are not its route, and never after one execution of each order. -/
theorem netting_exact {ledgers : LedgerSet}
    (commitments : ExtTreeMap NodeId (List SignedCommitment))
    (hvalid : t.validate = .ok ()) (hregistry : registry.Built)
    (hkeyed : ∀ node l, ledgers.get node = some l → node ∈ t.nodeIds)
    (hbuilt : ∀ node l, ledgers.get node = some l → l.Built)
    (hdistinct : (orders.map (·.hash)).Nodup) :
    (∀ order ∈ orders,
      (∀ f ∈ (net t ledgers registry orders commitments).findings, ¬ f.objectsTo order.hash)
        ↔ Cascaded t registry order (collectAuthorizedTransfers ledgers order))
    ∧ ∀ done, Produced t registry orders done ledgers → done.Perm orders →
        SignersRegistered t registry orders ledgers →
        ∀ f ∈ (net t ledgers registry orders commitments).findings, ¬ f.objects := by
  have hr := PeerRegistry.registered_of_built hregistry
  have hvalid := Topology.validate_spec hvalid
  have hconserved : ∀ order, ∀ s ∈ collectAuthorizedTransfers ledgers order,
      s.entry.checkConservation = .ok () := by
    intro order s hs
    obtain ⟨node, l, hl, hmem, -⟩ := mem_collectAuthorizedTransfers.mp hs
    exact (hbuilt node l hl).conserved s hmem
  have hexact : ∀ order ∈ orders,
      (∀ f ∈ (net t ledgers registry orders commitments).findings, ¬ f.objectsTo order.hash)
        ↔ Cascaded t registry order (collectAuthorizedTransfers ledgers order) := by
    intro order horder
    rw [← auditOneOrder_eq_nil_iff hvalid hr (hconserved order)]
    constructor
    · intro hnone
      by_contra haudit
      rw [← componentLedgers_eq hkeyed] at haudit
      obtain ⟨f, hf, hobj⟩ := net_objects_iff.mpr ⟨order, horder, rfl, haudit⟩
      exact hnone f hf hobj
    · intro haudit f hf hobj
      obtain ⟨order', horder', hhash, hne⟩ := net_objects_iff.mp ⟨f, hf, hobj⟩
      obtain rfl := List.inj_on_of_nodup_map hdistinct horder' horder hhash
      rw [componentLedgers_eq hkeyed] at hne
      exact hne haudit
  refine ⟨hexact, ?_⟩
  rintro done hrun hperm hsigners f hf ⟨paymentId, hobj⟩
  obtain ⟨order, horder, hhash, -⟩ := net_objects_iff.mp ⟨f, hf, hobj⟩
  have hrecorded := (hrun.recorded hvalid hr hdistinct order horder).2 (hperm.mem_iff.mpr horder)
  exact (hexact order horder).mpr (hrecorded.cascaded hsigners horder) f hf (hhash ▸ hobj)

end

section

open Concrete

def nextEntry (l : Ledger) (key : ℕ) (body : EntryBody) (postings : List Posting) :
    Except LedgerError SignedEntry :=
  SignedEntry.sign
    { ledgerId := l.ledgerId, seq := UInt64.ofNat l.len, height := UInt64.ofNat l.len
      prevHash := l.headHash, issuedAt := 0, body, postings
      auth := some (authorizeHash (key : ℕ) 0 Crypto.zero) } (key : ℕ)

def growLedger (key : ℕ) (l : Ledger) (body : EntryBody × List Posting) : Ledger :=
  match nextEntry l key body.1 body.2 with
  | .ok s => l.appendOrKeep s
  | .error _ => l

def buildLedger (key : ℕ) (bodies : List (EntryBody × List Posting)) : Ledger :=
  bodies.foldl (growLedger key) (Ledger.new key)

theorem growLedger_built {key : ℕ} {l : Ledger} (body : EntryBody × List Posting)
    (hl : l.Built) : (growLedger key l body).Built := by
  unfold growLedger
  split
  next s _ =>
    cases h : l.append s with
    | error e => simpa [Ledger.appendOrKeep, h] using hl
    | ok next => simpa [Ledger.appendOrKeep, h] using hl.append h
  next => exact hl

theorem buildLedger_built (key : ℕ) (bodies : List (EntryBody × List Posting)) :
    (buildLedger key bodies).Built := by
  have hgen : ∀ l : Ledger, l.Built → (bodies.foldl (growLedger key) l).Built := by
    induction bodies with
    | nil => exact fun l hl => hl
    | cons body bodies ih => exact fun l hl => ih _ (growLedger_built body hl)
  exact hgen _ ⟨key, [], rfl⟩

/-- The funded ledgers of the two leaves: `u` holds 50 at `a`, backed by `r`. -/
def fundedLedgers : LedgerSet where
  ledgers := (((∅ : ExtTreeMap NodeId Ledger).insert "r" (buildLedger 10
      [(.openAccount "a" .node, []), (.openAccount "b" .node, []),
        (.issue "a" 50, [⟨.child "a", 50⟩])])).insert "a" (buildLedger 11
      [(.openAccount "u" .user, []),
        (.transfer (0 : ℕ) 50 .descend, [⟨.parent, 50⟩, ⟨.child "u", 50⟩])])).insert "b"
    (buildLedger 12 [(.openAccount "v" .user, [])])

theorem fundedLedgers_built {node : NodeId} {l : Ledger} (h : fundedLedgers.get node = some l) :
    l.Built := by
  simp only [LedgerSet.get, fundedLedgers, ExtTreeMap.getElem?_insert] at h
  split at h
  · rw [← Option.some.inj h]
    exact buildLedger_built _ _
  · split at h
    · rw [← Option.some.inj h]
      exact buildLedger_built _ _
    · split at h
      · rw [← Option.some.inj h]
        exact buildLedger_built _ _
      · simp at h

@[inline]
def auditCrossOrder : Except LedgerError
    (PeerRegistry × SettlementPlan × LedgerSet × List SignedEntry) := do
  let registry ← twoLeavesRegistry.rows.foldlM PeerRegistry.insert PeerRegistry.new
  let plan ← planTransfer twoLeaves crossOrder (crossOrder.authorize (23 : ℕ)) fundedLedgers 1
  match executePlan plan fundedLedgers twoLeavesKeys registry 1 with
  | (_, .error e) => .error e
  | (after, .ok signed) =>
      if after.ledgers.toList.all fun e =>
          registry.ledgerOf e.1 == some e.2.ledgerId && decide (e.1 ∈ twoLeaves.nodeIds) then
        .ok (registry, plan, after, signed)
      else .error .unauthorized

theorem auditCrossOrder_isOk : auditCrossOrder.toBool = true := by decide +kernel

theorem fundedLedgers_start : collectAuthorizedTransfers fundedLedgers crossOrder = [] := by
  decide +kernel

theorem built_of_inserts {rows : List PeerKeys} {registry : PeerRegistry}
    (h : rows.foldlM PeerRegistry.insert PeerRegistry.new = .ok registry) : registry.Built :=
  foldlM_induction (P := fun _ r => r.Built) (d := []) (fun _ _ _ _ hr hstep => hr.insert hstep)
    .new h

structure AuditedRun (registry : PeerRegistry) (plan : SettlementPlan) (after : LedgerSet)
    (signed : List SignedEntry) : Prop where
  built : twoLeavesRegistry.rows.foldlM PeerRegistry.insert PeerRegistry.new = .ok registry
  planned : planTransfer twoLeaves crossOrder (crossOrder.authorize (23 : ℕ)) fundedLedgers 1
    = .ok plan
  exec : executePlan plan fundedLedgers twoLeavesKeys registry 1 = (after, .ok signed)
  registered : ∀ node l, after.get node = some l →
    registry.ledgerOf node = some l.ledgerId ∧ node ∈ twoLeaves.nodeIds

theorem auditCrossOrder_eq_ok {registry : PeerRegistry} {plan : SettlementPlan}
    {after : LedgerSet} {signed : List SignedEntry}
    (h : auditCrossOrder = .ok (registry, plan, after, signed)) :
    AuditedRun registry plan after signed := by
  simp only [auditCrossOrder, bind_eq_ok] at h
  obtain ⟨registry', hregistry, plan', hplan, h⟩ := h
  split at h
  · cases h
  next after' signed' hexec =>
    simp only [ite_ok_eq_ok, Prod.mk.injEq, Except.ok.injEq] at h
    obtain ⟨hcheck, rfl, rfl, rfl, rfl⟩ := h
    refine ⟨hregistry, hplan, hexec, ?_⟩
    intro node l hl
    have := List.all_eq_true.mp hcheck _ (ExtTreeMap.mem_toList_iff_getElem?_eq_some.mpr hl)
    simpa using this

/-- One execution of the payment between the two leaves, on built ledgers, is not objected to. -/
theorem netting_exact_twoLeaves :
    ∃ registry plan after signed, auditCrossOrder = .ok (registry, plan, after, signed)
      ∧ Cascaded twoLeaves registry crossOrder (collectAuthorizedTransfers after crossOrder)
      ∧ ∀ f ∈ (net twoLeaves after registry [crossOrder] ∅).findings, ¬ f.objects := by
  obtain ⟨⟨registry, plan, after, signed⟩, h⟩ := exists_ok_of_toBool auditCrossOrder_isOk
  have hrun := auditCrossOrder_eq_ok h
  have hbuilt := built_of_stageHops (fun _ _ => fundedLedgers_built)
    (executePlan_eq_ok.mp hrun.exec).2
  have hstart : Produced twoLeaves registry [crossOrder] [] fundedLedgers := by
    apply Produced.start
    intro order horder
    rw [List.mem_singleton.mp horder]
    exact fundedLedgers_start
  have hproduced := hstart.execute (List.mem_singleton_self crossOrder) (by simp) hrun.planned
    hrun.exec
  have hdistinct : ([crossOrder].map (·.hash)).Nodup := List.nodup_singleton _
  obtain ⟨hexact, hclean⟩ := netting_exact ∅ twoLeaves_valid (built_of_inserts hrun.built)
    (fun node l hl => (hrun.registered node l hl).2) hbuilt hdistinct
  have hnone := hclean _ hproduced (.refl _)
    (fun _ _ _ _ hop _ l hl => (hrun.registered hop.signer l hl).1)
  refine ⟨registry, plan, after, signed, h, ?_, hnone⟩
  exact (hexact crossOrder (List.mem_singleton_self _)).mp fun f hf hobj =>
    hnone f hf ⟨_, hobj⟩

end

end Cawala
