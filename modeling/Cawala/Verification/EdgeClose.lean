import Cawala.Verification.FailedOperations
import Cawala.Verification.PlanExecution

/-! # Closing a severed edge

The `Parent` asset of a detached node is written off by one entry, which posts its whole
balance. So it closes whatever fits a posting, and a balance beyond that is refused. -/

namespace Cawala

open Std (ExtTreeMap)
open Library Library.Transaction

section

variable [Crypto]

/-! ## The closing entry -/

section Entry

variable {e : Entry} {amount : Amount} {delta : SignedAmount}

theorem aggregateDeltas_singleton (p : Posting) :
    aggregateDeltas [p] = .ok ((∅ : Deltas).insert p.account p.delta.toInt) := by
  have hfits : fitsI128 p.delta.toInt = true := by
    have habs := abs_delta_le p
    exact fitsI128_of_abs_le (habs.trans (by norm_num))
  simp [aggregateDeltas, checkedAddI128, hfits, bind, Except.bind, pure, Except.pure]

theorem closing_conserves (hamount : amount ≠ 0) (hdelta : checkedI64 amount = .ok delta)
    (hbody : e.body = .edgeClose amount) (hpostings : e.postings = [⟨.parent, -delta⟩])
    (hauth : e.auth ≠ none) : e.checkConservation = .ok () := by
  obtain ⟨-, hneg⟩ := checkedI64_eq_ok hdelta
  have hagg : aggregateDeltas e.postings
      = .ok ((∅ : Deltas).insert .parent (-(amount.toNat : ℤ))) := by
    rw [hpostings, aggregateDeltas_singleton, hneg]
  have hlist : ((∅ : Deltas).insert AccountRef.parent (-(amount.toNat : ℤ))).toList
      = [(.parent, -(amount.toNat : ℤ))] :=
    List.perm_singleton.mp (toList_insert_of_notMem (by simp) _)
  have hsize : ((∅ : Deltas).insert AccountRef.parent (-(amount.toNat : ℤ))).size = 1 := by
    rw [← ExtTreeMap.length_toList, hlist]
    rfl
  have hnat : amount.toNat ≠ 0 := fun h => hamount (UInt64.toNat_inj.mp h)
  apply checkConservation_iff_stages.mpr
  refine ⟨by rw [Entry.HasAuth, hbody]; exact hauth, by rw [hbody]; simp, _, hagg, ?_, ?_⟩
  · simp [hbody, EntryBody.postingRule, checkPostingRule, hsize, hlist, hnat]
  · simp [Entry.validateShape, hbody, hamount, hsize]

omit [Crypto] in
theorem netDelta_singleton {p : Posting} {a : AccountRef} {v : ℤ}
    (h : netDelta [p] a = some v) : a = p.account ∧ v = p.delta.toInt := by
  rw [netDelta] at h
  split_ifs at h with hmem
  obtain ⟨q, hq, rfl⟩ := hmem
  rw [List.mem_singleton.mp hq] at h ⊢
  refine ⟨rfl, ?_⟩
  rw [← Option.some.inj h, postedDelta_singleton, if_pos rfl]

theorem closing_applies {b : Balances} (hparent : b.parentBalance = amount)
    (hdelta : checkedI64 amount = .ok delta) (hbody : e.body = .edgeClose amount)
    (hpostings : e.postings = [⟨.parent, -delta⟩]) (hcons : e.checkConservation = .ok ()) :
    ∃ next, b.applyEntry e = .ok next := by
  obtain ⟨-, hneg⟩ := checkedI64_eq_ok hdelta
  cases happly : b.applyEntry e with
  | ok next => exact ⟨next, rfl⟩
  | error err =>
      exfalso
      have hlen : e.postings.length < 2 ^ 62 := by
        rw [hpostings]
        norm_num
      cases applyFailure_of_accepted hlen hcons happly with
      | alreadyOpen hopens _ =>
          obtain ⟨kind, hopens⟩ := hopens
          rw [hbody] at hopens
          cases hopens
      | movement hnet hfailure =>
          rw [hpostings] at hnet
          obtain ⟨rfl, rfl⟩ := netDelta_singleton hnet
          have hbalance : b.balance .parent = (amount.toNat : ℤ) := by
            rw [← hparent]
            rfl
          cases hfailure with
          | notOpen hid _ => cases hid
          | negative hlt =>
              rw [hneg, hbalance] at hlt
              omega
          | exceeds hlt =>
              rw [hneg, hbalance] at hlt
              omega

end Entry

/-! ## Signing and appending on a healthy node -/

/-- A detached node that can write: its lock is free, its files are readable, no write fails,
and the peer file and the identity agree with the node's keys. -/
structure Detached (env : TxEnv) (operator : OperatorSecretKey) (s : LedgerService) : Prop where
  locked : env.locked = true
  readable : env.readable = true
  detached : env.isRoot = true
  writes : ∀ n, env.writeError n = none
  operator : env.operator = some operator
  peers : ∀ registry, env.peers = some registry → registry.Registered
  registry : ∃ registry, s.effectiveRegistry env = .ok registry

variable {env : TxEnv} {operator : OperatorSecretKey} {s : LedgerService}

theorem effectiveRegistry_spec {registry : PeerRegistry}
    (hpeers : ∀ registry, env.peers = some registry → registry.Registered)
    (hoperator : env.operator = some operator) (h : s.effectiveRegistry env = .ok registry) :
    registry.Registered ∧ ∃ row, registry.get s.nodeId = some row ∧ row.nodeId = s.nodeId
      ∧ row.operator = Crypto.pubKey operator ∧ row.ledger = some (Crypto.pubKey s.key) := by
  unfold LedgerService.effectiveRegistry at h
  rw [hoperator] at h
  cases hfile : env.peers with
  | none =>
      rw [hfile] at h
      cases h
  | some file =>
      rw [hfile] at h
      have hfileRegistered := hpeers file hfile
      cases hget : file.get s.nodeId with
      | some row =>
          simp only [hget, ite_error_eq_ok, not_or, not_not, Except.ok.injEq] at h
          obtain ⟨⟨-, hop, hledger⟩, rfl⟩ := h
          exact ⟨hfileRegistered, row, hget, hfileRegistered.keyed _ _ hget, hop, hledger⟩
      | none =>
          simp only [hget, tagged_eq_ok] at h
          refine ⟨PeerRegistry.registered_insert hfileRegistered h, s.selfRow operator, ?_, rfl,
            rfl, rfl⟩
          simp only [PeerRegistry.insert, ite_error_eq_ok, Except.ok.injEq] at h
          obtain ⟨-, -, -, -, rfl⟩ := h
          simp [PeerRegistry.get, LedgerService.selfRow]

omit [Crypto] in
theorem le_expiryAfter (now : UInt64) : ¬ now > expiryAfter now := by
  rw [expiryAfter, gt_iff_lt, UInt64.lt_iff_toNat_lt]
  have hlt := now.toNat_lt
  split_ifs with h
  · rw [UInt64.toNat_add]
    simp only [UInt64.reduceToNat]
    omega
  · simp only [UInt64.toNat_ofNat']
    omega

variable [Postcard]

/-- A conserved, verified entry on top of the ledger is signed and appended. -/
theorem signAndAppend_exists (hcodec : EncodesEntries) (hsign : Crypto.SignCorrect) {desk : Desk}
    {now : UInt64} {body : EntryBody} {postings : List Posting} {auth : Option AuthRef}
    {registry : LedgerService → Except ServiceError PeerRegistry} {peers : PeerRegistry}
    {verify : SignedEntry → PeerRegistry → Except LedgerError Unit}
    (hid : desk.service.ledger.ledgerId = Crypto.pubKey desk.service.key)
    (hkey : desk.service.ledger.ledgerPubkey = Crypto.pubKey desk.service.key)
    (hbody : ∀ key sig, body ≠ .rotateLedgerKey key sig)
    (hcons : (desk.service.nextEntry now body postings auth).checkConservation = .ok ())
    (hregistry : registry desk.service = .ok peers)
    (hverify : ∀ signed, signed.entry = desk.service.nextEntry now body postings auth →
      signed.Authentic → verify signed peers = .ok ())
    (hwrites : ∀ n, env.writeError n = none)
    (happly : ∃ next, desk.service.ledger.balances.applyEntry
      (desk.service.nextEntry now body postings auth) = .ok next) :
    ∃ applied signed ledger, signed.entry = desk.service.nextEntry now body postings auth
      ∧ desk.service.ledger.append signed = .ok ledger
      ∧ exec (signAndAppend env (desk.service.nextEntry now body postings auth) registry verify)
          desk = (.ok applied, desk.push signed ledger) := by
  let entry := desk.service.nextEntry now body postings auth
  obtain ⟨tail, htail⟩ := hcodec entry
  have hbytes : entry.canonicalBytes = .ok (.byte 4 :: tail) := by
    rw [Entry.canonicalBytes, htail]
  let signed : SignedEntry :=
    { entry, signature := Crypto.sign desk.service.key (.byte 4 :: tail) }
  have hsigned : SignedEntry.sign entry desk.service.key = .ok signed := by
    rw [SignedEntry.sign, hbytes]
    rfl
  have hauthentic : signed.Authentic := ⟨_, hbytes, hsign desk.service.key _⟩
  obtain ⟨next, happly⟩ := happly
  have hlast : ∃ ledger, desk.service.ledger.append signed = .ok ledger :=
    append_exists hid.symm (hid.trans hkey.symm) hbody rfl rfl rfl hcons hauthentic happly
  obtain ⟨ledger, happend⟩ := hlast
  have hhash := (append_spec happend).head
  refine ⟨(entry.seq, ledger.log.head), signed, ledger, rfl, happend, ?_⟩
  have hverified := hverify signed rfl hauthentic
  rw [signAndAppend, exec_get_bind]
  simp only [exec_bind, exec_ofExcept, entry, hsigned, hregistry, hverified, hhash, tagged,
    appendSigned, exec_get, happend, hwrites]
  rfl

/-! ## Closing -/

section Closing

variable {key : LedgerSecretKey} {desk began : Desk} {nonce now : UInt64}

/-- After a refresh a zero balance is answered with nothing. -/
theorem edgeClose_zero (hbegin : exec (beginTransaction env) desk = (.ok ⟨⟩, began))
    (hzero : began.service.ledger.balances.parentBalance = 0) :
    exec (edgeClose env operator nonce now) desk = (.ok none, began) := by
  rw [edgeClose, exec_bind, hbegin]
  simp only [exec_get_bind, hzero, if_true]
  rfl

theorem edgeClose_beyond (hbegin : exec (beginTransaction env) desk = (.ok ⟨⟩, began))
    (hroot : began.service.isRoot = true)
    (hbeyond : 2 ^ 63 ≤ began.service.ledger.balances.parentBalance.toNat) :
    exec (edgeClose env operator nonce now) desk = (.error .amountRange, began) := by
  have hne : began.service.ledger.balances.parentBalance ≠ 0 := by
    intro h
    rw [h] at hbeyond
    simp at hbeyond
  have hrange : signedRange .amountRange began.service.ledger.balances.parentBalance
      = .error .amountRange := by
    rw [signedRange, checkedI64, if_neg (by omega)]
    rfl
  rw [edgeClose, exec_bind, hbegin]
  simp only [exec_get_bind, hne, if_false]
  rw [exec_refuseIf_bind, if_neg (by simp [hroot]), exec_bind, exec_ofExcept, hrange]

variable (nonce now) in
/-- A balance in the signed range is written off by one entry. -/
theorem edgeClose_writes (hcodec : EncodesEntries) (hsign : Crypto.SignCorrect)
    (hbegin : exec (beginTransaction env) desk = (.ok ⟨⟩, began))
    (henv : Detached env operator began.service) (hroot : began.service.isRoot = true)
    (hreplayed : openLedger began.service.key began.frames = .ok began.service.ledger)
    (hne : began.service.ledger.balances.parentBalance ≠ 0)
    (hrange : began.service.ledger.balances.parentBalance.toNat < 2 ^ 63) :
    ∃ applied signed ledger, began.service.ledger.append signed = .ok ledger
      ∧ signed.payment = none
      ∧ exec (edgeClose env operator nonce now) desk
          = (.ok (some applied), began.push signed ledger)
      ∧ ledger.balances.parentBalance = 0
      ∧ ∀ child, ledger.balances.childBalance child
          = began.service.ledger.balances.childBalance child := by
  obtain ⟨-, -, hid, hpub⟩ := parse_of_replay (openLedger_eq_ok.mp hreplayed)
  obtain ⟨registry, hregistry⟩ := henv.registry
  obtain ⟨hregistered, row, hrow, hnode, hoperator, hledger⟩ :=
    effectiveRegistry_spec henv.peers henv.operator hregistry
  have hdelta : checkedI64 began.service.ledger.balances.parentBalance
      = .ok (Int64.ofNat began.service.ledger.balances.parentBalance.toNat) := by
    rw [checkedI64, if_pos hrange]
  let amount := began.service.ledger.balances.parentBalance
  let request : EdgeCloseRequest :=
    { node := began.service.nodeId, amount, nonce, expiry := expiryAfter now }
  let delta : SignedAmount := Int64.ofNat amount.toNat
  let auth := request.authorize operator
  have hcons : (began.service.nextEntry now (.edgeClose amount) [⟨.parent, -delta⟩]
      (some auth)).checkConservation = .ok () :=
    closing_conserves hne hdelta rfl rfl (by simp [LedgerService.nextEntry])
  have hverify : ∀ signed : SignedEntry,
      signed.entry = began.service.nextEntry now (.edgeClose amount) [⟨.parent, -delta⟩]
        (some auth) → signed.Authentic → verifyEdgeClose signed request registry now = .ok () := by
    intro signed hentry hauthentic
    have hsigner : registry.verifyEntry signed = .ok row := by
      refine (PeerRegistry.verifyEntry_eq_ok hregistered).mpr ⟨?_, ?_, hauthentic⟩
      · rw [hnode]
        exact hrow
      · rw [hledger, hentry]
        rfl
    have htime : ¬ now > request.expiry := by
      dsimp only [request]
      exact le_expiryAfter now
    rw [verifyEdgeClose, verifyRequest_eq_ok]
    refine ⟨by rw [hentry]; exact hcons, ⟨row, hsigner, hnode, auth,
      by rw [hentry]; rfl, hoperator.symm, rfl, rfl, hsign operator _⟩, htime, ?_, rfl, ?_⟩
    · rw [hentry]
      rfl
    · rw [hentry]
      simp [LedgerService.nextEntry, requireShape, request]
  have happly := closing_applies (rfl : began.service.ledger.balances.parentBalance = amount)
    hdelta rfl rfl hcons
  have hsigned : ∃ applied signed ledger,
      signed.entry = began.service.nextEntry now (.edgeClose amount) [⟨.parent, -delta⟩] (some auth)
        ∧ began.service.ledger.append signed = .ok ledger
        ∧ exec (signAndAppend env (began.service.nextEntry now (.edgeClose amount)
            [⟨.parent, -delta⟩] (some auth)) (·.effectiveRegistry env)
            (verifyEdgeClose · request · now)) began = (.ok applied, began.push signed ledger) :=
    signAndAppend_exists hcodec hsign hid hpub (by simp) hcons hregistry hverify henv.writes happly
  obtain ⟨applied, signed, ledger, hentry, happend, hexec⟩ := hsigned
  have heffect := (append_spec happend).effect
  obtain ⟨hpos, hneg⟩ := checkedI64_eq_ok hdelta
  have hdeltas : ∀ a, postedDelta signed.entry.postings a
      = if a = .parent then -(amount.toNat : ℤ) else 0 := by
    intro a
    rw [hentry]
    change postedDelta [⟨.parent, -delta⟩] a = _
    rw [postedDelta_singleton]
    by_cases ha : a = .parent
    · rw [if_pos ha.symm, if_pos ha]
      exact hneg
    · rw [if_neg fun h => ha h.symm, if_neg ha]
  refine ⟨applied, signed, ledger, happend, by rw [SignedEntry.payment, hentry]; rfl, ?_, ?_, ?_⟩
  · rw [edgeClose, exec_bind, hbegin]
    simp only [exec_get_bind]
    rw [if_neg hne, exec_refuseIf_bind, if_neg (by simp [hroot]), exec_bind, exec_ofExcept,
      signedRange, hdelta]
    simp only [tagged]
    rw [exec_bind, hexec]
    rfl
  · have hbalance := heffect.balance .parent
    rw [hdeltas, if_pos rfl] at hbalance
    have hparent : (ledger.balances.parentBalance.toNat : ℤ)
        = (amount.toNat : ℤ) + -(amount.toNat : ℤ) := hbalance
    apply UInt64.toNat_inj.mp
    rw [UInt64.toNat_zero]
    omega
  · intro child
    have hbalance := heffect.balance (.child child)
    rw [hdeltas, if_neg (by simp)] at hbalance
    have hchild : (ledger.balances.childBalance child).toNat
        = ((began.service.ledger.balances.childBalance child).toNat : ℤ) + 0 := hbalance
    apply UInt64.toNat_inj.mp
    omega

variable (env) in
omit [Postcard] in
theorem effectiveRegistry_congr {s' : LedgerService} (hid : s'.nodeId = s.nodeId)
    (hkey : s'.key = s.key) : s'.effectiveRegistry env = s.effectiveRegistry env := by
  unfold LedgerService.effectiveRegistry LedgerService.selfRow
  rw [hid, hkey]

theorem began_of_logSound (hlog : LogSound key desk.frames) (hkey : desk.service.key = key)
    (hlocked : env.locked = true) (hreadable : env.readable = true) :
    ∃ began, exec (beginTransaction env) desk = (.ok ⟨⟩, began)
      ∧ Synced key desk.frames began ∧ began.frames = desk.frames
      ∧ began.service.nodeId = desk.service.nodeId ∧ began.service.isRoot = env.isRoot := by
  obtain ⟨began, hbegin⟩ := beginTransaction_exists hlog hkey hlocked hreadable
  have hspec := beginTransaction_meets env hlog hkey desk rfl
  rw [hbegin] at hspec
  obtain ⟨hsynced, hframes, hnode⟩ := hspec
  refine ⟨began, hbegin, hsynced, hframes, hnode, ?_⟩
  have hexec := exec_beginTransaction env desk
  rw [hbegin, hlocked] at hexec
  cases hload : load env desk.service.key desk.frames with
  | error e =>
      rw [hload] at hexec
      cases hexec
  | ok loaded =>
      rw [hload] at hexec
      exact congrArg (fun r => r.2.service.isRoot) hexec

/-- A closed edge: one entry was written, the parent asset is gone and the liabilities are as
before, and closing again changes nothing. -/
structure EdgeClosed (key : LedgerSecretKey) (frames : List SignedEntry) (ledger : Ledger)
    (after : Desk) : Prop where
  written : ∃ s, after.frames = frames ++ [s]
  replayed : openLedger key after.frames = .ok after.service.ledger
  parent : after.service.ledger.balances.parentBalance = 0
  children : ∀ child, after.service.ledger.balances.childBalance child
    = ledger.balances.childBalance child
  again : ∀ (env : TxEnv) (operator : OperatorSecretKey) (nonce now : UInt64),
    env.locked = true → env.readable = true → ∃ later,
      exec (edgeClose env operator nonce now) after = (.ok none, later)
        ∧ later.frames = after.frames ∧ later.service.ledger = after.service.ledger

theorem edgeClosed_of_push {signed : SignedEntry} {ledger : Ledger}
    (hsynced : Synced key desk.frames began) (hframes : began.frames = desk.frames)
    (happend : began.service.ledger.append signed = .ok ledger) (hnone : signed.payment = none)
    (hparent : ledger.balances.parentBalance = 0)
    (hchildren : ∀ child, ledger.balances.childBalance child
      = began.service.ledger.balances.childBalance child) :
    EdgeClosed key desk.frames began.service.ledger (began.push signed ledger) := by
  have hpushed : Synced key desk.frames (began.push signed ledger) := hsynced.push hnone happend
  refine ⟨⟨signed, by rw [Desk.push, hframes]⟩, hpushed.replayed, hparent, hchildren, ?_⟩
  intro env operator nonce now hlocked hreadable
  obtain ⟨later, hbegin, hagain, hsame, -⟩ :=
    began_of_logSound hpushed.logSound hpushed.sameKey hlocked hreadable
  have hledger : later.service.ledger = ledger := by
    have hreplayed := hagain.replayed
    rw [hsame, hpushed.replayed] at hreplayed
    exact (Except.ok.inj hreplayed).symm
  refine ⟨later, edgeClose_zero hbegin (by rw [hledger, hparent]), hsame, hledger⟩

/-- On a detached node that can write, closing writes off the parent asset if a posting can hold
it, does nothing if there is none, and refuses what is beyond the signed range. -/
theorem edge_close_law (hcodec : EncodesEntries) (hsign : Crypto.SignCorrect)
    {events : List HostEvent} {i : ℕ} {service : LedgerService}
    (hproc : (Host.run key events).procs i = some service)
    (henv : Detached env operator service) (nonce now : UInt64) :
    ∃ ledger, openLedger key (Host.run key events).frames = .ok ledger
      ∧ ∃ result after, exec (edgeClose env operator nonce now)
          ⟨(Host.run key events).frames, service⟩ = (result, after)
      ∧ (ledger.balances.parentBalance = 0 → result = .ok none
        ∧ after.frames = (Host.run key events).frames ∧ after.service.ledger = ledger)
      ∧ (0 < ledger.balances.parentBalance.toNat → ledger.balances.parentBalance.toNat < 2 ^ 63 →
        (∃ applied, result = .ok (some applied))
          ∧ EdgeClosed key (Host.run key events).frames ledger after)
      ∧ (2 ^ 63 ≤ ledger.balances.parentBalance.toNat → result = .error .amountRange
        ∧ after.frames = (Host.run key events).frames ∧ after.service.ledger = ledger) := by
  have hsound : HostSound key (Host.run key events) := run_hostSound events
  have hkey := (hsound.procs i service hproc).sameKey
  obtain ⟨began, hbegin, hsynced, hframes, hnode, hroot⟩ :=
    @began_of_logSound _ env _ key ⟨(Host.run key events).frames, service⟩ hsound.log hkey
      henv.locked henv.readable
  have hreplayed := hsynced.replayed
  rw [hframes] at hreplayed
  have hregistry := effectiveRegistry_congr env hnode (hsynced.sameKey.trans hkey.symm)
  have henv' : Detached env operator began.service :=
    { henv with registry := hregistry ▸ henv.registry }
  refine ⟨began.service.ledger, hreplayed, _, _, Prod.mk.eta.symm, ?_, ?_, ?_⟩
  · intro hzero
    rw [edgeClose_zero hbegin hzero]
    exact ⟨rfl, hframes, rfl⟩
  · intro hpos hrange
    have hne : began.service.ledger.balances.parentBalance ≠ 0 := by
      intro h
      rw [h] at hpos
      simp at hpos
    obtain ⟨applied, signed, ledger, happend, hnone, hexec, hparent, hchildren⟩ :=
      edgeClose_writes nonce now hcodec hsign hbegin henv'
        (hroot.trans henv.detached) (by rw [hsynced.sameKey]; exact hsynced.replayed) hne hrange
    rw [hexec]
    exact ⟨⟨applied, rfl⟩, edgeClosed_of_push hsynced hframes happend hnone hparent hchildren⟩
  · intro hbeyond
    rw [edgeClose_beyond hbegin (hroot.trans henv.detached) hbeyond]
    exact ⟨rfl, hframes, rfl⟩

end Closing

end

section Concrete

open Concrete

def attachedDisk : TxEnv := { diskOk with isRoot := false }

/-- A process starts, and prefunds a child by each of two amounts. -/
def prefundRun (first second : Amount) : List HostEvent :=
  [.start 0 attachedDisk "n",
    .perform 0 attachedDisk (.prefund "u" .user first (1 : ℕ) 1 100),
    .perform 0 attachedDisk (.prefund "u" .user second (1 : ℕ) 2 100)]

theorem detached_diskOk {service : LedgerService}
    (h : (service.effectiveRegistry diskOk).toBool = true) :
    Detached diskOk (1 : ℕ) service where
  locked := rfl
  readable := rfl
  detached := rfl
  writes := fun _ => rfl
  operator := rfl
  peers := by
    intro registry h
    cases h
    exact PeerRegistry.registered_of_built .new
  registry := exists_ok_of_toBool h

/-- A parent asset of eight units is written off. -/
theorem edge_close_law_prefunded : ∃ service ledger after applied,
    (Host.run (9 : ℕ) (prefundRun 3 5)).procs 0 = some service
      ∧ exec (edgeClose diskOk (1 : ℕ) 7 200) ⟨(Host.run (9 : ℕ) (prefundRun 3 5)).frames, service⟩
        = (.ok (some applied), after)
      ∧ EdgeClosed (9 : ℕ) (Host.run (9 : ℕ) (prefundRun 3 5)).frames ledger after := by
  have hrun : ((Host.run (9 : ℕ) (prefundRun 3 5)).procs 0).map (fun service =>
      (service.effectiveRegistry diskOk).toBool) = some true := by
    decide +kernel
  have hparent : (openLedger (9 : ℕ) (Host.run (9 : ℕ) (prefundRun 3 5)).frames).map
      (fun ledger => ledger.balances.parentBalance) = .ok 8 := by
    decide +kernel
  obtain ⟨service, hproc, hregistry⟩ := Option.map_eq_some_iff.mp hrun
  obtain ⟨ledger, hledger, result, after, hexec, -, hclosed, -⟩ :=
    edge_close_law (fun e => ⟨_, rfl⟩) signCorrect hproc (detached_diskOk hregistry) 7 200
  have height : ledger.balances.parentBalance = 8 := by
    rw [hledger] at hparent
    exact Except.ok.inj hparent
  obtain ⟨⟨applied, rfl⟩, hedge⟩ := hclosed (by rw [height]; decide) (by rw [height]; decide)
  exact ⟨service, ledger, after, applied, hproc, hexec, hedge⟩

/-- A parent asset of 2^63 units is not. -/
theorem edge_close_beyond_range : ¬ ∀ (events : List HostEvent) (i : ℕ) (service : LedgerService)
    (env : TxEnv) (operator : OperatorSecretKey) (nonce now : UInt64),
    (Host.run (9 : ℕ) events).procs i = some service → Detached env operator service →
    ∃ result after, exec (edgeClose env operator nonce now)
      ⟨(Host.run (9 : ℕ) events).frames, service⟩ = (.ok result, after) := by
  intro h
  have hrun : ((Host.run (9 : ℕ) (prefundRun (2 ^ 63 - 1) 1)).procs 0).map (fun service =>
      ((service.effectiveRegistry diskOk).toBool, (exec (edgeClose diskOk (1 : ℕ) 7 200)
        ⟨(Host.run (9 : ℕ) (prefundRun (2 ^ 63 - 1) 1)).frames, service⟩).1.toBool))
      = some (true, false) := by
    decide +kernel
  obtain ⟨service, hproc, hservice⟩ := Option.map_eq_some_iff.mp hrun
  obtain ⟨hregistry, hclose⟩ := Prod.mk.inj hservice
  obtain ⟨result, after, hexec⟩ := h _ 0 service diskOk (1 : ℕ) 7 200 hproc
    (detached_diskOk hregistry)
  rw [hexec] at hclose
  cases hclose

end Concrete

end Cawala
