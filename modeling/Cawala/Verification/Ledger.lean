import Cawala.Verification.Account

/-! # What an append does to a ledger

The inversion lemma of `append`, the effect of one accepted entry on the balances, and
the induction rule for runs of append attempts. -/

namespace Cawala

open Std (ExtTreeMap)
open Library

variable [Crypto]

/-! ## The effect of one entry -/

def Entry.opens (e : Entry) (child : NodeId) : Prop := ∃ kind, e.body = .openAccount child kind

def Entry.postsTo (e : Entry) (child : NodeId) : Prop :=
  ∃ p ∈ e.postings, p.account = .child child

def EntryBody.equityDelta : EntryBody → ℤ
  | .issue _ amount => -amount.toNat
  | .burn _ amount => amount.toNat
  | .edgeClose amount => -amount.toNat
  | _ => 0

structure EntryEffect (before after : Balances) (e : Entry) : Prop where
  balance : ∀ a, after.balance a = before.balance a + postedDelta e.postings a
  equity : after.equity = before.equity + e.body.equityDelta
  children : ∀ id, id ∈ after.children ↔ id ∈ before.children ∨ e.opens id
  fresh : ∀ id, e.opens id → id ∉ before.children ∧ e.postings = []
  opened : ∀ id, e.postsTo id → id ∈ before.children

/-- Opening an account adds a zero balance for a child that had none. -/
theorem openAccount_spec {b b' : Balances} {child : NodeId}
    (h : b.openAccount child = .ok b') :
    child ∉ b.children ∧ b' = { b with children := b.children.insert child 0 }
      ∧ (∀ a, b'.balance a = b.balance a) ∧ b'.equity = b.equity := by
  simp only [Balances.openAccount, ite_error_eq_ok, Except.ok.injEq] at h
  obtain ⟨hnot, rfl⟩ := h
  have hnone : b.children[child]? = none := ExtTreeMap.getElem?_eq_none (by simpa using hnot)
  refine ⟨by simpa using hnot, rfl, ?_, ?_⟩
  · intro a
    cases a with
    | parent => rfl
    | child id =>
        by_cases hid : child = id
        · subst hid
          simp [Balances.balance, Balances.childBalance, ExtTreeMap.getD_eq_getD_getElem?, hnone]
        · simp [Balances.balance, Balances.childBalance, ExtTreeMap.getD_insert, hid]
  · rw [Balances.equity_eq, Balances.equity_eq, total_insert]
    simp [entryAt, hnone]

theorem equity_of_shape {e : Entry} {deltas : Deltas}
    (hrule : checkPostingRule deltas e.body.postingRule = .ok ())
    (hshape : e.validateShape deltas = .ok ()) :
    deltaAt deltas.toList .parent - childDelta deltas.toList = e.body.equityDelta := by
  cases hbody : e.body with
  | openAccount child kind =>
      simp only [hbody, EntryBody.postingRule, checkPostingRule, bind_eq_ok] at hrule
      obtain ⟨⟨parent, child'⟩, hsums, hcons⟩ := hrule
      obtain ⟨rfl, rfl⟩ := classSums_spec hsums
      simp only [postingsConserve, ite_ok_eq_ok] at hcons
      exact hcons.2.1
  | transfer paymentId amount role =>
      simp only [hbody, EntryBody.postingRule, checkPostingRule, bind_eq_ok] at hrule
      obtain ⟨⟨parent, child'⟩, hsums, hcons⟩ := hrule
      obtain ⟨rfl, rfl⟩ := classSums_spec hsums
      simp only [postingsConserve, ite_ok_eq_ok] at hcons
      exact hcons.2.1
  | issue child amount =>
      simp only [Entry.validateShape, hbody, ite_error_eq_ok, ite_ok_eq_ok, Bool.and_eq_true,
        beq_iff_eq] at hshape
      obtain ⟨-, ⟨hsize, hget⟩, -⟩ := hshape
      rw [toList_eq_singleton hsize hget]
      simp [deltaAt, childDelta, EntryBody.equityDelta]
  | burn child amount =>
      simp only [Entry.validateShape, hbody, ite_error_eq_ok, ite_ok_eq_ok, Bool.and_eq_true,
        beq_iff_eq] at hshape
      obtain ⟨-, ⟨hsize, hget⟩, -⟩ := hshape
      rw [toList_eq_singleton hsize hget]
      simp [deltaAt, childDelta, EntryBody.equityDelta]
  | rotateLedgerKey newKey operatorSig => simp [Entry.validateShape, hbody] at hshape
  | edgeClose amount =>
      simp only [Entry.validateShape, hbody, ite_error_eq_ok, ite_ok_eq_ok, Bool.and_eq_true,
        beq_iff_eq] at hshape
      obtain ⟨-, ⟨hsize, hget⟩, -⟩ := hshape
      rw [toList_eq_singleton hsize hget]
      simp [deltaAt, childDelta, EntryBody.equityDelta]

/-- A successful conservation check aggregated the postings and passed rule and shape. -/
theorem checkConservation_spec {e : Entry} (h : e.checkConservation = .ok ()) :
    ∃ deltas, aggregateDeltas e.postings = .ok deltas
      ∧ checkPostingRule deltas e.body.postingRule = .ok ()
      ∧ e.validateShape deltas = .ok () := by
  unfold Entry.checkConservation at h
  split at h
  · cases h
  · simp only [ite_error_eq_ok, bind_eq_ok] at h
    obtain ⟨-, _, -, deltas, hagg, _, hrule, hshape⟩ := h
    exact ⟨deltas, hagg, hrule, hshape⟩

theorem applyEntry_spec {b b' : Balances} {e : Entry} (h : b.applyEntry e = .ok b') :
    ∃ mid, b.openDeclared e.body = .ok mid
      ∧ mid.applyWith e.body.postingRule e.postings = .ok b' := by
  simp only [Balances.applyEntry, bind_eq_ok] at h
  obtain ⟨mid, hmid, happ⟩ := h
  refine ⟨mid, hmid, ?_⟩
  cases hrule : e.body.postingRule with
  | balanced => simpa [hrule, Balances.apply] using happ
  | boundary => simpa [hrule, Balances.applyBoundary] using happ
  | boundaryParent => simpa [hrule, Balances.applyParentBoundary] using happ

/-- A conserved entry that applies has the effect its body and postings declare. -/
theorem entryEffect_of_apply {b b' : Balances} {e : Entry} (hcons : e.checkConservation = .ok ())
    (happly : b.applyEntry e = .ok b') : EntryEffect b b' e := by
  obtain ⟨deltas, hagg, hrule, hshape⟩ := checkConservation_spec hcons
  obtain ⟨mid, hmid, hwith⟩ := applyEntry_spec happly
  obtain ⟨deltas', hagg', -, happ⟩ := applyWith_spec hwith
  obtain rfl : deltas' = deltas := by
    rw [hagg] at hagg'
    exact (Except.ok.inj hagg').symm
  have hbal : ∀ a, b'.balance a = mid.balance a + postedDelta e.postings a := by
    intro a
    rw [happ.balance, deltaAt_toList hagg]
  have heq : b'.equity = mid.equity + e.body.equityDelta := by
    rw [happ.equity, ← equity_of_shape hrule hshape]
    ring
  have hposts : ∀ id, e.postsTo id → id ∈ mid.children := by
    rintro id ⟨p, hp, hacc⟩
    have hin : AccountRef.child id ∈ deltas' :=
      ((aggregateDeltas_spec hagg).mem _).mpr ⟨p, hp, hacc⟩
    obtain ⟨v, hv⟩ := Option.isSome_iff_exists.mp (ExtTreeMap.mem_iff_isSome_getElem?.mp hin)
    exact happ.opened id v (ExtTreeMap.mem_toList_iff_getElem?_eq_some.mpr hv)
  by_cases hopen : ∃ child, e.opens child
  · obtain ⟨child, kind, hbody⟩ := hopen
    simp only [hbody, Balances.openDeclared] at hmid
    obtain ⟨hfresh, rfl, hsame, hequity⟩ := openAccount_spec hmid
    have hnil : e.postings = [] := by
      simp only [Entry.validateShape, hbody, ite_ok_eq_ok] at hshape
      simpa using hshape.1
    have hopens : ∀ id, e.opens id ↔ id = child := by
      intro id
      simp [Entry.opens, hbody, eq_comm]
    refine ⟨fun a => by rw [hbal, hsame], by rw [heq, hequity], ?_, ?_, ?_⟩
    · intro id
      rw [happ.children, hopens]
      simp only [ExtTreeMap.mem_insert, compare_eq_iff_eq]
      tauto
    · intro id hid
      rw [(hopens id).mp hid]
      exact ⟨hfresh, hnil⟩
    · rintro id ⟨p, hp, -⟩
      simp [hnil] at hp
  · have hmid' : mid = b := by
      cases hbody : e.body <;> simp_all [Entry.opens, Balances.openDeclared]
    subst hmid'
    refine ⟨hbal, heq, ?_, ?_, hposts⟩
    · intro id
      rw [happ.children]
      exact ⟨Or.inl, fun h => h.resolve_right (fun ho => hopen ⟨id, ho⟩)⟩
    · intro id hid
      exact absurd ⟨id, hid⟩ hopen

/-! ## Appending -/

variable [Postcard]

/-- What a successful append checked, and what it changed. -/
structure Appended (l l' : Ledger) (s : SignedEntry) : Prop where
  ledgerId : s.entry.ledgerId = l.ledgerId
  signature : ∃ bytes, s.entry.canonicalBytes = .ok bytes
    ∧ Crypto.verify l.ledgerPubkey bytes s.signature = true
  seq : s.entry.seq = UInt64.ofNat l.len
  height : s.entry.height = s.entry.seq
  prevHash : s.entry.prevHash = l.headHash
  conserved : s.entry.checkConservation = .ok ()
  applied : l.balances.applyEntry s.entry = .ok l'.balances
  entries : l'.log.entries = l.log.entries ++ [s]
  head : entryHash s.entry = .ok l'.log.head
  sameId : l'.ledgerId = l.ledgerId
  sameKey : l'.ledgerPubkey = l.ledgerPubkey
  newHeight : l'.height = s.entry.height

/-- The inversion lemma of `append`. -/
theorem append_spec {l l' : Ledger} {s : SignedEntry} (h : l.append s = .ok l') :
    Appended l l' s := by
  simp only [Ledger.append, MemLog.append, bind_eq_ok, pure_eq_ok] at h
  obtain ⟨_, hheader, _, hcons, balances, happ, log, ⟨head, hhead, rfl⟩, rfl⟩ := h
  simp only [Ledger.checkHeader, ite_error_eq_ok, not_not] at hheader
  obtain ⟨hid, hheader⟩ := hheader
  split at hheader
  · cases hheader
  · simp only [bind_eq_ok, ite_error_eq_ok, not_not, Bool.not_eq_true,
      Bool.not_eq_false'] at hheader
    obtain ⟨bytes, hbytes, hsig, hseq, hheight, hprev, -⟩ := hheader
    exact ⟨hid, ⟨bytes, hbytes, by simpa using hsig⟩, hseq, hheight, hprev, hcons, happ, rfl,
      hhead, rfl, rfl, rfl⟩

theorem Appended.effect {l l' : Ledger} {s : SignedEntry} (h : Appended l l' s) :
    EntryEffect l.balances l'.balances s.entry :=
  entryEffect_of_apply h.conserved h.applied

/-- A fact of the empty ledger that every accepted entry keeps holds after every run. -/
theorem run_induction {P : Ledger → Prop}
    (hstep : ∀ l l' s, P l → l.append s = .ok l' → P l') {l : Ledger} (hl : P l)
    (attempts : List SignedEntry) : P (l.run attempts) := by
  induction attempts generalizing l with
  | nil => exact hl
  | cons s attempts ih =>
      rw [Ledger.run, List.foldl_cons, ← Ledger.run]
      apply ih
      unfold Ledger.appendOrKeep
      cases h : l.append s with
      | ok next => exact hstep l next s hl h
      | error e => exact hl

/-- The ledgers that appends build: a fresh one after a run of attempts. -/
def Ledger.Built (l : Ledger) : Prop := ∃ key attempts, l = (Ledger.new key).run attempts

theorem Ledger.Built.append {l l' : Ledger} {s : SignedEntry} (hl : l.Built)
    (h : l.append s = .ok l') : l'.Built := by
  obtain ⟨key, attempts, rfl⟩ := hl
  refine ⟨key, attempts ++ [s], ?_⟩
  simp only [Ledger.run, List.foldl_append, List.foldl_cons, List.foldl_nil]
  rw [← Ledger.run, Ledger.appendOrKeep, h]

/-- A fact of the empty ledger that every accepted entry keeps holds of every built one. -/
theorem Ledger.Built.induction {P : Ledger → Prop} (hnew : ∀ key, P (Ledger.new key))
    (hstep : ∀ l l' s, P l → l.append s = .ok l' → P l') {l : Ledger} (hl : l.Built) : P l := by
  obtain ⟨key, attempts, rfl⟩ := hl
  exact run_induction hstep (hnew key) attempts

theorem Ledger.Built.conserved {l : Ledger} (hl : l.Built) :
    ∀ s ∈ l.log.entries, s.entry.checkConservation = .ok () := by
  refine hl.induction (P := fun l => ∀ s ∈ l.log.entries, s.entry.checkConservation = .ok ())
    ?_ ?_
  · intro key s hs
    cases hs
  · intro l l' s hl happend s' hs'
    rw [(append_spec happend).entries] at hs'
    rcases List.mem_append.mp hs' with hs' | hs'
    · exact hl s' hs'
    · rw [List.mem_singleton.mp hs']
      exact (append_spec happend).conserved

/-- The attempts of a run that are accepted, in order. -/
def Ledger.accepted (l : Ledger) : List SignedEntry → List SignedEntry
  | [] => []
  | s :: rest =>
      match l.append s with
      | .ok next => s :: next.accepted rest
      | .error _ => l.accepted rest

theorem entries_run (l : Ledger) (attempts : List SignedEntry) :
    (l.run attempts).log.entries = l.log.entries ++ l.accepted attempts := by
  induction attempts generalizing l with
  | nil => simp [Ledger.run, Ledger.accepted]
  | cons s attempts ih =>
      rw [Ledger.run, List.foldl_cons, ← Ledger.run, ih]
      cases h : l.append s with
      | ok next => simp [Ledger.appendOrKeep, Ledger.accepted, h, (append_spec h).entries]
      | error e => simp [Ledger.appendOrKeep, Ledger.accepted, h]

end Cawala
