import Cawala.Model.Netting
import Cawala.Verification.Ledger

/-! # Whole-run accounting

The invariant that ties the cached balances to the log: sums of posted deltas, opened
accounts, equity, and the replay the overdraw audit performs. -/

namespace Cawala

open Std (ExtTreeMap)
open Library

variable [Crypto]

/-! ## Totals over a log -/

def postedTotal (entries : List SignedEntry) (account : AccountRef) : ℤ :=
  (entries.map (fun s => postedDelta s.entry.postings account)).sum

def EntryBody.issueAmount : EntryBody → ℤ
  | .issue _ amount => amount.toNat
  | _ => 0

def EntryBody.burnAmount : EntryBody → ℤ
  | .burn _ amount => amount.toNat
  | _ => 0

def EntryBody.edgeCloseAmount : EntryBody → ℤ
  | .edgeClose amount => amount.toNat
  | _ => 0

def bodyTotal (amount : EntryBody → ℤ) (entries : List SignedEntry) : ℤ :=
  (entries.map (fun s => amount s.entry.body)).sum

theorem bodyTotal_append_singleton (amount : EntryBody → ℤ) (entries : List SignedEntry)
    (s : SignedEntry) :
    bodyTotal amount (entries ++ [s]) = bodyTotal amount entries + amount s.entry.body := by
  simp [bodyTotal]

theorem equityDelta_eq (body : EntryBody) :
    body.equityDelta = -body.issueAmount + body.burnAmount - body.edgeCloseAmount := by
  cases body <;> simp [EntryBody.equityDelta, EntryBody.issueAmount, EntryBody.burnAmount,
    EntryBody.edgeCloseAmount]

omit [Crypto] in
theorem Balances.balance_nonneg (b : Balances) (a : AccountRef) : 0 ≤ b.balance a := by
  cases a <;> simp [Balances.balance]

omit [Crypto] in
theorem Balances.balance_lt (b : Balances) (a : AccountRef) : b.balance a < 2 ^ 64 := by
  cases a with
  | parent => simpa [Balances.balance] using Int.ofNat_lt.mpr b.parent.toNat_lt
  | child id => simpa [Balances.balance] using Int.ofNat_lt.mpr (b.childBalance id).toNat_lt

/-! ## The overdraw replay -/

/-- The replay of a log agrees with the balances and never went below zero. -/
structure ReplayAgrees (r : Replay) (b : Balances) : Prop where
  running : ∀ a, r.running.getD a 0 = b.balance a
  lowest : ∀ (a : AccountRef) (low : ℤ), r.lowest[a]? = some low → 0 ≤ low

omit [Crypto] in
/-- Balances fit `i128`, so the saturating sum of the replay is exact. -/
theorem saturatingAddI128_of_balance {x y : ℤ} {b : Balances} {a : AccountRef}
    (h : b.balance a = x + y) : saturatingAddI128 x y = b.balance a := by
  have hpos := b.balance_nonneg a
  have hlt := b.balance_lt a
  simp only [saturatingAddI128, i128Min, i128Max, ← h]
  omega

omit [Crypto] in
theorem ReplayAgrees.step {r : Replay} {b b' : Balances} {e : AccountRef × ℤ}
    (h : ReplayAgrees r b) (happ : Applied b b' [e]) : ReplayAgrees (r.step e) b' := by
  obtain ⟨account, delta⟩ := e
  have hvalue : saturatingAddI128 (r.running.getD account 0) delta = b'.balance account := by
    apply saturatingAddI128_of_balance
    rw [h.running, happ.balance, deltaAt_singleton]
    simp
  refine ⟨?_, ?_⟩
  · intro a
    simp only [Replay.step, ExtTreeMap.getD_insert, hvalue, compare_eq_iff_eq]
    by_cases ha : account = a
    · simp [ha]
    · simp [ha, h.running, happ.balance, deltaAt_singleton]
  · intro a low hlow
    have hold : 0 ≤ r.lowest.getD account 0 := by
      rw [ExtTreeMap.getD_eq_getD_getElem?]
      cases hget : r.lowest[account]? with
      | none => simp
      | some v => simpa using h.lowest account v hget
    have hpos := b'.balance_nonneg account
    simp only [Replay.step, ExtTreeMap.getElem?_insert, hvalue, compare_eq_iff_eq] at hlow
    by_cases ha : account = a
    · simp only [ha, ↓reduceIte, Option.some.injEq] at hlow
      rw [ha] at hold hpos
      omega
    · simp only [ha, ↓reduceIte] at hlow
      exact h.lowest a low hlow

theorem ReplayAgrees.foldl {r : Replay} {b b' : Balances} {moves : List (AccountRef × ℤ)}
    (h : ReplayAgrees r b) (hfits : ∀ e ∈ moves, fitsI128 e.2 = true)
    (happ : moves.foldlM Balances.applyAccountDelta b = .ok b') :
    ReplayAgrees (moves.foldl Replay.step r) b' := by
  induction moves generalizing r b with
  | nil =>
      simp only [List.foldlM_nil, pure_eq_ok] at happ
      subst happ
      exact h
  | cons e moves ih =>
      obtain ⟨mid, hmid, hrest⟩ := foldlM_cons_eq_ok.mp happ
      have hone := applyAccountDelta_spec (hfits e (by simp)) hmid
      exact ih (h.step hone) (fun e' he' => hfits e' (List.mem_cons_of_mem _ he')) hrest

/-- Opening an account moves nothing. -/
theorem ReplayAgrees.openDeclared {r : Replay} {b b' : Balances} {body : EntryBody}
    (h : ReplayAgrees r b) (hopen : b.openDeclared body = .ok b') : ReplayAgrees r b' := by
  cases body with
  | openAccount child kind =>
      obtain ⟨-, -, hsame, -⟩ := openAccount_spec hopen
      exact ⟨fun a => by rw [h.running, hsame], h.lowest⟩
  | _ =>
      simp only [Balances.openDeclared, Except.ok.injEq] at hopen
      subst hopen
      exact h

theorem ReplayAgrees.entry {entries : List SignedEntry} {b b' : Balances} {s : SignedEntry}
    (h : ReplayAgrees (replayEntries entries) b) (happly : b.applyEntry s.entry = .ok b') :
    ReplayAgrees (replayEntries (entries ++ [s])) b' := by
  obtain ⟨mid, hmid, hwith⟩ := applyEntry_spec happly
  simp only [Balances.applyWith, Balances.applyDeltas, bind_eq_ok] at hwith
  obtain ⟨deltas, hagg, -, -, hfold⟩ := hwith
  have hfits : ∀ e ∈ deltas.toList, fitsI128 e.2 = true := by
    rintro ⟨a, v⟩ hin
    exact (aggregateDeltas_spec hagg).fits a v
      (ExtTreeMap.mem_toList_iff_getElem?_eq_some.mp hin)
  have hreplay : replayEntries (entries ++ [s])
      = deltas.toList.foldl Replay.step (replayEntries entries) := by
    simp [replayEntries, hagg]
  rw [hreplay]
  exact (h.openDeclared hmid).foldl hfits hfold

/-! ## The invariant -/

/-- The accounting invariant of a ledger: its cached balances are what its log says. -/
structure Accounted (l : Ledger) : Prop where
  balance : ∀ a, l.balances.balance a = postedTotal l.log.entries a
  equity : l.balances.equity = -bodyTotal EntryBody.issueAmount l.log.entries
    + bodyTotal EntryBody.burnAmount l.log.entries
    - bodyTotal EntryBody.edgeCloseAmount l.log.entries
  opensMem : ∀ s ∈ l.log.entries, ∀ id, s.entry.opens id → id ∈ l.balances.children
  postsMem : ∀ s ∈ l.log.entries, ∀ id, s.entry.postsTo id → id ∈ l.balances.children
  replay : ReplayAgrees (replayEntries l.log.entries) l.balances

/-- The index of the one entry that opens a child, ahead of every posting to it. -/
def OpenedAt (entries : List SignedEntry) (child : NodeId) (i : ℕ) : Prop :=
  (∃ s, entries[i]? = some s ∧ s.entry.opens child)
    ∧ (∀ j s, entries[j]? = some s → s.entry.opens child → j = i)
    ∧ ∀ j s, entries[j]? = some s → s.entry.postsTo child → i < j

theorem accounted_new (key : LedgerPubKey) : Accounted (Ledger.new key) where
  balance := by
    intro a
    cases a <;> simp [Ledger.new, Balances.newNonRoot, Balances.balance, Balances.childBalance,
      postedTotal, MemLog.new]
  equity := by
    rw [Balances.equity_eq]
    simp [Ledger.new, Balances.newNonRoot, MemLog.new, bodyTotal]
  opensMem := by simp [Ledger.new, MemLog.new]
  postsMem := by simp [Ledger.new, MemLog.new]
  replay := by
    refine ⟨?_, ?_⟩
    · intro a
      cases a <;> simp [Ledger.new, Balances.newNonRoot, Balances.balance, Balances.childBalance,
        replayEntries, MemLog.new]
    · simp [Ledger.new, MemLog.new, replayEntries]

variable [Postcard]

/-- An accepted entry keeps the accounting invariant. -/
theorem Accounted.append {l l' : Ledger} {s : SignedEntry} (h : Accounted l)
    (happend : l.append s = .ok l') : Accounted l' := by
  have hspec := append_spec happend
  have heff := hspec.effect
  refine ⟨?_, ?_, ?_, ?_, ?_⟩
  · intro a
    rw [heff.balance, h.balance, hspec.entries]
    simp [postedTotal]
  · rw [heff.equity, h.equity, hspec.entries, equityDelta_eq]
    simp only [bodyTotal_append_singleton]
    ring
  · intro s' hs' id hid
    rw [hspec.entries, List.mem_append, List.mem_singleton] at hs'
    rw [heff.children]
    rcases hs' with hs' | rfl
    · exact Or.inl (h.opensMem s' hs' id hid)
    · exact Or.inr hid
  · intro s' hs' id hid
    rw [hspec.entries, List.mem_append, List.mem_singleton] at hs'
    rw [heff.children]
    rcases hs' with hs' | rfl
    · exact Or.inl (h.postsMem s' hs' id hid)
    · exact Or.inl (heff.opened id hid)
  · rw [hspec.entries]
    exact h.replay.entry hspec.applied

/-- Every open child was opened by one entry, ahead of every posting to it. -/
def AllOpened (l : Ledger) : Prop :=
  ∀ child ∈ l.balances.children, ∃ i, OpenedAt l.log.entries child i

omit [Postcard] in
/-- The position of an entry in a log with one more entry. -/
theorem getElem?_snoc {entries : List SignedEntry} {s s' : SignedEntry} {j : ℕ}
    (h : (entries ++ [s])[j]? = some s') :
    entries[j]? = some s' ∨ (j = entries.length ∧ s' = s) := by
  rw [List.getElem?_append] at h
  split at h
  · exact Or.inl h
  · right
    have hj : j - entries.length = 0 := by
      by_contra hne
      rw [List.getElem?_eq_none (by simp; omega)] at h
      cases h
    rw [hj] at h
    refine ⟨by omega, ?_⟩
    simpa using h.symm

/-- An accepted entry keeps the opening positions, and adds one when it opens a child. -/
theorem AllOpened.append {l l' : Ledger} {s : SignedEntry} (hacc : Accounted l)
    (h : AllOpened l) (happend : l.append s = .ok l') : AllOpened l' := by
  have hspec := append_spec happend
  have heff := hspec.effect
  intro child hchild
  rw [hspec.entries]
  rcases (heff.children child).mp hchild with hold | hnew
  · obtain ⟨i, ⟨s₀, hs₀, hopen⟩, huniq, hbefore⟩ := h child hold
    have hi : i < l.log.entries.length := (List.getElem?_eq_some_iff.mp hs₀).1
    refine ⟨i, ⟨s₀, ?_, hopen⟩, ?_, ?_⟩
    · rw [List.getElem?_append_left hi]
      exact hs₀
    · intro j s' hj hopen'
      rcases getElem?_snoc hj with hj | ⟨-, rfl⟩
      · exact huniq j s' hj hopen'
      · exact absurd hold (heff.fresh child hopen').1
    · intro j s' hj hpost
      rcases getElem?_snoc hj with hj | ⟨rfl, -⟩
      · exact hbefore j s' hj hpost
      · exact hi
  · -- The child is new: no earlier entry opens it or posts to it.
    obtain ⟨hfresh, hnil⟩ := heff.fresh child hnew
    refine ⟨l.log.entries.length, ⟨s, by simp, hnew⟩, ?_, ?_⟩
    · intro j s' hj hopen'
      rcases getElem?_snoc hj with hj | ⟨rfl, -⟩
      · exact absurd (hacc.opensMem s' (List.mem_of_getElem? hj) child hopen') hfresh
      · rfl
    · intro j s' hj hpost
      rcases getElem?_snoc hj with hj | ⟨-, rfl⟩
      · exact absurd (hacc.postsMem s' (List.mem_of_getElem? hj) child hpost) hfresh
      · obtain ⟨p, hp, -⟩ := hpost
        simp [hnil] at hp

/-- Both parts of the invariant hold after every run from an empty ledger. -/
theorem accounted_run (key : LedgerPubKey) (attempts : List SignedEntry) :
    Accounted ((Ledger.new key).run attempts) ∧ AllOpened ((Ledger.new key).run attempts) := by
  refine run_induction (P := fun l => Accounted l ∧ AllOpened l) ?_ ?_ attempts
  · rintro l l' s ⟨hacc, hopen⟩ happend
    exact ⟨hacc.append happend, hopen.append hacc happend⟩
  · refine ⟨accounted_new key, ?_⟩
    intro child hchild
    simp [Ledger.new, Balances.newNonRoot] at hchild

omit [Postcard] in
theorem auditOverdraw_of_accounted {l : Ledger} (h : Accounted l) (ledgers : LedgerSet)
    (node : NodeId) (hget : ledgers.get node = some l) (account : AccountRef) (deficit : ℤ) :
    Finding.overdraw node account deficit ∉ auditOverdraw ledgers := by
  intro hin
  simp only [auditOverdraw, List.mem_flatMap] at hin
  obtain ⟨node', -, hin⟩ := hin
  split at hin
  · simp at hin
  · rename_i l' hget'
    simp only [List.mem_filterMap, Option.ite_none_right_eq_some, Option.some.injEq,
      Finding.overdraw.injEq] at hin
    obtain ⟨⟨a, low⟩, hlow, hneg, rfl, rfl, -⟩ := hin
    rw [hget] at hget'
    cases hget'
    have := h.replay.lowest _ _ (ExtTreeMap.mem_toList_iff_getElem?_eq_some.mp hlow)
    omega

/-- Whole-run accounting: after any mix of accepted and rejected appends to an empty
ledger, the balances, the opened accounts and the equity are those of the accepted
entries, and the overdraw audit has nothing to report. -/
theorem run_accounting (key : LedgerPubKey) (attempts : List SignedEntry) :
    let l := (Ledger.new key).run attempts
    let log := (Ledger.new key).accepted attempts
    l.log.entries = log
      ∧ (∀ a, l.balances.balance a = postedTotal log a)
      ∧ (∀ a, 0 ≤ l.balances.balance a ∧ l.balances.balance a < 2 ^ 64)
      ∧ (∀ child ∈ l.balances.children, ∃ i, OpenedAt log child i)
      ∧ l.balances.equity = -bodyTotal EntryBody.issueAmount log
          + bodyTotal EntryBody.burnAmount log - bodyTotal EntryBody.edgeCloseAmount log
      ∧ (∀ s l', l.append s = .ok l' →
          (∃ id kind, s.entry.body = .openAccount id kind)
            ∨ (∃ paymentId amount role, s.entry.body = .transfer paymentId amount role) →
          l'.balances.equity = l.balances.equity)
      ∧ ∀ ledgers : LedgerSet, ∀ node, ledgers.get node = some l →
          ∀ account deficit, Finding.overdraw node account deficit ∉ auditOverdraw ledgers := by
  intro l log
  have hlog : l.log.entries = log := entries_run (Ledger.new key) attempts
  obtain ⟨hacc, hopen⟩ := accounted_run key attempts
  refine ⟨hlog, ?_, ?_, ?_, ?_, ?_, ?_⟩
  · intro a
    rw [← hlog]
    exact hacc.balance a
  · exact fun a => ⟨l.balances.balance_nonneg a, l.balances.balance_lt a⟩
  · intro child hchild
    rw [← hlog]
    exact hopen child hchild
  · rw [← hlog]
    exact hacc.equity
  · intro s l' happend hbody
    rw [(append_spec happend).effect.equity]
    rcases hbody with ⟨id, kind, hbody⟩ | ⟨paymentId, amount, role, hbody⟩
    · simp [hbody, EntryBody.equityDelta]
    · simp [hbody, EntryBody.equityDelta]
  · exact auditOverdraw_of_accounted hacc

end Cawala
