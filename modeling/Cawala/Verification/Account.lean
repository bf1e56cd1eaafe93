import Cawala.Library.Except
import Cawala.Library.TreeMap
import Cawala.Model.Ledger

/-! # What applying postings does to balances

One spec lemma for each function of the account model: aggregation sums the postings of
each account, and application adds these sums to the balances and to the equity. -/

namespace Cawala

open Std (ExtTreeMap)
open Library

variable [Crypto]

/-! ## Sums of deltas -/

def postedDelta (postings : List Posting) (account : AccountRef) : ℤ :=
  ((postings.filter (fun p => decide (p.account = account))).map (fun p => p.delta.toInt)).sum

/-- The sum of the deltas a list of account movements makes to one account. -/
def deltaAt (moves : List (AccountRef × ℤ)) (account : AccountRef) : ℤ :=
  ((moves.filter (fun e => decide (e.1 = account))).map Prod.snd).sum

/-- The sum of the deltas a list of account movements makes to child accounts. -/
def childDelta (moves : List (AccountRef × ℤ)) : ℤ :=
  ((moves.filter (fun e => decide (e.1 ≠ .parent))).map Prod.snd).sum

omit [Crypto] in
theorem postedDelta_append (ps qs : List Posting) (a : AccountRef) :
    postedDelta (ps ++ qs) a = postedDelta ps a + postedDelta qs a := by
  simp [postedDelta]

omit [Crypto] in
theorem postedDelta_singleton (p : Posting) (a : AccountRef) :
    postedDelta [p] a = if p.account = a then p.delta.toInt else 0 := by
  by_cases h : p.account = a <;> simp [postedDelta, h]

omit [Crypto] in
theorem deltaAt_append (ms ns : List (AccountRef × ℤ)) (a : AccountRef) :
    deltaAt (ms ++ ns) a = deltaAt ms a + deltaAt ns a := by
  simp [deltaAt]

omit [Crypto] in
theorem deltaAt_singleton (e : AccountRef × ℤ) (a : AccountRef) :
    deltaAt [e] a = if e.1 = a then e.2 else 0 := by
  by_cases h : e.1 = a <;> simp [deltaAt, h]

omit [Crypto] in
theorem childDelta_append (ms ns : List (AccountRef × ℤ)) :
    childDelta (ms ++ ns) = childDelta ms + childDelta ns := by
  simp [childDelta]

/-! ## Aggregation -/

/-- What a successful aggregation returns. -/
structure Aggregated (postings : List Posting) (deltas : Deltas) : Prop where
  getD : ∀ a, deltas.getD a 0 = postedDelta postings a
  mem : ∀ a, a ∈ deltas ↔ ∃ p ∈ postings, p.account = a
  fits : ∀ (a : AccountRef) (v : ℤ), deltas[a]? = some v → fitsI128 v

theorem checkedAddI128_eq_ok {a b r : ℤ} :
    checkedAddI128 a b = .ok r ↔ fitsI128 (a + b) = true ∧ a + b = r := by
  simp [checkedAddI128]

theorem Aggregated.snoc {done : List Posting} {d d' : Deltas} {p : Posting}
    (h : Aggregated done d)
    (hstep : (do
      let slot ← checkedAddI128 (d.getD p.account 0) p.delta.toInt
      pure (d.insert p.account slot)) = .ok d') :
    Aggregated (done ++ [p]) d' := by
  simp only [bind_eq_ok, checkedAddI128_eq_ok, pure_eq_ok] at hstep
  obtain ⟨slot, ⟨hfits, rfl⟩, rfl⟩ := hstep
  refine ⟨?_, ?_, ?_⟩
  · intro a
    rw [postedDelta_append, postedDelta_singleton, ← h.getD, ExtTreeMap.getD_insert]
    by_cases ha : p.account = a
    · subst ha
      simp
    · simp [ha]
  · intro a
    simp only [ExtTreeMap.mem_insert, compare_eq_iff_eq, h.mem, List.mem_append,
      List.mem_singleton]
    constructor
    · rintro (rfl | ⟨q, hq, rfl⟩)
      · exact ⟨p, Or.inr rfl, rfl⟩
      · exact ⟨q, Or.inl hq, rfl⟩
    · rintro ⟨q, hq | rfl, rfl⟩
      · exact Or.inr ⟨q, hq, rfl⟩
      · exact Or.inl rfl
  · intro a v hv
    rw [ExtTreeMap.getElem?_insert] at hv
    by_cases ha : p.account = a
    · simp only [ha, Std.ReflCmp.compare_self, ↓reduceIte, Option.some.injEq] at hv
      rw [← hv, ← ha]
      exact hfits
    · simp only [compare_eq_iff_eq, ha, ↓reduceIte] at hv
      exact h.fits a v hv

theorem aggregateDeltas_spec {postings : List Posting} {deltas : Deltas}
    (h : aggregateDeltas postings = .ok deltas) : Aggregated postings deltas := by
  have hnil : Aggregated [] (∅ : Deltas) :=
    ⟨fun a => by simp [postedDelta], fun a => by simp, fun a v hv => by simp at hv⟩
  have := foldlM_induction (P := Aggregated) (fun done p d d' hd hstep => hd.snoc hstep) hnil h
  simpa using this

theorem classSums_spec {deltas : Deltas} {parent child : ℤ}
    (h : classSums deltas = .ok (parent, child)) :
    parent = deltaAt deltas.toList .parent ∧ child = childDelta deltas.toList := by
  have hinv := foldlM_induction (α := AccountRef × ℤ) (σ := ℤ × ℤ)
    (P := fun done s => s.1 = deltaAt done .parent ∧ s.2 = childDelta done)
    (l := deltas.toList) (d := []) (s := (0, 0)) (r := (parent, child))
    (fun done e s s' hs hstep => ?_) ⟨rfl, rfl⟩ h
  · simpa using hinv
  · obtain ⟨account, delta⟩ := e
    cases account with
    | parent =>
        simp only [bind_eq_ok, checkedAddI128_eq_ok, pure_eq_ok] at hstep
        obtain ⟨p, ⟨-, rfl⟩, rfl⟩ := hstep
        simp [deltaAt_append, deltaAt_singleton, hs.1, hs.2, childDelta]
    | child id =>
        simp only [bind_eq_ok, checkedAddI128_eq_ok, pure_eq_ok] at hstep
        obtain ⟨c, ⟨-, rfl⟩, rfl⟩ := hstep
        simp [deltaAt_append, deltaAt_singleton, hs.1, hs.2, childDelta]

/-! ## Application -/

omit [Crypto] in
theorem fitsI128_iff {x : ℤ} : fitsI128 x = true ↔ -2 ^ 127 ≤ x ∧ x ≤ 2 ^ 127 - 1 := by
  exact decide_eq_true_iff

omit [Crypto] in
theorem wrapI128_of_fits {x : ℤ} (h : fitsI128 x = true) : wrapI128 x = x := by
  rw [fitsI128_iff] at h
  exact Int.bmod_eq_of_le (by omega) (by omega)

/-- A wrapped sum never passes for a balance, so success means the exact sum. -/
theorem applyDelta_eq_ok {current next : Amount} {delta : ℤ} (hfits : fitsI128 delta = true)
    (h : applyDelta current delta = .ok next) :
    (next.toNat : ℤ) = current.toNat + delta := by
  simp only [applyDelta, ite_error_eq_ok, Except.ok.injEq, not_lt] at h
  obtain ⟨hpos, hmax, rfl⟩ := h
  have hcur : current.toNat < 2 ^ 64 := current.toNat_lt
  have hexact : wrapI128 (current.toNat + delta) = current.toNat + delta := by
    by_cases hin : fitsI128 (current.toNat + delta) = true
    · exact wrapI128_of_fits hin
    · rw [fitsI128_iff] at hin hfits
      have hwrap : wrapI128 (current.toNat + delta) = current.toNat + delta - 2 ^ 128 := by
        have hshift : (current.toNat + delta - 2 ^ 128).bmod (2 ^ 128)
            = (current.toNat + delta).bmod (2 ^ 128) := by
          exact_mod_cast Int.sub_bmod_right (current.toNat + delta) (2 ^ 128)
        rw [wrapI128, ← hshift]
        exact Int.bmod_eq_of_le (by omega) (by omega)
      omega
  rw [hexact] at hpos hmax ⊢
  have hlt : (current.toNat + delta).toNat < 2 ^ 64 := by omega
  rw [UInt64.toNat_ofNat_of_lt' hlt]
  omega

/-- What a successful list of account movements does to balances. -/
structure Applied (before after : Balances) (moves : List (AccountRef × ℤ)) : Prop where
  balance : ∀ a, after.balance a = before.balance a + deltaAt moves a
  children : ∀ id, id ∈ after.children ↔ id ∈ before.children
  opened : ∀ id delta, (.child id, delta) ∈ moves → id ∈ before.children
  equity : after.equity = before.equity + deltaAt moves .parent - childDelta moves

omit [Crypto] in
theorem Balances.equity_eq (b : Balances) :
    b.equity = b.parent.toNat - total (fun _ (v : Amount) => (v.toNat : ℤ)) b.children := by
  rw [Balances.equity, foldl_add_eq_total (fun _ (v : Amount) => (v.toNat : ℤ))]

theorem applyAccountDelta_spec {b b' : Balances} {e : AccountRef × ℤ}
    (hfits : fitsI128 e.2 = true) (h : b.applyAccountDelta e = .ok b') : Applied b b' [e] := by
  obtain ⟨account, delta⟩ := e
  cases account with
  | parent =>
      simp only [Balances.applyAccountDelta, bind_eq_ok, pure_eq_ok] at h
      obtain ⟨next, hnext, rfl⟩ := h
      have hval := applyDelta_eq_ok hfits hnext
      refine ⟨?_, fun id => Iff.rfl, by simp, ?_⟩
      · intro a
        rw [deltaAt_singleton]
        cases a with
        | parent => simpa [Balances.balance] using hval
        | child id => simp [Balances.balance, Balances.childBalance]
      · rw [Balances.equity_eq, Balances.equity_eq, deltaAt_singleton]
        simp only [hval, childDelta]
        simp
        ring
  | child id =>
      simp only [Balances.applyAccountDelta] at h
      split at h
      · cases h
      · rename_i current hcur
        simp only [bind_eq_ok, pure_eq_ok] at h
        obtain ⟨next, hnext, rfl⟩ := h
        have hval := applyDelta_eq_ok hfits hnext
        have hmem : id ∈ b.children := ExtTreeMap.mem_iff_isSome_getElem?.mpr (by simp [hcur])
        refine ⟨?_, ?_, ?_, ?_⟩
        · intro a
          rw [deltaAt_singleton]
          cases a with
          | parent => simp [Balances.balance]
          | child id' =>
              by_cases hid : id = id'
              · subst hid
                simp [Balances.balance, Balances.childBalance, ExtTreeMap.getD_eq_getD_getElem?,
                  hcur, hval]
              · simp [Balances.balance, Balances.childBalance, ExtTreeMap.getD_insert, hid]
        · intro id'
          simp only [ExtTreeMap.mem_insert, compare_eq_iff_eq, or_iff_right_iff_imp]
          rintro rfl
          exact hmem
        · intro id' delta' hin
          simp only [List.mem_singleton, Prod.mk.injEq, AccountRef.child.injEq] at hin
          rw [hin.1]
          exact hmem
        · rw [Balances.equity_eq, Balances.equity_eq, total_insert]
          simp [deltaAt_singleton, childDelta, entryAt, hcur, hval]
          ring

theorem foldlM_applyAccountDelta_spec {b b' : Balances} {moves : List (AccountRef × ℤ)}
    (hfits : ∀ e ∈ moves, fitsI128 e.2 = true)
    (h : moves.foldlM Balances.applyAccountDelta b = .ok b') : Applied b b' moves := by
  induction moves generalizing b with
  | nil =>
      simp only [List.foldlM_nil, pure_eq_ok] at h
      subst h
      exact ⟨by simp [deltaAt], by simp, by simp, by simp [deltaAt, childDelta]⟩
  | cons e moves ih =>
      obtain ⟨mid, hmid, hrest⟩ := foldlM_cons_eq_ok.mp h
      have hone := applyAccountDelta_spec (hfits e (by simp)) hmid
      have hmany := ih (fun e' he' => hfits e' (List.mem_cons_of_mem _ he')) hrest
      rw [← List.singleton_append]
      refine ⟨?_, ?_, ?_, ?_⟩
      · intro a
        rw [hmany.balance, hone.balance, deltaAt_append]
        ring
      · intro id
        rw [hmany.children, hone.children]
      · intro id delta hin
        rcases List.mem_append.mp hin with hin | hin
        · exact hone.opened id delta hin
        · exact (hone.children id).mp (hmany.opened id delta hin)
      · rw [hmany.equity, hone.equity, deltaAt_append, childDelta_append]
        ring

/-- A successful `apply`, whatever its rule, aggregated the postings, passed the rule and
moved every account by its aggregate. -/
theorem applyWith_spec {b b' : Balances} {rule : PostingRule} {postings : List Posting}
    (h : b.applyWith rule postings = .ok b') :
    ∃ deltas, aggregateDeltas postings = .ok deltas ∧ checkPostingRule deltas rule = .ok ()
      ∧ Applied b b' deltas.toList := by
  simp only [Balances.applyWith, Balances.applyDeltas, bind_eq_ok] at h
  obtain ⟨deltas, hagg, u, hrule, happ⟩ := h
  refine ⟨deltas, hagg, hrule, foldlM_applyAccountDelta_spec ?_ happ⟩
  rintro ⟨a, v⟩ hin
  exact (aggregateDeltas_spec hagg).fits a v
    (ExtTreeMap.mem_toList_iff_getElem?_eq_some.mp hin)

theorem deltaAt_toList {postings : List Posting} {deltas : Deltas}
    (h : aggregateDeltas postings = .ok deltas) (a : AccountRef) :
    deltaAt deltas.toList a = postedDelta postings a := by
  rw [← (aggregateDeltas_spec h).getD]
  exact sum_filter_key deltas a

end Cawala
