import Cawala.Model.Concrete
import Cawala.Verification.Ledger

/-! # Posting lists

A posting list counts only by what it sums up to on each account, so its order and its grouping
do not matter. -/

namespace Cawala

open Std (ExtTreeMap)
open Library Library.Transaction

section

variable [Crypto]

/-- A slice of postings: it spans at most `isize::MAX` bytes, and each takes 32. -/
structure PostingSlice where
  postings : List Posting
  fits : postings.length * 32 < 2 ^ 63

/-! ## Aggregation never overflows -/

omit [Crypto] in
theorem abs_delta_le (p : Posting) : |p.delta.toInt| ≤ 2 ^ 63 := by
  have hlo := Int64.le_toInt p.delta
  have hhi := Int64.toInt_lt p.delta
  rw [abs_le]
  omega

/-- The sum of the absolute values of the deltas of a map. -/
def magnitude (deltas : Deltas) : ℤ := total (fun _ v => |v|) deltas

omit [Crypto] in
theorem abs_nonneg_of_mem {l : List (AccountRef × ℤ)} : ∀ x ∈ l.map fun e => |e.2|, 0 ≤ x := by
  intro x hx
  obtain ⟨e, -, rfl⟩ := List.mem_map.mp hx
  exact abs_nonneg e.2

omit [Crypto] in
theorem sum_abs_nonneg (l : List (AccountRef × ℤ)) : 0 ≤ (l.map fun e => |e.2|).sum :=
  List.sum_nonneg abs_nonneg_of_mem

omit [Crypto] in
theorem abs_le_magnitude {deltas : Deltas} {a : AccountRef} {v : ℤ}
    (h : (a, v) ∈ deltas.toList) : |v| ≤ magnitude deltas := by
  have hmem : |v| ∈ deltas.toList.map fun e => |e.2| := List.mem_map.mpr ⟨(a, v), h, rfl⟩
  exact List.single_le_sum abs_nonneg_of_mem _ hmem

omit [Crypto] in
theorem abs_entryAt (deltas : Deltas) (a : AccountRef) :
    entryAt (fun _ v => |v|) deltas a = |deltas.getD a 0| := by
  rw [entryAt, ExtTreeMap.getD_eq_getD_getElem?]
  cases deltas[a]? with
  | none => simp
  | some v => simp

omit [Crypto] in
theorem abs_getD_le_magnitude (deltas : Deltas) (a : AccountRef) :
    |deltas.getD a 0| ≤ magnitude deltas := by
  rw [ExtTreeMap.getD_eq_getD_getElem?]
  cases h : deltas[a]? with
  | none => simpa [magnitude, total] using sum_abs_nonneg deltas.toList
  | some v => exact abs_le_magnitude (ExtTreeMap.mem_toList_iff_getElem?_eq_some.mpr h)

theorem aggregateDeltas_exists {postings : List Posting} (h : postings.length < 2 ^ 62) :
    ∃ deltas, aggregateDeltas postings = .ok deltas
      ∧ magnitude deltas ≤ 2 ^ 63 * postings.length := by
  apply foldlM_exists_of_prefix
    (P := fun done deltas => magnitude deltas ≤ 2 ^ 63 * (done.length : ℤ))
  · intro done p rest deltas hsplit hdone
    have hlt : (done.length : ℤ) < 2 ^ 62 := by
      have hlength := congrArg List.length hsplit
      rw [List.length_append, List.length_cons] at hlength
      exact_mod_cast (by omega : done.length < 2 ^ 62)
    have hdelta := abs_delta_le p
    have hold := abs_getD_le_magnitude deltas p.account
    have hsum := abs_add_le (deltas.getD p.account 0) p.delta.toInt
    have hfits : fitsI128 (deltas.getD p.account 0 + p.delta.toInt) = true := by
      rw [fitsI128_iff]
      have habs := abs_le.mp (hsum.trans (add_le_add hold hdelta))
      omega
    refine ⟨deltas.insert p.account (deltas.getD p.account 0 + p.delta.toInt), ?_, ?_⟩
    · simp only [checkedAddI128, hfits, ↓reduceIte]
      rfl
    · rw [magnitude, total_insert, abs_entryAt, ← magnitude, List.length_append,
        List.length_singleton]
      push_cast
      linarith
  · simp [magnitude]

omit [Crypto] in
theorem fitsI128_of_abs_le {x : ℤ} (h : |x| ≤ 2 ^ 125) : fitsI128 x = true := by
  rw [fitsI128_iff]
  have hx := abs_le.mp h
  omega

theorem classSums_exists {deltas : Deltas} (h : magnitude deltas ≤ 2 ^ 125) :
    ∃ sums, classSums deltas = .ok sums ∧ |sums.1| + |sums.2| ≤ magnitude deltas := by
  apply foldlM_exists_of_prefix (l := deltas.toList)
    (P := fun (done : List (AccountRef × ℤ)) (s : ℤ × ℤ) =>
      |s.1| + |s.2| ≤ (done.map fun e => |e.2|).sum)
  · intro done e rest s hsplit hdone
    have hbound : (done.map fun e => |e.2|).sum + |e.2| ≤ 2 ^ 125 := by
      have hrest := sum_abs_nonneg rest
      rw [magnitude, total, hsplit, List.map_append, List.sum_append, List.map_cons,
        List.sum_cons] at h
      linarith
    have hnew : ((done ++ [e]).map fun e => |e.2|).sum = (done.map fun e => |e.2|).sum + |e.2| := by
      simp
    obtain ⟨account, delta⟩ := e
    have hpos₁ := abs_nonneg s.1
    have hpos₂ := abs_nonneg s.2
    cases account with
    | parent =>
        have hsum := abs_add_le s.1 delta
        have hfits : fitsI128 (s.1 + delta) = true := fitsI128_of_abs_le (by linarith)
        refine ⟨(s.1 + delta, s.2), ?_, ?_⟩
        · simp only [checkedAddI128, hfits, ↓reduceIte]
          rfl
        · rw [hnew]
          dsimp only
          linarith
    | child id =>
        have hsum := abs_add_le s.2 delta
        have hfits : fitsI128 (s.2 + delta) = true := fitsI128_of_abs_le (by linarith)
        refine ⟨(s.1, s.2 + delta), ?_, ?_⟩
        · simp only [checkedAddI128, hfits, ↓reduceIte]
          rfl
        · rw [hnew]
          dsimp only
          linarith
  · simp

/-- No sum of a posting list leaves the range of `i128`: those of the aggregation and of the
classes, whose checked additions would report it, their difference, and the plain sum of any
balance and a net delta. -/
structure NoOverflow (postings : List Posting) : Prop where
  sums : ∃ deltas, aggregateDeltas postings = .ok deltas
    ∧ (∃ sums, classSums deltas = .ok sums ∧ fitsI128 (sums.1 - sums.2) = true)
    ∧ ∀ e ∈ deltas.toList, ∀ current : Amount, fitsI128 (current.toNat + e.2) = true

theorem noOverflow {postings : List Posting} (h : postings.length < 2 ^ 62) :
    NoOverflow postings := by
  obtain ⟨deltas, hagg, hmagnitude⟩ := aggregateDeltas_exists h
  have hlt : (postings.length : ℤ) < 2 ^ 62 := by exact_mod_cast h
  have hbound : magnitude deltas ≤ 2 ^ 125 := by linarith
  obtain ⟨sums, hsums, hle⟩ := classSums_exists hbound
  refine ⟨deltas, hagg, ⟨sums, hsums, ?_⟩, ?_⟩
  · exact fitsI128_of_abs_le ((abs_sub _ _).trans (hle.trans hbound))
  · intro e he current
    have hcurrent : current.toNat < 2 ^ 64 := current.toNat_lt
    have hdelta := abs_le.mp ((abs_le_magnitude (a := e.1) (v := e.2) he).trans hbound)
    rw [fitsI128_iff]
    omega

/-! ## Order and grouping -/

/-- One change of a posting list that keeps what it says: another order, or several postings in
place of one on the same account with the same sum. -/
inductive Regroup : List Posting → List Posting → Prop where
  | perm {ps qs : List Posting} (h : ps.Perm qs) : Regroup ps qs
  | split {before after parts : List Posting} {p : Posting} (hne : parts ≠ [])
      (haccount : ∀ q ∈ parts, q.account = p.account)
      (hsum : (parts.map (·.delta.toInt)).sum = p.delta.toInt) :
      Regroup (before ++ p :: after) (before ++ parts ++ after)

def netDelta (postings : List Posting) (account : AccountRef) : Option ℤ :=
  if ∃ p ∈ postings, p.account = account then some (postedDelta postings account) else none

omit [Crypto] in
theorem Aggregated.getElem?_eq {postings : List Posting} {deltas : Deltas}
    (h : Aggregated postings deltas) (a : AccountRef) : deltas[a]? = netDelta postings a := by
  rw [netDelta, ← h.getD, ExtTreeMap.getD_eq_getD_getElem?]
  cases hget : deltas[a]? with
  | none =>
      have hnot : a ∉ deltas := fun hmem => by
        rw [ExtTreeMap.mem_iff_isSome_getElem?, hget] at hmem
        cases hmem
      rw [if_neg fun hposts => hnot ((h.mem a).mpr hposts)]
  | some v =>
      have hmem : a ∈ deltas := by
        rw [ExtTreeMap.mem_iff_isSome_getElem?, hget]
        rfl
      rw [if_pos ((h.mem a).mp hmem), Option.getD_some]

omit [Crypto] in
theorem postedDelta_of_account {parts : List Posting} {a b : AccountRef}
    (h : ∀ q ∈ parts, q.account = a) :
    postedDelta parts b = if a = b then (parts.map (·.delta.toInt)).sum else 0 := by
  by_cases hab : a = b
  · have hall : parts.filter (fun q => decide (q.account = b)) = parts :=
      List.filter_eq_self.mpr fun q hq => by simp [h q hq, hab]
    rw [if_pos hab, postedDelta, hall]
  · have hnone : parts.filter (fun q => decide (q.account = b)) = [] :=
      List.filter_eq_nil_iff.mpr fun q hq => by simp [h q hq, hab]
    rw [if_neg hab, postedDelta, hnone]
    rfl

omit [Crypto] in
/-- Neither order nor grouping changes the net deltas. -/
theorem Regroup.netDelta_eq {ps qs : List Posting} (h : Regroup ps qs) :
    netDelta ps = netDelta qs := by
  funext a
  cases h with
  | perm h =>
      have hsum : postedDelta ps a = postedDelta qs a := ((h.filter _).map _).sum_eq
      simp only [netDelta, hsum, h.mem_iff]
  | split hne haccount hsum =>
      rename_i before after parts p
      have hdelta : postedDelta parts a = postedDelta [p] a := by
        rw [postedDelta_of_account haccount, hsum, postedDelta_singleton]
      have hmem : (∃ q ∈ parts, q.account = a) ↔ p.account = a := by
        obtain ⟨q, hq⟩ := List.exists_mem_of_ne_nil parts hne
        constructor
        · intro ⟨r, hr, ha⟩
          rw [← haccount r hr, ha]
        · intro ha
          exact ⟨q, hq, (haccount q hq).trans ha⟩
      have hiff : (∃ q ∈ before ++ p :: after, q.account = a)
          ↔ ∃ q ∈ before ++ parts ++ after, q.account = a := by
        simp only [List.mem_append, List.mem_cons, or_and_right, exists_or, hmem,
          exists_eq_left, or_assoc]
      have hposted : postedDelta (before ++ p :: after) a
          = postedDelta (before ++ parts ++ after) a := by
        rw [← List.singleton_append, postedDelta_append, postedDelta_append, postedDelta_append,
          postedDelta_append, hdelta, add_assoc]
      simp only [netDelta, hiff, hposted]

omit [Crypto] in
theorem netDelta_eq_of_eqvGen {ps qs : List Posting} (h : Relation.EqvGen Regroup ps qs) :
    netDelta ps = netDelta qs := by
  induction h with
  | rel _ _ h => exact h.netDelta_eq
  | refl _ => rfl
  | symm _ _ _ ih => exact ih.symm
  | trans _ _ _ _ _ ih₁ ih₂ => exact ih₁.trans ih₂

theorem aggregateDeltas_congr {ps qs : List Posting} (hps : ps.length < 2 ^ 62)
    (hqs : qs.length < 2 ^ 62) (hnet : netDelta ps = netDelta qs) :
    aggregateDeltas ps = aggregateDeltas qs := by
  obtain ⟨deltas, hagg, -⟩ := aggregateDeltas_exists hps
  obtain ⟨deltas', hagg', -⟩ := aggregateDeltas_exists hqs
  have heq : deltas = deltas' := by
    apply ExtTreeMap.ext_getElem?
    intro a
    rw [(aggregateDeltas_spec hagg).getElem?_eq, (aggregateDeltas_spec hagg').getElem?_eq, hnet]
  rw [hagg, hagg', heq]

/-- An operation in place ends as the operation on a copy does, and keeps the balances when that
fails. -/
theorem commitWith_exec (b : Balances) (rule : PostingRule) (postings : List Posting) :
    exec (Balances.commitWith rule postings) b = match b.applyWith rule postings with
      | .ok next => (.ok ⟨⟩, next)
      | .error e => (.error e, b) := by
  rw [Balances.commitWith, exec_bind, exec_ofExcept, Balances.applyWith]
  cases aggregateDeltas postings with
  | error e => rfl
  | ok deltas =>
      dsimp only
      rw [exec_bind, exec_ofExcept]
      simp only [Except.bind, bind]
      cases checkPostingRule deltas rule with
      | error e => rfl
      | ok u =>
          dsimp only
          rw [Balances.commitDeltas, exec_get_bind, exec_bind, exec_ofExcept]
          cases b.applyDeltas deltas with
          | error e => rfl
          | ok next => rfl

/-- Applying postings depends on their net deltas alone: the same result and the same balances
for every order and every grouping. A failure leaves the balances, and nothing overflows for fewer
than `2 ^ 62` postings. -/
theorem commit_order_independent {ps qs : PostingSlice}
    (h : Relation.EqvGen Regroup ps.postings qs.postings) (b : Balances) (rule : PostingRule) :
    exec (Balances.commitWith rule ps.postings) b = exec (Balances.commitWith rule qs.postings) b
    ∧ (∀ e after, exec (Balances.commitWith rule ps.postings) b = (.error e, after) → after = b)
    ∧ ∀ postings : List Posting, postings.length < 2 ^ 62 → NoOverflow postings := by
  have hps : ps.postings.length < 2 ^ 62 := by
    have := ps.fits
    omega
  have hqs : qs.postings.length < 2 ^ 62 := by
    have := qs.fits
    omega
  refine ⟨?_, ?_, fun postings => noOverflow⟩
  · have hagg := aggregateDeltas_congr hps hqs (netDelta_eq_of_eqvGen h)
    simp only [commitWith_exec, Balances.applyWith, hagg]
  · intro e after hexec
    rw [commitWith_exec] at hexec
    cases happly : b.applyWith rule ps.postings with
    | ok next =>
        rw [happly] at hexec
        cases hexec
    | error e' =>
        rw [happly] at hexec
        exact (Prod.mk.inj hexec).2.symm

end

section Concrete

open Concrete

/-- Four postings that net out to a payment of five from `a` to `b`. -/
def nettedPostings : List Posting :=
  [{ account := .child "a", delta := -10 }, { account := .child "b", delta := 10 },
    { account := .child "a", delta := 5 }, { account := .child "b", delta := -5 }]

def plainPostings : List Posting :=
  [{ account := .child "a", delta := -5 }, { account := .child "b", delta := 5 }]

theorem nettedPostings_regroup : Relation.EqvGen Regroup nettedPostings plainPostings := by
  have hperm : Regroup nettedPostings
      [{ account := .child "a", delta := -10 }, { account := .child "a", delta := 5 },
        { account := .child "b", delta := 10 }, { account := .child "b", delta := -5 }] :=
    .perm (by decide)
  have hfirst : Regroup
      [{ account := .child "a", delta := -5 }, { account := .child "b", delta := 10 },
        { account := .child "b", delta := -5 }]
      [{ account := .child "a", delta := -10 }, { account := .child "a", delta := 5 },
        { account := .child "b", delta := 10 }, { account := .child "b", delta := -5 }] :=
    @Regroup.split [] _ [{ account := .child "a", delta := -10 },
      { account := .child "a", delta := 5 }] _ (by simp) (by simp) (by decide)
  have hsecond : Regroup plainPostings
      [{ account := .child "a", delta := -5 }, { account := .child "b", delta := 10 },
        { account := .child "b", delta := -5 }] :=
    @Regroup.split [{ account := .child "a", delta := -5 }] []
      [{ account := .child "b", delta := 10 }, { account := .child "b", delta := -5 }] _
      (by simp) (by simp) (by decide)
  have hmerged := (Relation.EqvGen.rel _ _ hperm).trans _ _ _
    ((Relation.EqvGen.rel _ _ hfirst).symm _ _)
  exact hmerged.trans _ _ _ ((Relation.EqvGen.rel _ _ hsecond).symm _ _)

/-- Four postings that net out act as two: five units move where ten would overdraw. -/
theorem commit_order_independent_netted :
    ∃ ps qs : PostingSlice, ps.postings = nettedPostings ∧ qs.postings = plainPostings
      ∧ ∃ b : Balances, b.balance (.child "a") = 5
        ∧ exec (Balances.commitWith .balanced ps.postings) b
          = exec (Balances.commitWith .balanced qs.postings) b
        ∧ (exec (Balances.commitWith .balanced ps.postings) b).1.toBool = true
        ∧ NoOverflow ps.postings := by
  let b : Balances :=
    { parent := 0, children := (∅ : ExtTreeMap NodeId Amount).insert "a" 5 |>.insert "b" 0 }
  let netted : PostingSlice := ⟨nettedPostings, by decide⟩
  let plain : PostingSlice := ⟨plainPostings, by decide⟩
  have hregroup : Relation.EqvGen Regroup netted.postings plain.postings := nettedPostings_regroup
  obtain ⟨hsame, -, hfits⟩ := commit_order_independent hregroup b .balanced
  exact ⟨netted, plain, rfl, rfl, b, by decide, hsame, by decide, hfits nettedPostings (by decide)⟩

end Concrete

end Cawala
