import Cawala.Library.TreeMap

/-! # Tallies

Sums per key, kept in a tree map and built by one pass over a list. The addition is a parameter;
one that saturates is exact as long as the sums stay within its bound. -/

namespace Cawala.Library

open Std (ExtTreeMap)

attribute [local instance] transOrd_of_linearOrder

variable {κ : Type*} [LinearOrder κ]

/-- A listed entry is what its key looks up. -/
theorem mem_of_mem_toList {m : ExtTreeMap κ ℤ} {e : κ × ℤ} (he : e ∈ m.toList) :
    e.1 ∈ m ∧ m.getD e.1 0 = e.2 := by
  have hlookup := ExtTreeMap.mem_toList_iff_getElem?_eq_some.mp he
  refine ⟨ExtTreeMap.mem_iff_isSome_getElem?.mpr (by rw [hlookup]; rfl), ?_⟩
  rw [ExtTreeMap.getD_eq_getD_getElem?, hlookup, Option.getD_some]

/-- What is kept of a partial map is what is mapped of the kept. -/
theorem filter_filterMap_of_iff {α β : Type*} {f : α → Option β} {p : β → Bool} {q : α → Bool}
    {l : List α} (h : ∀ e ∈ l, ∀ n, f e = some n → p n = q e) :
    (l.filterMap f).filter p = (l.filter q).filterMap f := by
  induction l with
  | nil => rfl
  | cons e l ih =>
      have htail := ih fun e' he' => h e' (List.mem_cons_of_mem e he')
      cases hn : f e with
      | none =>
          rw [List.filterMap_cons_none hn, htail, List.filter_cons]
          split_ifs
          · rw [List.filterMap_cons_none hn]
          · rfl
      | some n =>
          rw [List.filterMap_cons_some hn, List.filter_cons, List.filter_cons, htail,
            h e List.mem_cons_self n hn]
          split_ifs
          · rw [List.filterMap_cons_some hn]
          · rfl

/-- A sum over a partial map, with nothing for what is not mapped. -/
theorem sum_filterMap {α β : Type*} (f : α → Option β) (g : β → ℤ) (l : List α) :
    ((l.filterMap f).map g).sum = (l.map fun e => ((f e).map g).getD 0).sum := by
  induction l with
  | nil => rfl
  | cons e l ih =>
      cases hn : f e with
      | none => simp [List.filterMap_cons_none hn, hn, ih]
      | some n => simp [List.filterMap_cons_some hn, hn, ih]

/-- Add the values of a list to a map of sums. -/
def tallyFrom (add : ℤ → ℤ → ℤ) (m : ExtTreeMap κ ℤ) (l : List (κ × ℤ)) : ExtTreeMap κ ℤ :=
  l.foldl (fun m e => m.insert e.1 (add (m.getD e.1 0) e.2)) m

/-- The sums per key of a list. -/
def tally (l : List (κ × ℤ)) : ExtTreeMap κ ℤ := tallyFrom (· + ·) ∅ l

def sumAt (l : List (κ × ℤ)) (k : κ) : ℤ := (l.map fun e => if e.1 = k then e.2 else 0).sum

theorem tallyFrom_cons (add : ℤ → ℤ → ℤ) (m : ExtTreeMap κ ℤ) (e : κ × ℤ) (l : List (κ × ℤ)) :
    tallyFrom add m (e :: l) = tallyFrom add (m.insert e.1 (add (m.getD e.1 0) e.2)) l := rfl

theorem mem_tallyFrom {add : ℤ → ℤ → ℤ} {m : ExtTreeMap κ ℤ} {l : List (κ × ℤ)} {k : κ} :
    k ∈ tallyFrom add m l ↔ k ∈ m ∨ k ∈ l.map Prod.fst := by
  induction l generalizing m with
  | nil => simp [tallyFrom]
  | cons e l ih =>
      rw [tallyFrom_cons, ih, ExtTreeMap.mem_insert, compare_eq_iff_eq, List.map_cons,
        List.mem_cons, eq_comm]
      tauto

theorem mem_tally {l : List (κ × ℤ)} {k : κ} : k ∈ tally l ↔ k ∈ l.map Prod.fst := by
  rw [tally, mem_tallyFrom]
  simp

theorem total_tallyFrom (w : κ → ℤ) (m : ExtTreeMap κ ℤ) (l : List (κ × ℤ)) :
    total (fun k v => v * w k) (tallyFrom (· + ·) m l)
      = total (fun k v => v * w k) m + (l.map fun e => e.2 * w e.1).sum := by
  induction l generalizing m with
  | nil => simp [tallyFrom]
  | cons e l ih =>
      have hat : entryAt (fun k v => v * w k) m e.1 = m.getD e.1 0 * w e.1 := by
        rw [entryAt, ExtTreeMap.getD_eq_getD_getElem?]
        cases m[e.1]? <;> simp
      rw [tallyFrom_cons, ih, total_insert, hat, List.map_cons, List.sum_cons]
      ring

theorem total_tally (w : κ → ℤ) (l : List (κ × ℤ)) :
    total (fun k v => v * w k) (tally l) = (l.map fun e => e.2 * w e.1).sum := by
  rw [tally, total_tallyFrom, total_empty, zero_add]

/-- The entries of a map at one key sum up to its lookup. -/
theorem sumAt_toList (m : ExtTreeMap κ ℤ) (k : κ) : sumAt m.toList k = m.getD k 0 := by
  rw [← sum_filter_key, sumAt]
  induction m.toList with
  | nil => rfl
  | cons e l ih =>
      rw [List.map_cons, List.sum_cons, ih, List.filter_cons]
      by_cases he : e.1 = k <;> simp [he]

theorem getD_tally (l : List (κ × ℤ)) (k : κ) : (tally l).getD k 0 = sumAt l k := by
  have hweight : ∀ l : List (κ × ℤ),
      (l.map fun e => e.2 * if e.1 = k then 1 else 0).sum = sumAt l k := by
    intro l
    rw [sumAt]
    congr 1
    apply List.map_congr_left
    intro e _
    by_cases he : e.1 = k <;> simp [he]
  have htotal := total_tally (fun k' => if k' = k then 1 else 0) l
  rw [hweight, total, hweight, sumAt_toList] at htotal
  exact htotal

theorem sumAt_nonneg {l : List (κ × ℤ)} (h : ∀ e ∈ l, 0 ≤ e.2) (k : κ) : 0 ≤ sumAt l k := by
  apply List.sum_nonneg
  intro x hx
  obtain ⟨e, he, rfl⟩ := List.mem_map.mp hx
  by_cases hk : e.1 = k
  · simpa [hk] using h e he
  · simp [hk]

theorem abs_sumAt_le (l : List (κ × ℤ)) (k : κ) : |sumAt l k| ≤ (l.map fun e => |e.2|).sum := by
  induction l with
  | nil => simp [sumAt]
  | cons e l ih =>
      rw [sumAt] at ih ⊢
      rw [List.map_cons, List.sum_cons, List.map_cons, List.sum_cons]
      refine (abs_add_le _ _).trans (add_le_add ?_ ih)
      by_cases he : e.1 = k <;> simp [he]

theorem getD_eq_getD_lookup (m : ExtTreeMap κ ℤ) (k : κ) : m.getD k 0 = m[k]?.getD 0 :=
  ExtTreeMap.getD_eq_getD_getElem?

/-- An addition that is exact within a bound tallies exactly within it. -/
theorem tallyFrom_eq_of_bounded {add : ℤ → ℤ → ℤ} {bound : ℤ}
    (hadd : ∀ x y, |x| + |y| ≤ bound → add x y = x + y) {l : List (κ × ℤ)}
    {m : ExtTreeMap κ ℤ} {reached : ℤ} (hm : ∀ k, |m.getD k 0| ≤ reached)
    (hl : reached + (l.map fun e => |e.2|).sum ≤ bound) :
    tallyFrom add m l = tallyFrom (· + ·) m l := by
  induction l generalizing m reached with
  | nil => rfl
  | cons e l ih =>
      rw [List.map_cons, List.sum_cons] at hl
      have hrest : 0 ≤ (l.map fun e => |e.2|).sum := by
        apply List.sum_nonneg
        intro x hx
        obtain ⟨e', -, rfl⟩ := List.mem_map.mp hx
        exact abs_nonneg _
      have hstep : add (m.getD e.1 0) e.2 = m.getD e.1 0 + e.2 := by
        apply hadd
        have hbefore := hm e.1
        omega
      rw [tallyFrom_cons, tallyFrom_cons, hstep]
      refine ih ?_ (by rw [← add_assoc] at hl; exact hl)
      intro k
      rw [ExtTreeMap.getD_insert]
      by_cases hk : e.1 = k
      · subst hk
        rw [if_pos (compare_eq_iff_eq.mpr rfl)]
        have hbefore := hm e.1
        exact (abs_add_le _ _).trans (by omega)
      · rw [if_neg (by simpa using hk)]
        have hbefore := hm k
        have hnonneg := abs_nonneg e.2
        omega

theorem tally_eq_of_bounded {add : ℤ → ℤ → ℤ} {bound : ℤ}
    (hadd : ∀ x y, |x| + |y| ≤ bound → add x y = x + y) {l : List (κ × ℤ)}
    (hl : (l.map fun e => |e.2|).sum ≤ bound) : tallyFrom add ∅ l = tally l := by
  have hempty : ∀ k : κ, |(∅ : ExtTreeMap κ ℤ).getD k 0| ≤ 0 := by simp
  exact tallyFrom_eq_of_bounded hadd hempty (by rw [zero_add]; exact hl)

end Cawala.Library
