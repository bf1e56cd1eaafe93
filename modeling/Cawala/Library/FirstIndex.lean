import Cawala.Library.Except

/-! # Indices of first occurrences

Maps that a pass over a list fills: an element with a key is entered unless its key is there, so
what is found under a key stems from the first element that has it. -/

namespace Cawala.Library

open Std (ExtTreeMap)

variable {ε α κ β : Type} {key : α → Option κ} {R : α → β → Prop} {l : List α}

/-- The first element of a list with a key. -/
structure FirstAt (key : α → Option κ) (l : List α) (k : κ) (a : α) : Prop where
  split : ∃ before after, l = before ++ a :: after ∧ k ∉ before.filterMap key
  key : key a = some k

theorem FirstAt.snoc {k : κ} {a : α} (h : FirstAt key l k a) (b : α) :
    FirstAt key (l ++ [b]) k a := by
  obtain ⟨before, after, rfl, hnot⟩ := h.split
  exact ⟨⟨before, after ++ [b], by simp, hnot⟩, h.key⟩

theorem FirstAt.unique [BEq κ] [LawfulBEq κ] {k : κ} {a b : α} (h : FirstAt key l k a)
    (hb : b ∈ l) (hkey : key b = some k) (honce : (l.filterMap key).count k ≤ 1) : b = a := by
  obtain ⟨before, after, rfl, hnot⟩ := h.split
  have hbefore : b ∉ before := fun hmem => hnot (List.mem_filterMap.mpr ⟨b, hmem, hkey⟩)
  rcases List.mem_append.mp hb with hb | hb
  · exact absurd hb hbefore
  · rcases List.mem_cons.mp hb with heq | hafter
    · exact heq
    · have hcount : 0 < (after.filterMap key).count k :=
        List.count_pos_iff.mpr (List.mem_filterMap.mpr ⟨b, hafter, hkey⟩)
      simp only [List.filterMap_append, List.filterMap_cons, h.key, List.count_append,
        List.count_cons_self] at honce
      omega

/-! ## Filling a map -/

/-- Pairs are ordered lexicographically. -/
instance lexLawfulEqOrd {α β : Type*} [Ord α] [Ord β] [Std.TransOrd α] [Std.TransOrd β]
    [Std.LawfulEqOrd α] [Std.LawfulEqOrd β] : Std.LawfulEqOrd (α ×ₗ β) where
  eq_of_compare := by
    intro a b h
    have hlex : (compare (ofLex a).1 (ofLex b).1).then (compare (ofLex a).2 (ofLex b).2) = .eq := h
    obtain ⟨hfirst, hsecond⟩ := Ordering.then_eq_eq.mp hlex
    exact ofLex.injective
      (Prod.ext (Std.compare_eq_iff_eq.mp hfirst) (Std.compare_eq_iff_eq.mp hsecond))

variable [Ord κ] [Std.TransOrd κ] [Std.LawfulEqOrd κ]

/-- The map holds, under the keys of a list and no others, what their first elements yield. -/
structure Indexes (key : α → Option κ) (R : α → β → Prop) (l : List α) (m : ExtTreeMap κ β) :
    Prop where
  mem : ∀ k, k ∈ m ↔ k ∈ l.filterMap key
  first : ∀ k v, m[k]? = some v → ∃ a, FirstAt key l k a ∧ R a v

/-- One element more: nothing changes, or its fresh key is entered. -/
inductive Enters (key : α → Option κ) (R : α → β → Prop) (m : ExtTreeMap κ β) (a : α) :
    ExtTreeMap κ β → Prop where
  | keyless : key a = none → Enters key R m a m
  | known {k : κ} : key a = some k → k ∈ m → Enters key R m a m
  | fresh {k : κ} {v : β} : key a = some k → k ∉ m → R a v → Enters key R m a (m.insert k v)

theorem Indexes.snoc {m m' : ExtTreeMap κ β} (h : Indexes key R l m) {a : α}
    (ha : Enters key R m a m') : Indexes key R (l ++ [a]) m' := by
  have hfirst : ∀ k v, m[k]? = some v → ∃ b, FirstAt key (l ++ [a]) k b ∧ R b v := by
    intro k v hget
    obtain ⟨b, hb, hR⟩ := h.first k v hget
    exact ⟨b, hb.snoc a, hR⟩
  cases ha with
  | keyless hkey =>
      refine ⟨?_, hfirst⟩
      intro k
      rw [h.mem, List.filterMap_append]
      simp [hkey]
  | known hkey hin =>
      refine ⟨?_, hfirst⟩
      intro k
      rw [List.filterMap_append, List.mem_append, ← h.mem]
      refine (or_iff_left_of_imp ?_).symm
      intro hk
      simp only [List.filterMap_cons, hkey, List.filterMap_nil, List.mem_singleton] at hk
      exact hk ▸ hin
  | fresh hkey hnot hR =>
      refine ⟨?_, ?_⟩
      · intro k
        rw [List.filterMap_append, List.mem_append, ← h.mem, ExtTreeMap.mem_insert,
          Std.compare_eq_iff_eq, or_comm]
        simp [hkey, eq_comm]
      · intro k v hget
        rw [ExtTreeMap.getElem?_insert] at hget
        split_ifs at hget with heq
        · obtain rfl := Std.compare_eq_iff_eq.mp heq
          obtain rfl := Option.some.inj hget
          exact ⟨a, ⟨⟨l, [], rfl, fun hk => hnot ((h.mem _).mpr hk)⟩, hkey⟩, hR⟩
        · exact hfirst k v hget

/-- A pass whose steps enter the elements yields the index. -/
theorem indexes_of_foldlM {step : ExtTreeMap κ β → α → Except ε (ExtTreeMap κ β)}
    (hstep : ∀ m a m', step m a = .ok m' → Enters key R m a m') {m : ExtTreeMap κ β}
    (h : l.foldlM step ∅ = Except.ok m) : Indexes key R l m :=
  foldlM_induction (P := fun d m => Indexes key R d m) (d := [])
    (fun d a m m' hm ha => hm.snoc (hstep m a m' ha)) ⟨by simp, by simp⟩ h

end Cawala.Library
