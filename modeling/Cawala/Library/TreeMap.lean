import Mathlib

/-! # Sums over tree maps

How the sum of a function over the entries of an extensional tree map changes under
`insert`, and how an entry list is filtered by key. -/

namespace Cawala.Library

open Std (ExtTreeMap)

theorem transOrd_of_linearOrder {κ : Type*} [LinearOrder κ] : Std.TransOrd κ := inferInstance

attribute [local instance] transOrd_of_linearOrder

variable {κ β : Type*} [LinearOrder κ]

theorem nodup_map_fst_toList (m : ExtTreeMap κ β) : (m.toList.map Prod.fst).Nodup := by
  rw [ExtTreeMap.map_fst_toList_eq_keys]
  exact ExtTreeMap.nodup_keys

theorem nodup_toList (m : ExtTreeMap κ β) : m.toList.Nodup :=
  List.Nodup.of_map _ (nodup_map_fst_toList m)

/-- The entries after an insertion: the new one, and the old ones at other keys. -/
theorem toList_insert_perm (m : ExtTreeMap κ β) (k : κ) (v : β) :
    (m.insert k v).toList.Perm ((k, v) :: m.toList.filter (fun e => decide (e.1 ≠ k))) := by
  refine (List.perm_ext_iff_of_nodup (nodup_toList _) ?_).mpr ?_
  · refine List.nodup_cons.mpr ⟨?_, (nodup_toList m).filter _⟩
    simp
  · rintro ⟨a, b⟩
    simp only [ExtTreeMap.mem_toList_iff_getElem?_eq_some, ExtTreeMap.getElem?_insert,
      compare_eq_iff_eq, List.mem_cons, Prod.mk.injEq, List.mem_filter, decide_eq_true_eq]
    by_cases h : k = a
    · simp [h, eq_comm]
    · have h' : a ≠ k := fun e => h e.symm
      simp [h, h']

theorem toList_insert_of_notMem {m : ExtTreeMap κ β} {k : κ} (hk : k ∉ m) (v : β) :
    (m.insert k v).toList.Perm ((k, v) :: m.toList) := by
  have hself : m.toList.filter (fun e => decide (e.1 ≠ k)) = m.toList := by
    apply List.filter_eq_self.mpr
    rintro ⟨a, b⟩ hmem
    simp only [decide_eq_true_eq]
    rintro rfl
    have hget := ExtTreeMap.mem_toList_iff_getElem?_eq_some.mp hmem
    exact hk (ExtTreeMap.mem_iff_isSome_getElem?.mpr (by simp [hget]))
  have hperm := toList_insert_perm m k v
  rwa [hself] at hperm

theorem perm_values_of_lookups {m : ExtTreeMap κ β} {ks : List κ} {vs : List β}
    (h : List.Forall₂ (fun k v => m[k]? = some v) ks vs) (hnodup : ks.Nodup)
    (hlen : m.size = ks.length) : vs.Perm (m.toList.map Prod.snd) := by
  have hfst : (ks.zip vs).map Prod.fst = ks := List.map_fst_zip h.length_eq.le
  have hsnd : (ks.zip vs).map Prod.snd = vs := List.map_snd_zip h.length_eq.ge
  have hzip : (ks.zip vs).Nodup := List.Nodup.of_map Prod.fst (hfst.symm ▸ hnodup)
  have hsub : ks.zip vs ⊆ m.toList := by
    rintro ⟨k, v⟩ hmem
    exact ExtTreeMap.mem_toList_iff_getElem?_eq_some.mpr (List.forall₂_zip h hmem)
  have hle : m.toList.length ≤ (ks.zip vs).length := by
    rw [ExtTreeMap.length_toList, hlen, ← List.length_map (f := Prod.fst), hfst]
  have hperm := (List.subperm_of_subset hzip hsub).perm_of_length_le hle
  exact hsnd ▸ hperm.map Prod.snd

theorem toList_perm_of_lookups {m : ExtTreeMap κ β} {entries : List (κ × β)}
    (hnodup : entries.Nodup) (hsize : m.size = entries.length)
    (h : ∀ e ∈ entries, m[e.1]? = some e.2) : m.toList.Perm entries := by
  have hsub : entries ⊆ m.toList := fun e he =>
    ExtTreeMap.mem_toList_iff_getElem?_eq_some.mpr (h e he)
  have hle : m.toList.length ≤ entries.length := by rw [ExtTreeMap.length_toList, hsize]
  exact ((List.subperm_of_subset hnodup hsub).perm_of_length_le hle).symm

theorem toList_filter_key (m : ExtTreeMap κ β) (k : κ) :
    m.toList.filter (fun e => decide (e.1 = k)) = (m[k]?.map (fun v => (k, v))).toList := by
  have hperm : (m.toList.filter (fun e => decide (e.1 = k))).Perm
      (m[k]?.map (fun v => (k, v))).toList := by
    refine (List.perm_ext_iff_of_nodup ((nodup_toList m).filter _) ?_).mpr ?_
    · cases m[k]? <;> simp
    · rintro ⟨a, b⟩
      simp only [List.mem_filter, ExtTreeMap.mem_toList_iff_getElem?_eq_some, decide_eq_true_eq,
        Option.mem_toList, Option.map_eq_some_iff, Prod.mk.injEq]
      constructor
      · rintro ⟨hget, rfl⟩
        exact ⟨b, hget, rfl, rfl⟩
      · rintro ⟨c, hget, rfl, rfl⟩
        exact ⟨hget, rfl⟩
  cases hk : m[k]? with
  | none => simpa [hk] using hperm
  | some v => simpa [hk] using hperm

/-- Split the entries of a map into the one at a key and the rest. -/
theorem toList_perm_key (m : ExtTreeMap κ β) (k : κ) :
    m.toList.Perm ((m[k]?.map (fun v => (k, v))).toList
      ++ m.toList.filter (fun e => decide (e.1 ≠ k))) := by
  rw [← toList_filter_key]
  have hsplit := (List.filter_append_perm (fun e : κ × β => decide (e.1 = k)) m.toList).symm
  have hnot : (fun e : κ × β => !decide (e.1 = k)) = fun e => decide (e.1 ≠ k) := by
    funext e
    simp
  rwa [hnot] at hsplit

/-- What a list over the entries gains and loses when the value at a key is replaced. -/
theorem flatMap_toList_insert {γ : Type*} {m : ExtTreeMap κ β} {k : κ} {w : β}
    (f : κ × β → List γ) (v : β) (h : m[k]? = some w) :
    ∃ rest, (m.toList.flatMap f).Perm (f (k, w) ++ rest)
      ∧ ((m.insert k v).toList.flatMap f).Perm (f (k, v) ++ rest) := by
  refine ⟨(m.toList.filter (fun e => decide (e.1 ≠ k))).flatMap f, ?_, ?_⟩
  · have hperm := (toList_perm_key m k).flatMap_right f
    simpa [h] using hperm
  · have hperm := (toList_insert_perm m k v).flatMap_right f
    simpa using hperm

section Sum

variable {M : Type*} [AddCommGroup M]

/-- The sum of a function over the entries of a map. -/
def total (f : κ → β → M) (m : ExtTreeMap κ β) : M :=
  (m.toList.map (fun e => f e.1 e.2)).sum

@[simp] theorem total_empty (f : κ → β → M) : total f (∅ : ExtTreeMap κ β) = 0 := rfl

/-- The contribution of one key to a total. -/
def entryAt (f : κ → β → M) (m : ExtTreeMap κ β) (k : κ) : M := m[k]?.elim 0 (f k)

/-- An insertion replaces the contribution of its key. -/
theorem total_insert (f : κ → β → M) (m : ExtTreeMap κ β) (k : κ) (v : β) :
    total f (m.insert k v) = total f m - entryAt f m k + f k v := by
  have hnew := ((toList_insert_perm m k v).map (fun e => f e.1 e.2)).sum_eq
  have hold := ((toList_perm_key m k).map (fun e => f e.1 e.2)).sum_eq
  simp only [List.map_cons, List.sum_cons, List.map_append, List.sum_append] at hnew hold
  have hat : ((m[k]?.map (fun v => (k, v))).toList.map (fun e => f e.1 e.2)).sum
      = entryAt f m k := by
    cases h : m[k]? <;> simp [entryAt, h]
  rw [hat] at hold
  rw [total, total, hnew, hold]
  abel

end Sum

/-- A left fold that adds up a function of the entries is the total. -/
theorem foldl_add_eq_total (f : κ → β → ℤ) (m : ExtTreeMap κ β) :
    m.toList.foldl (fun acc e => acc + f e.1 e.2) 0 = total f m := by
  have hgen : ∀ (l : List (κ × β)) (acc : ℤ),
      l.foldl (fun acc e => acc + f e.1 e.2) acc = acc + (l.map (fun e => f e.1 e.2)).sum := by
    intro l
    induction l with
    | nil => simp
    | cons e l ih =>
        intro acc
        simp only [List.foldl_cons, List.map_cons, List.sum_cons, ih]
        ring
  simpa [total] using hgen m.toList 0

/-- The values at one key add up to the value found there. -/
theorem sum_filter_key (m : ExtTreeMap κ ℤ) (k : κ) :
    ((m.toList.filter (fun e => decide (e.1 = k))).map Prod.snd).sum = m.getD k 0 := by
  rw [toList_filter_key, ExtTreeMap.getD_eq_getD_getElem?]
  cases m[k]? <;> simp

/-- A map of one entry, known by a lookup. -/
theorem toList_eq_singleton {m : ExtTreeMap κ β} {k : κ} {v : β} (hsize : m.size = 1)
    (hget : m[k]? = some v) : m.toList = [(k, v)] := by
  have hlen : m.toList.length = 1 := by rw [ExtTreeMap.length_toList, hsize]
  have hmem : (k, v) ∈ m.toList := ExtTreeMap.mem_toList_iff_getElem?_eq_some.mpr hget
  obtain ⟨e, he⟩ := List.length_eq_one_iff.mp hlen
  rw [he] at hmem ⊢
  rw [List.mem_singleton.mp hmem]

end Cawala.Library
