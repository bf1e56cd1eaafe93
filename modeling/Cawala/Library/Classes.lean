import Mathlib

/-! # Classes as lists

The classes of a relation among listed elements, given as a list of lists, and what such lists
have in common: they differ in the order of the classes and within each class only. -/

namespace Cawala.Library

variable {α : Type*} {R : α → α → Prop} {elems elems' : List α} {classes classes' : List (List α)}

/-- The elements of a list divided into the classes of a relation. -/
structure Classes (R : α → α → Prop) (elems : List α) (classes : List (List α)) : Prop where
  nonempty : ∀ c ∈ classes, c ≠ []
  nodup : ∀ c ∈ classes, c.Nodup
  mem_iff : ∀ c ∈ classes, ∀ a ∈ c, ∀ b, b ∈ c ↔ b ∈ elems ∧ R a b
  cover : ∀ a ∈ elems, ∃ c ∈ classes, a ∈ c
  disjoint : classes.Pairwise List.Disjoint

section Sorting

variable [LinearOrder α]

theorem insertionSort_eq_of_perm {l l' : List α} (h : l.Perm l') :
    l.insertionSort (· ≤ ·) = l'.insertionSort (· ≤ ·) := by
  apply List.Perm.eq_of_sortedLE List.sortedLE_insertionSort List.sortedLE_insertionSort
  exact (List.perm_insertionSort _ l).trans (h.trans (List.perm_insertionSort _ l').symm)

theorem Classes.nodup_sorted (h : Classes R elems classes) :
    (classes.map (List.insertionSort (· ≤ ·))).Nodup := by
  refine List.pairwise_map.mpr (h.disjoint.imp_of_mem ?_)
  intro c c' hc hc' hdisjoint heq
  obtain ⟨a, ha⟩ := List.exists_mem_of_ne_nil c (h.nonempty c hc)
  have ha' : a ∈ c'.insertionSort (· ≤ ·) := heq ▸ (List.mem_insertionSort _).mpr ha
  exact hdisjoint ha ((List.mem_insertionSort _).mp ha')

theorem Classes.sorted_subset (h : Classes R elems classes) (h' : Classes R elems' classes')
    (helems : elems.Perm elems') :
    (classes.map (List.insertionSort (· ≤ ·))) ⊆ classes'.map (List.insertionSort (· ≤ ·)) := by
  intro l hl
  obtain ⟨c, hc, rfl⟩ := List.mem_map.mp hl
  obtain ⟨a, ha⟩ := List.exists_mem_of_ne_nil c (h.nonempty c hc)
  have haElems : a ∈ elems := ((h.mem_iff c hc a ha a).mp ha).1
  obtain ⟨c', hc', ha'⟩ := h'.cover a (helems.mem_iff.mp haElems)
  have hperm : c'.Perm c := by
    refine (List.perm_ext_iff_of_nodup (h'.nodup c' hc') (h.nodup c hc)).mpr ?_
    intro b
    rw [h.mem_iff c hc a ha, h'.mem_iff c' hc' a ha', helems.mem_iff]
  exact List.mem_map.mpr ⟨c', hc', insertionSort_eq_of_perm hperm⟩

/-- The sorted classes are the same, whichever way they were found. -/
theorem Classes.sorted_perm (h : Classes R elems classes) (h' : Classes R elems' classes')
    (helems : elems.Perm elems') :
    (classes.map (List.insertionSort (· ≤ ·))).Perm
      (classes'.map (List.insertionSort (· ≤ ·))) := by
  refine (List.perm_ext_iff_of_nodup h.nodup_sorted h'.nodup_sorted).mpr ?_
  intro l
  exact ⟨fun hl => h.sorted_subset h' helems hl, fun hl => h'.sorted_subset h helems.symm hl⟩

end Sorting

end Cawala.Library
