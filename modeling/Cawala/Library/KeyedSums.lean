import Mathlib

/-! # Sums over keyed lists

Two lists whose elements have keys, each list every key once. If the elements of one key have the
same value in both lists, the sums of the lists differ by what only one of them has. -/

namespace Cawala.Library

variable {α β κ : Type*} [DecidableEq κ] {key : α → κ} {key' : β → κ} {x : α → ℤ} {y : β → ℤ}
  {l : List α} {l' : List β}

/-- The elements of a list whose keys are not among some others. -/
def unmatched (key : α → κ) (others : List κ) (l : List α) : List α :=
  l.filter fun a => decide (key a ∉ others)

/-- The elements of a list whose keys are among some others. -/
def matched (key : α → κ) (others : List κ) (l : List α) : List α :=
  l.filter fun a => decide (key a ∈ others)

theorem mem_unmatched {others : List κ} {a : α} :
    a ∈ unmatched key others l ↔ a ∈ l ∧ key a ∉ others := by
  simp [unmatched]

theorem mem_matched {others : List κ} {a : α} :
    a ∈ matched key others l ↔ a ∈ l ∧ key a ∈ others := by
  simp [matched]

variable (key x) in
theorem sum_matched_add_unmatched (others : List κ) (l : List α) :
    ((matched key others l).map x).sum + ((unmatched key others l).map x).sum
      = (l.map x).sum := by
  induction l with
  | nil => rfl
  | cons a rest ih =>
      by_cases ha : key a ∈ others
      · simp only [matched, unmatched, List.filter_cons, ha] at ih ⊢
        simp [← ih, add_assoc]
      · simp only [matched, unmatched, List.filter_cons, ha] at ih ⊢
        simp [← ih, add_left_comm]

/-- The matched elements of both lists have the same keys and values. -/
theorem matched_perm (hl : (l.map key).Nodup) (hl' : (l'.map key').Nodup)
    (hagree : ∀ a ∈ l, ∀ b ∈ l', key a = key' b → x a = y b) :
    ((matched key (l'.map key') l).map fun a => (key a, x a)).Perm
      ((matched key' (l.map key) l').map fun b => (key' b, y b)) := by
  have hnodup : ((matched key (l'.map key') l).map fun a => (key a, x a)).Nodup := by
    refine List.Nodup.of_map Prod.fst ?_
    rw [List.map_map]
    exact (List.filter_sublist.map key).nodup hl
  have hnodup' : ((matched key' (l.map key) l').map fun b => (key' b, y b)).Nodup := by
    refine List.Nodup.of_map Prod.fst ?_
    rw [List.map_map]
    exact (List.filter_sublist.map key').nodup hl'
  refine (List.perm_ext_iff_of_nodup hnodup hnodup').mpr ?_
  intro p
  simp only [List.mem_map, mem_matched]
  constructor
  · rintro ⟨a, ⟨ha, b, hb, hkey⟩, rfl⟩
    exact ⟨b, ⟨hb, a, ha, hkey.symm⟩, by rw [hkey, hagree a ha b hb hkey.symm]⟩
  · rintro ⟨b, ⟨hb, a, ha, hkey⟩, rfl⟩
    exact ⟨a, ⟨ha, b, hb, hkey.symm⟩, by rw [hkey, hagree a ha b hb hkey]⟩

theorem sum_add_unmatched (hl : (l.map key).Nodup) (hl' : (l'.map key').Nodup)
    (hagree : ∀ a ∈ l, ∀ b ∈ l', key a = key' b → x a = y b) :
    (l.map x).sum + ((unmatched key' (l.map key) l').map y).sum
      = (l'.map y).sum + ((unmatched key (l'.map key') l).map x).sum := by
  have hmatched : ((matched key (l'.map key') l).map x).sum
      = ((matched key' (l.map key) l').map y).sum := by
    have hperm := ((matched_perm hl hl' hagree).map Prod.snd).sum_eq
    rwa [List.map_map, List.map_map] at hperm
  have hsum := sum_matched_add_unmatched key x (l'.map key') l
  have hsum' := sum_matched_add_unmatched key' y (l.map key) l'
  omega

end Cawala.Library
