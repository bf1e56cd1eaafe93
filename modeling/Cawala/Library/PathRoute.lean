import Mathlib

/-! # Routes between paths of a tree

A position in a tree is the list of branches that leads to it from the root, and an
ancestor is a prefix. The route between two positions climbs to their longest common
prefix and descends from it. -/

namespace Cawala.Library

variable {α : Type*}

/-! ## The prefixes below a depth -/

/-- The prefixes of `l` longer than `n`, the longest first. -/
def below (n : ℕ) (l : List α) : List (List α) :=
  (l.inits.filter (fun p => decide (n < p.length))).reverse

theorem mem_below {n : ℕ} {l p : List α} : p ∈ below n l ↔ p <+: l ∧ n < p.length := by
  simp [below, List.mem_inits]

theorem below_of_length_le {n : ℕ} {l : List α} (h : l.length ≤ n) : below n l = [] := by
  apply List.eq_nil_iff_forall_not_mem.mpr
  intro p hp
  have hlen := (mem_below.mp hp).1.length_le
  have := (mem_below.mp hp).2
  omega

theorem below_snoc {n : ℕ} {l : List α} (h : n ≤ l.length) (x : α) :
    below n (l ++ [x]) = (l ++ [x]) :: below n l := by
  have hlen : n < l.length + 1 := by omega
  simp [below, List.inits_append, List.filter_append, List.reverse_append, hlen]

theorem below_ne_nil {n : ℕ} {l : List α} (h : n < l.length) : below n l ≠ [] :=
  List.ne_nil_of_mem (mem_below.mpr ⟨List.prefix_rfl, h⟩)

/-- The shortest prefix below a proper prefix adds one branch to it. -/
theorem below_eq_append {c l : List α} {x : α} (h : c ++ [x] <+: l) :
    below c.length l = below (c.length + 1) l ++ [c ++ [x]] := by
  obtain ⟨rest, rfl⟩ := h
  induction rest using List.reverseRecOn with
  | nil =>
      rw [List.append_nil, below_snoc le_rfl, below_of_length_le le_rfl,
        below_of_length_le (by simp), List.nil_append]
  | append_singleton rest z ih =>
      rw [← List.append_assoc, below_snoc (by simp), below_snoc (by simp), ih, List.cons_append]

theorem exists_branch {c l : List α} (h : c <+: l) (hne : c ≠ l) : ∃ x, c ++ [x] <+: l := by
  obtain ⟨rest, rfl⟩ := h
  cases rest with
  | nil => simp at hne
  | cons x rest => exact ⟨x, rest, by simp⟩

theorem forall₂_getLast? {β : Type*} {R : α → β → Prop} {xs : List α} {ys : List β} {y : β}
    (h : List.Forall₂ R xs ys) (hy : ys.getLast? = some y) :
    ∃ x, xs.getLast? = some x ∧ R x y := by
  rw [List.getLast?_eq_head?_reverse] at hy ⊢
  have hrev := List.forall₂_reverse_iff.mpr h
  generalize xs.reverse = us at hrev ⊢
  generalize ys.reverse = vs at hrev hy
  cases hrev with
  | nil => cases hy
  | cons hR _ =>
      obtain rfl : _ = y := by simpa using hy
      exact ⟨_, rfl, hR⟩

theorem prefix_singleton_iff {p : List α} {x : α} : p <+: [x] ↔ p = [x] ∨ p = [] := by
  rw [← List.nil_append [x], List.prefix_concat_iff, List.prefix_nil]

theorem nodup_below (n : ℕ) (l : List α) : (below n l).Nodup := by
  induction l using List.reverseRecOn with
  | nil => simp [below_of_length_le]
  | append_singleton l x ih =>
      by_cases h : n ≤ l.length
      · rw [below_snoc h, List.nodup_cons]
        refine ⟨?_, ih⟩
        intro hmem
        have := (mem_below.mp hmem).1.length_le
        simp at this
      · have hle : (l ++ [x]).length ≤ n := by
          simp
          omega
        simp [below_of_length_le hle]

theorem length_below {n : ℕ} {l : List α} (h : n ≤ l.length) :
    (below n l).length = l.length - n := by
  induction l using List.reverseRecOn with
  | nil => simp [below_of_length_le]
  | append_singleton l x ih =>
      by_cases hle : n ≤ l.length
      · rw [below_snoc hle, List.length_cons, ih hle, List.length_append, List.length_singleton]
        omega
      · rw [below_of_length_le (by simp; omega)]
        simp at h ⊢
        omega

theorem le_of_snoc_le_snoc {d l : List α} {x z : α} (h : d ++ [x] <+: l ++ [z]) : d <+: l := by
  have hlen := h.length_le
  simp only [List.length_append, List.length_singleton] at hlen
  exact List.prefix_of_prefix_length_le ((List.prefix_append d [x]).trans h)
    (List.prefix_append l [z]) (by omega)

/-- Only one branch leads on towards a position. -/
theorem branch_unique {d l : List α} {x y : α} (hx : d ++ [x] <+: l) (hy : d ++ [y] <+: l) :
    x = y := by
  have hle := List.prefix_of_prefix_length_le hx hy (by simp)
  simpa using hle.eq_of_length (by simp)

/-! ## The longest common prefix -/

variable [DecidableEq α]

/-- The longest common prefix of two lists. -/
def meet : List α → List α → List α
  | x :: xs, y :: ys => if x = y then x :: meet xs ys else []
  | _, _ => []

theorem le_meet_iff {p a b : List α} : p <+: meet a b ↔ p <+: a ∧ p <+: b := by
  induction p generalizing a b with
  | nil => simp
  | cons z p ih =>
      cases a with
      | nil => simp [meet]
      | cons x xs =>
          cases b with
          | nil => simp [meet]
          | cons y ys =>
              by_cases h : x = y
              · subst h
                simp only [meet, ↓reduceIte, List.cons_prefix_cons, ih]
                tauto
              · simp only [meet, h, ↓reduceIte, List.cons_prefix_cons]
                constructor
                · intro hp
                  simp at hp
                · rintro ⟨⟨rfl, -⟩, rfl, -⟩
                  exact absurd rfl h

theorem meet_le_left (a b : List α) : meet a b <+: a := (le_meet_iff.mp List.prefix_rfl).1

theorem meet_le_right (a b : List α) : meet a b <+: b := (le_meet_iff.mp List.prefix_rfl).2

theorem meet_comm (a b : List α) : meet a b = meet b a := by
  have hle : ∀ c d : List α, meet c d <+: meet d c := fun c d =>
    le_meet_iff.mpr ⟨meet_le_right c d, meet_le_left c d⟩
  exact List.IsPrefix.eq_of_length_le (hle a b) (hle b a).length_le

/-- A common prefix longer than the longest one does not exist. -/
theorem not_mem_below_meet {a b p : List α} (ha : p ∈ below (meet a b).length a)
    (hb : p ∈ below (meet a b).length b) : False := by
  have hle := (le_meet_iff.mpr ⟨(mem_below.mp ha).1, (mem_below.mp hb).1⟩).length_le
  have := (mem_below.mp ha).2
  omega

/-- One more branch on each side changes nothing once neither side leads to the other. -/
theorem meet_snoc {a b : List α} {x y : α} (h : ¬ a ++ [x] <+: b ++ [y])
    (h' : ¬ b ++ [y] <+: a ++ [x]) : meet (a ++ [x]) (b ++ [y]) = meet a b := by
  have hsub : meet a b <+: meet (a ++ [x]) (b ++ [y]) := le_meet_iff.mpr
    ⟨(meet_le_left a b).trans (List.prefix_append _ _),
      (meet_le_right a b).trans (List.prefix_append _ _)⟩
  have hsup : meet (a ++ [x]) (b ++ [y]) <+: meet a b := by
    apply le_meet_iff.mpr
    constructor
    · rcases List.prefix_concat_iff.mp (meet_le_left (a ++ [x]) (b ++ [y])) with heq | hle
      · exact absurd (heq ▸ meet_le_right (a ++ [x]) (b ++ [y])) h
      · exact hle
    · rcases List.prefix_concat_iff.mp (meet_le_right (a ++ [x]) (b ++ [y])) with heq | hle
      · exact absurd (heq ▸ meet_le_left (a ++ [x]) (b ++ [y])) h'
      · exact hle
  exact (hsub.eq_of_length_le hsup.length_le).symm

/-! ## The route -/

/-- The route from `a` to `b`: up to their longest common prefix, then down. -/
def route (a b : List α) : List (List α) :=
  below (meet a b).length a ++ meet a b :: (below (meet a b).length b).reverse

theorem mem_route {a b p : List α} :
    p ∈ route a b ↔ (p <+: a ∨ p <+: b) ∧ (meet a b).length ≤ p.length := by
  simp only [route, List.mem_append, List.mem_cons, List.mem_reverse, mem_below]
  constructor
  · rintro (⟨hp, hlen⟩ | rfl | ⟨hp, hlen⟩)
    · exact ⟨Or.inl hp, by omega⟩
    · exact ⟨Or.inl (meet_le_left a b), le_rfl⟩
    · exact ⟨Or.inr hp, by omega⟩
  · rintro ⟨hp, hlen⟩
    rcases Nat.lt_or_ge (meet a b).length p.length with hlt | hge
    · rcases hp with hp | hp
      · exact Or.inl ⟨hp, hlt⟩
      · exact Or.inr (Or.inr ⟨hp, hlt⟩)
    · refine Or.inr (Or.inl ?_)
      rcases hp with hp | hp
      · exact (List.prefix_of_prefix_length_le hp (meet_le_left a b) hge).eq_of_length (by omega)
      · exact (List.prefix_of_prefix_length_le hp (meet_le_right a b) hge).eq_of_length (by omega)

theorem meet_le_of_mem_route {a b p : List α} (h : p ∈ route a b) : meet a b <+: p := by
  obtain ⟨hp | hp, hlen⟩ := mem_route.mp h
  · exact List.prefix_of_prefix_length_le (meet_le_left a b) hp hlen
  · exact List.prefix_of_prefix_length_le (meet_le_right a b) hp hlen

theorem nodup_route (a b : List α) : (route a b).Nodup := by
  rw [route, List.nodup_append]
  refine ⟨nodup_below _ _, ?_, ?_⟩
  · rw [List.nodup_cons]
    refine ⟨?_, List.nodup_reverse.mpr (nodup_below _ _)⟩
    intro h
    have := (mem_below.mp (List.mem_reverse.mp h)).2
    omega
  · intro p hp q hq hpq
    subst hpq
    rcases List.mem_cons.mp hq with rfl | hq
    · have := (mem_below.mp hp).2
      omega
    · exact not_mem_below_meet hp (List.mem_reverse.mp hq)

theorem meet_eq_left {a b : List α} (h : a <+: b) : meet a b = a :=
  (meet_le_left a b).eq_of_length_le (le_meet_iff.mpr ⟨List.prefix_rfl, h⟩).length_le

theorem route_self (a : List α) : route a a = [a] := by
  rw [route, meet_eq_left List.prefix_rfl, below_of_length_le le_rfl]
  rfl

/-- Away from the target's branch the route climbs. -/
theorem route_up {p b : List α} {s : α} (h : ¬ p ++ [s] <+: b) :
    route (p ++ [s]) b = (p ++ [s]) :: route p b := by
  have hle : meet (p ++ [s]) b <+: p := by
    refine (List.prefix_concat_iff.mp (meet_le_left (p ++ [s]) b)).resolve_left ?_
    intro heq
    exact h (heq ▸ meet_le_right (p ++ [s]) b)
  have hmeet : meet (p ++ [s]) b = meet p b := by
    refine List.IsPrefix.eq_of_length_le ?_ ?_
    · exact le_meet_iff.mpr ⟨hle, meet_le_right _ _⟩
    · exact (le_meet_iff.mpr ⟨(meet_le_left p b).trans (List.prefix_append _ _),
        meet_le_right _ _⟩).length_le
  rw [route, hmeet, below_snoc (meet_le_left p b).length_le]
  rfl

/-- On the target's branch the route descends. -/
theorem route_down {c b : List α} {x : α} (h : c ++ [x] <+: b) :
    route c b = c :: route (c ++ [x]) b := by
  have hc : c <+: b := (List.prefix_append c [x]).trans h
  have hlen : (c ++ [x]).length = c.length + 1 := by simp
  rw [route, route, meet_eq_left hc, meet_eq_left h, below_of_length_le le_rfl,
    below_of_length_le le_rfl, below_eq_append h, hlen]
  simp

/-- The route has one position for every step up and down, and the one it starts from. -/
theorem length_route (a b : List α) :
    (route a b).length = a.length + b.length - 2 * (meet a b).length + 1 := by
  have hleft := (meet_le_left a b).length_le
  have hright := (meet_le_right a b).length_le
  simp only [route, List.length_append, List.length_cons, List.length_reverse,
    length_below hleft, length_below hright]
  omega

theorem reverse_route (a b : List α) : (route a b).reverse = route b a := by
  simp [route, meet_comm a b]

theorem head?_route (a b : List α) : (route a b).head? = some a := by
  by_cases hle : a <+: b
  · rw [route, meet_eq_left hle, below_of_length_le le_rfl]
    rfl
  · rcases List.eq_nil_or_concat' a with rfl | ⟨p, s, rfl⟩
    · exact absurd List.nil_prefix hle
    · rw [route_up hle]
      rfl

theorem getLast?_route (a b : List α) : (route a b).getLast? = some b := by
  rw [List.getLast?_eq_head?_reverse, reverse_route, head?_route]

/-- The route to a position on the way is the first part of the whole route. -/
theorem route_le_of_mem {a b p : List α} (h : p ∈ route a b) : route a p <+: route a b := by
  -- Each round takes the first step of the longer route.
  induction hlen : (route a b).length using Nat.strong_induction_on generalizing a with
  | _ n ih =>
    by_cases hpa : p = a
    · obtain ⟨rest, hrest⟩ := List.head?_eq_some_iff.mp (head?_route a b)
      rw [hpa, route_self, hrest]
      exact List.cons_prefix_cons.mpr ⟨rfl, List.nil_prefix⟩
    by_cases hle : a <+: b
    · obtain rfl | hne := eq_or_ne a b
      · rw [route_self, List.mem_singleton] at h
        exact absurd h hpa
      obtain ⟨x, hx⟩ := exists_branch hle hne
      rw [route_down hx] at h hlen ⊢
      have hp : p ∈ route (a ++ [x]) b := (List.mem_cons.mp h).resolve_left hpa
      have hbelow : a ++ [x] <+: p := meet_eq_left hx ▸ meet_le_of_mem_route hp
      rw [route_down hbelow]
      rw [List.length_cons] at hlen
      exact List.cons_prefix_cons.mpr ⟨rfl, ih _ (by omega) hp rfl⟩
    · obtain rfl | ⟨d, s, rfl⟩ := List.eq_nil_or_concat' a
      · exact absurd List.nil_prefix hle
      rw [route_up hle] at h hlen ⊢
      have hp : p ∈ route d b := (List.mem_cons.mp h).resolve_left hpa
      have hoff : ¬ d ++ [s] <+: p := by
        intro hsp
        obtain ⟨hside | hside, -⟩ := mem_route.mp hp
        · have := (hsp.trans hside).length_le
          simp at this
        · exact hle (hsp.trans hside)
      rw [route_up hoff]
      rw [List.length_cons] at hlen
      exact List.cons_prefix_cons.mpr ⟨rfl, ih _ (by omega) hp rfl⟩

/-- The route to the position at an index is the whole route up to that index. -/
theorem route_take {a b p : List α} {k : ℕ} (h : (route a b)[k]? = some p) :
    route a p = (route a b).take (k + 1) := by
  have hle := route_le_of_mem (List.mem_of_getElem? h)
  have htake := List.prefix_iff_eq_take.mp hle
  -- The last position of the shorter route is `p`, and positions do not repeat.
  have hpos : 0 < (route a p).length := List.length_pos_iff.mpr fun hnil => by
    have hhead := head?_route a p
    rw [hnil] at hhead
    cases hhead
  have hlast : (route a b)[(route a p).length - 1]? = some p := by
    obtain ⟨rest, hrest⟩ := hle
    rw [← hrest, List.getElem?_append_left (by omega), ← List.getLast?_eq_getElem?,
      getLast?_route]
  obtain ⟨hk, hget⟩ := List.getElem?_eq_some_iff.mp h
  obtain ⟨hk', hget'⟩ := List.getElem?_eq_some_iff.mp hlast
  have heq := (nodup_route a b).getElem_inj_iff.mp (hget.trans hget'.symm)
  rw [htake]
  congr 1
  omega

end Cawala.Library
