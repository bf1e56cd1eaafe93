import Mathlib

/-! # Bounded lists that drop their oldest element

A list kept at a bound by dropping elements at its front, and the table made of it, in
which a key is rewritten in place. -/

namespace Cawala.Library.Fifo

universe u

variable {α : Type u}

/-- Append an element, then drop elements at the front while there are too many. -/
def push (bound : ℕ) (xs : List α) (x : α) : List α := (xs ++ [x]).drop (xs.length + 1 - bound)

/-- Rewrite the first element with a property. -/
def replaceFirst (p : α → Bool) (f : α → α) : List α → List α
  | [] => []
  | x :: xs => if p x then f x :: xs else x :: replaceFirst p f xs

/-- Rewrite the first element with a property; without one, push a new element. -/
def put (bound : ℕ) (p : α → Bool) (f : α → α) (x : α) (xs : List α) : List α :=
  if xs.any p then replaceFirst p f xs else push bound xs x

variable {bound : ℕ} {p q : α → Bool} {f : α → α} {x : α} {xs : List α}

theorem push_of_lt (h : xs.length < bound) : push bound xs x = xs ++ [x] := by
  have : xs.length + 1 - bound = 0 := by omega
  rw [push, this, List.drop_zero]

theorem push_of_full (h : xs.length = bound) (hpos : 0 < bound) :
    push bound xs x = xs.tail ++ [x] := by
  have hdrop : xs.length + 1 - bound = 1 := by omega
  have hlen : 1 ≤ xs.length := by omega
  rw [push, hdrop, List.drop_append_of_le_length hlen, List.drop_one]

theorem length_push : (push bound xs x).length = min (xs.length + 1) bound := by
  rw [push, List.length_drop, List.length_append, List.length_singleton]
  omega

theorem length_push_le : (push bound xs x).length ≤ bound :=
  length_push.trans_le (min_le_right _ _)

theorem mem_push {y : α} (h : y ∈ push bound xs x) : y ∈ xs ∨ y = x := by
  have := List.mem_of_mem_drop h
  simpa using this

theorem length_replaceFirst : (replaceFirst p f xs).length = xs.length := by
  induction xs with
  | nil => rfl
  | cons y ys ih =>
      by_cases h : p y = true
      · simp [replaceFirst, h]
      · simp [replaceFirst, h, ih]

theorem mem_replaceFirst {y : α} (h : y ∈ replaceFirst p f xs) :
    y ∈ xs ∨ ∃ z ∈ xs, p z = true ∧ y = f z := by
  induction xs with
  | nil => cases h
  | cons w ws ih =>
      by_cases hw : p w = true
      · rw [replaceFirst, if_pos hw] at h
        rcases List.mem_cons.mp h with rfl | h
        · exact .inr ⟨w, List.mem_cons_self, hw, rfl⟩
        · exact .inl (List.mem_cons_of_mem _ h)
      · rw [replaceFirst, if_neg hw] at h
        rcases List.mem_cons.mp h with rfl | h
        · exact .inl List.mem_cons_self
        · rcases ih h with h | ⟨z, hz, hzp⟩
          · exact .inl (List.mem_cons_of_mem _ h)
          · exact .inr ⟨z, List.mem_cons_of_mem _ hz, hzp⟩

/-- The first element with a property is the one behind a prefix without it. -/
theorem replaceFirst_append_of_forall {ys : List α} (h : ∀ a ∈ xs, ¬ p a = true) (hx : p x = true) :
    replaceFirst p f (xs ++ x :: ys) = xs ++ f x :: ys := by
  induction xs with
  | nil => rw [List.nil_append, replaceFirst, if_pos hx, List.nil_append]
  | cons y xs ih =>
      rw [List.cons_append, replaceFirst, if_neg (h y List.mem_cons_self),
        ih fun a ha => h a (List.mem_cons_of_mem y ha), List.cons_append]

/-- Rewriting an element in what is not looked at changes no column. -/
theorem map_replaceFirst {β : Type u} {g : α → β} (hg : ∀ a, g (f a) = g a) :
    (replaceFirst p f xs).map g = xs.map g := by
  induction xs with
  | nil => rfl
  | cons y ys ih =>
      by_cases hy : p y = true
      · rw [replaceFirst, if_pos hy, List.map_cons, List.map_cons, hg]
      · rw [replaceFirst, if_neg hy, List.map_cons, List.map_cons, ih]

theorem length_put_le (h : xs.length ≤ bound) : (put bound p f x xs).length ≤ bound := by
  by_cases hany : xs.any p = true
  · rw [put, if_pos hany, length_replaceFirst]
    exact h
  · rw [put, if_neg hany, length_push]
    omega

theorem mem_put {y : α} (h : y ∈ put bound p f x xs) :
    y ∈ xs ∨ y = x ∨ ∃ z ∈ xs, p z = true ∧ y = f z := by
  by_cases hany : xs.any p = true
  · rw [put, if_pos hany] at h
    exact (mem_replaceFirst h).imp_right .inr
  · rw [put, if_neg hany] at h
    exact (mem_push h).imp_right .inl

/-- Rewriting an element hides no element of another kind. -/
theorem find?_replaceFirst (h : ∀ a, p a = true → q a = false ∧ q (f a) = false) :
    (replaceFirst p f xs).find? q = xs.find? q := by
  induction xs with
  | nil => rfl
  | cons y ys ih =>
      by_cases hy : p y = true
      · rw [replaceFirst, if_pos hy, List.find?_cons_of_neg (by simp [(h y hy).2]),
          List.find?_cons_of_neg (by simp [(h y hy).1])]
      · rw [replaceFirst, if_neg hy, List.find?_cons, List.find?_cons, ih]

/-- The rewritten element is found in place of the old one. -/
theorem find?_replaceFirst_self (h : ∀ a, p a = true → p (f a) = true) :
    (replaceFirst p f xs).find? p = (xs.find? p).map f := by
  induction xs with
  | nil => rfl
  | cons y ys ih =>
      by_cases hy : p y = true
      · rw [replaceFirst, if_pos hy, List.find?_cons_of_pos (h y hy), List.find?_cons_of_pos hy]
        rfl
      · rw [replaceFirst, if_neg hy, List.find?_cons_of_neg hy, List.find?_cons_of_neg hy, ih]

/-- Rewriting an element in what is not looked at changes no lookup. -/
theorem find?_replaceFirst_map {β : Type u} {g : α → β} (hq : ∀ a, q (f a) = q a)
    (hg : ∀ a, g (f a) = g a) :
    ((replaceFirst p f xs).find? q).map g = (xs.find? q).map g := by
  induction xs with
  | nil => rfl
  | cons y ys ih =>
      by_cases hp : p y = true
      · rw [replaceFirst, if_pos hp, List.find?_cons, List.find?_cons, hq]
        cases q y with
        | true => exact congrArg some (hg y)
        | false => rfl
      · rw [replaceFirst, if_neg hp, List.find?_cons, List.find?_cons]
        cases q y with
        | true => rfl
        | false => exact ih

/-- A push hides the elements of another kind only by dropping the oldest of a full list. -/
theorem find?_push (hx : q x = false) (hlen : xs.length ≤ bound) :
    (push bound xs x).find? q = xs.find? q
      ∨ xs.length = bound ∧ ∃ a, xs.head? = some a ∧ q a = true := by
  have happ : ∀ ys : List α, (ys ++ [x]).find? q = ys.find? q := by
    intro ys
    rw [List.find?_append, List.find?_cons_of_neg (by simp [hx]), List.find?_nil, Option.or_none]
  by_cases hlt : xs.length < bound
  · left
    rw [push_of_lt hlt, happ]
  · have hfull : xs.length = bound := by omega
    cases xs with
    | nil =>
        left
        have hnone : (push bound [] x).find? q = none := by
          rw [List.find?_eq_none]
          intro y hy
          rcases mem_push hy with hy | rfl
          · cases hy
          · simp [hx]
        rw [hnone, List.find?_nil]
    | cons y ys =>
        by_cases hy : q y = true
        · exact .inr ⟨hfull, y, rfl, hy⟩
        · left
          rw [push_of_full hfull (by rw [← hfull]; simp), List.tail_cons, happ,
            List.find?_cons_of_neg hy]

/-- A table entry of another kind stays, unless a new entry pushes it out of a full table. -/
theorem find?_put (hf : ∀ a, p a = true → q a = false ∧ q (f a) = false) (hx : q x = false)
    (hlen : xs.length ≤ bound) :
    (put bound p f x xs).find? q = xs.find? q
      ∨ xs.any p = false ∧ xs.length = bound ∧ ∃ a, xs.head? = some a ∧ q a = true := by
  by_cases hany : xs.any p = true
  · left
    rw [put, if_pos hany, find?_replaceFirst hf]
  · rw [put, if_neg hany]
    have hany' : xs.any p = false := by simpa using hany
    exact (find?_push hx hlen).imp_right fun h => ⟨hany', h⟩

/-- A push of a new key leaves no key twice. -/
theorem nodup_map_push {β : Type u} {key : α → β} (h : (xs.map key).Nodup)
    (hnew : key x ∉ xs.map key) : ((push bound xs x).map key).Nodup := by
  have hall : ((xs ++ [x]).map key).Nodup := by
    rw [List.map_append, List.map_singleton]
    exact h.append (List.nodup_singleton _) (List.disjoint_singleton.mpr hnew)
  exact hall.sublist ((List.drop_sublist _ _).map key)

/-- A table keeps one entry for a key. -/
theorem nodup_map_put {β : Type u} {key : α → β} (hp : ∀ a, key a = key x → p a = true)
    (hf : ∀ a, key (f a) = key a) (h : (xs.map key).Nodup) :
    ((put bound p f x xs).map key).Nodup := by
  by_cases hany : xs.any p = true
  · rw [put, if_pos hany, map_replaceFirst hf]
    exact h
  · rw [put, if_neg hany]
    refine nodup_map_push h ?_
    intro hmem
    obtain ⟨a, ha, hkey⟩ := List.mem_map.mp hmem
    exact hany (List.any_eq_true.mpr ⟨a, ha, hp a hkey⟩)

theorem find?_put_self (hpos : 0 < bound) (hx : p x = true)
    (hf : ∀ a, p a = true → p (f a) = true) (hfind : ∀ a, p a = true → f a = x) :
    (put bound p f x xs).find? p = some x := by
  by_cases hany : xs.any p = true
  · rw [put, if_pos hany]
    induction xs with
    | nil => cases hany
    | cons y ys ih =>
        by_cases hy : p y = true
        · rw [replaceFirst, if_pos hy, List.find?_cons_of_pos (hf y hy), hfind y hy]
        · have hys : ys.any p = true := by simpa [hy] using hany
          rw [replaceFirst, if_neg hy, List.find?_cons_of_neg hy]
          exact ih hys
  · rw [put, if_neg hany]
    have hnone : ∀ y ∈ xs, ¬ p y = true := by
      intro y hy hpy
      exact hany (List.any_eq_true.mpr ⟨y, hy, hpy⟩)
    have hle : xs.length + 1 - bound ≤ xs.length := by omega
    rw [push, List.drop_append_of_le_length hle, List.find?_append,
      List.find?_eq_none.mpr fun y hy => hnone y (List.mem_of_mem_drop hy), Option.none_or,
      List.find?_cons_of_pos hx]

end Cawala.Library.Fifo
