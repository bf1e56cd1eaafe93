import Mathlib

/-! # Successful runs in `Except`

When a sequence, a guard or a monadic list traversal succeeds, and the induction rule for
a fold that must succeed at every step. -/

namespace Cawala.Library

universe u v

variable {ε : Type u} {α β σ : Type v}

@[simp] theorem bind_eq_ok {x : Except ε α} {f : α → Except ε β} {r : β} :
    (x >>= f) = .ok r ↔ ∃ a, x = .ok a ∧ f a = .ok r := by
  cases x with
  | error e => simp [bind, Except.bind]
  | ok a => simp [bind, Except.bind]

@[simp] theorem pure_eq_ok {a r : α} : (pure a : Except ε α) = .ok r ↔ a = r := by
  simp [pure, Except.pure]

@[simp] theorem ite_error_eq_ok {c : Prop} [Decidable c] {e : ε} {x : Except ε α} {r : α} :
    (if c then .error e else x) = .ok r ↔ ¬ c ∧ x = .ok r := by
  by_cases h : c <;> simp [h]

@[simp] theorem ite_ok_eq_ok {c : Prop} [Decidable c] {e : ε} {x : Except ε α} {r : α} :
    (if c then x else .error e) = .ok r ↔ c ∧ x = .ok r := by
  by_cases h : c <;> simp [h]

theorem mapError_eq_ok {ε' : Type u} {f : ε → ε'} {x : Except ε α} {r : α} :
    x.mapError f = .ok r ↔ x = .ok r := by
  cases x <;> simp [Except.mapError]

theorem toBool_iff_eq_ok {x : Except ε Unit} : x.toBool = true ↔ x = .ok () := by
  cases x with
  | error e => simp [Except.toBool]
  | ok u => simp [Except.toBool]

theorem exists_ok_of_toBool {x : Except ε α} (h : x.toBool = true) : ∃ a, x = .ok a := by
  cases x with
  | error e => cases h
  | ok a => exact ⟨a, rfl⟩

theorem foldlM_cons_eq_ok {f : σ → α → Except ε σ} {s r : σ} {x : α} {xs : List α} :
    (x :: xs).foldlM f s = .ok r ↔ ∃ s', f s x = .ok s' ∧ xs.foldlM f s' = .ok r := by
  simp

/-- A fact that every successful step carries over holds of the result of the fold. The
steps are told which elements came before them. -/
theorem foldlM_induction {f : σ → α → Except ε σ} {P : List α → σ → Prop}
    (hstep : ∀ d x s s', P d s → f s x = .ok s' → P (d ++ [x]) s') {d l : List α}
    {s r : σ} (hs : P d s) (h : l.foldlM f s = .ok r) : P (d ++ l) r := by
  induction l generalizing d s with
  | nil =>
      simp only [List.foldlM_nil, pure_eq_ok] at h
      subst h
      simpa using hs
  | cons x l ih =>
      obtain ⟨s', hfs, hrest⟩ := foldlM_cons_eq_ok.mp h
      have := ih (hstep d x s s' hs hfs) hrest
      simpa using this

/-- A fold whose every step succeeds under an invariant succeeds. -/
theorem foldlM_exists {f : σ → α → Except ε σ} {P : σ → Prop}
    (hstep : ∀ s x, P s → ∃ s', f s x = .ok s' ∧ P s') {s : σ} (hs : P s) (xs : List α) :
    ∃ r, xs.foldlM f s = .ok r ∧ P r := by
  induction xs generalizing s with
  | nil => exact ⟨s, rfl, hs⟩
  | cons x xs ih =>
      obtain ⟨next, hnext, hP⟩ := hstep s x hs
      obtain ⟨r, hfold, hr⟩ := ih hP
      exact ⟨r, foldlM_cons_eq_ok.mpr ⟨next, hnext, hfold⟩, hr⟩

/-- A fold succeeds whose every step succeeds under an invariant, told which elements came
before. -/
theorem foldlM_exists_of_prefix {f : σ → α → Except ε σ} {P : List α → σ → Prop} {l : List α}
    (hstep : ∀ d x rest s, l = d ++ x :: rest → P d s → ∃ s', f s x = .ok s' ∧ P (d ++ [x]) s')
    {s : σ} (hs : P [] s) : ∃ r, l.foldlM f s = .ok r ∧ P l r := by
  have hgen : ∀ d rest s, l = d ++ rest → P d s → ∃ r, rest.foldlM f s = .ok r ∧ P l r := by
    intro d rest
    induction rest generalizing d with
    | nil =>
        intro s hl hs
        rw [List.append_nil] at hl
        exact ⟨s, rfl, hl ▸ hs⟩
    | cons x rest ih =>
        intro s hl hs
        obtain ⟨next, hnext, hP⟩ := hstep d x rest s hl hs
        obtain ⟨r, hfold, hr⟩ := ih (d ++ [x]) next (by simp [hl]) hP
        exact ⟨r, foldlM_cons_eq_ok.mpr ⟨next, hnext, hfold⟩, hr⟩
  exact hgen [] l s rfl hs

/-- A fold that succeeds took a successful step at each element. -/
theorem foldlM_step_of_mem {f : σ → α → Except ε σ} {l : List α} {s r : σ}
    (h : l.foldlM f s = .ok r) {x : α} (hx : x ∈ l) : ∃ s₁ s₂, f s₁ x = .ok s₂ := by
  induction l generalizing s with
  | nil => simp at hx
  | cons y l ih =>
      obtain ⟨s', hstep, hrest⟩ := foldlM_cons_eq_ok.mp h
      rcases List.mem_cons.mp hx with rfl | hx
      · exact ⟨s, s', hstep⟩
      · exact ih hrest hx

/-- A fold whose steps succeed no more often, and then alike, succeeds alike. -/
theorem foldlM_mono {f g : σ → α → Except ε σ} (h : ∀ s x r, f s x = .ok r → g s x = .ok r)
    {l : List α} {s r : σ} (hf : l.foldlM f s = .ok r) : l.foldlM g s = .ok r := by
  induction l generalizing s with
  | nil => exact hf
  | cons x xs ih =>
      obtain ⟨mid, hmid, hrest⟩ := foldlM_cons_eq_ok.mp hf
      exact foldlM_cons_eq_ok.mpr ⟨mid, h _ _ _ hmid, ih hrest⟩

theorem mapM_cons_eq_ok {f : α → Except ε β} {x : α} {xs : List α} {r : List β} :
    (x :: xs).mapM f = .ok r ↔ ∃ y ys, f x = .ok y ∧ xs.mapM f = .ok ys ∧ r = y :: ys := by
  rw [List.mapM_cons]
  simp only [bind_eq_ok, pure_eq_ok]
  constructor
  · rintro ⟨y, hy, ys, hys, rfl⟩
    exact ⟨y, ys, hy, hys, rfl⟩
  · rintro ⟨y, ys, hy, hys, rfl⟩
    exact ⟨y, hy, ys, hys, rfl⟩

/-- A successful `mapM` relates the two lists element by element. -/
theorem mapM_eq_ok_iff_forall₂ {f : α → Except ε β} {xs : List α} {ys : List β} :
    xs.mapM f = .ok ys ↔ List.Forall₂ (fun x y => f x = .ok y) xs ys := by
  induction xs generalizing ys with
  | nil =>
      rw [List.mapM_nil, pure_eq_ok, List.forall₂_nil_left_iff, eq_comm]
  | cons x xs ih =>
      rw [mapM_cons_eq_ok]
      constructor
      · rintro ⟨y, ys', hy, hys, rfl⟩
        exact List.Forall₂.cons hy (ih.mp hys)
      · intro h
        cases h with
        | cons hy hys => exact ⟨_, _, hy, ih.mpr hys, rfl⟩

/-- A traversal of permuted elements succeeds alike, with permuted results. -/
theorem mapM_perm {f : α → Except ε β} {xs ys : List α} {rs : List β} (h : xs.Perm ys)
    (hxs : xs.mapM f = .ok rs) : ∃ rs', ys.mapM f = .ok rs' ∧ rs'.Perm rs := by
  obtain ⟨rs', hys, hperm⟩ := List.perm_comp_forall₂ h.symm (mapM_eq_ok_iff_forall₂.mp hxs)
  exact ⟨rs', mapM_eq_ok_iff_forall₂.mpr hys, hperm⟩

theorem exists_of_forall₂_left {R : α → β → Prop} {xs : List α} {ys : List β}
    (h : List.Forall₂ R xs ys) {x : α} (hx : x ∈ xs) : ∃ y ∈ ys, R x y := by
  induction h with
  | nil => cases hx
  | cons hR _ ih =>
      rcases List.mem_cons.mp hx with rfl | hx
      · exact ⟨_, List.mem_cons_self, hR⟩
      · obtain ⟨y, hy, hRy⟩ := ih hx
        exact ⟨y, List.mem_cons_of_mem _ hy, hRy⟩

theorem exists_of_forall₂_right {R : α → β → Prop} {xs : List α} {ys : List β}
    (h : List.Forall₂ R xs ys) {y : β} (hy : y ∈ ys) : ∃ x ∈ xs, R x y :=
  exists_of_forall₂_left h.flip hy

theorem exists_forall₂ {R : α → β → Prop} {xs : List α} (h : ∀ x ∈ xs, ∃ y, R x y) :
    ∃ ys, List.Forall₂ R xs ys := by
  induction xs with
  | nil => exact ⟨[], .nil⟩
  | cons x xs ih =>
      obtain ⟨y, hy⟩ := h x List.mem_cons_self
      obtain ⟨ys, hys⟩ := ih fun x' hx' => h x' (List.mem_cons_of_mem _ hx')
      exact ⟨y :: ys, .cons hy hys⟩

theorem forall₂_comp {γ : Type*} {R : α → β → Prop} {S : β → γ → Prop} {xs : List α}
    {ys : List β} {zs : List γ} (h : List.Forall₂ R xs ys) (h' : List.Forall₂ S ys zs) :
    List.Forall₂ (fun x z => ∃ y, R x y ∧ S y z) xs zs := by
  induction h generalizing zs with
  | nil =>
      cases h'
      exact .nil
  | cons hR _ ih =>
      cases h' with
      | cons hS hrest => exact .cons ⟨_, hR, hS⟩ (ih hrest)

theorem forall₂_imp_of_mem {R S : α → β → Prop} {xs : List α} {ys : List β}
    (h : List.Forall₂ R xs ys) (himp : ∀ x ∈ xs, ∀ y ∈ ys, R x y → S x y) :
    List.Forall₂ S xs ys := by
  induction h with
  | nil => exact .nil
  | cons hR _ ih =>
      refine .cons (himp _ List.mem_cons_self _ List.mem_cons_self hR) (ih ?_)
      intro x hx y hy
      exact himp x (List.mem_cons_of_mem _ hx) y (List.mem_cons_of_mem _ hy)

theorem forall₂_append_right {R : α → β → Prop} {xs : List α} {ys zs : List β}
    (h : List.Forall₂ R xs (ys ++ zs)) :
    ∃ us vs, List.Forall₂ R us ys ∧ List.Forall₂ R vs zs ∧ xs = us ++ vs :=
  ⟨_, _, List.forall₂_take_append xs ys zs h, List.forall₂_drop_append xs ys zs h,
    (List.take_append_drop _ _).symm⟩

theorem map_eq_of_forall₂ {γ : Type*} {f : α → γ} {g : β → γ} {xs : List α} {ys : List β}
    (h : List.Forall₂ (fun x y => f x = g y) xs ys) : xs.map f = ys.map g := by
  induction h with
  | nil => rfl
  | cons hxy _ ih => rw [List.map_cons, List.map_cons, hxy, ih]

theorem forM_eq_ok {f : α → Except ε PUnit} {xs : List α} :
    xs.forM f = .ok ⟨⟩ ↔ ∀ x ∈ xs, f x = .ok ⟨⟩ := by
  induction xs with
  | nil => simp [pure, Except.pure]
  | cons x xs ih =>
      have hstep : (x :: xs).forM f = f x >>= fun _ => xs.forM f := rfl
      rw [hstep, bind_eq_ok, List.forall_mem_cons]
      constructor
      · rintro ⟨u, hx, hxs⟩
        exact ⟨hx, ih.mp hxs⟩
      · rintro ⟨hx, hxs⟩
        exact ⟨⟨⟩, hx, ih.mpr hxs⟩

end Cawala.Library
