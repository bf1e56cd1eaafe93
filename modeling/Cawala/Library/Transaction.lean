import Mathlib

/-! # Transactions that keep their effects

Stateful computations that may fail and then keep what they have done so far, with the
rules of pre- and postconditions for them. -/

namespace Cawala.Library

universe u

/-- A computation on a state that may fail; the state survives a failure. -/
abbrev Transaction (σ ε α : Type u) : Type u := ExceptT ε (StateM σ) α

namespace Transaction

variable {σ ε α β : Type u}

/-- The result of a transaction and the state it leaves. -/
def exec (x : Transaction σ ε α) (s : σ) : Except ε α × σ := x s

/-- Fail if a condition holds. -/
def refuseIf (c : Prop) [Decidable c] (e : ε) : Transaction σ ε PUnit :=
  if c then throw e else pure ⟨⟩

/-- Run a step only if a condition holds. -/
def when (c : Prop) [Decidable c] (x : Transaction σ ε PUnit) : Transaction σ ε PUnit :=
  if c then x else pure ⟨⟩

/-- Run a step on a value that may be missing. -/
def forSome (o : Option α) (f : α → Transaction σ ε PUnit) : Transaction σ ε PUnit :=
  match o with
  | some a => f a
  | none => pure ⟨⟩

/-- A step that does not touch the state. -/
def ofExcept : Except ε α → Transaction σ ε α
  | .ok a => pure a
  | .error e => throw e

def zoom {τ : Type u} (view : σ → τ) (put : τ → σ → σ) (x : Transaction τ ε α) :
    Transaction σ ε α := fun s => ((x (view s)).1, put (x (view s)).2 s)

/-- Run on a copy of the state, and keep the copy only on success. -/
def onCopy (x : Transaction σ ε α) : Transaction σ ε α := fun s =>
  match x s with
  | (.ok a, s') => (.ok a, s')
  | (.error e, _) => (.error e, s)

/-- Run, and on a failure continue from the state it left. -/
def catchWith {ε' : Type u} (x : Transaction σ ε α) (k : ε → Transaction σ ε' α) :
    Transaction σ ε' α := fun s =>
  match x s with
  | (.ok a, s') => (.ok a, s')
  | (.error e, s') => k e s'

def mapError {ε' : Type u} (f : ε → ε') (x : Transaction σ ε α) : Transaction σ ε' α :=
  catchWith x fun e => throw (f e)

@[simp] theorem exec_pure (a : α) (s : σ) :
    exec (pure a : Transaction σ ε α) s = (.ok a, s) := rfl

@[simp] theorem exec_throw (e : ε) (s : σ) :
    exec (throw e : Transaction σ ε α) s = (.error e, s) := rfl

@[simp] theorem exec_get (s : σ) : exec (get : Transaction σ ε σ) s = (.ok s, s) := rfl

@[simp] theorem exec_set (s s' : σ) : exec (set s' : Transaction σ ε PUnit) s = (.ok ⟨⟩, s') := rfl

@[simp] theorem exec_modify (f : σ → σ) (s : σ) :
    exec (modify f : Transaction σ ε PUnit) s = (.ok ⟨⟩, f s) := rfl

theorem exec_bind (x : Transaction σ ε α) (f : α → Transaction σ ε β) (s : σ) :
    exec (x >>= f) s = match exec x s with
      | (.ok a, s') => exec (f a) s'
      | (.error e, s') => (.error e, s') := by
  change exec (ExceptT.bind x f) s = _
  unfold exec ExceptT.bind ExceptT.mk ExceptT.bindCont
  simp only [bind, StateT.bind]
  cases h : x s with
  | mk r s' =>
      cases r with
      | ok a => rfl
      | error e => rfl

@[simp] theorem exec_ofExcept (x : Except ε α) (s : σ) :
    exec (ofExcept x : Transaction σ ε α) s = (x, s) := by
  cases x <;> rfl

@[simp] theorem exec_zoom {τ : Type u} (view : σ → τ) (put : τ → σ → σ)
    (x : Transaction τ ε α) (s : σ) :
    exec (zoom view put x) s = ((exec x (view s)).1, put (exec x (view s)).2 s) := rfl

theorem exec_mapError {ε' : Type u} (f : ε → ε') (x : Transaction σ ε α) (s : σ) :
    exec (mapError f x) s = ((exec x s).1.mapError f, (exec x s).2) := by
  unfold exec mapError catchWith
  cases h : x s with
  | mk r s' => cases r <;> rfl

theorem exec_onCopy (x : Transaction σ ε α) (s : σ) :
    exec (onCopy x) s = match exec x s with
      | (.ok a, s') => (.ok a, s')
      | (.error e, _) => (.error e, s) := rfl

theorem exec_catchWith {ε' : Type u} (x : Transaction σ ε α) (k : ε → Transaction σ ε' α) (s : σ) :
    exec (catchWith x k) s = match exec x s with
      | (.ok a, s') => (.ok a, s')
      | (.error e, s') => exec (k e) s' := by
  unfold exec catchWith
  cases h : x s with
  | mk r s' => cases r <;> rfl

@[simp] theorem exec_refuseIf (c : Prop) [Decidable c] (e : ε) (s : σ) :
    exec (refuseIf c e : Transaction σ ε PUnit) s
      = (if c then .error e else .ok ⟨⟩, s) := by
  by_cases h : c <;> simp [refuseIf, h]

theorem exec_when (c : Prop) [Decidable c] (x : Transaction σ ε PUnit) (s : σ) :
    exec (when c x) s = if c then exec x s else (.ok ⟨⟩, s) := by
  by_cases h : c
  · rw [when, if_pos h, if_pos h]
  · rw [when, if_neg h, if_neg h, exec_pure]

@[simp] theorem exec_forSome_some (a : α) (f : α → Transaction σ ε PUnit) (s : σ) :
    exec (forSome (some a) f) s = exec (f a) s := rfl

@[simp] theorem exec_forSome_none (f : α → Transaction σ ε PUnit) (s : σ) :
    exec (forSome none f) s = (.ok ⟨⟩, s) := rfl

theorem exec_get_bind (f : σ → Transaction σ ε β) (s : σ) :
    exec (get >>= f) s = exec (f s) s := by
  rw [exec_bind, exec_get]

theorem exec_refuseIf_bind (c : Prop) [Decidable c] (e : ε) (f : PUnit → Transaction σ ε β)
    (s : σ) : exec (refuseIf c e >>= f) s = if c then (.error e, s) else exec (f ⟨⟩) s := by
  rw [exec_bind, exec_refuseIf]
  by_cases h : c
  · rw [if_pos h, if_pos h]
  · rw [if_neg h, if_neg h]

theorem exec_bind_eq_ok {x : Transaction σ ε α} {f : α → Transaction σ ε β} {s t : σ} {b : β} :
    exec (x >>= f) s = (.ok b, t) ↔
      ∃ a u, exec x s = (.ok a, u) ∧ exec (f a) u = (.ok b, t) := by
  rw [exec_bind]
  cases hx : exec x s with
  | mk r u =>
      cases r with
      | ok a => simp
      | error e => simp

theorem exec_map (f : α → β) (x : Transaction σ ε α) (s : σ) :
    exec (f <$> x) s = ((exec x s).1.map f, (exec x s).2) := by
  rw [map_eq_pure_bind, exec_bind]
  cases hx : exec x s with
  | mk r t => cases r <;> rfl

theorem exec_map_eq_ok {f : α → β} {x : Transaction σ ε α} {s t : σ} {b : β} :
    exec (f <$> x) s = (.ok b, t) ↔ ∃ a, exec x s = (.ok a, t) ∧ f a = b := by
  rw [map_eq_pure_bind, exec_bind_eq_ok]
  simp

theorem exec_refuseIf_eq_ok {c : Prop} [Decidable c] {e : ε} {s t : σ} {u : PUnit} :
    exec (refuseIf c e : Transaction σ ε PUnit) s = (.ok u, t) ↔ ¬ c ∧ s = t := by
  rw [exec_refuseIf]
  by_cases h : c <;> simp [h]

/-- From a state with `P`, the transaction ends in `Q` or fails in `E`. -/
def Meets (P : σ → Prop) (x : Transaction σ ε α) (Q : α → σ → Prop) (E : ε → σ → Prop) :
    Prop :=
  ∀ s, P s → match exec x s with
    | (.ok a, s') => Q a s'
    | (.error e, s') => E e s'

/-- The failure left the state as it was. -/
def Untouched (s : σ) (_ : ε) (t : σ) : Prop := t = s

theorem untouched (s : σ) (e : ε) : Untouched s e s := rfl

/-- The transaction keeps `I`, whether it succeeds or fails. -/
def Keeps (I : σ → Prop) (x : Transaction σ ε α) : Prop := Meets I x (fun _ => I) (fun _ => I)

section Rules

variable {P P' : σ → Prop} {Q : α → σ → Prop} {E : ε → σ → Prop}

theorem Meets.pure {Q : α → σ → Prop} {a : α} (h : ∀ s, P s → Q a s) :
    Meets P (Pure.pure a : Transaction σ ε α) Q E := h

theorem Meets.throw {e : ε} (h : ∀ s, P s → E e s) :
    Meets P (MonadExcept.throw e : Transaction σ ε α) Q E := h

theorem Meets.bind {x : Transaction σ ε α} {f : α → Transaction σ ε β} {R : β → σ → Prop}
    (hx : Meets P x Q E) (hf : ∀ a, Meets (Q a) (f a) R E) : Meets P (x >>= f) R E := by
  intro s hs
  have hstep := hx s hs
  rw [exec_bind]
  cases h : exec x s with
  | mk r s' =>
      rw [h] at hstep
      cases r with
      | ok a => exact hf a s' hstep
      | error e => exact hstep

theorem Meets.get_bind {f : σ → Transaction σ ε β} {R : β → σ → Prop}
    (h : ∀ s, P s → Meets (fun t => P t ∧ t = s) (f s) R E) :
    Meets P (MonadState.get >>= f) R E := by
  intro s hs
  rw [exec_bind, exec_get]
  exact h s hs s ⟨hs, rfl⟩

theorem Meets.refuseIf {c : Prop} [Decidable c] {e : ε} (h : ∀ s, P s → c → E e s) :
    Meets P (Transaction.refuseIf c e : Transaction σ ε PUnit) (fun _ s => P s ∧ ¬ c) E := by
  intro s hs
  rw [exec_refuseIf]
  by_cases hc : c
  · rw [if_pos hc]
    exact h s hs hc
  · rw [if_neg hc]
    exact ⟨hs, hc⟩

theorem Meets.ofExcept {x : Except ε α} (h : ∀ e s, P s → E e s) :
    Meets P (Transaction.ofExcept x : Transaction σ ε α) (fun a s => P s ∧ x = .ok a) E := by
  intro s hs
  rw [exec_ofExcept]
  cases x with
  | ok a => exact ⟨hs, rfl⟩
  | error e => exact h e s hs

/-- A kept fact, weakened where the transaction fails. -/
theorem Meets.of_keeps {I J : σ → Prop} {x : Transaction σ ε α} (hx : Keeps I x)
    (h : ∀ s, I s → J s) : Meets I x (fun _ => I) (fun _ => J) :=
  fun s hs => by
    have hstep := hx s hs
    cases hx : exec x s with
    | mk r s' =>
        rw [hx] at hstep
        cases r with
        | ok a => exact hstep
        | error e => exact h s' hstep

/-- A precondition may be checked state by state. -/
theorem Meets.pointwise {x : Transaction σ ε α} (h : ∀ s, P s → Meets (· = s) x Q E) :
    Meets P x Q E := fun s hs => h s hs s rfl

/-- A precondition may carry a fact that is not about the state. -/
theorem Meets.of_and {c : Prop} {x : Transaction σ ε α} (h : c → Meets P x Q E) :
    Meets (fun s => P s ∧ c) x Q E := fun s hs => h hs.2 s hs.1

theorem Meets.mono {x : Transaction σ ε α} {Q' : α → σ → Prop} {E' : ε → σ → Prop}
    (h : Meets P x Q E) (hP : ∀ s, P' s → P s) (hQ : ∀ a s, Q a s → Q' a s)
    (hE : ∀ e s, E e s → E' e s) : Meets P' x Q' E' := by
  intro s hs
  have hstep := h s (hP s hs)
  cases hx : exec x s with
  | mk r s' =>
      rw [hx] at hstep
      cases r with
      | ok a => exact hQ a s' hstep
      | error e => exact hE e s' hstep

theorem Meets.get_bind_at {f : σ → Transaction σ ε β} {R : β → σ → Prop} {s : σ}
    (h : Meets (· = s) (f s) R E) : Meets (· = s) (MonadState.get >>= f) R E := by
  apply Meets.get_bind
  rintro _ rfl
  exact h.mono (fun _ ht => ht.1) (fun _ _ => id) (fun _ _ => id)

/-- A guard at a known state. -/
theorem Meets.refuseIf_bind_at {c : Prop} [Decidable c] {e : ε} {f : PUnit → Transaction σ ε β}
    {R : β → σ → Prop} {s : σ} (he : c → E e s) (h : ¬ c → Meets (· = s) (f ⟨⟩) R E) :
    Meets (· = s) (Transaction.refuseIf c e >>= f) R E := by
  intro t ht
  subst ht
  rw [exec_refuseIf_bind]
  by_cases hc : c
  · rw [if_pos hc]
    exact he hc
  · rw [if_neg hc]
    exact h hc t rfl

/-- A check at a known state. -/
theorem Meets.ofExcept_bind_at {x : Except ε α} {f : α → Transaction σ ε β} {R : β → σ → Prop}
    {s : σ} (he : ∀ e, x = .error e → E e s) (h : ∀ a, x = .ok a → Meets (· = s) (f a) R E) :
    Meets (· = s) (Transaction.ofExcept x >>= f) R E := by
  intro t ht
  subst ht
  rw [exec_bind, exec_ofExcept]
  cases x with
  | ok a => exact h a rfl t rfl
  | error e => exact he e rfl

/-- What a transaction meets either way holds of the state it leaves. -/
theorem Meets.exec {J : σ → Prop} {x : Transaction σ ε α}
    (hx : Meets P x (fun _ => J) (fun _ => J)) {s : σ} (hs : P s) :
    J (Transaction.exec x s).2 := by
  have hstep := hx s hs
  cases h : Transaction.exec x s with
  | mk r s' =>
      rw [h] at hstep
      cases r with
      | ok a => exact hstep
      | error e => exact hstep

variable {I : σ → Prop}

theorem Keeps.pure (a : α) : Keeps I (Pure.pure a : Transaction σ ε α) := fun _ hs => hs

theorem Keeps.throw (e : ε) : Keeps I (MonadExcept.throw e : Transaction σ ε α) :=
  fun _ hs => hs

theorem Keeps.bind {x : Transaction σ ε α} {f : α → Transaction σ ε β} (hx : Keeps I x)
    (hf : ∀ a, Keeps I (f a)) : Keeps I (x >>= f) := Meets.bind hx hf

theorem Keeps.modify {f : σ → σ} (h : ∀ s, I s → I (f s)) :
    Keeps I (modify f : Transaction σ ε PUnit) := h

theorem Keeps.catchWith {ε' : Type u} {x : Transaction σ ε α} {k : ε → Transaction σ ε' α}
    (hx : Keeps I x) (hk : ∀ e, Keeps I (k e)) : Keeps I (catchWith x k) := by
  intro s hs
  have hstep := hx s hs
  rw [exec_catchWith]
  cases h : exec x s with
  | mk r s' =>
      rw [h] at hstep
      cases r with
      | ok a => exact hstep
      | error e => exact hk e s' hstep

theorem Keeps.mapError {ε' : Type u} {x : Transaction σ ε α} {f : ε → ε'} (hx : Keeps I x) :
    Keeps I (mapError f x) := hx.catchWith fun e => Keeps.throw (f e)

theorem Keeps.zoom {τ : Type u} {view : σ → τ} {put : τ → σ → σ} {x : Transaction τ ε α}
    {J : τ → Prop} (hview : ∀ s, I s → J (view s)) (hput : ∀ s t, I s → J t → I (put t s))
    (hx : Keeps J x) : Keeps I (zoom view put x) := by
  intro s hs
  have hstep := hx (view s) (hview s hs)
  rw [exec_zoom]
  cases h : exec x (view s) with
  | mk r t =>
      rw [h] at hstep
      cases r with
      | ok a => exact hput s t hs hstep
      | error e => exact hput s t hs hstep

theorem Keeps.onCopy {x : Transaction σ ε α} (h : Keeps I x) : Keeps I (onCopy x) := by
  intro s hs
  have hstep := h s hs
  rw [exec_onCopy]
  cases hx : exec x s with
  | mk r s' =>
      rw [hx] at hstep
      cases r with
      | ok a => exact hstep
      | error e => exact hs

/-- What a transaction keeps holds of the state it leaves. -/
theorem Keeps.exec {x : Transaction σ ε α} (hx : Keeps I x) {s : σ} (hs : I s) :
    I (Transaction.exec x s).2 := Meets.exec hx hs

/-- To keep a fact it is enough that the state left has it. -/
theorem Keeps.of_exec {x : Transaction σ ε α} (h : ∀ s, I s → I (Transaction.exec x s).2) :
    Keeps I x := by
  intro s hs
  have hstep := h s hs
  cases hx : Transaction.exec x s with
  | mk r s' =>
      rw [hx] at hstep
      cases r with
      | ok a => exact hstep
      | error e => exact hstep

/-- The steps after a read are told that the state they were given has the fact. -/
theorem Keeps.get_bind {f : σ → Transaction σ ε β} (h : ∀ s, I s → Keeps I (f s)) :
    Keeps I (MonadState.get >>= f) := Meets.get_bind fun s hs t ht => h s hs t ht.1

theorem Keeps.when {c : Prop} [Decidable c] {x : Transaction σ ε PUnit} (h : c → Keeps I x) :
    Keeps I (when c x) := by
  by_cases hc : c
  · rw [Transaction.when, if_pos hc]
    exact h hc
  · rw [Transaction.when, if_neg hc]
    exact Keeps.pure _

theorem Keeps.forSome {o : Option α} {f : α → Transaction σ ε PUnit}
    (h : ∀ a, o = some a → Keeps I (f a)) : Keeps I (forSome o f) := by
  cases o with
  | none => exact Keeps.pure _
  | some a => exact h a rfl

theorem Keeps.map {f : α → β} {x : Transaction σ ε α} (hx : Keeps I x) : Keeps I (f <$> x) :=
  hx.bind fun a => Keeps.pure (f a)

theorem Keeps.forM {f : α → Transaction σ ε PUnit} {l : List α} (h : ∀ a ∈ l, Keeps I (f a)) :
    Keeps I (l.forM f) := by
  induction l with
  | nil => exact Keeps.pure _
  | cons a l ih =>
      apply Keeps.bind (h a List.mem_cons_self)
      intro _
      exact ih fun b hb => h b (List.mem_cons_of_mem a hb)

theorem Keeps.get : Keeps I (MonadState.get : Transaction σ ε σ) := fun _ hs => hs

theorem Keeps.refuseIf (c : Prop) [Decidable c] (e : ε) :
    Keeps I (Transaction.refuseIf c e : Transaction σ ε PUnit) :=
  (Meets.refuseIf fun _ hs _ => hs).mono (fun _ => id) (fun _ _ h => h.1) (fun _ _ => id)

theorem Keeps.ofExcept (x : Except ε α) : Keeps I (Transaction.ofExcept x : Transaction σ ε α) :=
  (Meets.ofExcept fun _ _ hs => hs).mono (fun _ => id) (fun _ _ h => h.1) (fun _ _ => id)

end Rules

end Transaction

end Cawala.Library
