import Mathlib

/-! # Loops with a budget of rounds

A loop that may never end, run for some rounds in words of a fixed width: it returns, its
arithmetic leaves the word, or it is still running when the rounds are used up. -/

namespace Cawala.Library

/-- Where a computation stands after its rounds. -/
inductive Rounds (α : Type) where
  | done (value : α)
  | overflow
  | running
deriving DecidableEq, Repr

namespace Rounds

variable {α β : Type}

def bind (x : Rounds α) (f : α → Rounds β) : Rounds β :=
  match x with
  | .done value => f value
  | .overflow => .overflow
  | .running => .running

instance : Monad Rounds where
  pure := .done
  bind := bind

@[simp] theorem pure_eq (value : α) : (pure value : Rounds α) = .done value := rfl

@[simp] theorem done_bind (value : α) (f : α → Rounds β) :
    ((Rounds.done value : Rounds α) >>= f) = f value := rfl

@[simp] theorem running_bind (f : α → Rounds β) :
    ((Rounds.running : Rounds α) >>= f) = .running := rfl

/-- Addition in words of `bits` bits. -/
def checkedAdd (bits a b : ℕ) : Rounds ℕ := if a + b < 2 ^ bits then .done (a + b) else .overflow

def checkedSub (a b : ℕ) : Rounds ℕ := if b ≤ a then .done (a - b) else .overflow

@[simp] theorem checkedAdd_eq {bits a b : ℕ} (h : a + b < 2 ^ bits) :
    checkedAdd bits a b = .done (a + b) := if_pos h

@[simp] theorem checkedSub_eq {a b : ℕ} (h : b ≤ a) : checkedSub a b = .done (a - b) := if_pos h

/-- A computation returns when some number of rounds is enough. -/
def Returns (run : ℕ → Rounds α) : Prop := ∃ rounds value, run rounds = .done value

/-- No number of rounds leads out of the word. -/
def StaysInRange (run : ℕ → Rounds α) : Prop := ∀ rounds, run rounds ≠ .overflow

end Rounds

end Cawala.Library
