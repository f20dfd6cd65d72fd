import Mathlib

/-!
# Subtractions of words, checked

A computation in unsigned 32-bit words goes on when a subtraction wraps. A `Checked` value is what
it ends with, and whether every subtraction on the way had a true result that is not negative.
-/

/-- A value, and whether every subtraction it was computed with was **exact**. -/
structure Checked (α : Type) where
  value : α
  exact : Bool

namespace Checked

variable {α β : Type}

instance : Monad Checked where
  pure a := ⟨a, true⟩
  bind x f := ⟨(f x.value).value, x.exact && (f x.value).exact⟩

/-- The difference of two words. -/
def sub (a b : ℕ) : Checked ℕ := ⟨if b ≤ a then a - b else (((a : ℤ) - b) % 2 ^ 32).toNat, b ≤ a⟩

/-- The values of a list of computations, made one after the other. -/
def all (xs : List (Checked α)) : Checked (List α) := ⟨xs.map value, xs.all exact⟩

@[simp] theorem value_pure (a : α) : (pure a : Checked α).value = a := rfl

@[simp] theorem exact_pure (a : α) : (pure a : Checked α).exact = true := rfl

@[simp] theorem value_bind (x : Checked α) (f : α → Checked β) :
    (x >>= f).value = (f x.value).value := rfl

@[simp] theorem exact_bind (x : Checked α) (f : α → Checked β) :
    (x >>= f).exact = (x.exact && (f x.value).exact) := rfl

@[simp] theorem value_all (xs : List (Checked α)) : (all xs).value = xs.map value := rfl

@[simp] theorem exact_all (xs : List (Checked α)) : (all xs).exact = xs.all exact := rfl

@[simp] theorem exact_sub {a b : ℕ} : (sub a b).exact = true ↔ b ≤ a := by simp [sub]

theorem value_sub {a b : ℕ} (h : b ≤ a) : (sub a b).value = a - b := if_pos h

end Checked
