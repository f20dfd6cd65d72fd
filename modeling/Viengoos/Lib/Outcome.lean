import Mathlib

/-!
# Computations that may fault

`Except ε` as the outcome of a program that may stop on an assertion: the inversion of `bind`, a
guard, and the invariant rule for a loop over a list. Code that is written with `do` is taken
apart with these instead of being unfolded.
-/

namespace Outcome

open List

universe u v

variable {ε : Type u} {α β σ : Type v}

variable {x : Except ε α} {l : List α} {c : Prop} {a : α} {b : β} {e : ε} {s' : σ}
  {f : σ → α → Except ε σ}

/-- A sequence returns iff both parts return. -/
theorem bind_eq_ok {f : α → Except ε β} :
    (x >>= f) = .ok b ↔ ∃ a, x = .ok a ∧ f a = .ok b := by
  cases x with
  | error e => simp [bind, Except.bind]
  | ok a => simp [bind, Except.bind]

@[simp] theorem pure_eq_ok {b : α} : (pure a : Except ε α) = .ok b ↔ a = b := by
  simp [pure, Except.pure]

/-- A last step that cannot fail. -/
theorem bind_pure_eq_ok {f : α → β} :
    (x >>= fun a => pure (f a)) = .ok b ↔ ∃ a, x = .ok a ∧ f a = b := by
  simp only [bind_eq_ok, pure_eq_ok]

@[simp] theorem ok_bind {f : α → Except ε β} : (Except.ok a >>= f) = f a := rfl

@[simp] theorem error_bind {f : α → Except ε β} :
    ((Except.error e : Except ε α) >>= f) = .error e := rfl

/-- Stop with `e` unless `c` holds. -/
def require (c : Prop) [Decidable c] (e : ε) : Except ε PUnit.{v + 1} :=
  if c then .ok ⟨⟩ else .error e

@[simp] theorem require_eq_ok [Decidable c] {u : PUnit.{v + 1}} :
    require c e = .ok u ↔ c := by
  unfold require
  split <;> simp_all

theorem require_of [Decidable c] (h : c) :
    require c e = .ok PUnit.unit.{v + 1} :=
  if_pos h

theorem require_of_not [Decidable c] (h : ¬ c) :
    (require c e : Except ε PUnit.{v + 1}) = .error e :=
  if_neg h

/-- **Invariant rule** for a loop over a list: what every round keeps, the loop keeps. -/
theorem foldlM_invariant (P : σ → Prop)
    (hstep : ∀ a ∈ l, ∀ s s', f s a = .ok s' → P s → P s') {s : σ}
    (h : l.foldlM f s = .ok s') (hs : P s) : P s' := by
  induction l generalizing s with
  | nil =>
    have : s = s' := by simpa using h
    exact this ▸ hs
  | cons a l ih =>
    rw [foldlM_cons, bind_eq_ok] at h
    obtain ⟨t, ht, hrest⟩ := h
    have hround := hstep a (mem_cons_self ..) s t ht hs
    exact ih (fun b hb => hstep b (mem_cons_of_mem a hb)) hrest hround

/-- A loop whose rounds all return returns. -/
theorem foldlM_returns (hstep : ∀ s a, ∃ s', f s a = .ok s') (l : List α)
    (s : σ) : ∃ s', l.foldlM f s = .ok s' := by
  induction l generalizing s with
  | nil => exact ⟨s, rfl⟩
  | cons a l ih =>
    obtain ⟨t, ht⟩ := hstep s a
    obtain ⟨s', hs'⟩ := ih t
    exact ⟨s', by rw [foldlM_cons, ht, ok_bind, hs']⟩

/-- **Coverage rule** for a loop over a list: what each round establishes about its own element,
and later rounds keep, the loop establishes about every element. `R` is how far the state may move
on, and a round may count on what was reached from the start. -/
theorem foldlM_covers {R : σ → σ → Prop} {Q : α → σ → Prop}
    (hrefl : ∀ s, R s s) (htrans : ∀ s t r, R s t → R t r → R s r)
    (hstable : ∀ a s t, R s t → Q a s → Q a t) {s₀ : σ}
    (hstep : ∀ a ∈ l, ∀ s s', R s₀ s → f s a = .ok s' → R s s' ∧ Q a s')
    (h : l.foldlM f s₀ = .ok s') : R s₀ s' ∧ ∀ a ∈ l, Q a s' := by
  have hloop : ∀ (l' : List α), (∀ a ∈ l', a ∈ l) → ∀ s, R s₀ s → l'.foldlM f s = .ok s' →
      R s s' ∧ ∀ a ∈ l', Q a s' := by
    intro l'
    induction l' with
    | nil =>
      intro _ s _ hs
      obtain rfl : s = s' := by simpa using hs
      exact ⟨hrefl s, by simp⟩
    | cons a l' ih =>
      intro hsub s hreach hs
      rw [foldlM_cons, bind_eq_ok] at hs
      obtain ⟨t, ht, hrest⟩ := hs
      obtain ⟨hst, hQ⟩ := hstep a (hsub a (mem_cons_self ..)) s t hreach ht
      obtain ⟨hts', hall⟩ := ih (fun b hb => hsub b (mem_cons_of_mem a hb)) t
        (htrans _ _ _ hreach hst) hrest
      refine ⟨htrans _ _ _ hst hts', fun b hb => ?_⟩
      rcases mem_cons.1 hb with rfl | hb
      · exact hstable b t s' hts' hQ
      · exact hall b hb
  exact hloop l (fun _ ha => ha) s₀ (hrefl s₀) h

end Outcome
