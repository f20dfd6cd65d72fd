import Viengoos.Lib.Outcome

/-!
# Computations with fuel

A recursion that may not end is written over a fuel. It **settles** if from some fuel on it has one
result, which is not that it ran out. Settling composes along `bind` and along loops, so that the
termination of a program follows from that of its recursive calls; `Settles.not_of_forall` is the
other direction, for a program that runs out whatever its fuel.
-/

namespace Outcome

open List

universe u v

variable {ε : Type u} {α β σ : Type v} {stuck : ε}

/-- A computation with fuel **settles**. -/
def Settles (stuck : ε) (f : ℕ → Except ε α) : Prop :=
  ∃ n r, r ≠ .error stuck ∧ ∀ m ≥ n, f m = r

theorem settles_const {r : Except ε α} (h : r ≠ .error stuck) : Settles stuck fun _ => r :=
  ⟨0, r, h, fun _ _ => rfl⟩

theorem settles_ok (a : α) : Settles stuck fun _ => (Except.ok a : Except ε α) :=
  settles_const nofun

variable {l : List α} {s : σ} {f : ℕ → Except ε α}

/-- One unit of fuel does not matter. -/
theorem Settles.of_succ (h : Settles stuck fun n => f (n + 1)) :
    Settles stuck f := by
  obtain ⟨n, r, hr, h⟩ := h
  refine ⟨n + 1, r, hr, fun m hm => ?_⟩
  obtain ⟨k, rfl⟩ : ∃ k, m = k + 1 := ⟨m - 1, by omega⟩
  exact h k (by omega)

/-- A computation that runs out with any fuel does not settle. -/
theorem Settles.not_of_forall (h : ∀ n, f n = .error stuck) :
    ¬ Settles stuck f := by
  rintro ⟨n, r, hr, hf⟩
  exact hr ((hf n le_rfl).symm.trans (h n))

theorem Settles.bind {g : ℕ → α → Except ε β} (hf : Settles stuck f)
    (hg : ∀ a n, f n = .ok a → Settles stuck fun n => g n a) :
    Settles stuck fun n => f n >>= g n := by
  obtain ⟨n, r, hr, hf⟩ := hf
  cases r with
  | error e =>
    refine ⟨n, .error e, fun h => hr ?_, fun m hm => by simp only [hf m hm, error_bind]⟩
    injection h with h
    rw [h]
  | ok a =>
    obtain ⟨n', r', hr', hg⟩ := hg a n (hf n le_rfl)
    refine ⟨n + n', r', hr', fun m hm => ?_⟩
    simp only [hf m (by omega), ok_bind]
    exact hg m (by omega)

/-- A sequence is not stuck if neither part is. -/
theorem bind_ne_stuck {x : Except ε α} {f : α → Except ε β} (hx : x ≠ .error stuck)
    (hf : ∀ a, x = .ok a → f a ≠ .error stuck) : (x >>= f) ≠ .error stuck := by
  cases x with
  | error e =>
    intro h
    injection h with h
    exact hx (by rw [h])
  | ok a => exact hf a rfl

theorem require_ne_stuck {c : Prop} [Decidable c] {e : ε} (he : e ≠ stuck) :
    (require c e : Except ε PUnit.{v + 1}) ≠ .error stuck := by
  unfold require
  split
  · exact nofun
  · exact fun h => he (Except.error.inj h)

/-- A loop over a list is not stuck if no round is, from the states that rounds keep to. -/
theorem foldlM_ne_stuck {f : σ → α → Except ε σ} (P : σ → Prop)
    (hround : ∀ a ∈ l, ∀ s, P s → f s a ≠ .error stuck ∧ ∀ s', f s a = .ok s' → P s')
    (hs : P s) : l.foldlM f s ≠ .error stuck := by
  induction l generalizing s with
  | nil => exact nofun
  | cons a l ih =>
    obtain ⟨hne, hkeeps⟩ := hround a (mem_cons_self ..) s hs
    exact bind_ne_stuck hne fun s' hs' =>
      ih (fun b hb => hround b (mem_cons_of_mem a hb)) (hkeeps s' hs')

/-- A loop whose rounds are stuck in known cases, and otherwise return, is stuck if and only if one
of its rounds is. -/
theorem foldlM_decided {f : σ → α → Except ε σ} (P : σ → Prop) {B : α → Prop}
    (hround : ∀ a ∈ l, ∀ s, P s →
      f s a = .error stuck ∧ B a ∨ ∃ s', f s a = .ok s' ∧ P s' ∧ ¬B a) (hs : P s) :
    l.foldlM f s = .error stuck ∧ (∃ a ∈ l, B a) ∨
      ∃ s', l.foldlM f s = .ok s' ∧ P s' ∧ ¬∃ a ∈ l, B a := by
  induction l generalizing s with
  | nil => exact .inr ⟨s, rfl, hs, by simp⟩
  | cons a l ih =>
    simp only [exists_mem_cons_iff, foldlM_cons]
    rcases hround a (mem_cons_self ..) s hs with ⟨hstuck, ha⟩ | ⟨s₁, hok, hs₁, ha⟩
    · exact .inl ⟨by rw [hstuck, error_bind], .inl ha⟩
    · rw [hok, ok_bind]
      simpa only [ha, false_or] using ih (fun b hb => hround b (mem_cons_of_mem a hb)) hs₁

/-- A loop that is not stuck is the same with rounds that agree where they are not stuck. -/
theorem foldlM_stable {f g : σ → α → Except ε σ}
    (hround : ∀ s a, f s a ≠ .error stuck → g s a = f s a)
    (hne : l.foldlM f s ≠ .error stuck) : l.foldlM g s = l.foldlM f s := by
  induction l generalizing s with
  | nil => rfl
  | cons a l ih =>
    rw [foldlM_cons] at hne
    rw [foldlM_cons, foldlM_cons, hround s a fun hstuck => hne (by rw [hstuck, error_bind])]
    cases hf : f s a with
    | error e => rfl
    | ok s₁ =>
      rw [hf, ok_bind] at hne
      exact ih hne

/-- **Nested steps**: some `n` steps of a relation follow each other from `x` on. -/
def Nests {γ : Type v} (R : γ → γ → Prop) : ℕ → γ → Prop
  | 0, _ => True
  | n + 1, x => ∃ y, R x y ∧ Nests R n y

/-- Descending for ever is what well-foundedness rules out. -/
theorem acc_of_no_endless {γ : Type v} {R : γ → γ → Prop}
    (h : ¬ ∃ f : ℕ → γ, ∀ i, R (f i) (f (i + 1))) (a : γ) : Acc (fun x y => R y x) a := by
  by_contra hacc
  obtain ⟨f, -, hf⟩ := not_acc_iff_exists_descending_chain.1 hacc
  exact h ⟨f, hf⟩

end Outcome
