import Viengoos.Lib.Outcome

/-!
# Deterministic machines

A loop with `goto`s is a machine: a function `turn` that takes a state to the next one, or ends the
run with a result, or fails. `run` iterates it within a bound, and `Ends x r` says that a run from
`x` ends with `r` however large the bound, from some point on. A turn that leads from `x` to `y`
makes `Ends x r` and `Ends y r` the same, so a run is followed in either direction.
-/

namespace Machine

variable {X R ε : Type}

/-- At most `n` turns from a state. -/
def run (stuck : ε) (turn : X → Except ε (X ⊕ R)) : ℕ → X → Except ε R
  | 0, _ => .error stuck
  | n + 1, x => do
    match ← turn x with
    | .inl y => run stuck turn n y
    | .inr r => .ok r

/-- The run from `x` **ends** with `r`. -/
def Ends (stuck : ε) (turn : X → Except ε (X ⊕ R)) (x : X) (r : R) : Prop :=
  ∃ n, ∀ fuel, n ≤ fuel → run stuck turn fuel x = .ok r

variable {stuck : ε} {turn : X → Except ε (X ⊕ R)} {x y : X} {r : R}

theorem run_next (h : turn x = .ok (.inl y)) (n : ℕ) :
    run stuck turn (n + 1) x = run stuck turn n y := by
  rw [run, h]
  rfl

theorem run_done (h : turn x = .ok (.inr r)) (n : ℕ) : run stuck turn (n + 1) x = .ok r := by
  rw [run, h]
  rfl

/-- A turn does not change where the run ends. -/
theorem ends_next (h : turn x = .ok (.inl y)) : Ends stuck turn x r ↔ Ends stuck turn y r := by
  constructor
  · rintro ⟨n, hn⟩
    refine ⟨n, fun fuel hf => ?_⟩
    rw [← run_next h]
    exact hn _ (by omega)
  · rintro ⟨n, hn⟩
    refine ⟨n + 1, fun fuel hf => ?_⟩
    obtain ⟨k, rfl⟩ : ∃ k, fuel = k + 1 := ⟨fuel - 1, by omega⟩
    rw [run_next h]
    exact hn _ (by omega)

theorem ends_done (h : turn x = .ok (.inr r)) : Ends stuck turn x r := by
  refine ⟨1, fun fuel hf => ?_⟩
  obtain ⟨k, rfl⟩ : ∃ k, fuel = k + 1 := ⟨fuel - 1, by omega⟩
  exact run_done h k

/-- A turn **leads** to `r`. -/
def Leads (stuck : ε) (turn : X → Except ε (X ⊕ R)) (t : Except ε (X ⊕ R)) (r : R) : Prop :=
  (∃ y, t = .ok (.inl y) ∧ Ends stuck turn y r) ∨ t = .ok (.inr r)

theorem leads_next : Leads stuck turn (.ok (.inl y)) r ↔ Ends stuck turn y r := by
  simp [Leads]

theorem leads_done {r' : R} : Leads stuck turn (.ok (.inr r')) r ↔ r' = r := by
  simp [Leads]

theorem not_leads_error {e : ε} : ¬Leads stuck turn (.error e) r := by
  simp [Leads]

/-- A run ends where its first turn leads. -/
theorem ends_iff_leads : Ends stuck turn x r ↔ Leads stuck turn (turn x) r := by
  cases ht : turn x with
  | error e =>
    refine iff_of_false ?_ not_leads_error
    rintro ⟨n, hn⟩
    have hrun := hn (n + 1) (by omega)
    rw [run, ht] at hrun
    exact nomatch hrun
  | ok t =>
    cases t with
    | inl y => rw [ends_next ht, leads_next]
    | inr r' =>
      rw [leads_done]
      constructor
      · rintro ⟨n, hn⟩
        have hrun := hn (n + 1) (by omega)
        rw [run_done ht] at hrun
        exact Except.ok.inj hrun
      · rintro rfl
        exact ends_done ht

/-- A run that has returned stays so with a larger bound. -/
theorem run_mono {n k : ℕ} (h : run stuck turn n x = .ok r) (hk : n ≤ k) :
    run stuck turn k x = .ok r := by
  induction n generalizing k x with
  | zero => exact nomatch h
  | succ n ih =>
    obtain ⟨k, rfl⟩ : ∃ m, k = m + 1 := ⟨k - 1, by omega⟩
    rw [run] at h ⊢
    obtain ⟨t, ht, h⟩ := Outcome.bind_eq_ok.1 h
    rw [ht, Outcome.ok_bind]
    cases t with
    | inl y => exact ih h (by omega)
    | inr r' => exact h

/-- Where one run ends, every run ends. -/
theorem Ends.eq_of_run {n : ℕ} {r' : R} (h : Ends stuck turn x r)
    (hrun : run stuck turn n x = .ok r') : r = r' := by
  obtain ⟨k, hk⟩ := h
  have hmax := run_mono hrun (Nat.le_max_left n k)
  exact Except.ok.inj ((hk _ (Nat.le_max_right n k)).symm.trans hmax)

end Machine
