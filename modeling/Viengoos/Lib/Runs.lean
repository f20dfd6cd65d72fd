import Mathlib

/-!
# Runs of a transition system

A transition system has states, actions and a step relation. `Reached` are the states of all runs
that begin in a given way and whose steps all meet a condition; what holds in the beginning and is
kept by such steps holds in all of them.
-/

namespace Runs

variable {S A : Type*} {init : S → Prop} {step : S → A → S → Prop} {P Q : S → A → Prop}

/-- The states that are reached by steps all of which meet a condition. -/
inductive Reached (init : S → Prop) (step : S → A → S → Prop) (P : S → A → Prop) : S → Prop
  | init {s : S} : init s → Reached init step P s
  | step {s s' : S} {a : A} : Reached init step P s → P s a → step s a s' → Reached init step P s'

/-- **Induction over runs.** -/
theorem Reached.invariant {I : S → Prop} {s : S} (h : Reached init step P s)
    (hinit : ∀ s, init s → I s) (hstep : ∀ {s s' a}, P s a → step s a s' → I s → I s') : I s := by
  induction h with
  | init h => exact hinit _ h
  | step _ hP hs ih => exact hstep hP hs ih

end Runs
