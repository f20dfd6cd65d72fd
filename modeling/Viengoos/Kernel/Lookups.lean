import Viengoos.Kernel.Folio

/-!
# Invariants under lookups

The invariant rule for what an activity looks up: what finding an object in memory, bringing one
in and voiding a stale capability keep (`Keeps`), every lookup keeps, and so does a shootdown if
unmapping a page keeps it too. In contrast to `Touches` it tracks on whose behalf the lookups are
made, and that only a capability to an older version of an object in memory is voided.
-/

namespace Viengoos

open Outcome

namespace Kernel

/-- What the elementary steps of a lookup by `activity` keep. A capability is voided when the
object it named at `s₀`, where the lookup began, turns out to have another version. -/
structure Keeps (activity : ℕ) (P : Kernel → Prop) : Prop where
  found : ∀ {s o d} (policy : ObjectPolicy), s.desc o = some d → P s →
    P (s.objectFindSoft activity o policy).1
  paged : ∀ {s s' type o version policy},
    s.memoryObjectAlloc activity type o version policy = .ok s' → P s → P s'
  voided : ∀ {s₀ s d} (p : CapPtr), P s₀ → P s → Later s₀ s → s.desc (s₀.read p).oid = some d →
    d.version ≠ (s₀.read p).version → P (s.voidCap p)

namespace Keeps

variable {activity : ℕ} {P : Kernel → Prop} {s s' : Kernel} {o : ℕ} {policy : ObjectPolicy}
  {found : Bool} {p : CapPtr} {r : Option ℕ}

section

variable (hP : Keeps activity P)

include hP

theorem objectFindSoft (o : ℕ) (policy : ObjectPolicy) (hs : P s) :
    P (s.objectFindSoft activity o policy).1 := by
  cases hd : s.desc o with
  | none => simpa [Kernel.objectFindSoft, hd] using hs
  | some d => exact hP.found policy hd hs

theorem folioFind (h : s.folioFind activity o policy = .ok (s', found)) (hs : P s) : P s' := by
  rcases folioFind_cases h with ⟨d, hd, -, rfl⟩ | ⟨-, ⟨-, -, halloc⟩ | ⟨-, -, rfl⟩⟩
  · exact hP.found policy hd hs
  · exact hP.paged halloc hs
  · exact hs

theorem objectFind (h : s.objectFind activity o policy = .ok (s', found)) (hs : P s) : P s' := by
  rcases objectFind_cases h with ⟨d, hd, -, rfl⟩ | ⟨-, ⟨-, hfolio⟩ | ⟨-, t, hfolio, hrest⟩⟩
  · exact hP.found policy hd hs
  · exact hP.folioFind hfolio hs
  · rcases hrest with ⟨-, -, rfl⟩ | ⟨-, -, halloc⟩
    · exact hP.folioFind hfolio hs
    · exact hP.paged halloc (hP.folioFind hfolio hs)

theorem checkVersion {s₀ : Kernel} (h₀ : P s₀) (hlater : Later s₀ s)
    (h : s.checkVersion p (s₀.read p) found = .ok (s', r)) (hs : P s) : P s' := by
  unfold Kernel.checkVersion at h
  split at h
  · next d hd =>
    split at h
    · next hstale =>
      obtain ⟨⟩ := pure_eq_ok.1 h
      exact hP.voided p h₀ hs hlater hd hstale
    · obtain ⟨_, -, ⟨⟩⟩ := bind_pure_eq_ok.1 h
      exact hs
  · obtain ⟨⟩ := pure_eq_ok.1 h
    exact hs

theorem capToObject (h : s.capToObject activity p = .ok (s', r)) (hs : P s) : P s' := by
  simp only [Kernel.capToObject] at h
  split at h
  · obtain ⟨⟩ := pure_eq_ok.1 h
    exact hs
  · obtain ⟨⟨t, found⟩, hfind, hrest⟩ := bind_eq_ok.1 h
    have hlater := (objectFind_touches (H := fun _ _ => True) trivial trivial hfind).1.later
    exact hP.checkVersion hs hlater hrest (hP.objectFind hfind hs)

/-! ### Shootdowns -/

variable {root : CapPtr} {junk : ℕ → ObjectPolicy}

section

variable (hunmap : ∀ {s} o, P s → P (s.objectDescUnmap o))
include hunmap

theorem shootdownPage (p : CapPtr) (hs : P s) :
    P (s.shootdownPage activity p) := by
  have hfound := hP.objectFindSoft (s.read p).oid (s.read p).policy hs
  have hlater : Later s (s.objectFindSoft activity (s.read p).oid (s.read p).policy).1 :=
    (objectFindSoft_touches (H := fun _ _ => True) s activity trivial).later
  simp only [Kernel.shootdownPage, unmapFound]
  split
  · next d _ hd =>
    split
    · next hstale => exact hP.voided p hs hfound hlater hd hstale
    · exact hunmap _ hfound
  · exact hfound

theorem shootdownFrom (n : ℕ) :
    ∀ {p remaining s s'}, Kernel.shootdownFrom activity root junk n p remaining s = .ok s' →
      P s → P s' := by
  induction n with
  | zero =>
    intro p remaining s s' h
    simp [Kernel.shootdownFrom_zero] at h
  | succ n ih =>
    intro p remaining s s' h hs
    simp only [Kernel.shootdownFrom_succ] at h
    split at h
    · split at h
      · exact pure_eq_ok.1 h ▸ hs
      · exact pure_eq_ok.1 h ▸ hP.shootdownPage hunmap p hs
    split at h
    · exact pure_eq_ok.1 h ▸ hs
    split at h
    · exact pure_eq_ok.1 h ▸ hs
    obtain ⟨⟨t, object⟩, hobject, hrest⟩ := bind_eq_ok.1 h
    have ht := hP.capToObject hobject hs
    cases object with
    | none => exact pure_eq_ok.1 hrest ▸ ht
    | some o =>
      simp only at hrest
      -- the objects of a folio, or the slots of an object
      split at hrest
      · refine foldlM_invariant P (fun i _ u v huv hu => ?_) hrest ht
        split at huv
        · dsimp only at huv
          split at huv
          · exact ih huv hu
          · exact pure_eq_ok.1 huv ▸ hu
        · exact pure_eq_ok.1 huv ▸ hu
      · refine foldlM_invariant P (fun i _ u v huv hu => ?_) hrest ht
        split at huv
        · exact ih huv hu
        · exact pure_eq_ok.1 huv ▸ hu

theorem capShootdown {fuel : ℕ}
    (h : s.capShootdown fuel activity junk root = .ok s') (hs : P s) : P s' :=
  hP.shootdownFrom hunmap fuel h hs

end

end

end Keeps

end Kernel

end Viengoos
