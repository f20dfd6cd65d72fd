import Mathlib

/-!
# Sets of numbers as lists of extents

A finite union of intervals has one representation by sorted extents that neither meet nor touch.
Taking a range out of the set or putting one in changes the list at one place.
-/

namespace Viengoos

open List

/-- Two elements of a list in order are the same, or one comes before the other. -/
theorem eq_or_of_pairwise {α : Type*} {R : α → α → Prop} {l : List α} (h : l.Pairwise R) {a b : α}
    (ha : a ∈ l) (hb : b ∈ l) : a = b ∨ R a b ∨ R b a := by
  obtain ⟨i, hi, rfl⟩ := getElem_of_mem ha
  obtain ⟨j, hj, rfl⟩ := getElem_of_mem hb
  rcases Nat.lt_trichotomy i j with hij | rfl | hij
  · exact .inr (.inl (pairwise_iff_getElem.1 h i j hi hj hij))
  · exact .inl rfl
  · exact .inr (.inr (pairwise_iff_getElem.1 h j i hj hi hij))

/-- The numbers from `start` to `last`, both included. -/
structure Extent where
  start : ℕ
  last : ℕ
deriving DecidableEq, Repr

namespace Extent

/-- The numbers in a list of extents. -/
def covered (l : List Extent) : Set ℕ := {x | ∃ r ∈ l, r.start ≤ x ∧ x ≤ r.last}

/-- **Separated extents** are sorted, and there is a number between any two of them. -/
structure Separated (l : List Extent) : Prop where
  nonempty : ∀ r ∈ l, r.start ≤ r.last
  apart : l.Pairwise fun a b => a.last + 1 < b.start

variable {l l' pre mid mid' post : List Extent} {r : Extent} {x s e : ℕ}

@[simp] theorem covered_nil : covered [] = ∅ := by
  ext x
  simp [covered]

@[simp] theorem mem_covered_cons :
    x ∈ covered (r :: l) ↔ (r.start ≤ x ∧ x ≤ r.last) ∨ x ∈ covered l := by
  simp [covered]

@[simp] theorem mem_covered_append : x ∈ covered (l ++ l') ↔ x ∈ covered l ∨ x ∈ covered l' := by
  simp [covered, or_and_right, exists_or]

theorem separated_nil : Separated [] := ⟨by simp, .nil⟩

theorem separated_singleton : Separated [r] ↔ r.start ≤ r.last :=
  ⟨fun h => h.nonempty r (by simp), fun h => ⟨by simpa using h, by simp⟩⟩

theorem separated_append : Separated (l ++ l') ↔
    Separated l ∧ Separated l' ∧ ∀ a ∈ l, ∀ b ∈ l', a.last + 1 < b.start := by
  constructor
  · rintro ⟨hne, hapart⟩
    obtain ⟨h, h', hcross⟩ := pairwise_append.1 hapart
    exact ⟨⟨fun r hr => hne r (mem_append_left _ hr), h⟩,
      ⟨fun r hr => hne r (mem_append_right _ hr), h'⟩, hcross⟩
  · rintro ⟨h, h', hcross⟩
    refine ⟨fun r hr => ?_, pairwise_append.2 ⟨h.apart, h'.apart, hcross⟩⟩
    exact (mem_append.1 hr).elim (h.nonempty r) (h'.nonempty r)

theorem separated_cons : Separated (r :: l) ↔
    r.start ≤ r.last ∧ Separated l ∧ ∀ b ∈ l, r.last + 1 < b.start := by
  rw [← singleton_append, separated_append, separated_singleton]
  simp

/-- Extents in the middle are replaced by others that reach no further. -/
theorem Separated.replace (h : Separated (pre ++ (mid ++ post))) (hmid : Separated mid')
    (hstart : ∀ r ∈ mid', ∃ a ∈ mid, a.start ≤ r.start)
    (hlast : ∀ r ∈ mid', ∃ a ∈ mid, r.last ≤ a.last) : Separated (pre ++ (mid' ++ post)) := by
  obtain ⟨hpre, h', hcross⟩ := separated_append.1 h
  obtain ⟨-, hpost, hcross'⟩ := separated_append.1 h'
  refine separated_append.2 ⟨hpre, separated_append.2 ⟨hmid, hpost, fun r hr b hb => ?_⟩,
    fun a ha b hb => ?_⟩
  · obtain ⟨c, hc, hle⟩ := hlast r hr
    have := hcross' c hc b hb
    omega
  · rcases mem_append.1 hb with hb | hb
    · obtain ⟨c, hc, hle⟩ := hstart b hb
      have := hcross a ha c (mem_append_left _ hc)
      omega
    · exact hcross a ha b (mem_append_right _ hb)

theorem separated_append_cons : Separated (l ++ r :: l') ↔ Separated l ∧ Separated l' ∧
    r.start ≤ r.last ∧ (∀ a ∈ l, a.last + 1 < r.start) ∧ (∀ b ∈ l', r.last + 1 < b.start) ∧
      ∀ a ∈ l, ∀ b ∈ l', a.last + 1 < b.start := by
  rw [separated_append, separated_cons]
  simp only [mem_cons, forall_eq_or_imp]
  constructor
  · rintro ⟨h, ⟨hr, h', hb⟩, ha⟩
    exact ⟨h, h', hr, fun a hx => (ha a hx).1, hb, fun a hx => (ha a hx).2⟩
  · rintro ⟨h, h', hr, ha, hb, hab⟩
    exact ⟨h, ⟨hr, h', hb⟩, fun a hx => ⟨ha a hx, hab a hx⟩⟩

theorem Separated.eq_or_apart (h : Separated l) {a b : Extent} (ha : a ∈ l) (hb : b ∈ l) :
    a = b ∨ a.last + 1 < b.start ∨ b.last + 1 < a.start :=
  eq_or_of_pairwise h.apart ha hb

/-- A range of numbers in separated extents is in one of them. -/
theorem Separated.exists_of_subset (h : Separated l) (hse : s ≤ e)
    (hsub : Set.Icc s e ⊆ covered l) : ∃ r ∈ l, r.start ≤ s ∧ e ≤ r.last := by
  obtain ⟨r, hr, hrs, hsr⟩ := hsub ⟨le_rfl, hse⟩
  refine ⟨r, hr, hrs, ?_⟩
  by_contra hlt
  -- the number after the extent would be in another one
  obtain ⟨r', hr', hrs', hsr'⟩ := hsub (show r.last + 1 ∈ Set.Icc s e from ⟨by omega, by omega⟩)
  rcases h.eq_or_apart hr hr' with rfl | hapart
  · omega
  · omega

/-- What is left of a extent without the numbers from `s` to `e` in it. -/
def carve (r : Extent) (s e : ℕ) : List Extent :=
  (if s = r.start then [] else [⟨r.start, s - 1⟩]) ++ if e = r.last then [] else [⟨e + 1, r.last⟩]

/-- **Carving out** a range. -/
theorem Separated.carve (h : Separated (pre ++ r :: post)) (hs : r.start ≤ s) (hse : s ≤ e)
    (he : e ≤ r.last) :
    Separated (pre ++ (r.carve s e ++ post)) ∧
      covered (pre ++ (r.carve s e ++ post)) = covered (pre ++ r :: post) \ Set.Icc s e := by
  have hcarve : Separated (r.carve s e) := by
    rw [Extent.carve]
    split <;> split <;>
      simp only [nil_append, append_nil, singleton_append, separated_nil,
        separated_cons, mem_singleton, forall_eq, not_mem_nil, false_implies,
        implies_true, and_true] <;> omega
  have hmem : ∀ a ∈ r.carve s e, r.start ≤ a.start ∧ a.last ≤ r.last := by
    intro a ha
    rw [Extent.carve, mem_append] at ha
    rcases ha with ha | ha <;> split at ha <;>
      simp only [not_mem_nil, mem_singleton] at ha <;> subst ha <;> dsimp only <;> omega
  have hcovered : ∀ x, x ∈ covered (r.carve s e) ↔
      (r.start ≤ x ∧ x ≤ r.last) ∧ ¬ (s ≤ x ∧ x ≤ e) := by
    intro x
    rw [Extent.carve, mem_covered_append]
    split <;> split <;> simp only [covered_nil, mem_covered_cons, Set.mem_empty_iff_false, or_false,
      false_or, false_iff] <;> omega
  have h' : Separated (pre ++ ([r] ++ post)) := h
  refine ⟨h'.replace hcarve (fun a ha => ⟨r, by simp, (hmem a ha).1⟩)
    fun a ha => ⟨r, by simp, (hmem a ha).2⟩, Set.ext fun x => ?_⟩
  have hpre : x ∈ covered pre → ¬ (s ≤ x ∧ x ≤ e) := fun ⟨a, ha, _, hx⟩ hin => by
    have := (separated_append.1 h).2.2 a ha r (by simp)
    omega
  have hpost : x ∈ covered post → ¬ (s ≤ x ∧ x ≤ e) := fun ⟨b, hb, hx, _⟩ hin => by
    have := (separated_cons.1 (separated_append.1 h).2.1).2.2 b hb
    omega
  simp only [Set.mem_sdiff, Set.mem_Icc, mem_covered_append, mem_covered_cons, hcovered]
  constructor
  · rintro (hx | hx | hx)
    · exact ⟨.inl hx, hpre hx⟩
    · exact ⟨.inr (.inl hx.1), hx.2⟩
    · exact ⟨.inr (.inr hx), hpost hx⟩
  · rintro ⟨hx | hx | hx, hout⟩
    · exact .inl hx
    · exact .inr (.inl ⟨hx, hout⟩)
    · exact .inr (.inr hx)

end Extent

end Viengoos
