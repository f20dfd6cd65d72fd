import Mathlib

/-!
# Dyadic blocks

The block of order `z` and index `k` is the interval of the numbers `i` with `i / 2 ^ z = k`. Two
blocks are nested or disjoint, and the two halves of a block of order `z + 1` are the blocks of
order `z` whose indices differ in the lowest bit, **buddies**.

A block is **maximal** in a finite set if the set contains it but not the block of twice the size
around it. The maximal blocks of a set are disjoint and cover it (`eq_of_maximal`,
`exists_maximal`), so they depend on the set only; taking one out removes it and changes no other
(`maximal_sdiff`), and adding a block whose buddy is not in the set adds just this one
(`maximal_union`).
-/

namespace Dyadic

open Finset

/-- The block of order `z` and index `k`. -/
def block (z k : ℕ) : Finset ℕ := Finset.Ico (k * 2 ^ z) ((k + 1) * 2 ^ z)

theorem mem_block {z k i : ℕ} : i ∈ block z k ↔ i / 2 ^ z = k := by
  rw [block, mem_Ico, Nat.div_eq_iff (Nat.two_pow_pos z)]
  have := Nat.two_pow_pos z
  rw [Nat.add_mul, Nat.one_mul]
  omega

theorem card_block (z k : ℕ) : (block z k).card = 2 ^ z := by
  rw [block, Nat.card_Ico, Nat.add_mul, Nat.one_mul, Nat.add_sub_cancel_left]

theorem block_zero (k : ℕ) : block 0 k = {k} := by
  ext i
  rw [mem_block, pow_zero, Nat.div_one, mem_singleton]

theorem mul_mem_block (z k : ℕ) : k * 2 ^ z ∈ block z k :=
  mem_block.2 (Nat.mul_div_cancel k (Nat.two_pow_pos z))

/-- The index of the block of order `z + n` around a number. -/
theorem div_two_pow_add (i z n : ℕ) : i / 2 ^ (z + n) = i / 2 ^ z / 2 ^ n := by
  rw [pow_add, Nat.div_div_eq_div_mul]

theorem block_subset_block (z n k : ℕ) : block z k ⊆ block (z + n) (k / 2 ^ n) := by
  intro i hi
  rw [mem_block] at hi ⊢
  rw [div_two_pow_add, hi]

theorem block_subset_succ (z k : ℕ) : block z k ⊆ block (z + 1) (k / 2) := by
  simpa using block_subset_block z 1 k

/-- A block that meets a larger one lies in it. -/
theorem block_subset_of_mem {z w k j i : ℕ} (hzw : z ≤ w) (hk : i ∈ block z k)
    (hj : i ∈ block w j) : block z k ⊆ block w j := by
  obtain ⟨n, rfl⟩ := Nat.exists_eq_add_of_le hzw
  rw [mem_block] at hk hj
  rw [div_two_pow_add, hk] at hj
  exact hj ▸ block_subset_block z n k

/-! ### Buddies -/

/-- The index of the other half of the block around block `k`. -/
def buddy (k : ℕ) : ℕ := k ^^^ 1

theorem buddy_div_two (k : ℕ) : buddy k / 2 = k / 2 := by
  rw [buddy, ← Nat.shiftRight_one, ← Nat.shiftRight_one, Nat.shiftRight_xor_distrib]
  simp

theorem buddy_two_mul (j : ℕ) : buddy (2 * j) = 2 * j + 1 := by
  have h : (2 * j + 1) / 2 = buddy (2 * j) / 2 := by rw [buddy_div_two]; omega
  have hne : buddy (2 * j) % 2 = 1 := by
    rw [buddy, Nat.xor_mod_two_eq]
    omega
  omega

theorem buddy_two_mul_add_one (j : ℕ) : buddy (2 * j + 1) = 2 * j := by
  have h : buddy (2 * j + 1) / 2 = j := by rw [buddy_div_two]; omega
  have hne : buddy (2 * j + 1) % 2 = 0 := by
    rw [buddy, Nat.xor_mod_two_eq]
    omega
  omega

/-- Two different blocks in the same block of twice the size are buddies. -/
theorem eq_buddy_iff {k j : ℕ} : j = buddy k ↔ j / 2 = k / 2 ∧ j ≠ k := by
  obtain ⟨m, rfl | rfl⟩ := Nat.even_or_odd' k
  · rw [buddy_two_mul]
    omega
  · rw [buddy_two_mul_add_one]
    omega

theorem buddy_ne (k : ℕ) : buddy k ≠ k := (eq_buddy_iff.1 rfl).2

/-- A block is the union of its halves. -/
theorem block_succ (z k : ℕ) : block (z + 1) (k / 2) = block z k ∪ block z (buddy k) := by
  ext i
  rw [mem_union, mem_block, mem_block, mem_block, eq_buddy_iff, div_two_pow_add, pow_one]
  by_cases h : i / 2 ^ z = k
  · simp [h]
  · simp [h]

/-! ### Maximal blocks -/

/-- The set contains the block, but not the block of twice the size around it. -/
def Maximal (S : Finset ℕ) (z k : ℕ) : Prop := block z k ⊆ S ∧ ¬ block (z + 1) (k / 2) ⊆ S

instance (S : Finset ℕ) (z k : ℕ) : Decidable (Maximal S z k) := inferInstanceAs (Decidable (_ ∧ _))

variable {S : Finset ℕ} {z k w j : ℕ}

/-- A maximal block that meets a block of the set contains it. -/
theorem Maximal.le_of_mem (h : Maximal S z k) (hj : block w j ⊆ S) {i : ℕ} (hik : i ∈ block z k)
    (hij : i ∈ block w j) : w ≤ z := by
  by_contra hlt
  refine h.2 (Finset.Subset.trans ?_ hj)
  exact block_subset_of_mem (by omega) (block_subset_succ z k hik) hij

/-- Maximal blocks are disjoint. -/
theorem eq_of_maximal (hk : Maximal S z k) (hj : Maximal S w j) {i : ℕ} (hik : i ∈ block z k)
    (hij : i ∈ block w j) : z = w ∧ k = j := by
  obtain rfl : z = w := le_antisymm (hj.le_of_mem hk.1 hij hik) (hk.le_of_mem hj.1 hik hij)
  exact ⟨rfl, (mem_block.1 hik).symm.trans (mem_block.1 hij)⟩

/-- Maximal blocks cover the set, and are below the order of any block that leaves it. -/
theorem exists_maximal {i n : ℕ} (hi : i ∈ S) (hn : ¬ block n (i / 2 ^ n) ⊆ S) :
    ∃ z < n, Maximal S z (i / 2 ^ z) := by
  induction n with
  | zero =>
    rw [pow_zero, Nat.div_one, block_zero, singleton_subset_iff] at hn
    exact absurd hi hn
  | succ n ih =>
    by_cases hfull : block n (i / 2 ^ n) ⊆ S
    · refine ⟨n, Nat.lt_succ_self n, hfull, ?_⟩
      rwa [div_two_pow_add, pow_one] at hn
    · obtain ⟨z, hz, hmax⟩ := ih hfull
      exact ⟨z, hz.trans (Nat.lt_succ_self n), hmax⟩

/-- Taking out a maximal block leaves the other ones. -/
theorem maximal_sdiff (h : Maximal S z k) :
    Maximal (S \ block z k) w j ↔ Maximal S w j ∧ ¬ (w = z ∧ j = k) := by
  constructor
  · rintro ⟨hfull, hmax⟩
    have hS : block w j ⊆ S := hfull.trans sdiff_subset
    have hne : ¬ (w = z ∧ j = k) := by
      rintro ⟨rfl, rfl⟩
      exact (mem_sdiff.1 (hfull (mul_mem_block w j))).2 (mul_mem_block w j)
    refine ⟨⟨hS, fun hup => ?_⟩, hne⟩
    -- The larger block is disjoint from the one taken out, which would contain it.
    obtain ⟨i, hi, hnot⟩ := not_subset.1 hmax
    have hik : i ∈ block z k := by
      by_contra hik
      exact hnot (mem_sdiff.2 ⟨hup hi, hik⟩)
    have hle := h.le_of_mem hup hik hi
    have hsub := block_subset_of_mem hle hi hik
    have hstart := mul_mem_block w j
    exact (mem_sdiff.1 (hfull hstart)).2 (hsub (block_subset_succ w j hstart))
  · rintro ⟨hmax, hne⟩
    refine ⟨fun i hi => mem_sdiff.2 ⟨hmax.1 hi, fun hik => ?_⟩,
      fun hup => hmax.2 (hup.trans sdiff_subset)⟩
    obtain ⟨hz, hk⟩ := eq_of_maximal h hmax hik hi
    exact hne ⟨hz.symm, hk.symm⟩

/-- The buddy of a block outside of the set is maximal as soon as it is in the set. -/
theorem maximal_buddy (hdisj : Disjoint (block z k) S) (h : block z (buddy k) ⊆ S) :
    Maximal S z (buddy k) := by
  refine ⟨h, fun hup => ?_⟩
  rw [buddy_div_two] at hup
  have hstart := mul_mem_block z k
  exact disjoint_left.1 hdisj hstart (hup (block_subset_succ z k hstart))

/-- Adding a block whose buddy is not in the set adds one maximal block. -/
theorem maximal_union (hdisj : Disjoint (block z k) S) (hbuddy : ¬ block z (buddy k) ⊆ S) :
    Maximal (S ∪ block z k) w j ↔ Maximal S w j ∨ (w = z ∧ j = k) := by
  have hbuddy' : ¬ block z (buddy k) ⊆ S ∪ block z k := by
    intro hsub
    refine hbuddy fun i hi => ?_
    rcases mem_union.1 (hsub hi) with hS | hk
    · exact hS
    · exact absurd ((mem_block.1 hi).symm.trans (mem_block.1 hk)) (buddy_ne k)
  have hself : Maximal (S ∪ block z k) z k := by
    refine ⟨subset_union_right, fun hup => hbuddy' ?_⟩
    rw [block_succ] at hup
    exact subset_union_right.trans hup
  constructor
  · intro hmax
    by_cases hmeet : ∃ i ∈ block w j, i ∈ block z k
    · obtain ⟨i, hij, hik⟩ := hmeet
      obtain ⟨hz, hk⟩ := eq_of_maximal hself hmax hik hij
      exact .inr ⟨hz.symm, hk.symm⟩
    · refine .inl ⟨fun i hi => ?_, fun hup => hmax.2 (hup.trans subset_union_left)⟩
      exact (mem_union.1 (hmax.1 hi)).resolve_right fun hik => hmeet ⟨i, hi, hik⟩
  · rintro (hmax | ⟨rfl, rfl⟩)
    · refine ⟨hmax.1.trans subset_union_left, fun hup => ?_⟩
      obtain ⟨i, hi, hnot⟩ := not_subset.1 hmax.2
      have hik : i ∈ block z k := (mem_union.1 (hup hi)).resolve_left hnot
      have hle := hself.le_of_mem hup hik hi
      have hstart := mul_mem_block w j
      have hsub := block_subset_of_mem hle hi hik (block_subset_succ w j hstart)
      exact disjoint_left.1 hdisj hsub (hmax.1 hstart)
    · exact hself

/-- Of two buddies at most one is maximal. -/
theorem not_maximal_buddy (h : Maximal S z k) : ¬ Maximal S z (buddy k) := by
  intro hbuddy
  refine h.2 ?_
  rw [block_succ]
  exact union_subset h.1 hbuddy.1

end Dyadic
