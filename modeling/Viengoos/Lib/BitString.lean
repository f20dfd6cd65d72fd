import Mathlib

/-!
# Bit strings of numbers

The `n` low bits of a number, most significant first, as a list of booleans, and the two facts
a bit-consuming loop needs: a field cut off the top of a number splits its bit string, and equal
bit strings of one length are equal numbers.

Nothing here knows of addresses or guards. `bits` is the denotation; `field v hi c` is the
arithmetic a program uses to read `c` bits that end `hi` bits above the bottom.
-/

namespace BitString

open List

/-! ### The denotation -/

/-- The `n` low bits of `v`, **most significant first**. -/
def bits : ℕ → ℕ → List Bool
  | 0, _ => []
  | n + 1, v => v.testBit n :: bits n v

@[simp] theorem bits_zero (v : ℕ) : bits 0 v = [] := rfl

theorem bits_succ (n v : ℕ) : bits (n + 1) v = v.testBit n :: bits n v := rfl

@[simp] theorem length_bits (n v : ℕ) : (bits n v).length = n := by
  induction n with
  | zero => rfl
  | succ n ih => rw [bits_succ, length_cons, ih]

/-- Two numbers have the same `n` low bits iff they agree modulo `2 ^ n`. -/
theorem bits_eq_iff_mod {n x y : ℕ} : bits n x = bits n y ↔ x % 2 ^ n = y % 2 ^ n := by
  induction n with
  | zero => simp [Nat.mod_one]
  | succ n ih =>
    rw [bits_succ, bits_succ, cons.injEq, ih]
    have split (z : ℕ) : z % 2 ^ (n + 1) = z % 2 ^ n + 2 ^ n * (z / 2 ^ n % 2) := by
      rw [Nat.pow_succ, Nat.mod_mul]
    have hbit (z : ℕ) : z.testBit n = decide (z / 2 ^ n % 2 = 1) := by
      rw [Nat.testBit_eq_decide_div_mod_eq]
    rw [split x, split y, hbit x, hbit y]
    rcases Nat.mod_two_eq_zero_or_one (x / 2 ^ n) with hx1 | hx1 <;>
      rcases Nat.mod_two_eq_zero_or_one (y / 2 ^ n) with hy1 | hy1 <;>
      simp only [hx1, hy1, Nat.mul_zero, Nat.mul_one, Nat.add_zero, decide_true, decide_false,
        zero_ne_one, Bool.false_eq_true, Bool.true_eq_false, false_and, true_and, false_iff]
    · omega
    · omega
    · exact ⟨fun h => by rw [h], fun h => by omega⟩

/-- A bit string determines the number among those that fit in it. -/
theorem bits_injective {n x y : ℕ} (hx : x < 2 ^ n) (hy : y < 2 ^ n) (h : bits n x = bits n y) :
    x = y := by
  rwa [bits_eq_iff_mod, Nat.mod_eq_of_lt hx, Nat.mod_eq_of_lt hy] at h

@[simp] theorem bits_mod (n v : ℕ) : bits n (v % 2 ^ n) = bits n v :=
  bits_eq_iff_mod.2 (Nat.mod_mod _ _)

/-- The top `a` and the low `b` bits of an `a + b` bit number. -/
theorem bits_add (a b v : ℕ) : bits (a + b) v = bits a (v / 2 ^ b) ++ bits b v := by
  induction a with
  | zero => simp
  | succ a ih =>
    rw [Nat.succ_add, bits_succ, ih, bits_succ, cons_append, Nat.testBit_div_two_pow]

/-- Bits put together arithmetically are bits put one after the other. -/
theorem bits_mul_add {a b x y : ℕ} (hy : y < 2 ^ b) :
    bits (a + b) (x * 2 ^ b + y) = bits a x ++ bits b y := by
  have hdiv : (x * 2 ^ b + y) / 2 ^ b = x := by
    rw [Nat.add_comm, Nat.add_mul_div_right _ _ (Nat.two_pow_pos b), Nat.div_eq_of_lt hy,
      Nat.zero_add]
  have hmod : bits b (x * 2 ^ b + y) = bits b y :=
    bits_eq_iff_mod.2 (Nat.mul_add_mod_self_right x (2 ^ b) y)
  rw [bits_add, hdiv, hmod]

/-! ### Fields -/

/-- The `c` bits of `v` whose most significant one has `hi - 1` bits below it: what
`(v >> (hi - c)) & ((1 << c) - 1)` computes. -/
def field (v hi c : ℕ) : ℕ := v / 2 ^ (hi - c) % 2 ^ c

theorem field_lt (v hi c : ℕ) : field v hi c < 2 ^ c := Nat.mod_lt _ (Nat.two_pow_pos c)

@[simp] theorem field_zero (v hi : ℕ) : field v hi 0 = 0 := by simp [field, Nat.mod_one]

/-- Reading the top `c` of the low `hi` bits **consumes** them: what stays is the low
`hi - c` bits. -/
theorem bits_field_append {v hi c : ℕ} (h : c ≤ hi) :
    bits hi v = bits c (field v hi c) ++ bits (hi - c) v := by
  rw [field, bits_mod, ← bits_add, Nat.add_sub_cancel' h]

/-- A field at the top of a number that fits. -/
theorem field_eq_div {v hi c : ℕ} (hv : v < 2 ^ hi) (hc : c ≤ hi) :
    field v hi c = v / 2 ^ (hi - c) := by
  rw [field, Nat.mod_eq_of_lt]
  apply Nat.div_lt_of_lt_mul
  rwa [← pow_add, Nat.sub_add_cancel hc]

/-- The top of a field is a shorter field. -/
theorem field_div {v hi c d : ℕ} (hd : d ≤ c) (hc : c ≤ hi) :
    field v hi c / 2 ^ (c - d) = field v hi d := by
  have hpow : 2 ^ c = 2 ^ (c - d) * 2 ^ d := by rw [← pow_add, Nat.sub_add_cancel hd]
  rw [field, hpow, Nat.mod_mul_right_div_self, Nat.div_div_eq_div_mul, ← pow_add, field]
  congr 3
  omega

/-- The fields of a number are what its bits spell. -/
theorem field_eq_of_bits {v hi c x : ℕ} {b : List Bool} (hx : x < 2 ^ c)
    (h : bits hi v = bits c x ++ b) : field v hi c = x ∧ bits b.length v = b := by
  have hlen : hi = c + b.length := by simpa using congrArg length h
  have hc : c ≤ hi := by omega
  rw [bits_field_append hc, show hi - c = b.length by omega] at h
  exact ⟨bits_injective (field_lt _ _ _) hx (append_inj_left h (by simp)),
    append_inj_right h (by simp)⟩

end BitString
