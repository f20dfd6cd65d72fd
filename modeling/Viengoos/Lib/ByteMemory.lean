import Mathlib

/-!
# Byte memory

Memory from some address on, as a function from offsets to bytes, with what C does to it: numbers in
little-endian order, `memset` to zero and `memcpy`. An update of a range is invisible outside of it,
and what is read depends on the bytes of the range only; these two facts are all that the layout of
a structure in memory needs.
-/

/-- Memory from some address on. -/
abbrev ByteMemory := ℕ → BitVec 8

namespace ByteMemory

/-- An offset lies in a range of `n` bytes. -/
def InRange (off n i : ℕ) : Prop := off ≤ i ∧ i < off + n

instance (off n i : ℕ) : Decidable (InRange off n i) := inferInstanceAs (Decidable (_ ∧ _))

/-- The little-endian number in `n` bytes. -/
def le (b : ByteMemory) (off : ℕ) : ℕ → ℕ
  | 0 => 0
  | n + 1 => (b off).toNat + 256 * le b (off + 1) n

/-- Store a number in `n` bytes, in little-endian order. -/
def putLe (b : ByteMemory) (off n v : ℕ) : ByteMemory := fun i =>
  if InRange off n i then BitVec.ofNat 8 (v / 256 ^ (i - off)) else b i

/-- `memcpy (b + off, src + soff, n)`. -/
def blit (b : ByteMemory) (off : ℕ) (src : ByteMemory) (soff n : ℕ) : ByteMemory := fun i =>
  if InRange off n i then src (soff + (i - off)) else b i

variable {b : ByteMemory} {off n v i k : ℕ}

theorem putLe_of_not (h : ¬ InRange off n i) :
    b.putLe off n v i = b i :=
  if_neg h

theorem putLe_add (h : k < n) :
    b.putLe off n v (off + k) = BitVec.ofNat 8 (v / 256 ^ k) := by
  have hin : InRange off n (off + k) := ⟨by omega, by omega⟩
  rw [putLe, if_pos hin, Nat.add_sub_cancel_left]

theorem putLe_zero (h : k < n) :
    b.putLe 0 n v k = BitVec.ofNat 8 (v / 256 ^ k) := by
  nth_rewrite 1 [← Nat.zero_add k]
  exact putLe_add h

variable {src : ByteMemory} {soff : ℕ}

theorem blit_of_not (h : ¬ InRange off n i) :
    b.blit off src soff n i = b i :=
  if_neg h

theorem blit_add (h : k < n) :
    b.blit off src soff n (off + k) = src (soff + k) := by
  have hin : InRange off n (off + k) := ⟨by omega, by omega⟩
  rw [blit, if_pos hin, Nat.add_sub_cancel_left]

theorem le_lt (b : ByteMemory) (off n : ℕ) : b.le off n < 256 ^ n := by
  induction n generalizing off with
  | zero => simp [le]
  | succ n ih =>
    have hrest := ih (off + 1)
    rw [le, pow_succ]
    omega

/-- A number depends on its own bytes only. -/
theorem le_congr {b' : ByteMemory} (h : ∀ i, InRange off n i → b i = b' i) :
    b.le off n = b'.le off n := by
  induction n generalizing off with
  | zero => rfl
  | succ n ih =>
    have hhead : b off = b' off := h off ⟨le_rfl, by omega⟩
    have htail : b.le (off + 1) n = b'.le (off + 1) n :=
      ih fun i hi => h i ⟨by have := hi.1; omega, by have := hi.2; omega⟩
    rw [le, le, hhead, htail]

theorem le_eq_of_digits (hv : v < 256 ^ n)
    (hdigit : ∀ k < n, b (off + k) = BitVec.ofNat 8 (v / 256 ^ k)) : b.le off n = v := by
  induction n generalizing off v with
  | zero =>
    have hzero : v = 0 := by simpa using hv
    rw [hzero]
    rfl
  | succ n ih =>
    have hhead : (b off).toNat = v % 256 := by
      have := hdigit 0 (by omega)
      simp only [Nat.add_zero, pow_zero, Nat.div_one] at this
      rw [this, BitVec.toNat_ofNat]
    have hlt : v / 256 < 256 ^ n := by
      exact Nat.div_lt_of_lt_mul (by rwa [Nat.mul_comm])
    have htail : b.le (off + 1) n = v / 256 := ih hlt fun k hk => by
      have := hdigit (k + 1) (by omega)
      rw [Nat.div_div_eq_div_mul, ← pow_succ', Nat.add_assoc, Nat.add_comm 1 k]
      exact this
    rw [le, hhead, htail]
    omega

/-- The digits of a number are its bytes. -/
theorem ofNat_le_div (b : ByteMemory) (h : k < n) :
    BitVec.ofNat 8 (b.le off n / 256 ^ k) = b (off + k) := by
  induction n generalizing off k with
  | zero => omega
  | succ n ih =>
    cases k with
    | zero =>
      change BitVec.ofNat 8 (((b off).toNat + 256 * b.le (off + 1) n) / 256 ^ 0) = b off
      refine BitVec.eq_of_toNat_eq ?_
      rw [BitVec.toNat_ofNat, pow_zero, Nat.div_one]
      omega
    | succ k =>
      have htail : b.le off (n + 1) / 256 = b.le (off + 1) n := by
        rw [le]
        omega
      rw [pow_succ', ← Nat.div_div_eq_div_mul, htail, ih (by omega), Nat.add_assoc,
        Nat.add_comm 1 k]

/-- **What was stored is read back.** -/
theorem le_putLe (hv : v < 256 ^ n) :
    (b.putLe off n v).le off n = v := by
  exact le_eq_of_digits hv fun k hk => putLe_add hk

/-- A number is not changed by an update elsewhere. -/
theorem le_putLe_of_disjoint {off' n' : ℕ} (h : off + n ≤ off' ∨ off' + n' ≤ off) :
    (b.putLe off n v).le off' n' = b.le off' n' :=
  le_congr fun i hi => putLe_of_not fun hi' => by
    have h₁ := hi.1
    have h₂ := hi.2
    have h₃ := hi'.1
    have h₄ := hi'.2
    omega

end ByteMemory
