import Viengoos.Addr
import Viengoos.Lib.Outcome

/-!
# Bit arrays

`bit_alloc` of `bit-array.h` looks for a zero bit from a start position on, byte by byte, and wraps
around at the end of the array; where the start position is inside of a byte, it looks at the bits
of that byte from there on first, and at the others last. **The bit it takes is the first zero bit
in cyclic order.**

The sizes and the numbers of the bits are natural numbers. The source has them in an `int`, which
holds them in arrays of fewer than `2 ^ 28` bytes; the largest of the source has 4096.

Positions are counted on past the end of the array in the proofs: the bits from the start position
on are `start`, `start + 1`, …, up to a multiple of their number.
-/

namespace Viengoos

open Outcome Function

/-- The bytes of a bit array. -/
abbrev BitArray := ℕ → BitVec 8

namespace BitArray

/-! ### The code -/

/-- `first_free_bit`. -/
def firstFreeBit : List (Option ℕ) :=
  [some 0, some 1, some 0, some 2, some 0, some 1, some 0, some 3,
    some 0, some 1, some 0, some 2, some 0, some 1, some 0, none]

/-- `check_byte`: the lower four bits, then the upper ones. -/
def checkByte (byte : BitVec 8) : Option ℕ :=
  match firstFreeBit.getD (byte &&& 0xf).toNat none with
  | some b => some b
  | none => (firstFreeBit.getD (byte >>> 4).toNat none).map (4 + ·)

/-- The loop of `bit_alloc` from `check` on, with the byte `b` to check. It ends when it is back at
the first byte; the first argument is fuel. -/
def allocLoop (array : BitArray) (size startByte : ℕ) : ℕ → ℕ → BitVec 8 → Option (ℕ × ℕ)
  | 0, _, _ => none
  | fuel + 1, byte, b =>
    match checkByte b with
    | some bit => some (byte, bit)
    | none =>
      let byte := if byte + 1 = size then 0 else byte + 1
      if byte = startByte then none else allocLoop array size startByte fuel byte (array byte)

/-- `bit_alloc` without its effect on the array: the byte and the bit in it. -/
def search (array : BitArray) (size startBit : ℕ) : Option (ℕ × ℕ) :=
  let startByte := startBit / 8
  let mask := 1#8 <<< (startBit % 8) - 1#8
  let b := if startBit % 8 ≠ 0 then array startByte ||| mask else array startByte
  match allocLoop array size startByte size startByte b with
  | some found => some found
  | none =>
    if startBit % 8 ≠ 0 then (checkByte (array startByte ||| ~~~mask)).map (startByte, ·) else none

/-- `bit_alloc`. -/
def bitAlloc (array : BitArray) (size startBit : ℕ) : Except Fault (BitArray × Option ℕ) := do
  require (startBit < size * 8) .assertion
  match search array size startBit with
  | some (byte, bit) =>
    pure (update array byte (array byte ||| 1#8 <<< bit), some (byte * 8 + bit))
  | none => pure (array, none)

/-- `bit_dealloc`. -/
def bitDealloc (array : BitArray) (bit : ℕ) : Except Fault BitArray := do
  require (array (bit / 8) &&& 1#8 <<< (bit % 8) ≠ 0) .assertion
  pure (update array (bit / 8) (array (bit / 8) &&& ~~~(1#8 <<< (bit % 8))))

/-! ### Bits -/

/-- The bit with a number. -/
def bit (array : BitArray) (i : ℕ) : Bool := (array (i / 8)).getLsbD (i % 8)

/-- `check_byte` finds the first zero bit. -/
theorem checkByte_some : ∀ b : BitVec 8, ∀ k ∈ checkByte b,
    k < 8 ∧ b.getLsbD k = false ∧ ∀ j < k, b.getLsbD j = true := by
  decide +kernel

theorem checkByte_none : ∀ b : BitVec 8, checkByte b = none → ∀ j < 8, b.getLsbD j = true := by
  decide +kernel

theorem getLsbD_mask : ∀ k < 8, ∀ j < 8, (1#8 <<< k - 1#8).getLsbD j = decide (j < k) := by
  decide

variable {array : BitArray} {size start : ℕ}

/-- The bits of one byte, in an array that goes on periodically. -/
theorem bit_mod (q : ℕ) :
    bit array (q % (size * 8)) = (array (q / 8 % size)).getLsbD (q % 8) := by
  rw [bit, Nat.mod_mul_left_div_self, Nat.mod_mul_left_mod]

theorem getLsbD_one : ∀ k < 8, ∀ j < 8, (1#8 <<< k).getLsbD j = decide (j = k) := by
  decide

/-- An edit of one byte that changes one bit. -/
theorem bit_update {b : BitVec 8} {byte k : ℕ} {v : Bool} (hk : k < 8)
    (hb : ∀ j < 8, b.getLsbD j = if j = k then v else (array byte).getLsbD j) (j : ℕ) :
    bit (update array byte b) j = if j = byte * 8 + k then v else bit array j := by
  rw [bit, bit, update_apply]
  split_ifs with hbyte hj hj
  · rw [hb _ (by omega), if_pos (by omega)]
  · rw [hb _ (by omega), if_neg (by omega), hbyte]
  · omega
  · rfl

/-- `bit_dealloc` clears a bit that is set. -/
theorem bitDealloc_spec {i : ℕ} (h : bit array i = true) :
    ∃ array', bitDealloc array i = .ok array' ∧
      ∀ j, bit array' j = if j = i then false else bit array j := by
  have hlt := Nat.mod_lt i (show 0 < 8 by decide)
  have hset : array (i / 8) &&& 1#8 <<< (i % 8) ≠ 0 := fun hzero => by
    have hbit := congrArg (BitVec.getLsbD · (i % 8)) hzero
    simp only [BitVec.getLsbD_and, getLsbD_one _ hlt _ hlt] at hbit
    rw [bit] at h
    simp [h] at hbit
  refine ⟨_, by rw [bitDealloc, require_of hset]; rfl, fun j => ?_⟩
  rw [bit_update hlt (v := false) fun j hj => ?_, Nat.div_add_mod']
  rw [BitVec.getLsbD_and, BitVec.getLsbD_not, getLsbD_one _ hlt _ hj]
  by_cases hji : j = i % 8 <;> simp [hji, hj]

/-! ### The search -/

/-- The first zero bit from `start` on is the bit `k` of a byte. -/
def First (array : BitArray) (size start byte k : ℕ) : Prop :=
  k < 8 ∧ ∃ q, start ≤ q ∧ q < start + size * 8 ∧ byte * 8 + k = q % (size * 8) ∧
    bit array (q % (size * 8)) = false ∧
      ∀ p, start ≤ p → p < q → bit array (p % (size * 8)) = true

/-- All bits from `start` on are set up to a byte. -/
def SetTo (array : BitArray) (size start r : ℕ) : Prop :=
  ∀ p, start ≤ p → p < start + size * 8 → p / 8 < r → bit array (p % (size * 8)) = true

/-- A byte with those bits set that are before `start`, or a whole array after it. -/
def Masked (array : BitArray) (size start r : ℕ) (b : BitVec 8) : Prop :=
  ∀ q, q / 8 = r → b.getLsbD (q % 8) =
    if start ≤ q ∧ q < start + size * 8 then (array (r % size)).getLsbD (q % 8) else true

/-- **One byte is checked.** -/
theorem check_first {r : ℕ} {b : BitVec 8} (hset : SetTo array size start r)
    (hb : Masked array size start r b) :
    (∀ k ∈ checkByte b, First array size start (r % size) k) ∧
      (checkByte b = none → SetTo array size start (r + 1)) := by
  have hbit : ∀ q, start ≤ q → q < start + size * 8 → q / 8 = r →
      b.getLsbD (q % 8) = bit array (q % (size * 8)) := fun q hq hlt hr => by
    rw [hb q hr, if_pos ⟨hq, hlt⟩, bit_mod, hr]
  refine ⟨fun k hk => ?_, fun hnone p hp hlt hr => ?_⟩
  · obtain ⟨hk8, hzero, hones⟩ := checkByte_some b k hk
    have hdiv : (r * 8 + k) / 8 = r := by omega
    have hmod : (r * 8 + k) % 8 = k := by omega
    obtain ⟨hq, hlt⟩ : start ≤ r * 8 + k ∧ r * 8 + k < start + size * 8 := by
      by_contra hmasked
      have := hb _ hdiv
      rw [hmod, hzero, if_neg hmasked] at this
      exact Bool.false_ne_true this
    refine ⟨hk8, r * 8 + k, hq, hlt, ?_, ?_, fun p hp hpq => ?_⟩
    · have h8 := Nat.div_add_mod' ((r * 8 + k) % (size * 8)) 8
      rw [Nat.mod_mul_left_div_self, Nat.mod_mul_left_mod, hdiv, hmod] at h8
      exact h8
    · rw [← hbit _ hq hlt hdiv, hmod, hzero]
    · rcases Nat.lt_or_ge (p / 8) r with hr | hr
      · exact hset p hp (by omega) hr
      · rw [← hbit p hp (by omega) (by omega)]
        exact hones _ (by omega)
  · rcases Nat.lt_succ_iff_lt_or_eq.1 hr with hr | hr
    · exact hset p hp hlt hr
    · rw [← hbit p hp hlt hr]
      exact checkByte_none b hnone _ (Nat.mod_lt p (by decide))

/-- The next byte, up to a multiple of their number. -/
theorem next_byte {r : ℕ} (hsize : 0 < size) :
    (if r % size + 1 = size then 0 else r % size + 1) = (r + 1) % size := by
  have hlt := Nat.mod_lt r hsize
  rw [← Nat.mod_add_mod]
  split_ifs with hlast
  · rw [hlast, Nat.mod_self]
  · exact (Nat.mod_eq_of_lt (by omega)).symm

/-- The loop checks the bytes from the first one on. -/
theorem allocLoop_first (hstart : start < size * 8) (fuel j : ℕ) (b : BitVec 8)
    (hfuel : fuel + j = size) (hset : SetTo array size start (start / 8 + j))
    (hb : Masked array size start (start / 8 + j) b) :
    match allocLoop array size (start / 8) fuel ((start / 8 + j) % size) b with
    | some found => First array size start found.1 found.2
    | none => SetTo array size start (start / 8 + size) := by
  induction fuel generalizing j b with
  | zero =>
    obtain rfl : j = size := by omega
    exact hset
  | succ fuel ih =>
    obtain ⟨hfound, hnone⟩ := check_first hset hb
    rw [allocLoop]
    cases hcheck : checkByte b with
    | some k => exact hfound k hcheck
    | none =>
      simp only [next_byte (show 0 < size by omega), Nat.add_assoc]
      -- The loop is back at the first byte when it has checked all of them.
      have hlast : (start / 8 + (j + 1)) % size = start / 8 ↔ j + 1 = size := by
        rcases Nat.lt_or_ge (start / 8 + (j + 1)) size with hlt | hge
        · rw [Nat.mod_eq_of_lt hlt]
          omega
        · rw [Nat.mod_eq_sub_mod hge, Nat.mod_eq_of_lt (by omega)]
          omega
      simp only [hlast]
      split_ifs with hback
      · subst hback
        exact hnone hcheck
      · refine ih (j + 1) _ (by omega) (hnone hcheck) fun q hq => ?_
        rw [if_pos (by omega)]

/-- **The search** finds the first zero bit, if there is one. -/
theorem search_first (array : BitArray) (hstart : start < size * 8) :
    match search array size start with
    | some found => First array size start found.1 found.2
    | none => ∀ i < size * 8, bit array i = true := by
  have hfirst : start / 8 < size := by omega
  have hmod := Nat.mod_eq_of_lt hfirst
  have hk : start % 8 < 8 := Nat.mod_lt _ (by decide)
  -- All positions are between `start` and a whole array later.
  have hall (hset : SetTo array size start (start / 8 + size + 1)) :
      ∀ i < size * 8, bit array i = true := by
    intro i hi
    rcases Nat.lt_or_ge i start with hlt | hge
    · have := hset (i + size * 8) (by omega) (by omega) (by omega)
      rwa [Nat.add_mod_right, Nat.mod_eq_of_lt hi] at this
    · have := hset i hge (by omega) (by omega)
      rwa [Nat.mod_eq_of_lt hi] at this
  have hfront : Masked array size start (start / 8) (if start % 8 ≠ 0 then
      array (start / 8) ||| (1#8 <<< (start % 8) - 1#8) else array (start / 8)) := fun q hq => by
    have hmask := getLsbD_mask _ hk _ (Nat.mod_lt q (by decide))
    split_ifs with hpart hle hle
    · rw [BitVec.getLsbD_or, hmask, decide_eq_false (by omega), hmod, Bool.or_false]
    · rw [BitVec.getLsbD_or, hmask, decide_eq_true (by omega), Bool.or_true]
    · rw [hmod]
    · omega
  have hback : Masked array size start (start / 8 + size)
      (array (start / 8) ||| ~~~(1#8 <<< (start % 8) - 1#8)) := fun q hq => by
    have hmask := getLsbD_mask _ hk _ (Nat.mod_lt q (by decide))
    rw [BitVec.getLsbD_or, BitVec.getLsbD_not, hmask, Nat.add_mod_right, hmod]
    split_ifs with hlt <;> simp <;> omega
  have hloop := allocLoop_first hstart size 0 _ rfl (fun p hp _ hlt => by omega) hfront
  rw [Nat.add_zero, hmod] at hloop
  rw [search]
  revert hloop
  generalize allocLoop .. = found
  rcases found with _ | found
  · intro hset
    split_ifs with hpart
    · obtain ⟨hfound, hnone⟩ := check_first hset hback
      rw [Nat.add_mod_right, hmod] at hfound
      rcases hcheck : checkByte (array (start / 8) ||| ~~~(1#8 <<< (start % 8) - 1#8)) with _ | k
      · exact hall (hnone hcheck)
      · exact hfound k hcheck
    · exact hall fun p hp hlt _ => hset p hp hlt (by omega)
  · exact id

/-- `bit_alloc` sets the bit that is found. -/
theorem bitAlloc_cases (array : BitArray) (hstart : start < size * 8) :
    bitAlloc array size start = .ok (array, none) ∧ (∀ i < size * 8, bit array i = true) ∨
      ∃ array' byte k, bitAlloc array size start = .ok (array', some (byte * 8 + k)) ∧
        First array size start byte k ∧
        ∀ j, bit array' j = if j = byte * 8 + k then true else bit array j := by
  have hsearch := search_first array hstart
  rw [bitAlloc, require_of hstart, ok_bind]
  revert hsearch
  rcases search array size start with _ | ⟨byte, k⟩ <;> intro hsearch
  · exact .inl ⟨rfl, hsearch⟩
  · refine .inr ⟨_, byte, k, rfl, hsearch, bit_update hsearch.1 fun j hj => ?_⟩
    rw [BitVec.getLsbD_or, getLsbD_one _ hsearch.1 _ hj]
    by_cases hjk : j = k <;> simp [hjk]

/-- **`bit_alloc`** returns the first zero bit in cyclic order from the start position and sets it,
or it returns -1 if all bits are set, and changes nothing. -/
theorem bitAlloc_first (array : BitArray) (hstart : start < size * 8) :
    ∃ array' r, bitAlloc array size start = .ok (array', r) ∧
      (∀ i, r = some i → ∃ d < size * 8, i = (start + d) % (size * 8) ∧ bit array i = false ∧
        (∀ e < d, bit array ((start + e) % (size * 8)) = true) ∧
        ∀ j, bit array' j = if j = i then true else bit array j) ∧
      (r = none ↔ ∀ i < size * 8, bit array i = true) ∧ (r = none → array' = array) := by
  rcases bitAlloc_cases array hstart with ⟨hok, hall⟩ | ⟨array', byte, k, hok, hfirst, hset⟩
  · exact ⟨array, none, hok, nofun, ⟨fun _ => hall, fun _ => rfl⟩, fun _ => rfl⟩
  · obtain ⟨-, q, hq, hlt, hi, hzero, hones⟩ := hfirst
    refine ⟨array', _, hok, ?_, ⟨nofun, fun hall => ?_⟩, nofun⟩
    · rintro _ ⟨⟩
      refine ⟨q - start, by omega, ?_, hi ▸ hzero, fun e he => hones _ (by omega) (by omega), hset⟩
      rw [hi, Nat.add_sub_cancel' hq]
    · rw [hall _ (Nat.mod_lt q (by omega))] at hzero
      exact absurd hzero (by decide)

/-- From position 13 of two bytes whose only zero bit is 10, in the byte of the start position and
before it: the search goes through the other byte and comes back. -/
theorem bitAlloc_first_wraps : ∃ array' : BitArray,
    bitAlloc (update (fun _ => 0xff) 1 0xfb) 2 13 = .ok (array', some 10) ∧
      ∀ j < 16, bit array' j = true := by
  obtain ⟨array', r, hok, hsome, -⟩ :=
    bitAlloc_first (update (fun _ => 0xff) 1 0xfb) (show 13 < 2 * 8 by decide)
  have hr : (bitAlloc (update (fun _ => 0xff) 1 0xfb) 2 13).map Prod.snd = .ok (some 10) := by
    decide
  rw [hok] at hr
  obtain rfl : r = some 10 := by simpa [Except.map] using hr
  obtain ⟨d, -, -, -, -, hset⟩ := hsome 10 rfl
  refine ⟨array', hok, fun j hj => ?_⟩
  rw [hset]
  revert j
  decide

end BitArray

end Viengoos
