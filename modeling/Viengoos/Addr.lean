import Viengoos.Lib.BitString
import Viengoos.Lib.Outcome

/-!
# Capability addresses

`vg_addr_t` packs an address of up to 63 bits into 64: the **prefix** in the upper bits, a single
boundary bit, and `63 - depth` zeros. The accessors below are those of `viengoos/addr.h`;
`VgAddr.ofNum d k` names the address whose `d` bits spell `k`, every non-void address is one, and
the operations are characterised on that form.
-/

namespace Viengoos

open BitString Outcome

/-- How a run of the modelled code can stop without returning: a failed `assert`, a `PANIC`, or
the model's own bound on loops and recursion. -/
inductive Fault
  | assertion
  | panic
  | outOfFuel
deriving DecidableEq, Repr

/-- `PAGESIZE`, which `getpagesize ()` returns, too. -/
def pagesize : ℕ := 4096

/-! ### Bit scans -/

/-- `vg_lsb64`: one more than the index of the lowest set bit, `0` if there is none. -/
def vgLsb64 (x : ℕ) : ℕ :=
  match (List.range 64).find? x.testBit with
  | some i => i + 1
  | none => 0

/-- `vg_msb64`: the number of significant bits. -/
def vgMsb64 (x : ℕ) : ℕ := if x = 0 then 0 else x.log2 + 1

variable {a : VgAddr} {c x : ℕ}

theorem vgMsb64_le_iff {n : ℕ} : vgMsb64 x ≤ n ↔ x < 2 ^ n := by
  unfold vgMsb64
  split
  · next h => simp [h]
  · next h => rw [Nat.succ_le_iff, Nat.log2_lt h]

@[simp] theorem vgMsb64_zero : vgMsb64 0 = 0 := rfl

theorem vgMsb64_eq_zero_iff : vgMsb64 x = 0 ↔ x = 0 := by
  have h := vgMsb64_le_iff (x := x) (n := 0)
  simp only [pow_zero, Nat.lt_one_iff] at h
  omega

theorem lt_two_pow_vgMsb64 (x : ℕ) : x < 2 ^ vgMsb64 x := vgMsb64_le_iff.1 le_rfl

/-- The lowest set bit of an odd number times a power of two. -/
theorem vgLsb64_two_pow_mul {t k : ℕ} (ht : t < 64) : vgLsb64 (2 ^ t * (2 * k + 1)) = t + 1 := by
  have hset : (2 ^ t * (2 * k + 1)).testBit t = true := by
    rw [Nat.testBit_two_pow_mul]
    simp [Nat.testBit_zero]
  have hclear : ∀ i < t, (2 ^ t * (2 * k + 1)).testBit i = false := by
    intro i hi
    rw [Nat.testBit_two_pow_mul]
    simp [Nat.not_le.2 hi]
  have hfind : (List.range 64).find? (2 ^ t * (2 * k + 1)).testBit = some t := by
    rw [List.find?_range_eq_some]
    exact ⟨hset, by simpa using ht, fun j hj => by simp [hclear j hj]⟩
  rw [vgLsb64, hfind]

/-- A number of 64 bits is an odd number times a power of two. -/
theorem exists_odd_part (hx : x ≠ 0) (hlt : x < 2 ^ 64) :
    ∃ t k, t < 64 ∧ x = 2 ^ t * (2 * k + 1) ∧ vgLsb64 x = t + 1 := by
  obtain ⟨t, m, ⟨k, rfl⟩, rfl⟩ := Nat.exists_eq_two_pow_mul_odd hx
  have ht : t < 64 := by
    by_contra hge
    have : 2 ^ 64 ≤ 2 ^ t := Nat.pow_le_pow_right Nat.two_pos (by omega)
    have : 2 ^ t ≤ 2 ^ t * (2 * k + 1) := Nat.le_mul_of_pos_right _ (by omega)
    omega
  exact ⟨t, k, ht, rfl, vgLsb64_two_pow_mul ht⟩

/-! ### The packed form -/

/-- `VG_ADDR_BITS`. -/
def vgAddrBits : ℕ := 63

/-- `vg_addr_t`, the packed 64-bit word. -/
structure VgAddr where
  raw : ℕ
  raw_lt : raw < 2 ^ 64
deriving DecidableEq

namespace VgAddr

/-- `VG_ADDR_VOID`. -/
def void : VgAddr := ⟨0, by decide⟩

/-- `vg_addr_depth`: `63 - (vg_lsb64 (raw) - 1)`, which is 64 for the void address. -/
def depth (a : VgAddr) : ℕ := vgAddrBits + 1 - vgLsb64 a.raw

/-- `vg_addr_prefix`: clear the boundary bit and shift right by one. -/
def prefixBits (a : VgAddr) : ℕ :=
  (a.raw - if a.raw.testBit (vgAddrBits - a.depth) then 2 ^ (vgAddrBits - a.depth) else 0) / 2

/-- The address's `depth` bits as a number: `vg_addr_prefix (addr) >> (63 - depth)`. -/
def num (a : VgAddr) : ℕ := a.prefixBits / 2 ^ (vgAddrBits - a.depth)

/-- The bits an address consists of, most significant first. -/
def bits (a : VgAddr) : List Bool := BitString.bits a.depth a.num

/-- `VG_ADDR (prefix, depth)` with its assertions. -/
def make (p d : ℕ) : Except Fault VgAddr :=
  if h : d ≤ vgAddrBits ∧ p % 2 ^ (vgAddrBits - d) = 0 ∧ p < 2 ^ vgAddrBits then
    .ok ⟨p * 2 + 2 ^ (vgAddrBits - d), by
      obtain ⟨hd, hdvd, hp⟩ := h
      -- the prefix is a multiple of `2 ^ (63 - d)` below `2 ^ 63`, so the boundary bit fits
      obtain ⟨q, rfl⟩ := Nat.dvd_of_mod_eq_zero hdvd
      have hpow : 2 ^ vgAddrBits = 2 ^ (vgAddrBits - d) * 2 ^ d := by
        rw [← pow_add, Nat.sub_add_cancel hd]
      have hq : q + 1 ≤ 2 ^ d := by
        rw [hpow] at hp
        exact Nat.lt_of_mul_lt_mul_left hp
      have hle := Nat.mul_le_mul_left (2 ^ (vgAddrBits - d)) hq
      rw [← hpow, Nat.mul_add, Nat.mul_one] at hle
      have hpos := Nat.two_pow_pos (vgAddrBits - d)
      have h64 : (2 : ℕ) ^ 64 = 2 * 2 ^ vgAddrBits := by decide
      omega⟩
  else .error .assertion

/-- `vg_addr_chop`: drop the last `c` bits. -/
def chop (a : VgAddr) (c : ℤ) : Except Fault VgAddr := do
  let d := (a.depth : ℤ) - c
  require (0 ≤ d) .assertion
  -- clear the low `63 - d` bits of the prefix
  make (a.prefixBits / 2 ^ (vgAddrBits - d.toNat) * 2 ^ (vgAddrBits - d.toNat)) d.toNat

/-- `vg_addr_extend`: append the low `c` bits of `p`. -/
def extend (a : VgAddr) (p : ℕ) (c : ℤ) : Except Fault VgAddr := do
  require (0 ≤ c) .assertion
  require ((a.depth : ℤ) + c ≤ vgAddrBits) .assertion
  require (p < 2 ^ c.toNat) .assertion
  make (a.prefixBits ||| p * 2 ^ (vgAddrBits - a.depth - c.toNat)) (a.depth + c.toNat)

/-! ### Addresses by depth and number -/

/-- The address of depth `d` whose bits are those of `k`. -/
def ofNum (d k : ℕ) (hd : d ≤ vgAddrBits) (hk : k < 2 ^ d) : VgAddr where
  raw := 2 ^ (vgAddrBits - d) * (2 * k + 1)
  raw_lt := by
    have h1 : 2 * k + 1 < 2 ^ (d + 1) := by rw [pow_succ]; omega
    calc 2 ^ (vgAddrBits - d) * (2 * k + 1)
        < 2 ^ (vgAddrBits - d) * 2 ^ (d + 1) :=
          Nat.mul_lt_mul_of_pos_left h1 (Nat.two_pow_pos _)
      _ = 2 ^ 64 := by
          rw [← pow_add]
          congr 1
          have : vgAddrBits = 63 := rfl
          omega

variable {d k : ℕ} {hd : d ≤ vgAddrBits} {hk : k < 2 ^ d}

@[simp] theorem depth_ofNum : (ofNum d k hd hk).depth = d := by
  have hbits : vgAddrBits = 63 := rfl
  rw [depth, ofNum, vgLsb64_two_pow_mul (by omega)]
  omega

@[simp] theorem prefixBits_ofNum :
    (ofNum d k hd hk).prefixBits = k * 2 ^ (vgAddrBits - d) := by
  have hset : (ofNum d k hd hk).raw.testBit (vgAddrBits - d) = true := by
    rw [ofNum, Nat.testBit_two_pow_mul]
    simp [Nat.testBit_zero]
  rw [prefixBits, depth_ofNum, hset, if_pos rfl]
  have : (ofNum d k hd hk).raw - 2 ^ (vgAddrBits - d) = k * 2 ^ (vgAddrBits - d) * 2 := by
    have hraw : (ofNum d k hd hk).raw = k * 2 ^ (vgAddrBits - d) * 2 + 2 ^ (vgAddrBits - d) := by
      simp only [ofNum]
      ring
    rw [hraw, Nat.add_sub_cancel]
  rw [this, Nat.mul_div_cancel _ Nat.two_pos]

@[simp] theorem num_ofNum : (ofNum d k hd hk).num = k := by
  rw [num, prefixBits_ofNum, depth_ofNum, Nat.mul_div_cancel _ (Nat.two_pow_pos _)]

theorem make_mul_two_pow : make (k * 2 ^ (vgAddrBits - d)) d = .ok (ofNum d k hd hk) := by
  have hpow : 2 ^ vgAddrBits = 2 ^ d * 2 ^ (vgAddrBits - d) := by
    rw [← pow_add, Nat.add_sub_cancel' hd]
  have hlt : k * 2 ^ (vgAddrBits - d) < 2 ^ vgAddrBits := by
    rw [hpow]
    exact Nat.mul_lt_mul_of_pos_right hk (Nat.two_pow_pos _)
  rw [make, dif_pos ⟨hd, Nat.mul_mod_left _ _, hlt⟩]
  congr 2
  ring

/-- An address is made of an aligned prefix. -/
theorem exists_make {p w : ℕ} (hw : w ≤ vgAddrBits) (hdvd : 2 ^ w ∣ p) (hp : p < 2 ^ vgAddrBits) :
    ∃ a, make p (vgAddrBits - w) = .ok a ∧ a.depth = vgAddrBits - w ∧ a.prefixBits = p := by
  obtain ⟨k, rfl⟩ := hdvd
  have hexp : vgAddrBits - (vgAddrBits - w) = w := by omega
  have hk : k < 2 ^ (vgAddrBits - w) := by
    refine Nat.lt_of_mul_lt_mul_left (hp.trans_eq ?_)
    rw [← pow_add, Nat.add_sub_cancel' hw]
  have hd : vgAddrBits - w ≤ vgAddrBits := Nat.sub_le _ _
  have hmake : make _ _ = .ok (ofNum (vgAddrBits - w) k hd hk) := make_mul_two_pow
  have hbits : (ofNum (vgAddrBits - w) k hd hk).prefixBits = 2 ^ w * k := by
    rw [prefixBits_ofNum, hexp, Nat.mul_comm]
  rw [hexp, Nat.mul_comm] at hmake
  exact ⟨_, hmake, depth_ofNum, hbits⟩

/-- Chopping drops bits from the number. -/
theorem chop_ofNum (hc : c ≤ d) :
    (ofNum d k hd hk).chop c =
      .ok (ofNum (d - c) (k / 2 ^ c) ((Nat.sub_le d c).trans hd)
        (Nat.div_lt_of_lt_mul (by rwa [← pow_add, Nat.add_sub_cancel' hc]))) := by
  have hd' : ((d : ℤ) - c).toNat = d - c := by omega
  have hexp : vgAddrBits - (d - c) = vgAddrBits - d + c := by omega
  rw [chop, depth_ofNum, require_of (by omega), ok_bind, hd', prefixBits_ofNum,
    ← make_mul_two_pow, hexp, pow_add, Nat.mul_comm k, Nat.mul_div_mul_left _ _ (Nat.two_pow_pos _)]

/-- Extending appends bits to the number. -/
theorem extend_ofNum {p : ℕ} (hc : d + c ≤ vgAddrBits) (hp : p < 2 ^ c) :
    (ofNum d k hd hk).extend p c =
      .ok (ofNum (d + c) (k * 2 ^ c + p) hc (by
        rw [pow_add]
        calc k * 2 ^ c + p < k * 2 ^ c + 2 ^ c := by omega
          _ = (k + 1) * 2 ^ c := by ring
          _ ≤ 2 ^ d * 2 ^ c := Nat.mul_le_mul_right _ hk)) := by
  have hlow : p * 2 ^ (vgAddrBits - d - c) < 2 ^ (vgAddrBits - d) := by
    have hexp : 2 ^ (vgAddrBits - d) = 2 ^ c * 2 ^ (vgAddrBits - d - c) := by
      rw [← pow_add]
      congr 1
      omega
    rw [hexp]
    exact Nat.mul_lt_mul_of_pos_right hp (Nat.two_pow_pos _)
  have hor : k * 2 ^ (vgAddrBits - d) ||| p * 2 ^ (vgAddrBits - d - c) =
      (k * 2 ^ c + p) * 2 ^ (vgAddrBits - (d + c)) := by
    rw [Nat.mul_comm k, ← Nat.two_pow_add_eq_or_of_lt hlow, Nat.sub_add_eq, Nat.add_mul,
      Nat.mul_assoc, ← pow_add, Nat.add_sub_cancel' (by omega), Nat.mul_comm k]
  rw [extend, depth_ofNum, require_of (by omega), ok_bind, require_of (by exact_mod_cast hc),
    ok_bind, Int.toNat_natCast, require_of hp, ok_bind, prefixBits_ofNum, hor, make_mul_two_pow]

/-- Every non-void address is given by a depth of at most 63 and a number of that many bits. -/
theorem exists_ofNum (a : VgAddr) (ha : a ≠ void) : ∃ d k hd hk, a = ofNum d k hd hk := by
  have hne : a.raw ≠ 0 := fun h => ha (by cases a; simp_all [void])
  obtain ⟨t, k, ht, hraw, -⟩ := exists_odd_part hne a.raw_lt
  have hlt : 2 ^ t * (2 * k + 1) < 2 ^ 64 := hraw ▸ a.raw_lt
  have hbits : vgAddrBits = 63 := rfl
  have hk : k < 2 ^ (vgAddrBits - t) := by
    have h64 : (2 : ℕ) ^ 64 = 2 ^ t * (2 * 2 ^ (vgAddrBits - t)) := by
      rw [← pow_succ', ← pow_add]
      congr 1
      omega
    have := Nat.lt_of_mul_lt_mul_left (h64 ▸ hlt)
    omega
  refine ⟨vgAddrBits - t, k, by omega, hk, ?_⟩
  cases a with
  | mk raw lt =>
    have : vgAddrBits - (vgAddrBits - t) = t := by omega
    simp only [ofNum, this]
    simp_all

/-- The depth is at most 63 exactly for the addresses that are not void. -/
theorem depth_le_iff : a.depth ≤ vgAddrBits ↔ a ≠ void := by
  constructor
  · rintro h rfl
    revert h
    decide
  · intro h
    obtain ⟨d, k, hd, hk, rfl⟩ := exists_ofNum a h
    simpa using hd

theorem num_lt (h : a ≠ void) : a.num < 2 ^ a.depth := by
  obtain ⟨d, k, hd, hk, rfl⟩ := exists_ofNum a h
  simpa using hk

theorem ofNum_ne_void {d k : ℕ} (hd : d ≤ vgAddrBits) (hk : k < 2 ^ d) : ofNum d k hd hk ≠ void :=
  depth_le_iff.1 (by simpa using hd)

@[simp] theorem length_bits (a : VgAddr) : a.bits.length = a.depth := BitString.length_bits _ _

/-- **Chopping** drops the last bits. -/
theorem exists_chop (ha : a ≠ void) (hc : c ≤ a.depth) :
    ∃ b, a.chop c = .ok b ∧ b ≠ void ∧ a.bits = b.bits ++ BitString.bits c a.num := by
  obtain ⟨d, k, hd, hk, rfl⟩ := exists_ofNum a ha
  rw [depth_ofNum] at hc
  refine ⟨_, chop_ofNum hc, ofNum_ne_void _ _, ?_⟩
  simp only [bits, depth_ofNum, num_ofNum]
  rw [← bits_add, Nat.sub_add_cancel hc]

/-- **Extending** appends bits. -/
theorem exists_extend (ha : a ≠ void) {p : ℕ} (hc : a.depth + c ≤ vgAddrBits) (hp : p < 2 ^ c) :
    ∃ b, a.extend p c = .ok b ∧ b ≠ void ∧ b.bits = a.bits ++ BitString.bits c p := by
  obtain ⟨d, k, hd, hk, rfl⟩ := exists_ofNum a ha
  rw [depth_ofNum] at hc
  refine ⟨_, extend_ofNum hc hp, ofNum_ne_void _ _, ?_⟩
  simp only [bits, depth_ofNum, num_ofNum]
  exact bits_mul_add hp

/-- What an extended address spells. -/
theorem bits_of_extend {b : VgAddr} (ha : a ≠ void) {p : ℕ} (hc : a.depth + c ≤ vgAddrBits)
    (hp : p < 2 ^ c) (h : a.extend p c = .ok b) :
    b ≠ void ∧ b.bits = a.bits ++ BitString.bits c p ∧ b.depth = a.depth + c := by
  obtain ⟨b', hb, hne, hbits⟩ := exists_extend ha hc hp
  obtain rfl : b = b' := Except.ok.inj (h.symm.trans hb)
  exact ⟨hne, hbits, by simpa using congrArg List.length hbits⟩

/-- Addresses of one depth with the same bits are the same address. -/
theorem eq_of_bits_eq {b : VgAddr} (ha : a ≠ void) (hb : b ≠ void) (h : a.bits = b.bits) :
    a = b := by
  obtain ⟨d, k, hd, hk, rfl⟩ := exists_ofNum a ha
  obtain ⟨e, l, he, hl, rfl⟩ := exists_ofNum b hb
  simp only [bits, depth_ofNum, num_ofNum] at h
  have hde : d = e := by simpa using congrArg List.length h
  subst hde
  have hkl : k = l := bits_injective hk hl h
  subst hkl
  rfl

end VgAddr

end Viengoos
