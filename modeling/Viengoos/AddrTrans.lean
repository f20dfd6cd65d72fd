import Viengoos.Addr

/-!
# The translation word of a capability

`struct vg_cap_addr_trans`: a 22-bit field that holds the guard above the subpage number, the
log2 of the number of subpages, and the guard's depth. The accessors are the macros of
`viengoos/addr-trans.h`. `setGuardSubpage` is the only way the code builds such a word, and
`setGuardSubpage_spec` says what a successful call stores.
-/

namespace Viengoos

/-! ### The widths of bit fields -/

instance neZero_guardSubpage : NeZero (2 ^ 22) := ⟨by decide⟩
instance neZero_subpagesLog2 : NeZero (2 ^ 4) := ⟨by decide⟩
instance neZero_gdepth : NeZero (2 ^ 6) := ⟨by decide⟩
instance neZero_version : NeZero (2 ^ 20) := ⟨by decide⟩

/-- `struct vg_cap_addr_trans`. -/
structure AddrTrans where
  guardSubpage : Fin (2 ^ 22)
  subpagesLog2 : Fin (2 ^ 4)
  gdepth : Fin (2 ^ 6)
deriving DecidableEq, Repr

namespace AddrTrans

/-- `VG_CAP_ADDR_TRANS_VOID`: no guard, the whole object. -/
def void : AddrTrans := ⟨0, 0, 0⟩

variable (at' : AddrTrans)

/-- `VG_CAP_ADDR_TRANS_SUBPAGES`. -/
def subpages : ℕ := 2 ^ at'.subpagesLog2.val

/-- `VG_CAP_ADDR_TRANS_SUBPAGE`: the field masked by `SUBPAGES - 1`. -/
def subpage : ℕ := at'.guardSubpage.val % 2 ^ at'.subpagesLog2.val

/-- `VG_CAP_ADDR_TRANS_SUBPAGE_SIZE_LOG2`. The code computes a signed `8 - log2`; a word with
`8 < log2` is not built by `setGuardSubpage`, and where the sign matters the model asks for
`log2 ≤ 8` first. -/
def subpageSizeLog2 : ℕ := 8 - at'.subpagesLog2.val

/-- `VG_CAP_ADDR_TRANS_SUBPAGE_SIZE`. -/
def subpageSize : ℕ := 2 ^ at'.subpageSizeLog2

/-- `VG_CAP_ADDR_TRANS_SUBPAGE_OFFSET`. -/
def subpageOffset : ℕ := at'.subpage * at'.subpageSize

/-- `VG_CAP_ADDR_TRANS_GUARD_BITS`. -/
def guardBits : ℕ := at'.gdepth.val

/-- `VG_CAP_ADDR_TRANS_GUARD`. -/
def guard : ℕ := at'.guardSubpage.val / 2 ^ at'.subpagesLog2.val

variable {at'}

theorem guard_lt : at'.guard < 2 ^ 22 :=
  lt_of_le_of_lt (Nat.div_le_self _ _) at'.guardSubpage.isLt

theorem guardBits_lt : at'.guardBits < 64 := at'.gdepth.isLt

theorem subpage_lt : at'.subpage < at'.subpages := Nat.mod_lt _ (Nat.two_pow_pos _)

/-- The subpages tile the 256 slots. -/
theorem subpages_mul_size (h : at'.subpagesLog2.val ≤ 8) :
    at'.subpages * at'.subpageSize = 256 := by
  rw [subpages, subpageSize, subpageSizeLog2, ← pow_add, Nat.add_sub_cancel' h]
  rfl

@[simp] theorem void_guard : void.guard = 0 := by decide
@[simp] theorem void_guardBits : void.guardBits = 0 := rfl
@[simp] theorem void_subpageSizeLog2 : void.subpageSizeLog2 = 8 := rfl

/-! ### Building a word -/

/-- `VG_CAP_ADDR_TRANS_SET_GUARD_SUBPAGE`: `none` where the macro answers false. -/
def setGuardSubpage (guard gdepth subpage subpages : ℕ) : Option AddrTrans :=
  let log2 := vgMsb64 subpages - 1
  if 0 < subpages ∧ subpages &&& (subpages - 1) = 0 ∧ log2 ≤ 8 ∧ subpage < subpages ∧
      vgMsb64 guard ≤ gdepth ∧ vgMsb64 guard + log2 ≤ 22 then
    some ⟨Fin.ofNat _ (guard <<< log2 ||| subpage), Fin.ofNat _ log2, Fin.ofNat _ gdepth⟩
  else none

theorem vgMsb64_two_pow (l : ℕ) : vgMsb64 (2 ^ l) = l + 1 := by
  rw [vgMsb64, if_neg (Nat.two_pow_pos l).ne', Nat.log2_two_pow]

/-- A positive number that shares no bit with its predecessor is a power of two. -/
theorem eq_two_pow_of_and_sub_one {n : ℕ} (hpos : 0 < n) (h : n &&& (n - 1) = 0) :
    n = 2 ^ n.log2 := by
  by_contra hne
  have hle : 2 ^ n.log2 ≤ n := Nat.log2_self_le hpos.ne'
  have hlt : n < 2 ^ (n.log2 + 1) := Nat.lt_log2_self
  -- both `n` and `n - 1` then have the top bit
  have htop (m : ℕ) (h1 : 2 ^ n.log2 ≤ m) (h2 : m < 2 ^ (n.log2 + 1)) :
      m.testBit n.log2 = true := by
    rw [Nat.testBit_eq_decide_div_mod_eq, decide_eq_true_iff]
    have : m / 2 ^ n.log2 = 1 := by
      apply Nat.div_eq_of_lt_le <;> rw [pow_succ] at * <;> omega
    rw [this]
  have hbit : (n &&& (n - 1)).testBit n.log2 = true := by
    rw [Nat.testBit_and, htop n hle hlt, htop (n - 1) (by omega) (by omega)]
    rfl
  rw [h, Nat.zero_testBit] at hbit
  exact Bool.false_ne_true hbit

theorem two_pow_and_sub_one (l : ℕ) : 2 ^ l &&& (2 ^ l - 1) = 0 := by
  rw [Nat.and_two_pow_sub_one_eq_mod, Nat.mod_self]

/-- **What a successful call stores**: exactly the guard, depth and subpage asked for. -/
theorem setGuardSubpage_spec {g d p n : ℕ} (hd : d < 64) (h : setGuardSubpage g d p n = some at') :
    at'.guard = g ∧ at'.guardBits = d ∧ at'.subpage = p ∧ at'.subpages = n ∧
      at'.subpagesLog2.val ≤ 8 ∧ p < n ∧ g < 2 ^ d := by
  dsimp only [setGuardSubpage] at h
  split at h
  swap
  · simp at h
  next hc =>
  obtain ⟨hpos, hand, hlog, hp, hg, hfit⟩ := hc
  obtain ⟨l, rfl⟩ : ∃ l, n = 2 ^ l := ⟨_, eq_two_pow_of_and_sub_one hpos hand⟩
  rw [vgMsb64_two_pow, Nat.add_sub_cancel] at hlog hfit h
  simp only [Option.some.injEq] at h
  subst h
  have hword : g <<< l ||| p = 2 ^ l * g + p := by
    rw [Nat.shiftLeft_eq, Nat.mul_comm, Nat.two_pow_add_eq_or_of_lt hp]
  have hlt : 2 ^ l * g + p < 2 ^ 22 := by
    have hg22 : g < 2 ^ (22 - l) := vgMsb64_le_iff.1 (by omega)
    calc 2 ^ l * g + p < 2 ^ l * g + 2 ^ l := by omega
      _ = 2 ^ l * (g + 1) := by ring
      _ ≤ 2 ^ l * 2 ^ (22 - l) := Nat.mul_le_mul_left _ hg22
      _ = 2 ^ 22 := by rw [← pow_add]; congr 1; omega
  have hl16 : l % 2 ^ 4 = l := Nat.mod_eq_of_lt (by omega)
  have hfield : (2 ^ l * g + p) % 2 ^ 22 = 2 ^ l * g + p := Nat.mod_eq_of_lt hlt
  refine ⟨?_, ?_, ?_, ?_, ?_, hp, vgMsb64_le_iff.1 hg⟩
  · simp only [guard, Fin.val_ofNat, hl16, hword, hfield]
    rw [Nat.mul_add_div (Nat.two_pow_pos l), Nat.div_eq_of_lt hp, Nat.add_zero]
  · simp only [guardBits, Fin.val_ofNat]
    exact Nat.mod_eq_of_lt (by omega)
  · simp only [subpage, Fin.val_ofNat, hl16, hword, hfield]
    rw [Nat.mul_add_mod, Nat.mod_eq_of_lt hp]
  · simp only [subpages, Fin.val_ofNat, hl16]
  · simpa only [Fin.val_ofNat, hl16] using hlog

/-- The call succeeds when guard and subpage number fit the shared field. -/
theorem setGuardSubpage_isSome {g d p l : ℕ} (hl : l ≤ 8) (hp : p < 2 ^ l) (hg : g < 2 ^ d)
    (hfit : vgMsb64 g + l ≤ 22) : (setGuardSubpage g d p (2 ^ l)).isSome := by
  rw [setGuardSubpage, vgMsb64_two_pow, Nat.add_sub_cancel, if_pos]
  · rfl
  · exact ⟨Nat.two_pow_pos l, two_pow_and_sub_one l, hl, hp, vgMsb64_le_iff.2 hg, hfit⟩

end AddrTrans

end Viengoos
