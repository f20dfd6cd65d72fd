import Viengoos.AddrTrans

/-!
# Address words and translation words as codecs

Two packed words, and what can be read back from them. An address word holds a prefix and, in unary,
its depth; the operations on addresses are those on strings of bits. A translation word holds a
guard and a subpage in one field, whose split is in another one. Its setters store what they are
asked to, or nothing, but they do not compare the depth of the guard with the width of its field.
-/

namespace Viengoos

open BitString Outcome

/-! ### Addresses -/

namespace VgAddr

/-- `vg_addr_extract`: the last `width` bits. -/
def extract (a : VgAddr) (width : ℕ) : Except Fault ℕ := do
  require (width ≤ a.depth) .assertion
  pure (a.prefixBits / 2 ^ (vgAddrBits - a.depth) % 2 ^ width)

/-- A prefix and a depth that belong together: no bits are set below the depth. -/
def Encodable (p d : ℕ) : Prop :=
  d ≤ vgAddrBits ∧ p < 2 ^ vgAddrBits ∧ p % 2 ^ (vgAddrBits - d) = 0

theorem exists_of_encodable {p d : ℕ} (h : Encodable p d) :
    ∃ a, make p d = .ok a ∧ a ≠ void ∧ a.prefixBits = p ∧ a.depth = d := by
  obtain ⟨hd, hp, hmod⟩ := h
  obtain ⟨a, hmake, hdepth, hbits⟩ :=
    exists_make (Nat.sub_le vgAddrBits d) (Nat.dvd_of_mod_eq_zero hmod) hp
  rw [Nat.sub_sub_self hd] at hmake hdepth
  exact ⟨a, hmake, depth_le_iff.1 (hdepth.trans_le hd), hbits, hdepth⟩

variable {a b : VgAddr}

theorem make_of_ne_void (ha : a ≠ void) :
    Encodable a.prefixBits a.depth ∧ make a.prefixBits a.depth = .ok a := by
  obtain ⟨d, k, hd, hk, rfl⟩ := exists_ofNum a ha
  rw [prefixBits_ofNum, depth_ofNum]
  refine ⟨⟨hd, ?_, Nat.mul_mod_left ..⟩, make_mul_two_pow⟩
  rw [← Nat.add_sub_cancel' hd, pow_add, Nat.add_sub_cancel_left]
  exact Nat.mul_lt_mul_of_pos_right hk (Nat.two_pow_pos _)

/-- Extending, and what it is undone by. -/
theorem extend_laws (ha : a ≠ void) {p c : ℕ} (hc : a.depth + c ≤ vgAddrBits) (hp : p < 2 ^ c) :
    ∃ b, a.extend p c = .ok b ∧ b ≠ void ∧ b.chop c = .ok a ∧ b.extract c = .ok p ∧
      ∀ q e : ℕ, b.depth + e ≤ vgAddrBits → q < 2 ^ e →
        b.extend q e = a.extend (p * 2 ^ e + q) (c + e : ℕ) := by
  obtain ⟨d, k, hd, hk, rfl⟩ := exists_ofNum a ha
  rw [depth_ofNum] at hc
  have hpos := Nat.two_pow_pos c
  have hdiv : (k * 2 ^ c + p) / 2 ^ c = k := by
    rw [Nat.add_comm, Nat.add_mul_div_right _ _ hpos, Nat.div_eq_of_lt hp, Nat.zero_add]
  refine ⟨_, extend_ofNum hc hp, ofNum_ne_void _ _, ?_, ?_, fun q e he hq => ?_⟩
  · rw [chop_ofNum (Nat.le_add_left ..)]
    simp only [hdiv, Nat.add_sub_cancel]
  · rw [extract, depth_ofNum, require_of (Nat.le_add_left ..), ok_bind, prefixBits_ofNum,
      Nat.mul_div_cancel _ (Nat.two_pow_pos _), Nat.mul_add_mod_self_right, Nat.mod_eq_of_lt hp]
    rfl
  · rw [depth_ofNum] at he
    have hpq : p * 2 ^ e + q < 2 ^ (c + e) := by
      rw [pow_add]
      calc p * 2 ^ e + q < (p + 1) * 2 ^ e := by rw [Nat.add_mul, Nat.one_mul]; omega
        _ ≤ 2 ^ c * 2 ^ e := Nat.mul_le_mul_right _ hp
    rw [extend_ofNum he hq, extend_ofNum (by omega) hpq]
    simp only [Nat.add_assoc, pow_add, Nat.add_mul, Nat.mul_assoc]

/-- Chopping to a depth gives the prefix of that depth. -/
theorem bits_prefix_iff (ha : a ≠ void) (hb : b ≠ void) :
    a.bits <+: b.bits ↔ a.depth ≤ b.depth ∧ b.chop (b.depth - a.depth : ℕ) = .ok a := by
  obtain ⟨c, hchop, hc, hbits⟩ := exists_chop hb (Nat.sub_le b.depth a.depth)
  constructor
  · intro h
    have hle : a.depth ≤ b.depth := by simpa using h.length_le
    refine ⟨hle, hchop.trans (congrArg Except.ok (eq_of_bits_eq hc ha ?_))⟩
    have hdepth : a.depth = c.depth := by
      have := congrArg List.length hbits
      simp only [length_bits, List.length_append, BitString.length_bits] at this
      omega
    have hca : c.bits <+: b.bits := hbits ▸ List.prefix_append ..
    exact (List.prefix_of_prefix_length_le hca h (by simp [hdepth])).eq_of_length
      (by simp [hdepth])
  · rintro ⟨-, hok⟩
    obtain rfl := Except.ok.inj (hchop.symm.trans hok)
    exact hbits ▸ List.prefix_append ..

/-- **The algebra of addresses.** `VG_ADDR` is a bijection from the prefixes and depths that belong
together to the words that are not zero. An extension is undone by chopping and read by extracting,
two of them are one, and the prefixes of an address are what it is chopped to. -/
theorem address_algebra :
    (∀ p d, Encodable p d → ∃ a, make p d = .ok a ∧ a ≠ void ∧ a.prefixBits = p ∧ a.depth = d) ∧
    (∀ a, a ≠ void → Encodable a.prefixBits a.depth ∧ make a.prefixBits a.depth = .ok a) ∧
    (∀ (a : VgAddr) (p c : ℕ), a ≠ void → a.depth + c ≤ vgAddrBits → p < 2 ^ c →
      ∃ b, a.extend p c = .ok b ∧ b ≠ void ∧ b.chop c = .ok a ∧ b.extract c = .ok p ∧
        ∀ q e : ℕ, b.depth + e ≤ vgAddrBits → q < 2 ^ e →
          b.extend q e = a.extend (p * 2 ^ e + q) (c + e : ℕ)) ∧
    ∀ a b : VgAddr, a ≠ void → b ≠ void →
      (a.bits <+: b.bits ↔ a.depth ≤ b.depth ∧ b.chop (b.depth - a.depth : ℕ) = .ok a) :=
  ⟨fun _ _ => exists_of_encodable, fun _ => make_of_ne_void, fun _ _ _ ha => extend_laws ha,
    fun _ _ => bits_prefix_iff⟩

end VgAddr

/-! ### Translation words -/

namespace AddrTrans

/-- A setter leaves the word as it is where it answers false. -/
def stored (w : AddrTrans) : Option AddrTrans → AddrTrans × Bool
  | some w' => (w', true)
  | none => (w, false)

/-- `VG_CAP_ADDR_TRANS_SET_GUARD`. -/
def setGuard (w : AddrTrans) (guard gdepth : ℕ) : AddrTrans × Bool :=
  w.stored (setGuardSubpage guard gdepth w.subpage w.subpages)

/-- `VG_CAP_ADDR_TRANS_SET_SUBPAGE`. -/
def setSubpage (w : AddrTrans) (subpage subpages : ℕ) : AddrTrans × Bool :=
  w.stored (setGuardSubpage w.guard w.guardBits subpage subpages)

/-- `VG_CAP_ADDR_TRANS_VALID`. -/
def valid (w : AddrTrans) (wordsize : ℕ) : Bool :=
  w.guardBits ≤ wordsize && w.subpagesLog2.val ≤ 8 && vgMsb64 w.guard ≤ w.guardBits

/-- The subpages are a power of two of at most 256, and the guard has no more bits than its depth
and than the subpage leaves to it. -/
def Encodable (guard gdepth subpage subpages : ℕ) : Prop :=
  ∃ l ≤ 8, subpages = 2 ^ l ∧ subpage < subpages ∧ vgMsb64 guard ≤ gdepth ∧
    vgMsb64 guard + l ≤ 22

/-- A setter does right: it succeeds iff all arguments fit, and then all of them can be read back
from a valid word. -/
structure SetsRight (wordsize guard gdepth subpage subpages : ℕ) (w : AddrTrans)
    (r : AddrTrans × Bool) : Prop where
  succeeds : r.2 = true ↔ Encodable guard gdepth subpage subpages ∧ gdepth < 2 ^ 6
  unchanged : r.2 = false → r.1 = w
  guard : r.2 = true → r.1.guard = guard ∧ r.1.guardBits = gdepth
  subpage : r.2 = true → r.1.subpage = subpage ∧ r.1.subpages = subpages ∧
    r.1.subpageSize = 256 / subpages ∧ r.1.subpageOffset = subpage * (256 / subpages)
  valid : r.2 = true → r.1.valid wordsize = true

theorem setGuardSubpage_isSome_iff {g d p n : ℕ} :
    (setGuardSubpage g d p n).isSome ↔ Encodable g d p n := by
  constructor
  · intro h
    rw [setGuardSubpage] at h
    split at h
    next hc =>
      obtain ⟨hpos, hand, hlog, hp, hg, hfit⟩ := hc
      obtain ⟨l, rfl⟩ : ∃ l, n = 2 ^ l := ⟨_, eq_two_pow_of_and_sub_one hpos hand⟩
      rw [vgMsb64_two_pow, Nat.add_sub_cancel] at hlog hfit
      exact ⟨l, hlog, rfl, hp, hg, hfit⟩
    next => simp at h
  · rintro ⟨l, hl, rfl, hp, hg, hfit⟩
    exact setGuardSubpage_isSome hl hp (vgMsb64_le_iff.1 hg) hfit

/-- A setter does right iff the depth fits, or another argument keeps it from being stored. -/
theorem setsRight_iff {wordsize g d p n : ℕ} {w : AddrTrans} :
    SetsRight wordsize g d p n w (w.stored (setGuardSubpage g d p n)) ↔
      (Encodable g d p n → d ≤ wordsize ∧ d < 2 ^ 6) := by
  have hiff := @setGuardSubpage_isSome_iff g d p n
  rcases hset : setGuardSubpage g d p n with _ | w'
  · rw [hset, Option.isSome_none, Bool.false_eq_true, false_iff] at hiff
    exact iff_of_true ⟨by simp [stored, hiff], fun _ => rfl, nofun, nofun, nofun⟩
      fun henc => absurd henc hiff
  · rw [hset] at hiff
    have henc := hiff.1 rfl
    constructor
    · intro h _
      have hd := (h.succeeds.1 rfl).2
      have hvalid := h.valid rfl
      simp only [AddrTrans.valid, (h.guard rfl).2, Bool.and_eq_true, decide_eq_true_eq] at hvalid
      exact ⟨hvalid.1.1, hd⟩
    · intro h
      obtain ⟨hword, hd⟩ := h henc
      obtain ⟨hg, hb, hp, hn, hlog, -, hlt⟩ := setGuardSubpage_spec hd hset
      have hsize : w'.subpageSize = 256 / n := by
        rw [← subpages_mul_size hlog, hn, Nat.mul_div_cancel_left _ (hn ▸ Nat.two_pow_pos _)]
      refine ⟨⟨fun _ => ⟨henc, hd⟩, fun _ => rfl⟩, nofun, fun _ => ⟨hg, hb⟩,
        fun _ => ⟨hp, hn, hsize, ?_⟩, fun _ => ?_⟩
      · change w'.subpage * w'.subpageSize = _
        rw [hp, hsize]
      · change w'.valid wordsize = true
        simp [AddrTrans.valid, hg, hb, hword, hlog, vgMsb64_le_iff.2 hlt]

/-- **The setters** of a translation word do right iff the depth of the guard is at most the size of
a word, and fits its field, or if they have to fail because of another argument. -/
theorem setters_right_iff (wordsize : ℕ) (w : AddrTrans) (g d p n : ℕ) :
    (SetsRight wordsize g d p n w (w.stored (setGuardSubpage g d p n)) ↔
      (Encodable g d p n → d ≤ wordsize ∧ d < 2 ^ 6)) ∧
    (SetsRight wordsize g d w.subpage w.subpages w (w.setGuard g d) ↔
      (Encodable g d w.subpage w.subpages → d ≤ wordsize ∧ d < 2 ^ 6)) ∧
    (SetsRight wordsize w.guard w.guardBits p n w (w.setSubpage p n) ↔
      (Encodable w.guard w.guardBits p n → w.guardBits ≤ wordsize)) := by
  refine ⟨setsRight_iff, setsRight_iff, setsRight_iff.trans ?_⟩
  exact forall_congr' fun _ => and_iff_left guardBits_lt

/-- A guard of depth 64 is stored as one of depth 0. -/
theorem setGuard_truncates :
    (void.setGuard 0 64).2 = true ∧ (void.setGuard 0 64).1.guardBits = 0 := by
  decide

end AddrTrans

end Viengoos
