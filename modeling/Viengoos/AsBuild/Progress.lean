import Viengoos.AsBuild.Translate

/-!
# When the parts of `as_build` do not fail

The converse of `AsBuild/Spec`: conditions under which each part runs through, without a failed
assertion, a panic, or a guard that cannot be encoded. The main one is `insertTable_ok`.
-/

namespace Viengoos

open BitString Outcome PageTree AddrTrans Cap List

/-! ### Extraction -/

variable {word : AddrTrans} {source : Cap} {b : List Bool} {s : Shadow} {p : ShadowPtr}
  {W : WordSize} {l w : ℕ}

theorem extractBits64_ok {s c : ℕ} (hs : s < 64) (hc : s + c ≤ 64) :
    extractBits64 w s c = .ok (w / 2 ^ s % 2 ^ c) := by
  rw [extractBits64, require_of (by omega), ok_bind, require_of (by omega), ok_bind]
  rfl

/-- Reading the top `c` of the low `u` bits. -/
theorem extractBits64Inv_ok {u c : ℕ} (hc : c ≤ u) (hu : u ≤ 64) :
    extractBits64Inv w ((u : ℤ) - 1) c = .ok (field w u c) := by
  unfold extractBits64Inv
  split
  · next h0 =>
    obtain rfl : c = 0 := by exact_mod_cast h0
    rw [field_zero]
    rfl
  · have hstart : (u : ℤ) - 1 - c + 1 = ((u - c : ℕ) : ℤ) := by omega
    rw [hstart, extractBits64_ok (by omega) (by omega), field]

/-- The same on a `uintptr_t`; for a table's index it makes no difference which. -/
theorem extractBitsInv_ok {u c : ℕ} (hpos : 0 < c) (hc : c ≤ u) (hc8 : c ≤ 8)
    (hu : u ≤ 32) : extractBitsInv W w ((u : ℤ) - 1) c = .ok (field w u c) := by
  have hW : (32 : ℤ) ≤ W.bits := by cases W <;> decide
  have hstart : (u : ℤ) - 1 - c + 1 = ((u - c : ℕ) : ℤ) := by omega
  have hlt : field w u c < 2 ^ 32 :=
    (field_lt w u c).trans_le (Nat.pow_le_pow_right Nat.two_pos (by omega))
  rw [extractBitsInv, if_neg (by omega), hstart, extractBits, require_of (by omega), ok_bind,
    require_of (by omega), ok_bind, if_neg (by omega)]
  exact congrArg Except.ok (Nat.mod_eq_of_lt hlt)

/-! ### Copies -/

theorem setGuardSubpage_ok {g d p : ℕ} (hl : l ≤ 8) (hp : p < 2 ^ l) (hg : g < 2 ^ d)
    (hfit : g < 2 ^ (22 - l)) :
    ∃ word, setGuardSubpage g d p (2 ^ l) = some word := by
  have hmsb : vgMsb64 g ≤ 22 - l := vgMsb64_le_iff.2 hfit
  exact Option.isSome_iff_exists.1
    (setGuardSubpage_isSome hl hp hg (by omega))

/-- A copy that keeps the source's subpage goes through when the guard it will carry can be
encoded beside it. -/
theorem copyStore_ok (target : Cap) (flags : ℕ) (props : CapProperties)
    (hl : source.addrTrans.subpagesLog2.val = l) (hl8 : l ≤ 8)
    (hok : (copyGuard target source flags props).1 <
      2 ^ (copyGuard target source flags props).2)
    (hfit : (copyGuard target source flags props).1 < 2 ^ (22 - l)) :
    ∃ new, copyStore target source flags props
      (source.addrTrans.subpage, source.addrTrans.subpages) = some new := by
  obtain ⟨word, hword⟩ := setGuardSubpage_ok (p := source.addrTrans.subpage) hl8
    (hl ▸ subpage_lt) hok hfit
  exact ⟨_, by rw [copyStore, subpages, hl, hword]; rfl⟩

theorem copyX_guard_ok (target : Cap) (hl : source.addrTrans.subpagesLog2.val = l) (hl8 : l ≤ 8)
    (hok : word.guard < 2 ^ word.guardBits) (hfit : word.guard < 2 ^ (22 - l)) :
    ∃ new, copyX target source 2 ⟨.default, word⟩ = some new := by
  obtain ⟨new, hnew⟩ := copyStore_ok target 2 ⟨.default, word⟩ hl hl8 hok hfit
  exact ⟨new, copyX_eq_some.2 ⟨_, rfl, hnew⟩⟩

theorem copySimple_ok (target : Cap) (hl : source.addrTrans.subpagesLog2.val = 0)
    (hok : target.GuardOk) : ∃ new, copySimple target source = some new := by
  have hguard : copyGuard target source (16 + 32) source.properties =
      (target.addrTrans.guard, target.addrTrans.guardBits) := by
    rw [copyGuard, if_neg (by decide), if_neg (by decide)]
  obtain ⟨new, hnew⟩ := copyStore_ok target (16 + 32) source.properties hl (Nat.zero_le _)
    (by rwa [hguard]) (by rw [hguard]; exact guard_lt)
  exact ⟨new, copyX_eq_some.2 ⟨_, rfl, hnew⟩⟩

/-- A slot can be made to designate a table with the table's own window. -/
theorem copyX_table_ok (target : Cap) (hl8 : l ≤ 8)
    (htype : source.type = .cappage) (hsub : source.addrTrans.subpage = word.subpage)
    (hsubs : source.addrTrans.subpages = word.subpages) (hlog : word.subpagesLog2.val = l)
    (hok : word.guard < 2 ^ word.guardBits) (hfit : word.guard < 2 ^ (22 - l)) :
    ∃ new, copyX target source (1 + 2) ⟨.default, word⟩ = some new := by
  have hcopy : copySubpage source (1 + 2) ⟨.default, word⟩ =
      some (source.addrTrans.subpage, source.addrTrans.subpages) := by
    dsimp only [copySubpage]
    rw [if_pos (by decide), if_neg (by simp [htype]), hsub, hsubs, if_pos ⟨le_rfl, le_rfl⟩]
  have hslog : source.addrTrans.subpagesLog2.val = l := by
    refine subpagesLog2_of_subpages (hsubs.trans ?_)
    rw [subpages, hlog]
  have hguard : copyGuard target source (1 + 2) ⟨.default, word⟩ =
      (word.guard, word.guardBits) := by
    rw [copyGuard, if_pos (by decide)]
  obtain ⟨new, hnew⟩ := copyStore_ok target (1 + 2) ⟨.default, word⟩ hslog hl8 (by rwa [hguard])
    (by rwa [hguard])
  exact ⟨new, copyX_eq_some.2 ⟨_, hcopy, hnew⟩⟩

/-! ### Inserting a table -/

theorem movePivot_ok (s : Shadow) {c ptCap : Cap} (i : ℕ) {g n : ℕ} (htype : ptCap.type = .cappage)
    (hoff : ptCap.addrTrans.subpageOffset = 0) (hoid : ptCap.oid ≠ 0) (hn : n < 64)
    (hg : g < 2 ^ n) (hl : c.addrTrans.subpagesLog2.val = l) (hl8 : l ≤ 8)
    (hfit : g < 2 ^ (22 - l)) :
    ∃ s', movePivot s c ptCap i g n = .ok (.slot ptCap.oid i, s') := by
  have hindex : doIndex s ptCap i = .ok (.slot ptCap.oid i) := by
    simp only [doIndex, htype, hoff, Nat.zero_add]
    rw [require_of (by simp [translates]), ok_bind, require_of hoid, ok_bind]
    rfl
  have hg22 : g < 2 ^ (22 - 0) :=
    hfit.trans_le (Nat.pow_le_pow_right Nat.two_pos (by omega))
  obtain ⟨word, hword⟩ := setGuardSubpage_ok (l := 0) (p := 0) (Nat.zero_le _) (by decide) hg hg22
  obtain ⟨hwg, hwb, -⟩ := setGuardSubpage_spec hn hword
  obtain ⟨new, hnew⟩ := copyX_guard_ok (s.read (.slot ptCap.oid i)) hl hl8
    (by rwa [hwg, hwb]) (by rwa [hwg])
  refine ⟨s.write (.slot ptCap.oid i) new, ?_⟩
  rw [movePivot, hindex, ok_bind, show (1 : ℕ) = 2 ^ 0 from rfl, hword]
  simp only [assertSome, ok_bind, hnew]
  rfl

theorem setPte_ok (s : Shadow) (p : ShadowPtr) {c ptCap : Cap} (needPivot : Bool) {gbits : ℕ}
    (htype : ptCap.type = .cappage) (hsub : ptCap.addrTrans.subpage = 0)
    (hsubs : ptCap.addrTrans.subpages = 2 ^ (8 - w)) (hg : gbits ≤ c.addrTrans.guardBits)
    (hfit : field c.addrTrans.guard c.addrTrans.guardBits gbits < 2 ^ (22 - (8 - w))) :
    ∃ s', setPte s p c ptCap ⟨needPivot, gbits, w⟩ = .ok s' := by
  have hgb : c.addrTrans.guardBits < 64 := c.addrTrans.guardBits_lt
  obtain ⟨word, hword⟩ := setGuardSubpage_ok (p := 0) (Nat.sub_le 8 w) (Nat.two_pow_pos _)
    (field_lt c.addrTrans.guard c.addrTrans.guardBits gbits) hfit
  obtain ⟨hwg, hwb, hws, hwn, -⟩ := setGuardSubpage_spec (by omega) hword
  obtain ⟨new, hnew⟩ := copyX_table_ok (s.read p) (Nat.sub_le 8 w) htype
    (hsub.trans hws.symm) (hsubs.trans hwn.symm) (subpagesLog2_of_subpages hwn)
    (by rw [hwg, hwb]; exact field_lt _ _ _) (by rwa [hwg])
  refine ⟨s.write p new, ?_⟩
  rw [setPte, extractBits64Inv_ok hg hgb.le, ok_bind]
  simp only [hword, assertSome, ok_bind, hnew]
  rfl

/-- What lets a table be inserted at slot `p` with `u` bits of the address to go, behind `gbits`
of the guard there: the table fits, the bits are common, and the parts of the guard can be
encoded. -/
structure Insertable (s : Shadow) (p : ShadowPtr) (key u gbits w l : ℕ) : Prop where
  next_ne : s.next ≠ 0
  le : (s.read p).addrTrans.guardBits ≤ u
  width_pos : 0 < w
  width_le : w ≤ 8
  fit : gbits + w ≤ (s.read p).addrTrans.guardBits
  word : (s.read p).addrTrans.guardBits - gbits ≤ 32
  guardOk : (s.read p).GuardOk
  common : field key u gbits =
    field (s.read p).addrTrans.guard (s.read p).addrTrans.guardBits gbits
  log2 : (s.read p).addrTrans.subpagesLog2.val = l
  log2_le : l ≤ 8
  pivot : (s.read p).addrTrans.guard % 2 ^ ((s.read p).addrTrans.guardBits - gbits - w) <
    2 ^ (22 - l)
  table : field (s.read p).addrTrans.guard (s.read p).addrTrans.guardBits gbits <
    2 ^ (22 - (8 - w))

/-- The index of the pivot in a table inserted at a slot. -/
def pivotIndex (s : Shadow) (p : ShadowPtr) (gbits w : ℕ) : ℕ :=
  field (s.read p).addrTrans.guard ((s.read p).addrTrans.guardBits - gbits) w

/-- Up to its self check, inserting a table runs through. -/
theorem insertTable_eq {alloc : ℕ → Bool} {addr : VgAddr} {u gbits : ℕ} (haddr : addr ≠ .void)
    (hb : addr.bits = b ++ bits u addr.num) (h : Insertable s p addr.num u gbits w l)
    (halloc : alloc s.next = true) :
    ∃ s' a, a ≠ VgAddr.void ∧
      a.bits = b ++ bits gbits (field addr.num u gbits) ++ bits w (pivotIndex s p gbits w) ∧
      ∀ debug fuel, insertTable ⟨W, debug, alloc⟩ fuel addr s p u ⟨true, gbits, w⟩ =
        if debug = true then
          (do checkSlot fuel s' a (.slot s.next (pivotIndex s p gbits w)); pure (some s'))
        else pure (some s') := by
  obtain ⟨hnext, hle, hw, hw8, hfit, h32, hok, hcommon, hlog, hl8, hpivot, htable⟩ := h
  set c := s.read p with hc
  set gb := c.addrTrans.guardBits with hgb
  set i := pivotIndex s p gbits w
  have hilt : i < 2 ^ w := field_lt _ _ _
  set pg := c.addrTrans.guard % 2 ^ (gb - gbits - w) with hpg
  have hpglt : pg < 2 ^ (gb - gbits - w) := Nat.mod_lt _ (Nat.two_pow_pos _)
  have hdepth : addr.depth ≤ vgAddrBits := VgAddr.depth_le_iff.2 haddr
  have hlen : addr.depth = b.length + u := by
    simpa using congrArg length hb
  -- the fresh table's capability
  obtain ⟨word, hword⟩ := setGuardSubpage_ok (g := 0) (d := 0) (p := 0) (Nat.sub_le 8 w)
    (Nat.two_pow_pos _) (by simp) (Nat.two_pow_pos _)
  obtain ⟨-, -, hws, hwn, -⟩ := AddrTrans.setGuardSubpage_spec (by decide) hword
  set ptCap : Cap := { Cap.void with type := .cappage, oid := s.next, addrTrans := word }
  set s₀ : Shadow :=
    { s with caps := Function.update s.caps s.next fun _ => Cap.void, next := s.next + 1 }
  obtain ⟨s₁, hmove⟩ := movePivot_ok s₀ i (show ptCap.type = _ from rfl)
    (by simp [ptCap, AddrTrans.subpageOffset, hws]) hnext (by omega) hpglt hlog hl8 hpivot
  obtain ⟨s₂, hset⟩ := setPte_ok s₁ p true (show ptCap.type = _ from rfl) hws hwn
    (by omega) htable
  -- the addresses the code computes
  obtain ⟨pteAddr, hpte, hpte0, hpteBits⟩ := VgAddr.exists_chop haddr (c := u) (by omega)
  obtain ⟨ptAddr, hpt, hpt0, hptBits⟩ := VgAddr.exists_chop haddr (c := u - gbits) (by omega)
  obtain rfl : b = pteAddr.bits := append_cancel_right (hb.symm.trans hpteBits)
  have hptEq : ptAddr.bits = pteAddr.bits ++ bits gbits (field addr.num u gbits) := by
    rw [hptBits, bits_field_append (show gbits ≤ u by omega), ← append_assoc] at hb
    exact append_cancel_right hb
  have hptDepth : ptAddr.depth = pteAddr.depth + gbits := by
    simpa using congrArg length hptEq
  rw [VgAddr.length_bits] at hlen
  obtain ⟨a, hext, ha0, haBits⟩ := VgAddr.exists_extend hpt0 (p := i) (c := w) (by omega) hilt
  have haDepth : a.depth = ptAddr.depth + w := by simpa using congrArg length haBits
  obtain ⟨pivotTarget, hpivotTarget, hpt1, hpivotBits⟩ :=
    VgAddr.exists_extend ha0 (p := pg) (c := gb - gbits - w) (by omega) hpglt
  obtain ⟨pteTarget, hpteTarget, hpt2, hpteTargetBits⟩ :=
    VgAddr.exists_extend hpte0 (p := c.addrTrans.guard) (c := gb) (by omega) hok
  have htarget : pivotTarget = pteTarget := by
    refine VgAddr.eq_of_bits_eq hpt1 hpt2 ?_
    rw [hpivotBits, haBits, hptEq, hpteTargetBits, hcommon, hpg, bits_mod, append_assoc,
      append_assoc, append_cancel_left_eq]
    exact (guardList_cut hfit).symm
  refine ⟨s₂, a, ha0, by rw [haBits, hptEq], fun debug fuel => ?_⟩
  have hrest : (gb : ℤ) - gbits - w = ((gb - gbits - w : ℕ) : ℤ) := by omega
  have hptc : (u : ℤ) - gbits = ((u - gbits : ℕ) : ℤ) := by omega
  have hend : (gb : ℤ) - gbits - 1 = ((gb - gbits : ℕ) : ℤ) - 1 := by omega
  have hindex : extractBitsInv W c.addrTrans.guard ((gb : ℤ) - gbits - 1) w = .ok i := by
    rw [hend]
    exact extractBitsInv_ok hw (by omega) hw8 h32
  have hguard : extractBits64 c.addrTrans.guard 0 ((gb : ℤ) - gbits - w) = .ok pg := by
    have := extractBits64_ok (w := c.addrTrans.guard) (s := 0) (c := gb - gbits - w) (by omega)
      (by omega)
    rw [hrest]
    simpa using this
  simp only [insertTable, allocatePageTable, halloc, if_true]
  rw [hpte, ok_bind, hptc, hpt, ok_bind]
  simp only [Cap.void_addrTrans, AddrTrans.void_guard, AddrTrans.void_guardBits, hword]
  rw [← hc, ← hgb, hindex, ok_bind, hext, ok_bind, hguard, ok_bind, hrest, hpivotTarget, ok_bind,
    hpteTarget, ok_bind, require_of htarget, ok_bind, Int.toNat_natCast, hmove, ok_bind, hset,
    ok_bind]

/-- Indexing a page table. -/
theorem indexPte_ok (key u : ℕ) (htype : (s.read p).type = .cappage)
    (hsub : (s.read p).addrTrans.subpage = 0)
    (hlog : (s.read p).addrTrans.subpagesLog2.val = 8 - w) (hw : w ≤ 8) (hoid : (s.read p).oid ≠ 0)
    (hle : w ≤ u) (hu : u ≤ 64) :
    indexPte key s p u = .ok (.slot (s.read p).oid (field key u w), u - w) := by
  have hwidth : (8 : ℤ) - ((8 - w : ℕ) : ℤ) = w := by omega
  have hrest : ((u : ℤ) - w).toNat = u - w := by omega
  simp only [indexPte, buildWidth, htype, hlog, hwidth]
  rw [show (pure (w : ℤ) : Except Fault ℤ) = .ok (w : ℤ) from rfl, ok_bind,
    require_of (by omega), ok_bind, extractBits64Inv_ok hle hu, ok_bind]
  simp only [doIndex, htype, subpageOffset, hsub, Nat.zero_mul, Nat.zero_add]
  rw [require_of (by simp [translates]), ok_bind, require_of hoid, ok_bind, hrest]
  rfl

/-! ### Self checks -/

/-- What happens to a subtree happens to the whole tree. -/
theorem At.evolves {s' : Shadow} {T t t' : PageTree} {r : ShadowPtr}
    {A : List Bool → Prop} (h : At T r b t p) (hanc : Anchors s T r) (hrep : Rep s T r)
    (hsep : T.Sep) (hfull : T.Full) (hev : Evolves s s' t t' p A) :
    ∃ T', Evolves s s' T T' r (fun e => ∃ a, A a ∧ e = b ++ a) ∧ At T' r b t' p := by
  induction h with
  | here => exact ⟨t', hev.mono fun e he => ⟨e, he, rfl⟩, .here⟩
  | @child g o w i ch t p q b hi _ ih =>
    obtain ⟨T', hev', hat'⟩ := ih (.child hrep hsep hi) (hrep.2.2 i hi) (hsep.1 i hi).1
      (hfull.1 i hi) hev
    refine ⟨_, (Evolves.child hanc hrep hsep hfull hi hev').mono ?_, .child hi ?_⟩
    · rintro e ⟨_, ⟨a, ha, rfl⟩, rfl⟩
      exact ⟨a, ha, by simp⟩
    · rwa [Function.update_self]

theorem At.trans {t t' t'' : PageTree} {q r : ShadowPtr} {a : List Bool} (h : At t p a t' q)
    (h' : At t' q b t'' r) : At t p (a ++ b) t'' r := by
  induction h with
  | here => exact h'
  | child hi _ ih =>
    rw [append_assoc, append_assoc]
    exact .child hi (ih h')

/-- A self check of a slot to which the address leads. -/
theorem At.checkSlot {T t : PageTree} {a : VgAddr} {fuel : ℕ}
    (h : At T .root a.bits t p) (hrep : Rep s T .root) (hfuel : a.depth < fuel) :
    checkSlot fuel s a p = .ok () := by
  obtain ⟨ret, hret, hslot, -⟩ := h.lookup (b := []) .wantSlot hrep (by simp) hfuel
    (.inl ⟨rfl, by simp⟩)
  rw [Viengoos.checkSlot, hret, ok_bind]
  exact require_of hslot

end Viengoos
