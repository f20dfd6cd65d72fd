import Viengoos.AsBuild.Tree

/-!
# What the parts of `as_build` do

One lemma for each function of `AsBuild/Code`, about its successful runs: the bits a field
extraction reads, where `planTable` puts a page table, and the state `insertTable` leaves.
-/

namespace Viengoos

open BitString Outcome AddrTrans Cap

/-! ### Extraction -/

theorem extractBits64_eq_ok {w x : ℕ} {s c : ℤ} (h : extractBits64 w s c = .ok x) :
    0 ≤ s ∧ 0 ≤ c ∧ s + c ≤ 64 ∧ x = w / 2 ^ s.toNat % 2 ^ c.toNat := by
  simp only [extractBits64, bind_eq_ok, require_eq_ok, pure_eq_ok] at h
  obtain ⟨-, hs, -, hc, rfl⟩ := h
  exact ⟨hs.1, hc.1, hc.2, rfl⟩

/-- Reading the top `c` of the low `u` bits. -/
theorem extractBits64Inv_eq_ok {w x u : ℕ} {c : ℤ}
    (h : extractBits64Inv w ((u : ℤ) - 1) c = .ok x) :
    0 ≤ c ∧ c ≤ u ∧ x = field w u c.toNat := by
  unfold extractBits64Inv at h
  split at h
  · next hc =>
    subst hc
    have hx : 0 = x := by simpa using h
    exact ⟨le_rfl, by omega, by simp [← hx]⟩
  · obtain ⟨hs, hc, -, rfl⟩ := extractBits64_eq_ok h
    refine ⟨hc, by omega, ?_⟩
    have : ((u : ℤ) - 1 - c + 1).toNat = u - c.toNat := by omega
    rw [this, field]

/-- Numbers that agree above some bit have the same field above it. -/
theorem div_two_pow_eq_of_vgMsb64_xor_le {a b n : ℕ} (h : vgMsb64 (a ^^^ b) ≤ n) :
    a / 2 ^ n = b / 2 ^ n := by
  have hlt : a ^^^ b < 2 ^ n := vgMsb64_le_iff.1 h
  have hshift : (a >>> n) ^^^ (b >>> n) = 0 := by
    rw [← Nat.shiftRight_xor_distrib, Nat.shiftRight_eq_div_pow, Nat.div_eq_of_lt hlt]
  rw [← Nat.shiftRight_eq_div_pow, ← Nat.shiftRight_eq_div_pow]
  exact Nat.xor_eq_zero_iff.1 hshift

/-! ### Where a table goes -/

/-- The room `guardRoom` finds in front of something that has to move: no more than what the
address and the guard in the way have in common. -/
theorem guardRoom_spec {key u : ℕ} {c : Cap} {g til : ℤ} (hc : c.GuardOk)
    (hnp : ¬ (c.type = .void ∧ c.addrTrans.guardBits = 0)) (h : guardRoom key u c = .ok (g, til)) :
    til = c.addrTrans.guardBits ∧ ∀ n : ℕ, (n : ℤ) ≤ g →
      n ≤ u ∧ n ≤ c.addrTrans.guardBits ∧
        field key u n = field c.addrTrans.guard c.addrTrans.guardBits n := by
  set gb := c.addrTrans.guardBits with hgb
  set gd := c.addrTrans.guard with hgd
  have hlt : gd < 2 ^ gb := hc
  simp only [guardRoom, ← hgb, ← hgd] at h
  rw [if_neg hnp] at h
  obtain ⟨b, hb, h⟩ := bind_eq_ok.1 h
  obtain ⟨hg, htil⟩ := Prod.mk.inj ((pure_eq_ok).1 h)
  refine ⟨htil.symm, fun n hn => ?_⟩
  obtain ⟨-, hmax, rfl⟩ := extractBits64Inv_eq_ok hb
  set max := if u < gb then u else gb with hmaxdef
  have hmu : max ≤ u := by omega
  have hmg : max ≤ gb := by rw [hmaxdef]; split <;> omega
  -- in both cases the code compares the top `max` bits of the guard
  have htop : (if u < gb then gd / 2 ^ (gb - u) else gd) = field gd gb max := by
    rw [field_eq_div hlt hmg, hmaxdef]
    split <;> simp
  rw [htop, Int.toNat_natCast] at hg
  have hx : vgMsb64 (field gd gb max ^^^ field key u max) ≤ max - n := by omega
  have hn' : n ≤ max := by omega
  have heq := div_two_pow_eq_of_vgMsb64_xor_le hx
  rw [field_div hn' hmg, field_div hn' hmu] at heq
  exact ⟨hn'.trans hmu, hn'.trans hmg, heq.symm⟩

theorem asComputeGbitsCappage_nonneg {n til g : ℤ} {r : ℤ × ℤ}
    (h : asComputeGbitsCappage n til g = .ok r) : 0 ≤ r.1 := by
  simp only [asComputeGbitsCappage, bind_eq_ok, require_eq_ok, pure_eq_ok] at h
  obtain ⟨-, -, -, hg, rfl⟩ := h
  exact hg

/-- What `planTable` settles when it asks for a table: the table fits between the slot and what is
in the way, and its guard is common to the address and to what is in the way. -/
theorem planTable_some {addr : VgAddr} {key u : ℕ} {c : Cap} {plan : TablePlan} (hc : c.GuardOk)
    (h : planTable addr key u c = .ok (some plan)) :
    (plan.needPivot = true ↔ ¬ (c.type = .void ∧ c.addrTrans.guardBits = 0)) ∧
      0 < plan.width ∧ plan.width ≤ 8 ∧
      (plan.needPivot = true → plan.gbits ≤ u ∧
        plan.gbits + plan.width ≤ c.addrTrans.guardBits ∧
        field key u plan.gbits = field c.addrTrans.guard c.addrTrans.guardBits plan.gbits) := by
  simp only [planTable] at h
  split at h
  · simp at h
  next hfit =>
  obtain ⟨⟨g, til⟩, hroom, h⟩ := bind_eq_ok.1 h
  simp only [bind_eq_ok, require_eq_ok, pure_eq_ok, Option.some.injEq] at h
  obtain ⟨top, -, -, -, ⟨g', width⟩, hcompute, -, hg, -, htil, -, hwidth, rfl⟩ := h
  have hiff : (!(decide (c.type = .void) && decide (c.addrTrans.guardBits = 0))) = true ↔
      ¬ (c.type = .void ∧ c.addrTrans.guardBits = 0) := by
    simp only [Bool.not_eq_true', Bool.and_eq_false_imp, decide_eq_true_eq, decide_eq_false_iff_not,
      not_and]
  refine ⟨hiff, by simp only; omega, by simp only; omega, fun hnp => ?_⟩
  obtain ⟨rfl, hcommon⟩ := guardRoom_spec hc (hiff.1 hnp) hroom
  have hpos : 0 ≤ g' := asComputeGbitsCappage_nonneg hcompute
  obtain ⟨hu, -, hfield⟩ := hcommon g'.toNat (by split at hg <;> omega)
  exact ⟨hu, by simp only; omega, hfield⟩

/-- `planTable` asks for no table only at a free slot, when the rest of the address fits in its
guard. -/
theorem planTable_none {addr : VgAddr} {key u : ℕ} {c : Cap}
    (h : planTable addr key u c = .ok none) :
    c.type = .void ∧ c.addrTrans.guardBits = 0 ∧ key % 2 ^ u < 2 ^ 22 := by
  simp only [planTable] at h
  split at h
  · next hfit =>
    obtain ⟨hnp, hmsb⟩ := hfit
    simp only [Bool.not_eq_false', Bool.and_eq_true, decide_eq_true_eq] at hnp
    exact ⟨hnp.1, hnp.2, vgMsb64_le_iff.1 hmsb⟩
  · simp only [bind_eq_ok, pure_eq_ok, reduceCtorEq, and_false, exists_const] at h

/-! ### Inserting a table -/

/-- The flags `as_build` copies with leave policy and type alone. -/
theorem copyX_guard_spec {target source new : Cap} {word : AddrTrans}
    (h : copyX target source 2 ⟨.default, word⟩ = some new) :
    new.core = source.core ∧ new.addrTrans.guard = word.guard ∧
      new.addrTrans.guardBits = word.guardBits := by
  obtain ⟨sub, hsub, hstore⟩ := copyX_eq_some.1 h
  obtain ⟨hoid, hver, htype, hdisc, hprio, hg, hb, hp, hn, -⟩ := copyStore_spec hstore
  have hsub' : sub = (source.addrTrans.subpage, source.addrTrans.subpages) :=
    (Option.some.inj hsub).symm
  subst hsub'
  refine ⟨?_, hg, hb⟩
  rw [core, core, hoid, hver, hp, hn, policy, policy, hdisc, hprio, htype]
  rfl

/-- A slot made to designate a page table. -/
theorem copyX_table_spec {target source new : Cap} {word : AddrTrans}
    (h : copyX target source (1 + 2) ⟨.default, word⟩ = some new) :
    new.type = source.type ∧ new.oid = source.oid ∧ new.addrTrans.subpage = word.subpage ∧
      new.addrTrans.subpages = word.subpages ∧ new.addrTrans.guard = word.guard ∧
      new.addrTrans.guardBits = word.guardBits := by
  obtain ⟨sub, hsub, hstore⟩ := copyX_eq_some.1 h
  obtain ⟨hoid, -, htype, -, -, hg, hb, hp, hn, -⟩ := copyStore_spec hstore
  have hsub' : sub = (word.subpage, word.subpages) := by
    dsimp only [copySubpage] at hsub
    rw [if_pos (by decide)] at hsub
    split at hsub
    · simp at hsub
    · split at hsub
      · exact (Option.some.inj hsub).symm
      · simp at hsub
  subst hsub'
  exact ⟨htype, hoid, hp, hn, hg, hb⟩

/-- The subpage count determines its logarithm. -/
theorem subpagesLog2_of_subpages {a : AddrTrans} {n : ℕ} (h : a.subpages = 2 ^ n) :
    a.subpagesLog2.val = n := Nat.pow_right_injective le_rfl h

/-- The three parts into which a new table cuts a guard. -/
theorem guardList_cut {c : Cap} {gbits width : ℕ} (h : gbits + width ≤ c.addrTrans.guardBits) :
    c.guardList =
      bits gbits (field c.addrTrans.guard c.addrTrans.guardBits gbits) ++
        (bits width (field c.addrTrans.guard (c.addrTrans.guardBits - gbits) width) ++
          bits (c.addrTrans.guardBits - gbits - width) c.addrTrans.guard) := by
  rw [guardList, bits_field_append (c := gbits) (by omega),
    @bits_field_append c.addrTrans.guard (c.addrTrans.guardBits - gbits) width (by omega)]

/-- **What inserting a table leaves behind** when something had to move: a fresh table `s.next`
behind the front part of the guard, with what was in the slot in its pivot behind the rest. -/
structure TableInserted (s s' : Shadow) (p : ShadowPtr) (gbits width : ℕ) : Prop where
  next_ne : s.next ≠ 0
  next : s'.next = s.next + 1
  type : (s'.read p).type = .cappage
  oid : (s'.read p).oid = s.next
  subpage : (s'.read p).addrTrans.subpage = 0
  log2 : (s'.read p).addrTrans.subpagesLog2.val = 8 - width
  guardOk : (s'.read p).GuardOk
  guard : (s'.read p).guardList =
    bits gbits (field (s.read p).addrTrans.guard (s.read p).addrTrans.guardBits gbits)
  pivot : let c := s.read p
    let i := field c.addrTrans.guard (c.addrTrans.guardBits - gbits) width
    (s'.caps s.next i).GuardOk ∧ (s'.caps s.next i).core = c.core ∧
      (s'.caps s.next i).guardList = bits (c.addrTrans.guardBits - gbits - width) c.addrTrans.guard
  free : ∀ i, i ≠ field (s.read p).addrTrans.guard ((s.read p).addrTrans.guardBits - gbits) width →
    s'.caps s.next i = Cap.void
  frame : ∀ x, x ≠ p → (∀ i, x ≠ .slot s.next i) → s'.read x = s.read x

theorem extractBitsInv_eq_ok {W : WordSize} {w x : ℕ} {e c : ℤ} (hpos : 0 < c)
    (h : extractBitsInv W w e c = .ok x) :
    0 ≤ e - c + 1 ∧ x = w / 2 ^ (e - c + 1).toNat % 2 ^ c.toNat % 2 ^ 32 := by
  rw [extractBitsInv, if_neg hpos.ne'] at h
  simp only [extractBits, bind_eq_ok, require_eq_ok] at h
  obtain ⟨-, hs, -, -, h⟩ := h
  split at h
  · obtain ⟨-, -, h⟩ := bind_eq_ok.1 h
    exact ⟨hs.1, (pure_eq_ok.1 h).symm⟩
  · exact ⟨hs.1, (pure_eq_ok.1 h).symm⟩

/-- The capability of a fresh table, once its subpage is set. -/
private theorem tableCap_spec {fresh : Cap} {n : ℕ} (hfresh : fresh.addrTrans = .void)
    (hn : n ≤ 8) :
    ∃ word, setGuardSubpage fresh.addrTrans.guard fresh.addrTrans.guardBits 0 (2 ^ n) =
        some word ∧ word.subpage = 0 ∧ word.subpageOffset = 0 := by
  have hsome : (setGuardSubpage 0 0 0 (2 ^ n)).isSome :=
    setGuardSubpage_isSome hn (Nat.two_pow_pos n) (by simp) (by simp; omega)
  obtain ⟨word, hword⟩ := Option.isSome_iff_exists.1 hsome
  obtain ⟨-, -, hsub, -, -, -, -⟩ := setGuardSubpage_spec (by decide) hword
  refine ⟨word, ?_, hsub, by simp [subpageOffset, hsub]⟩
  rw [hfresh]
  exact hword

theorem movePivot_spec {s s' : Shadow} {c ptCap : Cap} {i g n : ℕ} {q : ShadowPtr}
    (htype : ptCap.type = .cappage) (hoff : ptCap.addrTrans.subpageOffset = 0) (hn : n < 64)
    (h : movePivot s c ptCap i g n = .ok (q, s')) :
    ptCap.oid ≠ 0 ∧ q = .slot ptCap.oid i ∧ ∃ new, s' = s.write q new ∧ new.core = c.core ∧
      new.GuardOk ∧ new.guardList = bits n g := by
  simp only [movePivot, bind_eq_ok, assertSome_eq_ok, pure_eq_ok, Prod.mk.injEq] at h
  obtain ⟨q', hindex, word, hword, new, hnew, rfl, rfl⟩ := h
  simp only [doIndex, htype, hoff, bind_eq_ok, require_eq_ok, pure_eq_ok, Nat.zero_add] at hindex
  obtain ⟨-, -, -, hoid, rfl⟩ := hindex
  obtain ⟨hcore, hg, hb⟩ := copyX_guard_spec hnew
  obtain ⟨hwg, hwb, -, -, -, -, hlt⟩ := setGuardSubpage_spec hn hword
  refine ⟨hoid, rfl, new, rfl, hcore, ?_, ?_⟩
  · rwa [Cap.GuardOk, hg, hb, hwg, hwb]
  · rw [guardList, hg, hb, hwg, hwb]

theorem setPte_spec {s s' : Shadow} {p : ShadowPtr} {c ptCap : Cap} {plan : TablePlan}
    (htype : ptCap.type = .cappage) (hfit : plan.gbits ≤ c.addrTrans.guardBits)
    (h : setPte s p c ptCap plan = .ok s') :
    ∃ new, s' = s.write p new ∧ new.type = .cappage ∧ new.oid = ptCap.oid ∧
      new.addrTrans.subpage = 0 ∧ new.addrTrans.subpagesLog2.val = 8 - plan.width ∧ new.GuardOk ∧
      new.guardList =
        bits plan.gbits (field c.addrTrans.guard c.addrTrans.guardBits plan.gbits) := by
  simp only [setPte, bind_eq_ok, assertSome_eq_ok, pure_eq_ok] at h
  obtain ⟨g, hguard, word, hword, new, hnew, rfl⟩ := h
  obtain ⟨-, -, rfl⟩ := extractBits64Inv_eq_ok hguard
  obtain ⟨hntype, hnoid, hnsub, hnsubs, hng, hnb⟩ := copyX_table_spec hnew
  have hlt : plan.gbits < 64 := hfit.trans_lt c.addrTrans.guardBits_lt
  obtain ⟨hwg, hwb, hws, hwn, -, -, hglt⟩ := setGuardSubpage_spec hlt hword
  refine ⟨new, rfl, hntype.trans htype, hnoid, hnsub.trans hws,
    subpagesLog2_of_subpages (hnsubs.trans hwn), ?_, ?_⟩
  · rwa [Cap.GuardOk, hng, hnb, hwg, hwb]
  · rw [guardList, hng, hnb, hwg, hwb, Int.toNat_natCast]

/-- A table is never inserted at a free slot: the code computes the pivot's index, which has no
bits to be read from, before it asks whether there is anything to move. -/
theorem insertTable_ne_some {env : BuildEnv} {fuel u : ℕ} {addr : VgAddr} {s s' : Shadow}
    {p : ShadowPtr} {plan : TablePlan} (hfree : (s.read p).addrTrans.guardBits = 0)
    (hw : 0 < plan.width) : insertTable env fuel addr s p u plan ≠ .ok (some s') := by
  intro h
  simp only [insertTable, bind_eq_ok] at h
  obtain ⟨_, -, _, -, h⟩ := h
  split at h
  · simp at h
  · obtain ⟨i, hi, -⟩ := bind_eq_ok.1 h
    obtain ⟨hs, -⟩ := extractBitsInv_eq_ok (by exact_mod_cast hw) hi
    omega

theorem insertTable_spec {env : BuildEnv} {fuel u : ℕ} {addr : VgAddr} {s s' : Shadow}
    {p : ShadowPtr} {plan : TablePlan} (hp : ∀ d, p ≠ .fake d) (hfresh : ∀ i, p ≠ .slot s.next i)
    (hnp : plan.needPivot = true) (hw : 0 < plan.width) (hw8 : plan.width ≤ 8)
    (hfit : plan.gbits + plan.width ≤ (s.read p).addrTrans.guardBits)
    (h : insertTable env fuel addr s p u plan = .ok (some s')) :
    TableInserted s s' p plan.gbits plan.width := by
  set c := s.read p with hc
  have hgb : c.addrTrans.guardBits < 64 := c.addrTrans.guardBits_lt
  simp only [insertTable, bind_eq_ok, ← hc] at h
  obtain ⟨_, -, _, -, h⟩ := h
  split at h
  · simp at h
  next fresh s₀ halloc =>
  simp only [allocatePageTable] at halloc
  split at halloc
  swap
  · simp at halloc
  obtain ⟨⟩ := Option.some.inj halloc
  obtain ⟨word, hword, hsub, hoff⟩ :=
    @tableCap_spec { Cap.void with type := .cappage, oid := s.next } (8 - plan.width) rfl
      (Nat.sub_le _ _)
  rw [hword] at h
  obtain ⟨i, hi, h⟩ := bind_eq_ok.1 h
  obtain ⟨pivotAddr, -, h⟩ := bind_eq_ok.1 h
  obtain ⟨pg, hpg, h⟩ := bind_eq_ok.1 h
  obtain ⟨_, -, h⟩ := bind_eq_ok.1 h
  obtain ⟨_, -, h⟩ := bind_eq_ok.1 h
  obtain ⟨_, -, h⟩ := bind_eq_ok.1 h
  rw [if_pos hnp] at h
  obtain ⟨⟨q, s₁⟩, hmove, h⟩ := bind_eq_ok.1 h
  obtain ⟨s₂, hset, h⟩ := bind_eq_ok.1 h
  have hs' : s₂ = s' := by
    split at h
    · obtain ⟨-, -, h⟩ := bind_eq_ok.1 h
      exact Option.some.inj (pure_eq_ok.1 h)
    · exact Option.some.inj (pure_eq_ok.1 h)
  subst hs'
  obtain ⟨hoid, rfl, new, rfl, hcore, hok, hlist⟩ := movePivot_spec rfl hoff (by omega) hmove
  obtain ⟨pte, rfl, hptype, hpoid, hpsub, hplog, hpok, hplist⟩ := setPte_spec rfl (by omega) hset
  -- the index of the pivot and the rest of the guard, as the code reads them
  obtain ⟨-, hival⟩ := extractBitsInv_eq_ok (by exact_mod_cast hw) hi
  have hif : i = field c.addrTrans.guard (c.addrTrans.guardBits - plan.gbits) plan.width := by
    have hexp : ((c.addrTrans.guardBits : ℤ) - plan.gbits - 1 - plan.width + 1).toNat =
        c.addrTrans.guardBits - plan.gbits - plan.width := by omega
    have hlt := field_lt c.addrTrans.guard (c.addrTrans.guardBits - plan.gbits) plan.width
    have h8 : 2 ^ plan.width ≤ 2 ^ 32 := Nat.pow_le_pow_right Nat.two_pos (by omega)
    rw [hexp, Int.toNat_natCast] at hival
    rw [hival]
    exact Nat.mod_eq_of_lt (hlt.trans_le h8)
  obtain ⟨-, -, -, hpgval⟩ := extractBits64_eq_ok hpg
  have hrest : new.guardList =
      bits (c.addrTrans.guardBits - plan.gbits - plan.width) c.addrTrans.guard := by
    have hexp : ((c.addrTrans.guardBits : ℤ) - plan.gbits - plan.width).toNat =
        c.addrTrans.guardBits - plan.gbits - plan.width := by omega
    rw [hlist, hpgval, hexp, Int.toNat_zero, pow_zero, Nat.div_one, bits_mod]
  set s₀ : Shadow :=
    { s with caps := Function.update s.caps s.next fun _ => Cap.void, next := s.next + 1 }
  have hslot (j : ℕ) : ((s₀.write (.slot s.next i) new).write p pte).caps s.next j =
      if j = i then new else Cap.void := by
    have hne : ShadowPtr.slot s.next j ≠ p := fun h => hfresh j h.symm
    change Shadow.read _ (.slot s.next j) = _
    rw [Shadow.read_write_of_ne _ _ hne]
    split
    · next hj => rw [hj, Shadow.read_write_self _ _ (by simp)]
    · next hj =>
      rw [Shadow.read_write_of_ne _ _ (by simpa using hj)]
      simp [s₀, Shadow.read]
  exact
    { next_ne := hoid
      next := by simp [s₀]
      type := by rw [Shadow.read_write_self _ _ hp]; exact hptype
      oid := by rw [Shadow.read_write_self _ _ hp]; exact hpoid
      subpage := by rw [Shadow.read_write_self _ _ hp]; exact hpsub
      log2 := by rw [Shadow.read_write_self _ _ hp]; exact hplog
      guardOk := by rw [Shadow.read_write_self _ _ hp]; exact hpok
      guard := by rw [Shadow.read_write_self _ _ hp]; exact hplist
      pivot := by
        simp only [← hc, ← hif, hslot, if_true]
        exact ⟨hok, hcore, hrest⟩
      free := fun j hj => by
        rw [← hc, ← hif] at hj
        rw [hslot, if_neg hj]
      frame := fun x hx hxf => by
        rw [Shadow.read_write_of_ne _ _ hx, Shadow.read_write_of_ne _ _ (hxf i)]
        cases x with
        | root => rfl
        | slot o j =>
          have ho : o ≠ s.next := fun ho => hxf j (ho ▸ rfl)
          simp [s₀, Shadow.read, ho]
        | fake d => rfl }

end Viengoos
