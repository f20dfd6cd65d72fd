import Viengoos.AsBuild.Progress

/-!
# Address spaces of pages

For page addresses, 51 bits deep, below `2 ^ 22` pages, `as_build` always finds room. The reason
is that `as_compute_gbits_cappage` then only puts page tables at three places, where 23, 15 or 7
bits remain (`Cut`), so that trees stay **aligned** and every cut leaves guards that can be
encoded. With a page at or above `2 ^ 22` it may fail: when such a page comes first, the free root
cannot hold its guard, and inserting a page table at a free slot trips an assertion.
-/

namespace Viengoos

open BitString Outcome PageTree List Function AddrTrans Cap

/-! ### Where tables go -/

/-- With `u` bits to go, a table behind `g` of them that translates `w` bits. -/
def Cut (u g w : ℕ) : Prop :=
  (g + 23 = u ∧ w = 8) ∨ (g + 15 = u ∧ w = 8) ∨ (g + 7 = u ∧ w = 7)

/-- The depths a guard can have at a slot with `u` bits to go: up to a table or to a page. -/
def GuardDepth (u gb : ℕ) : Prop := gb = u ∨ gb + 23 = u ∨ gb + 15 = u ∨ gb + 7 = u

/-- The numbers of bits that remain at a slot that is not at a page. -/
def Level (u : ℕ) : Prop := u = 51 ∨ u = 15 ∨ u = 7

variable {call : BuildCall} {env : BuildEnv} {c : Cap} {g : List Bool} {log : List Built}
  {T : PageTree} {addr : VgAddr} {fuel u w : ℕ} {ch : ℕ → PageTree}

/-- **The heuristic stays on the cuts.** When `c` of the `gb` bits of a guard are common, the
chosen table is on a cut within the guard. Below a root at least 29 bits are common. -/
theorem asComputeGbitsCappage_cut {gb c : ℕ} (hu : Level u) (hgb : GuardDepth u gb) (hc : c < gb)
    (htop : u = 51 → 29 ≤ c) :
    ∃ g w : ℕ, asComputeGbitsCappage ((u : ℤ) + 12) gb c = .ok ((g : ℤ), (w : ℤ)) ∧ g ≤ c ∧
      g + w ≤ gb ∧ Cut u g w := by
  simp only [Level, GuardDepth, Cut] at hu hgb ⊢
  simp only [asComputeGbitsCappage]
  rw [require_of (by omega), ok_bind]
  generalize hG : (if (u : ℤ) + 12 ≤ 12 then (c : ℤ)
    else if (u : ℤ) + 12 - c ≤ 12 then (u : ℤ) + 12 - 12
    else if (u : ℤ) + 12 - c ≤ 19 then (u : ℤ) + 12 - 7 - 12
    else if 8 - ((u : ℤ) + 12 - c - 7 - 12) % 8 < c then
      (c : ℤ) - (8 - ((u : ℤ) + 12 - c - 7 - 12) % 8)
    else 0) = G
  have hcut : 0 ≤ G ∧ G ≤ c ∧ (G + 23 = u ∨ G + 15 = u ∨ G + 7 = u) := by
    split_ifs at hG <;> omega
  obtain ⟨g, rfl⟩ := Int.eq_ofNat_of_zero_le hcut.1
  refine ⟨g, if g + 7 = u then 7 else 8, ?_, by omega, by split_ifs <;> omega,
    by split_ifs <;> omega⟩
  have hwidth : (if (u : ℤ) + 12 - g = 19 then (7 : ℤ) else 8) =
      ((if g + 7 = u then 7 else 8 : ℕ) : ℤ) := by
    split_ifs <;> first | rfl | omega
  rw [hwidth, if_neg (by split_ifs <;> omega)]
  rfl

/-- Numbers below `2 ^ n` differ in their low `n` bits only. -/
theorem vgMsb64_xor_le {a b n : ℕ} (ha : a < 2 ^ n) (hb : b < 2 ^ n) : vgMsb64 (a ^^^ b) ≤ n :=
  vgMsb64_le_iff.2 (Nat.xor_lt_two_pow ha hb)

theorem field_le (v hi c : ℕ) : field v hi c ≤ v :=
  (Nat.mod_le _ _).trans (Nat.div_le_self _ _)

/-- A guard at a slot with `u` bits to go that leads to pages below `2 ^ 22`. -/
structure PageGuard (c : Cap) (u : ℕ) : Prop where
  ok : c.GuardOk
  depth : GuardDepth u c.addrTrans.guardBits
  low : c.addrTrans.guard * 2 ^ (u - c.addrTrans.guardBits) < 2 ^ 22

/-- A guard that is not the address's shares all but its low bits with it. -/
theorem PageGuard.common {key : ℕ} (h : PageGuard c u) (hkey : key < 2 ^ 22)
    (hne : field key u c.addrTrans.guardBits ≠ c.addrTrans.guard) :
    ∃ n, n < c.addrTrans.guardBits ∧ (u = 51 → 29 ≤ n) ∧
      n + vgMsb64 (c.addrTrans.guard ^^^ field key u c.addrTrans.guardBits) =
        c.addrTrans.guardBits := by
  set gb := c.addrTrans.guardBits
  set x := c.addrTrans.guard ^^^ field key u gb with hx
  have hxne : vgMsb64 x ≠ 0 := by
    rw [Ne, vgMsb64_eq_zero_iff, hx, Nat.xor_eq_zero_iff]
    exact fun heq => hne heq.symm
  have hle : vgMsb64 x ≤ gb := vgMsb64_xor_le h.ok (field_lt _ _ _)
  refine ⟨gb - vgMsb64 x, by omega, fun h51 => ?_, by omega⟩
  subst h51
  have hdepth : gb = 51 ∨ gb + 23 = 51 ∨ gb + 15 = 51 ∨ gb + 7 = 51 := h.depth
  have hlow : c.addrTrans.guard * 2 ^ (51 - gb) < 2 ^ 22 := h.low
  -- both have at most `22 - (51 - gb)` significant bits
  have hfield : field key 51 gb * 2 ^ (51 - gb) < 2 ^ 22 := by
    have hdiv : key / 2 ^ (51 - gb) * 2 ^ (51 - gb) ≤ key := Nat.div_mul_le_self _ _
    have hmod : field key 51 gb ≤ key / 2 ^ (51 - gb) := Nat.mod_le _ _
    exact ((Nat.mul_le_mul_right _ hmod).trans hdiv).trans_lt hkey
  have hgb29 : 29 ≤ gb := by
    by_contra hlt
    have h28 : gb = 28 := by omega
    rw [h28] at hlow hfield
    refine hne ?_
    rw [h28]
    omega
  have hsig {y : ℕ} (hy : y * 2 ^ (51 - gb) < 2 ^ 22) : y < 2 ^ (gb - 29) := by
    have hpow : (2 : ℕ) ^ 22 = 2 ^ (gb - 29) * 2 ^ (51 - gb) := by
      rw [← pow_add]
      congr 1
      omega
    rw [hpow] at hy
    exact Nat.lt_of_mul_lt_mul_right hy
  have hmsb : vgMsb64 x ≤ gb - 29 := vgMsb64_xor_le (hsig hlow) (hsig hfield)
  omega

/-- **Planning succeeds** where a guard is in the way, with a table on a cut. -/
theorem planTable_pages (haddr : addr.depth = 51)
    (hkey : addr.num < 2 ^ 22) (hu : Level u) (h : PageGuard c u)
    (hne : field addr.num u c.addrTrans.guardBits ≠ c.addrTrans.guard) :
    ∃ g w, planTable addr addr.num u c = .ok (some ⟨true, g, w⟩) ∧ Cut u g w := by
  obtain ⟨n, hn, htop, hmsb⟩ := h.common hkey hne
  set gb := c.addrTrans.guardBits with hgb
  have hgbu : gb ≤ u := by
    have hdepth : gb = u ∨ gb + 23 = u ∨ gb + 15 = u ∨ gb + 7 = u := h.depth
    omega
  have hu51 : u ≤ 51 := by
    simp only [Level] at hu
    omega
  obtain ⟨g, w, hcompute, hgn, hfit, hcut⟩ := asComputeGbitsCappage_cut hu h.depth hn htop
  refine ⟨g, w, ?_, hcut⟩
  have hpivot : (!(decide (c.type = .void) && decide (gb = 0))) = true := by
    simp only [Bool.not_eq_true', Bool.and_eq_false_imp, decide_eq_false_iff_not]
    omega
  have hroom : guardRoom addr.num u c = .ok ((n : ℤ), (gb : ℤ)) := by
    simp only [guardRoom]
    rw [if_neg (by omega), if_neg (by omega), if_neg (by omega),
      extractBits64Inv_ok hgbu (by omega), ok_bind, ← hgb]
    have hsub : (gb : ℤ) - vgMsb64 (c.addrTrans.guard ^^^ field addr.num u gb) = n := by omega
    rw [hsub]
    rfl
  have hfirst : vgMsb64 (field addr.num u n) ≤ 22 :=
    vgMsb64_le_iff.2 ((field_le _ _ _).trans_lt hkey)
  have hun : (u : ℤ) + (vgAddrBits : ℤ) - addr.depth = (u : ℤ) + 12 := by
    rw [haddr, vgAddrBits]
    omega
  have hwidth : 0 < w ∧ w ≤ 8 := by
    simp only [Cut] at hcut
    omega
  simp only [planTable, ← hgb, hpivot]
  rw [if_neg (by simp), hroom, ok_bind]
  rw [extractBits64Inv_ok (by omega) (by omega), ok_bind]
  simp only [Nat.not_lt.2 hfirst, if_false, hun]
  rw [require_of (by omega), ok_bind, hcompute, ok_bind, require_of (by simp only; omega), ok_bind,
    require_of (by simp only; omega), ok_bind, require_of (by simp only; omega), ok_bind]
  rfl

/-! ### Aligned trees -/

/-- Every table is on a cut, behind a guard that leads to pages below `2 ^ 22`, and every entry
is a page. -/
def PageTree.Aligned : PageTree → ℕ → Prop
  | .empty, _ => True
  | .entry g, u => g.length = u
  | .table g _ w ch, u =>
    Cut u g.length w ∧ (∃ v, g = bits g.length v ∧ v * 2 ^ (u - g.length) < 2 ^ 22) ∧
      ∀ i < 2 ^ w, (ch i).Aligned (u - g.length - w)

/-- Entries designate whole objects. -/
def Plain (s : Shadow) (t : PageTree) (p : ShadowPtr) : Prop :=
  ∀ e q, Holds t p e q → (s.read q).addrTrans.subpagesLog2.val = 0

variable {s s' : Shadow} {t t' : PageTree} {p q : ShadowPtr}

/-- An address has one entry. -/
theorem PageTree.Holds.unique {r : ShadowPtr} {e : List Bool} (h : Holds t p e q)
    (h' : Holds t p e r) : q = r := by
  induction h with
  | entry =>
    cases h'
    rfl
  | @table g o w i ch p q a hi _ ih =>
    generalize he : g ++ (bits w i ++ a) = e at h'
    cases h' with
    | @table _ _ _ j _ _ _ b hj hr =>
      have hcut := append_cancel_left he
      obtain ⟨hij, rfl⟩ := append_inj hcut (by simp)
      obtain rfl := bits_injective hi hj hij
      exact ih hr

theorem Plain.evolve (h : Plain s t p) (hev : Evolves s s' t t' p fun _ => False) :
    Plain s' t' p := by
  intro e q hq
  rcases hev.only e q hq with hfalse | ⟨r₀, hr₀⟩
  · exact hfalse.elim
  obtain ⟨r', hr', hcore, -⟩ := hev.old e r₀ hr₀
  obtain rfl := hq.unique hr'
  have hsub : (s'.read q).addrTrans.subpages = (s.read r₀).addrTrans.subpages :=
    congrArg Cap.Core.subpages hcore
  refine subpagesLog2_of_subpages (hsub.trans ?_)
  rw [subpages, h e r₀ hr₀]

theorem Plain.child {o i : ℕ}
    (h : Plain s (.table g o w ch) p) (hi : i < 2 ^ w) : Plain s (ch i) (.slot o i) :=
  fun _ q hq => h _ q (.table hi hq)

/-- The guard in front of an aligned tree. -/
theorem PageTree.Aligned.pageGuard (h : t.Aligned u) (hrep : Rep s t p) (hne : t ≠ .empty) :
    PageGuard (s.read p) u := by
  have hlen : t.guard.length = (s.read p).addrTrans.guardBits := by
    rw [← hrep.guardList_eq, length_guardList]
  cases t with
  | empty => exact absurd rfl hne
  | entry g =>
    have hgb : (s.read p).addrTrans.guardBits = u := hlen.symm.trans h
    refine ⟨hrep.guardOk, .inl hgb, ?_⟩
    rw [hgb, Nat.sub_self, pow_zero, Nat.mul_one]
    exact guard_lt
  | table g o w ch =>
    obtain ⟨hcut, ⟨v, hv, hlow⟩, -⟩ := h
    have hgb : g.length = (s.read p).addrTrans.guardBits := hlen
    have hguard : (s.read p).addrTrans.guard ≤ v := by
      have hlist := hrep.guardList_eq
      rw [guardList, PageTree.guard, hv, ← hgb, bits_eq_iff_mod] at hlist
      have hmod := Nat.mod_eq_of_lt hrep.guardOk
      rw [← hgb] at hmod
      rw [← hmod, hlist]
      exact Nat.mod_le _ _
    refine ⟨hrep.guardOk, ?_, ?_⟩
    · simp only [Cut] at hcut
      simp only [GuardDepth]
      omega
    · rw [← hgb]
      exact (Nat.mul_le_mul_right _ hguard).trans_lt hlow

theorem PageTree.Aligned.update {o i : ℕ}
    (h : (PageTree.table g o w ch).Aligned u) (ht : t.Aligned (u - g.length - w)) :
    (PageTree.table g o w (update ch i t)).Aligned u := by
  refine ⟨h.1, h.2.1, fun j hj => ?_⟩
  by_cases hji : j = i
  · subst hji
    rwa [update_self]
  · rw [update_of_ne hji]
    exact h.2.2 j hj

/-- Moving an aligned tree behind a table on a cut. -/
theorem PageTree.Aligned.reguard {g : ℕ} (h : t.Aligned u) (hrep : Rep s t p)
    (hfit : g + w ≤ (s.read p).addrTrans.guardBits) :
    (t.reguard (bits ((s.read p).addrTrans.guardBits - g - w) (s.read p).addrTrans.guard)).Aligned
      (u - g - w) := by
  set gb := (s.read p).addrTrans.guardBits with hgb
  have hlen : t.guard.length = gb := by
    rw [← hrep.guardList_eq, Cap.length_guardList]
  cases t with
  | empty => trivial
  | entry e =>
    have he : e.length = u := h
    have heg : e.length = gb := hlen
    change (bits _ _).length = _
    rw [length_bits]
    omega
  | table e o v ch =>
    have heg : e.length = gb := hlen
    have hlow := (h.pageGuard hrep (by simp)).low
    obtain ⟨hv, -, hchild⟩ := h
    simp only [Cut, heg] at hv
    refine ⟨?_, ⟨(s.read p).addrTrans.guard, ?_, ?_⟩, fun i hi => ?_⟩
    · simp only [Cut, length_bits]
      omega
    · rw [length_bits]
    · rw [length_bits, show u - g - w - (gb - g - w) = u - gb by omega]
      exact hlow
    · have hi' := hchild i hi
      rw [heg] at hi'
      rw [length_bits, show u - g - w - (gb - g - w) - v = u - gb - v by omega]
      exact hi'

/-- The tree after a table has been inserted on a cut. -/
theorem PageTree.Aligned.pivot {key g : ℕ} (h : t.Aligned u) (hrep : Rep s t p)
    (hcut : Cut u g w) (hfit : g + w ≤ (s.read p).addrTrans.guardBits) (hkey : key < 2 ^ 22) :
    (PageTree.table (bits g (field key u g)) s.next w (pivotChild (s.read p) g w t)).Aligned u := by
  refine ⟨by rwa [length_bits], ⟨field key u g, by rw [length_bits], ?_⟩, fun i _ => ?_⟩
  · rw [length_bits, field]
    calc key / 2 ^ (u - g) % 2 ^ g * 2 ^ (u - g)
        ≤ key / 2 ^ (u - g) * 2 ^ (u - g) := Nat.mul_le_mul_right _ (Nat.mod_le _ _)
      _ ≤ key := Nat.div_mul_le_self _ _
      _ < 2 ^ 22 := hkey
  · rw [length_bits]
    unfold pivotChild
    rcases eq_or_ne i (field (s.read p).addrTrans.guard ((s.read p).addrTrans.guardBits - g) w)
      with rfl | hne
    · rw [Function.update_self]
      exact h.reguard hrep hfit
    · rw [Function.update_of_ne hne]
      trivial

/-! ### One turn -/

/-- A turn's surroundings: the tree below the slot is ready for the address and aligned, and it is
part of a represented tree in which the used bits `b` of the address lead to the slot. -/
structure PageContext (addr : VgAddr) (s : Shadow) (T : PageTree) (b : List Bool) (t : PageTree)
    (p : ShadowPtr) (u : ℕ) : Prop where
  ready : Ready addr.num s t p u
  aligned : t.Aligned u
  plain : Plain s t p
  next_ne : s.next ≠ 0
  whole : Rep s T .root
  sep : T.Sep
  full : T.Full
  path : At T .root b t p
  used : addr.bits = b ++ bits u addr.num

/-- An address of a page below `2 ^ 22`. -/
structure LowPage (addr : VgAddr) : Prop where
  depth : addr.depth = 51
  num_lt : addr.num < 2 ^ 22

theorem LowPage.ne_void (h : LowPage addr) : addr ≠ .void :=
  VgAddr.depth_le_iff.1 (by rw [h.depth]; decide)

section Turn

variable {addr : VgAddr} {T : PageTree} {b : List Bool} {u : ℕ}

/-- What is in the way of a low page can be moved into a new table. -/
theorem PageContext.insertable {g : ℕ} (h : PageContext addr s T b t p u) (hne : t ≠ .empty)
    (hplan : planTable addr addr.num u (s.read p) = .ok (some ⟨true, g, w⟩)) (hcut : Cut u g w) :
    ∃ l, Insertable s p addr.num u g w l := by
  have hguard := h.aligned.pageGuard h.ready.rep hne
  obtain ⟨-, hw, hw8, hpivot⟩ := planTable_some hguard.ok hplan
  obtain ⟨-, hfit, hcommon⟩ := hpivot rfl
  simp only at hw hw8 hfit hcommon
  have hdepth := hguard.depth
  simp only [Cut, GuardDepth] at hcut hdepth
  set c := s.read p with hc
  set gb := c.addrTrans.guardBits with hgb
  have hlt : c.addrTrans.guard < 2 ^ 22 := guard_lt
  have hok : c.addrTrans.guard < 2 ^ gb := hguard.ok
  have hle : gb ≤ u := by omega
  have hword : gb - g ≤ 32 := by omega
  have hmod : c.addrTrans.guard % 2 ^ (gb - g - w) ≤ c.addrTrans.guard := Nat.mod_le _ _
  -- a table of seven bits is only put right in front of a page
  have htable : field c.addrTrans.guard gb g < 2 ^ (22 - (8 - w)) := by
    rcases hcut with ⟨-, rfl⟩ | ⟨-, rfl⟩ | ⟨hg, rfl⟩
    · exact (field_le _ _ _).trans_lt hlt
    · exact (field_le _ _ _).trans_lt hlt
    · have hgb7 : gb - g = 7 := by omega
      rw [field_eq_div hok (by omega), hgb7]
      have : c.addrTrans.guard / 2 ^ 7 < 2 ^ 15 := Nat.div_lt_of_lt_mul hlt
      exact this.trans (by decide)
  cases t with
  | empty => exact absurd rfl hne
  | entry e =>
    exact ⟨0, h.next_ne, hle, hw, hw8, hfit, hword, hguard.ok, hcommon, h.plain e p .entry,
      by omega, hmod.trans_lt hlt, htable⟩
  | table e o v ch =>
    obtain ⟨⟨-, -, -, hlog, -, hlist⟩, -, -⟩ := id h.ready.rep
    have hlen : e.length = gb := by rw [← hlist, length_guardList]
    have hv := h.aligned.1
    simp only [Cut, hlen] at hv
    refine ⟨8 - v, h.next_ne, hle, hw, hw8, hfit, hword, hguard.ok, hcommon, hlog, by omega, ?_,
      htable⟩
    -- between two cuts there are at most 16 bits
    have hrest : c.addrTrans.guard % 2 ^ (gb - g - w) < 2 ^ (gb - g - w) :=
      Nat.mod_lt _ (Nat.two_pow_pos _)
    exact hrest.trans_le (Nat.pow_le_pow_right Nat.two_pos (by omega))

/-- Inserting that table succeeds, self check included. -/
theorem PageContext.insertTable_ok {g : ℕ}
    (h : PageContext addr s T b t p u) (haddr : LowPage addr) (hne : t ≠ .empty)
    (henv : ∀ n, env.alloc n = true) (hfuel : 51 < fuel)
    (hplan : planTable addr addr.num u (s.read p) = .ok (some ⟨true, g, w⟩)) (hcut : Cut u g w) :
    ∃ s', insertTable env fuel addr s p u ⟨true, g, w⟩ = .ok (some s') := by
  obtain ⟨l, hins⟩ := h.insertable hne hplan hcut
  obtain ⟨s', a, -, ha, heq⟩ := insertTable_eq (W := env.word) haddr.ne_void h.used hins (henv _)
  refine ⟨s', (heq env.debug fuel).trans ?_⟩
  have hnocheck : insertTable ⟨env.word, false, env.alloc⟩ fuel addr s p u ⟨true, g, w⟩ =
      .ok (some s') := heq false fuel
  -- the check looks for the pivot, to which the new tree leads
  obtain ⟨-, hw, hw8, hfit, hcommon, hinserted⟩ := h.ready.insertTable_spec hplan hnocheck
  have hev := h.ready.evolves_pivot hne hw hw8 hfit hcommon hinserted
  have hanc : Anchors s T .root := ⟨by simp, by simp [Outside], by simp⟩
  obtain ⟨T', hevT, hpath⟩ := h.path.evolves hanc h.whole h.sep h.full hev
  have hilt : pivotIndex s p g w < 2 ^ w := field_lt _ _ _
  have hto := hpath.trans (.child hilt .here)
  rw [append_nil, ← append_assoc, ← ha] at hto
  have hdepth : a.depth < fuel := by
    have hlen := congrArg List.length ha
    have hused := congrArg List.length h.used
    simp only [VgAddr.length_bits, length_append, length_bits, haddr.depth] at hlen hused
    have : g + w ≤ u := by
      simp only [Cut] at hcut
      omega
    omega
  rw [hto.checkSlot hevT.rep hdepth]
  split <;> rfl

/-- The surroundings below a table whose guard matches. -/
theorem PageContext.child {o : ℕ} (h : PageContext addr s T b (.table g o w ch) p u)
    (hg : g = bits g.length (field addr.num u g.length)) (hgu : g.length ≤ u)
    (hle : w ≤ u - g.length) :
    let i := field addr.num (u - g.length) w
    PageContext addr s T (b ++ (g ++ (bits w i ++ []))) (ch i) (.slot o i) (u - g.length - w) := by
  intro i
  have hi : i < 2 ^ w := field_lt _ _ _
  refine ⟨(h.ready.descend hg hgu hle).1, h.aligned.2.2 i hi, h.plain.child hi, h.next_ne, h.whole,
    h.sep, h.full, h.path.trans (.child hi .here), ?_⟩
  rw [h.used, bits_field_append hgu, bits_field_append hle, ← hg]
  simp [i]

section

variable (h : PageContext addr s T b t p u) (haddr : LowPage addr)

include h haddr

/-- The surroundings once a table has been inserted. -/
theorem PageContext.pivot {g : ℕ} (hne : t ≠ .empty) (hcut : Cut u g w) (hw : 0 < w)
    (hw8 : w ≤ 8) (hfit : g + w ≤ (s.read p).addrTrans.guardBits)
    (hcommon : field addr.num u g =
      field (s.read p).addrTrans.guard (s.read p).addrTrans.guardBits g)
    (hins : TableInserted s s' p g w) :
    ∃ T', PageContext addr s' T' b (.table (bits g (field addr.num u g)) s.next w
      (pivotChild (s.read p) g w t)) p u := by
  have hev := h.ready.evolves_pivot hne hw hw8 hfit hcommon hins
  have hanc : Anchors s T .root := ⟨by simp, by simp [Outside], by simp⟩
  obtain ⟨T', hevT, hpath⟩ := h.path.evolves hanc h.whole h.sep h.full hev
  refine ⟨T', ⟨h.ready.anchors.evolve hev, hev.rep, hev.sep, hev.full, h.ready.apart.evolve hev⟩,
    h.aligned.pivot h.ready.rep hcut hfit haddr.num_lt, h.plain.evolve hev, ?_, hevT.rep, hevT.sep,
    hevT.full, hpath, h.used⟩
  rw [hins.next]
  exact Nat.succ_ne_zero _

/-- **A turn** for a low page stops at a free slot or passes the problem on, to a slot with fewer
bits to go. -/
theorem buildTurn_pages (hu : Level u) (henv : ∀ n, env.alloc n = true) (hfuel : 51 < fuel) :
    (t = .empty ∧ buildTurn env fuel addr s p u = .ok (.stop s p u)) ∨
      ∃ s₁ q r T₁ b₁ t₁ plug, buildTurn env fuel addr s p u = .ok (.next s₁ q r) ∧ r < u ∧
        (Level r ∨ r = 0) ∧ PageContext addr s₁ T₁ b₁ t₁ q r ∧
        PassesOn addr.num s t p u s₁ t₁ q r plug ∧ ∀ t', t'.Aligned r → (plug t').Aligned u := by
  have hu51 : 7 ≤ u ∧ u ≤ 51 := by
    simp only [Level] at hu
    omega
  by_cases hempty : t = .empty
  · -- the rest of the address fits in the guard of a free slot
    left
    subst hempty
    have hvoid : s.read p = Cap.void := h.ready.rep
    have hlow : addr.num % 2 ^ u < 2 ^ 22 := (Nat.mod_le _ _).trans_lt haddr.num_lt
    refine ⟨rfl, ?_⟩
    simp only [buildTurn, planTable, hvoid, Cap.void_addrTrans, AddrTrans.void_guardBits,
      Cap.void_type]
    rw [if_neg (by omega), if_neg (by simp [translates]),
      if_pos ⟨rfl, vgMsb64_le_iff.2 hlow⟩]
    rfl
  right
  have hguard := h.aligned.pageGuard h.ready.rep hempty
  have hmatch := guard_prefix_iff addr.num u h.ready.rep
  set gb := (s.read p).addrTrans.guardBits with hgb
  have hgbu : gb ≤ u := by
    have hdepth : gb = u ∨ gb + 23 = u ∨ gb + 15 = u ∨ gb + 7 = u := hguard.depth
    omega
  by_cases hfits : field addr.num u gb = (s.read p).addrTrans.guard
  · -- only a table's guard can match
    rcases h.ready.translates_of_prefix (hmatch.2 ⟨hgbu, hfits⟩) with rfl | ⟨g, o, w, ch, rfl⟩
    · exact absurd rfl hempty
    obtain ⟨⟨htype, hoid, hsub, hlog, -, hlist⟩, ⟨ho, -, -, hw8⟩, -⟩ := id h.ready.rep
    have hlen : g.length = gb := by rw [← hlist, Cap.length_guardList]
    have hcut := h.aligned.1
    simp only [Cut, hlen] at hcut
    have hg : g = bits g.length (field addr.num u g.length) := by
      rw [hlen, hfits, ← hlist, Cap.guardList, ← hgb]
    have hle : w ≤ u - g.length := by omega
    refine ⟨s, _, _, T, _, _, _, ?_, ?_, ?_, h.child hg (by omega) hle,
      h.ready.descend hg (by omega) hle, fun t' ht' => h.aligned.update ht'⟩
    · have hindex := indexPte_ok addr.num (u - gb) htype hsub hlog hw8
        (hoid ▸ ho) (by omega) (by omega)
      simp only [buildTurn]
      rw [if_neg (by omega), if_pos ⟨by rw [htype]; rfl, by simp [hgbu, hfits, ← hgb]⟩,
        require_of (by omega), ok_bind, hindex, ok_bind, hoid, hlen]
      rfl
    · omega
    · simp only [Level]
      omega
  · obtain ⟨g, w, hplan, hcut⟩ := planTable_pages haddr.depth haddr.num_lt hu hguard hfits
    obtain ⟨s', hinsert⟩ := h.insertTable_ok haddr hempty henv hfuel hplan hcut
    obtain ⟨-, hw, hw8, hfit, hcommon, hins⟩ := h.ready.insertTable_spec hplan hinsert
    obtain ⟨T', hcontext⟩ := h.pivot haddr hempty hcut hw hw8 hfit hcommon hins
    simp only [Cut] at hcut
    have hle : w ≤ u - g := by omega
    have hchild := hcontext.child (by simp) (by simp; omega) (by simpa using hle)
    simp only [length_bits] at hchild
    refine ⟨s', _, _, T', _, _, _, ?_, ?_, ?_, hchild,
      h.ready.pivot hempty hw hw8 hfit hle hcommon hins, fun t' ht' => ?_⟩
    · have hindex := indexPte_ok addr.num (u - g) hins.type hins.subpage hins.log2 hw8
        (hins.oid ▸ hins.next_ne) hle (by omega)
      simp only [buildTurn]
      rw [if_neg (by simp [← hgb, hfits]), if_neg (by simp [← hgb, hfits]), hplan, ok_bind]
      simp only
      rw [hinsert, ok_bind]
      simp only
      rw [hindex, ok_bind, hins.oid]
      rfl
    · omega
    · simp only [Level]
      omega
    · exact hcontext.aligned.update (by rwa [length_bits])

/-- **The loop** returns for a low page, and keeps the tree aligned. -/
theorem buildLoop_pages {n : ℕ} (hu : Level u)
    (henv : ∀ n, env.alloc n = true) (hfuel : 51 < fuel) (hn : u < n) :
    ∃ s₁ q r, buildLoop env fuel addr n s p u = .ok (.inr (s₁, q, r)) ∧
      Settles addr.num s t p (bits u addr.num) s₁ q r (·.Aligned u) := by
  -- each turn leaves fewer bits to go, so `n` turns suffice
  induction n generalizing s T b t p u with
  | zero => exact absurd hn (Nat.not_lt_zero _)
  | succ n ih =>
    simp only [buildLoop]
    rcases buildTurn_pages h haddr hu henv hfuel with
      ⟨rfl, hturn⟩ | ⟨s₁, q, r, T₁, b₁, t₁, plug, hturn, hr, hlevel, hcontext, hpass, halign⟩
    · refine ⟨s, p, u, by rw [hturn]; rfl, .free h.ready.anchors.real h.ready.rep ?_⟩
      exact length_bits _ _
    · rw [hturn, ok_bind]
      simp only
      have hplug {s₂ : Shadow} {q₂ : ShadowPtr} {r₂ : ℕ}
          (hset : Settles addr.num s₁ t₁ q (bits r addr.num) s₂ q₂ r₂ (·.Aligned r)) :
          Settles addr.num s t p (bits u addr.num) s₂ q₂ r₂ (·.Aligned u) :=
        hpass.2 _ _ _ _ (hset.mono halign)
      rcases hlevel with hlevel | rfl
      · have hpos : 0 < r := by
          simp only [Level] at hlevel
          omega
        obtain ⟨s₂, q₂, r₂, hloop, hset⟩ := ih hcontext hlevel (by omega)
        exact ⟨s₂, q₂, r₂, by rw [if_pos hpos, hloop], hplug hset⟩
      · obtain rfl := hcontext.ready.apart.eq_empty_of_prefix hcontext.ready.full nil_prefix
        refine ⟨s₁, q, 0, rfl, hplug (.free hcontext.ready.anchors.real hcontext.ready.rep ?_)⟩
        exact length_bits _ _

end

end Turn

/-! ### A call -/

/-- After the loop, for a low page. -/
theorem buildFinish_ok (env : BuildEnv) (mayOverwrite : Bool)
    (hfree : s.read p = Cap.void) (hu : u < 64) (hlow : addr.num < 2 ^ 22)
    (hcheck : ∀ new : Cap, new.GuardOk → new.guardList = bits u addr.num →
      checkSlot fuel (s.write p new) addr p = .ok ()) :
    ∃ s', buildFinish env fuel addr mayOverwrite s p u = .ok s' := by
  have hmod : addr.num % 2 ^ u < 2 ^ (22 - 0) := (Nat.mod_le _ _).trans_lt hlow
  have hextract : extractBits64 addr.num 0 u = .ok (addr.num % 2 ^ u) := by
    simpa using extractBits64_ok (w := addr.num) (s := 0) (c := u) (by decide) (by omega)
  obtain ⟨word, hword⟩ := setGuardSubpage_ok (l := 0) (p := 0) (Nat.zero_le 8) (by decide)
    (Nat.mod_lt addr.num (Nat.two_pow_pos u)) hmod
  obtain ⟨hwg, hwb, -⟩ := AddrTrans.setGuardSubpage_spec hu hword
  obtain ⟨new, hnew⟩ := @copyX_guard_ok word Cap.void 0 Cap.void rfl
    (Nat.zero_le 8) (by rw [hwg, hwb]; exact Nat.mod_lt _ (Nat.two_pow_pos u))
    (by rwa [hwg])
  obtain ⟨-, hng, hnb⟩ := copyX_guard_spec hnew
  have hchecked (d : Cap) (hd : d.GuardOk) (hlist : d.guardList = bits u addr.num) :
      ∃ s', (if env.debug = true then (do checkSlot fuel (s.write p d) addr p; pure (s.write p d))
        else pure (s.write p d) : Except Fault Shadow) = .ok s' := by
    rw [hcheck d hd hlist]
    split <;> exact ⟨_, rfl⟩
  simp only [buildFinish, hfree]
  rw [require_of (.inl ⟨rfl, rfl⟩), ok_bind, hextract, ok_bind]
  split
  · rw [show (1 : ℕ) = 2 ^ 0 from rfl, hword]
    simp only [assertSome, ok_bind, hnew]
    refine hchecked new ?_ ?_
    · rw [Cap.GuardOk, hng, hnb, hwg, hwb]
      exact Nat.mod_lt _ (Nat.two_pow_pos u)
    · rw [Cap.guardList, hng, hnb, hwg, hwb, bits_mod]
  · -- nothing is left to put in the guard
    next hsame =>
    obtain rfl : u = 0 := by
      by_contra hne
      exact hsame (.inl hne)
    have hkeep := hchecked Cap.void Cap.guardOk_void rfl
    rwa [← hfree, Shadow.write_read] at hkeep

/-- The state after calls for low pages. -/
structure PageSpace (s : Shadow) (log : List Built) (T : PageTree) : Prop where
  inserted : ∃ start, Inserted start s log T
  aligned : T.Aligned 51
  next_ne : s.next ≠ 0
  low : ∀ x ∈ log, LowPage x.call.addr ∧ x.call.inserted.addrTrans.subpagesLog2.val = 0

theorem PageSpace.plain (h : PageSpace s log T) :
    Plain s T .root := by
  intro e q hq
  obtain ⟨start, hins⟩ := h.inserted
  obtain ⟨x, hx, rfl⟩ := hins.only e q hq
  obtain ⟨q', hq', hcore, -⟩ := hins.entries x hx
  obtain rfl := hq.unique hq'
  have hsub : (s.read q).addrTrans.subpages = x.call.inserted.addrTrans.subpages :=
    congrArg Cap.Core.subpages hcore
  refine subpagesLog2_of_subpages (hsub.trans ?_)
  rw [subpages, (h.low x hx).2]

/-- Different page addresses are no prefixes of each other. -/
theorem LowPage.apart {a a' : VgAddr} (h : LowPage a) (h' : LowPage a') (hne : a ≠ a') :
    ¬ a.bits <+: a'.bits := by
  intro hpre
  refine hne (VgAddr.eq_of_bits_eq h.ne_void h'.ne_void (hpre.eq_of_length ?_))
  rw [VgAddr.length_bits, VgAddr.length_bits, h.depth, h'.depth]

section Call

variable {env : BuildEnv} {fuel : ℕ} {log : List Built} {T : PageTree}

/-- The loop of a call for a low page that is not there yet. -/
theorem PageSpace.loop (h : PageSpace s log T) (haddr : LowPage addr)
    (hnew : ∀ x ∈ log, x.call.addr ≠ addr) (henv : ∀ n, env.alloc n = true) (hfuel : 51 < fuel) :
    ∃ s₁ q r, buildLoop env fuel addr fuel s .root addr.depth = .ok (.inr (s₁, q, r)) ∧
      Settles addr.num s T .root addr.bits s₁ q r (·.Aligned 51) := by
  obtain ⟨start, hins⟩ := h.inserted
  have hready := hins.ready addr fun x hx =>
    ⟨(h.low x hx).1.apart haddr (hnew x hx), haddr.apart (h.low x hx).1 (hnew x hx).symm⟩
  have hcontext : PageContext addr s T [] T .root addr.depth :=
    ⟨hready, by rw [haddr.depth]; exact h.aligned, h.plain, h.next_ne, hins.rep, hins.sep,
      hins.full, .here, rfl⟩
  have hloop := buildLoop_pages hcontext haddr (by rw [haddr.depth]; exact .inl rfl) henv hfuel
    (haddr.depth ▸ hfuel)
  rw [haddr.depth] at hloop ⊢
  rwa [VgAddr.bits, haddr.depth]

/-- `as_build` returns a slot for a low page that is not there yet. -/
theorem PageSpace.asBuild_ok (h : PageSpace s log T) (mayOverwrite : Bool)
    (haddr : LowPage addr) (hnew : ∀ x ∈ log, x.call.addr ≠ addr)
    (henv : ∀ n, env.alloc n = true) (hfuel : 51 < fuel) :
    ∃ q s', asBuild env fuel addr mayOverwrite s = .ok (some q, s') ∧ (s'.read q).GuardOk := by
  obtain ⟨s₁, q, r, hloop, hset⟩ := h.loop haddr hnew henv hfuel
  obtain ⟨hread, hreal, hlen, hwrite⟩ := id hset
  rw [VgAddr.length_bits, haddr.depth] at hlen
  have hr : r < 64 := by omega
  obtain ⟨s', hfinish⟩ := buildFinish_ok env mayOverwrite hread hr haddr.num_lt
    fun new hok hlist => by
      obtain ⟨t', hev, hholds, -⟩ := hwrite new hok hlist
      obtain ⟨ret, hret, hslot, -⟩ := hholds.lookup hev.rep .wantSlot (haddr.depth ▸ hfuel)
      rw [checkSlot, hret, ok_bind]
      exact require_of hslot
  refine ⟨q, s', ?_, ?_⟩
  · rw [asBuild, require_of haddr.ne_void, ok_bind, hloop, ok_bind]
    simp only
    rw [hfinish, ok_bind]
    rfl
  · obtain ⟨new, rfl, -, hok, -⟩ := buildFinish_spec hread hr hfinish
    rwa [Shadow.read_write_self _ _ hreal]

/-- **A step**: a call for a low page that is not there yet returns a slot. -/
theorem PageSpace.run_ok (h : PageSpace s log T) (haddr : LowPage call.addr)
    (hplain : call.inserted.addrTrans.subpagesLog2.val = 0)
    (hnew : ∀ x ∈ log, x.call.addr ≠ call.addr) (henv : ∀ n, env.alloc n = true)
    (hfuel : 51 < fuel) :
    ∃ q s' T', call.run env fuel s = .ok (some q, s') ∧
      PageSpace s' (log ++ [⟨call, q, s'.next⟩]) T' := by
  have hrun : ∃ q s', call.run env fuel s = .ok (some q, s') := by
    cases call with
    | build a mayOverwrite =>
      obtain ⟨q, s', hbuild, -⟩ := h.asBuild_ok mayOverwrite haddr hnew henv hfuel
      exact ⟨q, s', hbuild⟩
    | insert a source =>
      obtain ⟨q, s', hbuild, hok⟩ := h.asBuild_ok true haddr hnew henv hfuel
      obtain ⟨new, hcopy⟩ := copySimple_ok (s'.read q) hplain hok
      refine ⟨q, s'.write q new, ?_⟩
      have hbuild' : asBuild env fuel a true s = .ok (some q, s') := hbuild
      have hcopy' : copySimple (s'.read q) source = some new := hcopy
      rw [BuildCall.run, asInsert, hbuild', ok_bind]
      simp only [hcopy', assertSome, ok_bind]
      rfl
  obtain ⟨q, s', hrun⟩ := hrun
  obtain ⟨s₁, q₁, r₁, hloop, hset⟩ := h.loop haddr hnew henv hfuel
  obtain ⟨hcore, T', hev, hholds, halign⟩ := call.run_spec (Q := (·.Aligned 51))
    (fun s₂ q₂ r₂ hloop' => by
      rw [hloop] at hloop'
      obtain ⟨rfl, rfl, rfl⟩ := by simpa using hloop'
      exact hset) hrun
  obtain ⟨start, hins⟩ := h.inserted
  refine ⟨q, s', T', hrun, ⟨start, hins.evolve hcore hev hholds⟩, halign, ?_, fun x hx => ?_⟩
  · have := h.next_ne
    have := hev.next
    omega
  · rcases mem_append.1 hx with hx | hx
    · exact h.low x hx
    · obtain rfl := mem_singleton.1 hx
      exact ⟨haddr, hplain⟩

end Call

/-! ### Any order -/

/-- Make calls one after the other. -/
def buildAll (env : BuildEnv) (fuel : ℕ) :
    List BuildCall → Shadow → Except Fault (List (Option ShadowPtr) × Shadow)
  | [], s => .ok ([], s)
  | call :: calls, s => do
    let (slot, s) ← call.run env fuel s
    let (slots, s) ← buildAll env fuel calls s
    pure (slot :: slots, s)

/-- **A run**: calls for different low pages all return a slot. -/
theorem PageSpace.buildAll_ok
    {calls : List BuildCall} (h : PageSpace s log T) (henv : ∀ n, env.alloc n = true)
    (hfuel : 51 < fuel) (hcalls : ∀ call ∈ calls, LowPage call.addr ∧
      call.inserted.addrTrans.subpagesLog2.val = 0 ∧ ∀ x ∈ log, x.call.addr ≠ call.addr)
    (hdistinct : calls.Pairwise fun c d => c.addr ≠ d.addr) :
    ∃ (slots : List ShadowPtr) (s' : Shadow),
      buildAll env fuel calls s = .ok (slots.map some, s') := by
  induction calls generalizing s log T with
  | nil => exact ⟨[], s, rfl⟩
  | cons call calls ih =>
    obtain ⟨hhead, htail⟩ := pairwise_cons.1 hdistinct
    obtain ⟨haddr, hplain, hnew⟩ := hcalls call (mem_cons_self ..)
    obtain ⟨q, s₁, T₁, hrun, h₁⟩ := h.run_ok haddr hplain hnew henv hfuel
    obtain ⟨slots, s', hrest⟩ := ih h₁ (fun c hc => by
      obtain ⟨haddr', hplain', hnew'⟩ := hcalls c (mem_cons_of_mem _ hc)
      refine ⟨haddr', hplain', fun x hx => ?_⟩
      rcases mem_append.1 hx with hx | hx
      · exact hnew' x hx
      · obtain rfl := mem_singleton.1 hx
        exact hhead c hc) htail
    refine ⟨q :: slots, s', ?_⟩
    rw [buildAll, hrun, ok_bind]
    simp only
    rw [hrest, ok_bind]
    rfl

/-- Only a failed allocation makes the insertion of a table answer `NULL`. -/
theorem insertTable_none {plan : TablePlan}
    (h : insertTable env fuel addr s p u plan = .ok none) : env.alloc s.next = false := by
  simp only [insertTable, bind_eq_ok] at h
  obtain ⟨_, -, _, -, h⟩ := h
  split at h
  · next halloc =>
    simp only [allocatePageTable] at halloc
    split at halloc
    · cases halloc
    · next hfail => simpa using hfail
  · exfalso
    obtain ⟨_, -, h⟩ := bind_eq_ok.1 h
    obtain ⟨_, -, h⟩ := bind_eq_ok.1 h
    obtain ⟨_, -, h⟩ := bind_eq_ok.1 h
    obtain ⟨_, -, h⟩ := bind_eq_ok.1 h
    obtain ⟨_, -, h⟩ := bind_eq_ok.1 h
    obtain ⟨_, -, h⟩ := bind_eq_ok.1 h
    split at h
    · obtain ⟨_, -, h⟩ := bind_eq_ok.1 h
      obtain ⟨_, -, h⟩ := bind_eq_ok.1 h
      split at h
      · obtain ⟨_, -, h⟩ := bind_eq_ok.1 h
        simp at h
      · simp at h
    · obtain ⟨_, -, h⟩ := bind_eq_ok.1 h
      simp at h

/-- A high page that comes first is refused: at the free root a page table is asked for, and the
code trips over the pivot that is not there. -/
theorem buildTurn_ne_ok_of_high {turn : BuildTurn}
    (hfree : s.read p = Cap.void) (hdepth : addr.depth = 51) (hhigh : 2 ^ 22 ≤ addr.num)
    (henv : ∀ n, env.alloc n = true) : buildTurn env fuel addr s p addr.depth ≠ .ok turn := by
  intro h
  have hlt : addr.num < 2 ^ 51 := by
    have hne : addr ≠ .void := VgAddr.depth_le_iff.1 (by rw [hdepth]; decide)
    have hnum := VgAddr.num_lt hne
    rwa [hdepth] at hnum
  rw [hdepth] at h
  simp only [buildTurn, hfree, Cap.void_addrTrans, AddrTrans.void_guardBits, Cap.void_type] at h
  obtain ⟨plan, hplan, h⟩ := bind_eq_ok.1 h
  cases plan with
  | none =>
    obtain ⟨-, -, hlow⟩ := planTable_none hplan
    omega
  | some plan =>
    obtain ⟨-, hw, -, -⟩ := planTable_some Cap.guardOk_void hplan
    obtain ⟨res, hinsert, -⟩ := bind_eq_ok.1 h
    cases res with
    | none => exact absurd (henv s.next) (by simp [insertTable_none hinsert])
    | some s' => exact insertTable_ne_some (by rw [hfree]; rfl) hw hinsert

theorem run_ne_ok_of_high (hroot : s.root = Cap.void)
    (hdepth : call.addr.depth = 51) (hhigh : 2 ^ 22 ≤ call.addr.num)
    (henv : ∀ n, env.alloc n = true) (res : Option ShadowPtr × Shadow) :
    call.run env fuel s ≠ .ok res := by
  have hbuild (mayOverwrite : Bool) (r : Option ShadowPtr × Shadow) :
      asBuild env fuel call.addr mayOverwrite s ≠ .ok r := by
    intro h
    simp only [asBuild, bind_eq_ok] at h
    obtain ⟨-, -, l, hloop, -⟩ := h
    cases fuel with
    | zero => simp [buildLoop] at hloop
    | succ n =>
      obtain ⟨turn, hturn, -⟩ := bind_eq_ok.1 hloop
      exact buildTurn_ne_ok_of_high (p := .root) hroot hdepth hhigh henv hturn
  intro h
  cases call with
  | build a mayOverwrite => exact hbuild mayOverwrite res h
  | insert a source =>
    simp only [BuildCall.run, asInsert, bind_eq_ok] at h
    obtain ⟨_, ⟨r, hr, -⟩, -⟩ := h
    exact hbuild true r hr

/-- **Page-table construction succeeds for a set of pages, in every order, iff the pages are below
`2 ^ 22`.** A call is `as_build`, or `as_insert` of a capability to a whole object; all allocations
succeed, and the bound on the model's loops is large enough. -/
theorem pages_build_iff (S : Finset (Fin (2 ^ 51))) :
    (∀ (env : BuildEnv) (fuel : ℕ) (s : Shadow) (call : Fin (2 ^ 51) → BuildCall)
        (order : List (Fin (2 ^ 51))),
      (∀ n, env.alloc n = true) → 51 < fuel → s.root = Cap.void → s.next ≠ 0 →
      (∀ n, (call n).addr = pageAddr n n.isLt ∧
        (call n).inserted.addrTrans.subpagesLog2.val = 0) →
      order.Nodup → order.toFinset = S →
      ∃ (slots : List ShadowPtr) (s' : Shadow),
        buildAll env fuel (order.map call) s = .ok (slots.map some, s')) ↔
    ∀ n ∈ S, n.val < 2 ^ 22 := by
  constructor
  · intro h n hn
    by_contra hhigh
    -- the page comes first
    set order := n :: (S.erase n).toList
    have hnodup : order.Nodup := by
      refine nodup_cons.2 ⟨?_, Finset.nodup_toList _⟩
      simp
    have hset : order.toFinset = S := by
      simp [order, Finset.insert_erase hn]
    obtain ⟨slots, s', hall⟩ := h checkedEnv 52 emptySpace
      (fun m => .build (pageAddr m m.isLt) false) order (fun _ => rfl) (by decide) rfl (by decide)
      (fun m => ⟨rfl, rfl⟩) hnodup hset
    obtain ⟨res, hrun, -⟩ := bind_eq_ok.1 hall
    refine run_ne_ok_of_high (s := emptySpace) rfl ?_ ?_ (fun _ => rfl) res hrun
    · exact depth_pageAddr _ _
    · change 2 ^ 22 ≤ (pageAddr n n.isLt).num
      rw [num_pageAddr]
      omega
  · intro hlow env fuel s call order henv hfuel hroot hnext hcall hnodup hset
    have hspace : PageSpace s [] .empty := ⟨⟨_, .nil hroot⟩, trivial, hnext, by simp⟩
    refine hspace.buildAll_ok henv hfuel (fun c hc => ?_) ?_
    · obtain ⟨n, hn, rfl⟩ := mem_map.1 hc
      refine ⟨?_, (hcall n).2, by simp⟩
      rw [(hcall n).1]
      refine ⟨depth_pageAddr _ _, ?_⟩
      rw [num_pageAddr]
      exact hlow n (by simpa [← hset] using hn)
    · rw [pairwise_map]
      refine hnodup.imp fun {m n} hne heq => hne ?_
      rw [(hcall m).1, (hcall n).1] at heq
      have hnum := congrArg VgAddr.num heq
      rw [num_pageAddr, num_pageAddr] at hnum
      exact Fin.ext hnum

/-- Page `2 ^ 22`, alone in an empty address space, trips an assertion. -/
theorem highPage_asserts :
    asBuild checkedEnv 80 (pageAddr (2 ^ 22) (by decide)) false emptySpace =
      .error .assertion := by
  rfl

end Viengoos
