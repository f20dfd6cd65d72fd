import Viengoos.AsBuild.Evolve

/-!
# Insertion keeps what was inserted

The loop of `as_build` on a represented tree, for an address that is apart from all entries: each
turn passes the problem on to a child (`buildTurn_spec`), so the loop ends at a free slot, and a
guard put there yields a tree with the old entries and the new one (`buildLoop_settles`). From
this, one call (`asBuild_spec`) and then whole sequences of calls.
-/

namespace Viengoos

open BitString Outcome PageTree List Function Cap Shadow

/-! ### Apart addresses -/

/-- No entry's address is a prefix of `a`, nor the other way round. -/
def Apart (t : PageTree) (p : ShadowPtr) (a : List Bool) : Prop :=
  ∀ e q, Holds t p e q → ¬ e <+: a ∧ ¬ a <+: e

variable {s s' s₁ : Shadow} {t t' : PageTree} {p q : ShadowPtr} {a : List Bool}

/-- Where the address ends, nothing is below. -/
theorem Apart.eq_empty_of_prefix (h : Apart t p a) (hfull : t.Full) (ha : a <+: t.guard) :
    t = .empty := by
  by_contra hne
  obtain ⟨e, q, hq⟩ := exists_holds hfull hne p
  obtain ⟨b, rfl⟩ := hq.exists_eq_guard_append
  exact (h _ q hq).2 (ha.trans (prefix_append _ _))

theorem Apart.child {g : List Bool} {o w i : ℕ} {ch : ℕ → PageTree} (hi : i < 2 ^ w)
    (h : Apart (.table g o w ch) p (g ++ (bits w i ++ a))) : Apart (ch i) (.slot o i) a := by
  intro e q hq
  obtain ⟨h1, h2⟩ := h _ q (.table hi hq)
  rw [prefix_append_right_inj, prefix_append_right_inj] at h1 h2
  exact ⟨h1, h2⟩

theorem Apart.evolve (h : Apart t p a) (hev : Evolves s s' t t' p fun _ => False) :
    Apart t' p a := by
  intro e q hq
  rcases hev.only e q hq with hfalse | ⟨q₀, hq₀⟩
  · exact hfalse.elim
  · exact h e q₀ hq₀

theorem Anchors.evolve {A : List Bool → Prop} (h : Anchors s t p) (hev : Evolves s s' t t' p A) :
    Anchors s' t' p where
  real := h.real
  outside := by
    intro o i hp ho
    rcases hev.oids o ho with ho | ho
    · exact h.outside o i hp ho
    · exact absurd (h.old o i hp) (Nat.not_lt.2 ho)
  old := fun o i hp => (h.old o i hp).trans_le hev.next

/-! ### Settling an address -/

/-- The slot `q` of state `s₁` settles address `a` below `p`: it is free, and giving it the low
`r` bits of `key` as guard makes it the entry for `a`, in a tree with the property `Q`. -/
def Settles (key : ℕ) (s : Shadow) (t : PageTree) (p : ShadowPtr) (a : List Bool) (s₁ : Shadow)
    (q : ShadowPtr) (r : ℕ) (Q : PageTree → Prop) : Prop :=
  s₁.read q = Cap.void ∧ (∀ d, q ≠ .fake d) ∧ r ≤ a.length ∧
    ∀ new : Cap, new.GuardOk → new.guardList = bits r key →
      ∃ t', Evolves s (s₁.write q new) t t' p (· = a) ∧ Holds t' p a q ∧ Q t'

variable {Q : PageTree → Prop}

theorem Settles.free {key u : ℕ} (hp : ∀ d, p ≠ .fake d) (hrep : Rep s .empty p)
    (hQ : Q (.entry (bits u key))) : Settles key s .empty p (bits u key) s p u Q := by
  refine ⟨hrep, hp, by simp, fun new hok hlist => ⟨.entry new.guardList, ?_, ?_, ?_⟩⟩
  · rw [← hlist]
    exact Evolves.free hp hok
  · rw [← hlist]
    exact .entry
  · rwa [hlist]

theorem Settles.child {key r : ℕ} {g : List Bool} {o w i : ℕ} {ch : ℕ → PageTree}
    (hanc : Anchors s (.table g o w ch) p) (hrep : Rep s (.table g o w ch) p)
    (hsep : (table g o w ch).Sep) (hfull : (table g o w ch).Full) (hi : i < 2 ^ w)
    (h : Settles key s (ch i) (.slot o i) a s₁ q r
      fun t' => Q (.table g o w (update ch i t'))) :
    Settles key s (.table g o w ch) p (g ++ (bits w i ++ a)) s₁ q r Q := by
  obtain ⟨hread, hreal, hlen, hnew⟩ := h
  refine ⟨hread, hreal, by simp only [length_append]; omega, fun new hok hlist => ?_⟩
  obtain ⟨t', hev, hholds, hQ⟩ := hnew new hok hlist
  refine ⟨_, (Evolves.child hanc hrep hsep hfull hi hev).mono ?_, .table hi ?_, hQ⟩
  · rintro e ⟨b, rfl, rfl⟩
    rfl
  · rwa [update_self]

theorem Settles.evolve {key r : ℕ} {s₂ : Shadow} (hev : Evolves s s₂ t t' p fun _ => False)
    (h : Settles key s₂ t' p a s₁ q r Q) : Settles key s t p a s₁ q r Q := by
  obtain ⟨hread, hreal, hlen, hnew⟩ := h
  refine ⟨hread, hreal, hlen, fun new hok hlist => ?_⟩
  obtain ⟨t'', hev', hholds, hQ⟩ := hnew new hok hlist
  exact ⟨t'', (hev.trans hev').mono fun e he => he.resolve_left id, hholds, hQ⟩

theorem Settles.mono {key r : ℕ} {Q' : PageTree → Prop} (h : Settles key s t p a s₁ q r Q)
    (hQ : ∀ t', Q t' → Q' t') : Settles key s t p a s₁ q r Q' := by
  obtain ⟨hread, hreal, hlen, hnew⟩ := h
  refine ⟨hread, hreal, hlen, fun new hok hlist => ?_⟩
  obtain ⟨t', hev, hholds, ht'⟩ := hnew new hok hlist
  exact ⟨t', hev, hholds, hQ t' ht'⟩

/-! ### One turn -/

/-- A tree ready for the address `bits u key`: represented, well formed and apart. -/
structure Ready (key : ℕ) (s : Shadow) (t : PageTree) (p : ShadowPtr) (u : ℕ) : Prop where
  anchors : Anchors s t p
  rep : Rep s t p
  sep : t.Sep
  full : t.Full
  apart : Apart t p (bits u key)

variable {key u r : ℕ}

/-- The code's comparison of the slot's guard with the address. -/
theorem guard_prefix_iff (key u : ℕ) (hrep : Rep s t p) :
    t.guard <+: bits u key ↔
      (s.read p).addrTrans.guardBits ≤ u ∧
        field key u (s.read p).addrTrans.guardBits = (s.read p).addrTrans.guard := by
  rw [← hrep.guardList_eq]
  constructor
  · intro h
    have hle : (s.read p).addrTrans.guardBits ≤ u := by simpa using h.length_le
    refine ⟨hle, ?_⟩
    have htop : bits (s.read p).addrTrans.guardBits (field key u (s.read p).addrTrans.guardBits) <+:
        bits u key := by
      rw [bits_field_append hle]
      exact prefix_append _ _
    have heq := (prefix_of_prefix_length_le h htop (by simp)).eq_of_length (by simp)
    exact (bits_injective hrep.guardOk (field_lt _ _ _) heq).symm
  · rintro ⟨hle, heq⟩
    rw [bits_field_append hle, heq]
    exact prefix_append _ _

/-- Indexing a page table. -/
theorem indexPte_spec {w : ℕ} {n : ℕ} (htype : (s.read p).type = .cappage)
    (hsub : (s.read p).addrTrans.subpage = 0)
    (hlog : (s.read p).addrTrans.subpagesLog2.val = 8 - w) (hw : w ≤ 8)
    (h : indexPte key s p u = .ok (q, n)) :
    w ≤ u ∧ q = .slot (s.read p).oid (field key u w) ∧ n = u - w := by
  have hwidth : (8 : ℤ) - ((8 - w : ℕ) : ℤ) = w := by omega
  simp only [indexPte, buildWidth, htype, hlog, hwidth, bind_eq_ok, require_eq_ok, pure_eq_ok,
    Prod.mk.injEq] at h
  obtain ⟨_, rfl, -, hle, i, hi, q', hq, rfl, rfl⟩ := h
  obtain ⟨-, -, rfl⟩ := extractBits64Inv_eq_ok hi
  simp only [doIndex, htype, AddrTrans.subpageOffset, hsub, bind_eq_ok, require_eq_ok,
    pure_eq_ok, Nat.zero_mul, Nat.zero_add, Int.toNat_natCast] at hq
  obtain ⟨-, -, -, -, rfl⟩ := hq
  exact ⟨by exact_mod_cast hle, rfl, by omega⟩

/-- What a turn passes on: a slot below which the rest of the address is to be settled, and the
tree that results once the subtree there has been dealt with. -/
def PassesOn (key : ℕ) (s : Shadow) (t : PageTree) (p : ShadowPtr) (u : ℕ) (s₁ : Shadow)
    (t₁ : PageTree) (q : ShadowPtr) (r : ℕ) (plug : PageTree → PageTree) : Prop :=
  Ready key s₁ t₁ q r ∧ ∀ Q s₂ q₂ r₂, Settles key s₁ t₁ q (bits r key) s₂ q₂ r₂ (Q ∘ plug) →
    Settles key s t p (bits u key) s₂ q₂ r₂ Q

/-- Going down a table whose guard matches. -/
theorem Ready.descend {g : List Bool} {o w : ℕ} {ch : ℕ → PageTree}
    (h : Ready key s (.table g o w ch) p u)
    (hg : g = bits g.length (field key u g.length)) (hgu : g.length ≤ u) (hle : w ≤ u - g.length) :
    let i := field key (u - g.length) w
    PassesOn key s (.table g o w ch) p u s (ch i) (.slot o i) (u - g.length - w)
      fun t' => .table g o w (update ch i t') := by
  intro i
  have hi : i < 2 ^ w := field_lt _ _ _
  have hcut : bits u key = g ++ (bits w i ++ bits (u - g.length - w) key) := by
    rw [bits_field_append hgu, bits_field_append hle, ← hg]
  refine ⟨⟨.child h.rep h.sep hi, h.rep.2.2 i hi, (h.sep.1 i hi).1, h.full.1 i hi, ?_⟩, ?_⟩
  · exact Apart.child hi (hcut ▸ h.apart)
  · intro Q s₂ q₂ r₂ hset
    rw [hcut]
    exact hset.child h.anchors h.rep h.sep h.full hi

/-- The children of a table that has been inserted in front of a tree. -/
def pivotChild (c : Cap) (gbits w : ℕ) (t : PageTree) : ℕ → PageTree :=
  Function.update (fun _ => .empty)
    (field c.addrTrans.guard (c.addrTrans.guardBits - gbits) w)
    (t.reguard (bits (c.addrTrans.guardBits - gbits - w) c.addrTrans.guard))

/-- Inserting a table in front of what is in the way. -/
theorem Ready.evolves_pivot {gbits w : ℕ} (h : Ready key s t p u) (hne : t ≠ .empty) (hw : 0 < w)
    (hw8 : w ≤ 8) (hfit : gbits + w ≤ (s.read p).addrTrans.guardBits) (hcommon : field key u gbits =
      field (s.read p).addrTrans.guard (s.read p).addrTrans.guardBits gbits)
    (hins : TableInserted s s' p gbits w) :
    Evolves s s' t (.table (bits gbits (field key u gbits)) s.next w
      (pivotChild (s.read p) gbits w t)) p fun _ => False := by
  rw [hcommon]
  exact Evolves.pivot h.anchors h.rep h.sep h.full hne hw hw8 hfit hins

/-- Going down the inserted table. -/
theorem Ready.pivot {gbits w : ℕ} (h : Ready key s t p u) (hne : t ≠ .empty) (hw : 0 < w)
    (hw8 : w ≤ 8) (hfit : gbits + w ≤ (s.read p).addrTrans.guardBits) (hle : w ≤ u - gbits)
    (hcommon : field key u gbits =
      field (s.read p).addrTrans.guard (s.read p).addrTrans.guardBits gbits)
    (hins : TableInserted s s' p gbits w) :
    let j := field key (u - gbits) w
    PassesOn key s t p u s' (pivotChild (s.read p) gbits w t j) (.slot s.next j) (u - gbits - w)
      fun t' => .table (bits gbits (field key u gbits)) s.next w
        (update (pivotChild (s.read p) gbits w t) j t') := by
  intro j
  have hev := h.evolves_pivot hne hw hw8 hfit hcommon hins
  have hready := Ready.mk (h.anchors.evolve hev) hev.rep hev.sep hev.full (h.apart.evolve hev)
  obtain ⟨hready₁, hpass⟩ := hready.descend (by simp) (by simp; omega) (by simpa using hle)
  simp only [length_bits] at hready₁ hpass
  exact ⟨hready₁, fun Q s₂ q₂ r₂ hset => (hpass Q s₂ q₂ r₂ hset).evolve hev⟩

/-- A table that the code inserts is in front of something, within its guard, and behind bits that
it shares with the address. -/
theorem Ready.insertTable_spec {env : BuildEnv} {fuel : ℕ} {addr : VgAddr} {plan : TablePlan}
    (h : Ready key s t p u) (hplan : planTable addr key u (s.read p) = .ok (some plan))
    (hinsert : insertTable env fuel addr s p u plan = .ok (some s')) :
    t ≠ .empty ∧ 0 < plan.width ∧ plan.width ≤ 8 ∧
      plan.gbits + plan.width ≤ (s.read p).addrTrans.guardBits ∧
      field key u plan.gbits =
        field (s.read p).addrTrans.guard (s.read p).addrTrans.guardBits plan.gbits ∧
      TableInserted s s' p plan.gbits plan.width := by
  obtain ⟨hneed, hw, hw8, hpivot⟩ := planTable_some h.rep.guardOk hplan
  -- a table is never put at a free slot
  have hnp : plan.needPivot = true := by
    refine hneed.2 fun hfree => ?_
    exact insertTable_ne_some hfree.2 hw hinsert
  obtain ⟨-, hfit, hcommon⟩ := hpivot hnp
  have hne : t ≠ .empty := by
    rintro rfl
    have hvoid : s.read p = void := h.rep
    refine hneed.1 hnp ?_
    rw [hvoid]
    exact ⟨rfl, rfl⟩
  have hfresh (i : ℕ) : p ≠ .slot s.next i := fun hp => lt_irrefl _ (h.anchors.old _ i hp)
  exact ⟨hne, hw, hw8, hfit, hcommon,
    Viengoos.insertTable_spec h.anchors.real hfresh hnp hw hw8 hfit hinsert⟩

/-- The matching guard of something that does not translate ends its address. -/
theorem Ready.translates_of_prefix (h : Ready key s t p u) (hg : t.guard <+: bits u key) :
    t = .empty ∨ ∃ g o w ch, t = .table g o w ch := by
  cases t with
  | empty => exact .inl rfl
  | entry g => exact absurd hg (h.apart g p .entry).1
  | table g o w ch => exact .inr ⟨g, o, w, ch, rfl⟩

/-- **A turn of the loop** stops at a free slot or passes the problem on. -/
theorem buildTurn_spec {env : BuildEnv} {fuel : ℕ} {addr : VgAddr} {turn : BuildTurn}
    (h : Ready addr.num s t p u) (hturn : buildTurn env fuel addr s p u = .ok turn) :
    (turn = .stop s p u ∧ t = .empty) ∨ turn = .null s ∨
      ∃ s₁ q r t₁ plug, turn = .next s₁ q r ∧ PassesOn addr.num s t p u s₁ t₁ q r plug := by
  have hfits := guard_prefix_iff addr.num u h.rep
  simp only [buildTurn, Bool.and_eq_true, decide_eq_true_eq] at hturn
  split at hturn
  · -- the guard is all that remains of the address
    next hstop =>
    have hlen : (bits u addr.num).length ≤ t.guard.length := by
      rw [← h.rep.guardList_eq, length_guardList, length_bits, hstop.1]
    have heq := (hfits.2 hstop.2).eq_of_length_le hlen
    have hempty := h.apart.eq_empty_of_prefix h.full (heq ▸ prefix_rfl)
    exact .inl ⟨(pure_eq_ok.1 hturn).symm, hempty⟩
  split at hturn
  · next htrans =>
    obtain ⟨-, -, ⟨q, r⟩, hindex, hturn⟩ := by simpa only [bind_eq_ok] using hturn
    obtain ⟨htype, hg⟩ := htrans
    rcases h.translates_of_prefix (hfits.2 hg) with rfl | ⟨g, o, w, ch, rfl⟩
    · have hvoid : s.read p = void := h.rep
      rw [hvoid] at htype
      exact absurd htype (by decide)
    · right; right
      have hbits : g = bits (s.read p).addrTrans.guardBits (s.read p).addrTrans.guard :=
        h.rep.guardList_eq.symm
      have hlen : g.length = (s.read p).addrTrans.guardBits := by rw [hbits, length_bits]
      obtain ⟨⟨htype, hoid, hsub, hlog, -, -⟩, ⟨-, -, -, hw⟩, -⟩ := h.rep
      obtain ⟨hle, rfl, rfl⟩ := indexPte_spec htype hsub hlog hw hindex
      rw [← hlen] at hle hturn
      have hpass := h.descend (by rw [hlen, hg.2, ← hbits]) (hlen.trans_le hg.1) hle
      rw [hoid] at hturn
      exact ⟨_, _, _, _, _, (pure_eq_ok.1 hturn).symm, hpass⟩
  · obtain ⟨plan, hplan, hturn⟩ := bind_eq_ok.1 hturn
    cases plan with
    | none =>
      obtain ⟨hvoid, hgb, -⟩ := planTable_none hplan
      left
      refine ⟨(pure_eq_ok.1 hturn).symm, ?_⟩
      have hnil : t.guard = [] := by
        rw [← h.rep.guardList_eq, guardList, hgb]
        rfl
      rcases h.translates_of_prefix (hnil ▸ nil_prefix) with rfl | ⟨g, o, w, ch, rfl⟩
      · rfl
      · have htype := h.rep.1.1
        rw [hvoid] at htype
        exact absurd htype (by decide)
    | some plan =>
      obtain ⟨res, hinsert, hturn⟩ := bind_eq_ok.1 hturn
      cases res with
      | none => exact .inr (.inl (pure_eq_ok.1 hturn).symm)
      | some s' =>
        obtain ⟨⟨q, r⟩, hindex, hturn⟩ := bind_eq_ok.1 hturn
        obtain ⟨hne, hw, hw8, hfit, hcommon, hins⟩ := h.insertTable_spec hplan hinsert
        obtain ⟨hle, rfl, rfl⟩ := indexPte_spec hins.type hins.subpage hins.log2 hw8 hindex
        rw [hins.oid] at hturn
        exact .inr (.inr ⟨_, _, _, _, _, (pure_eq_ok.1 hturn).symm,
          h.pivot hne hw hw8 hfit hle hcommon hins⟩)

/-- **The loop** ends at a slot that settles the address. -/
theorem buildLoop_settles {env : BuildEnv} {fuel n : ℕ} {addr : VgAddr} (h : Ready addr.num s t p u)
    (hloop : buildLoop env fuel addr n s p u = .ok (.inr (s₁, q, r))) :
    Settles addr.num s t p (bits u addr.num) s₁ q r fun _ => True := by
  -- induction on the turns; each passes the address on to a child
  induction n generalizing s t p u with
  | zero => simp [buildLoop] at hloop
  | succ n ih =>
    obtain ⟨turn, hturn, hloop⟩ := bind_eq_ok.1 hloop
    rcases buildTurn_spec h hturn with
      ⟨rfl, rfl⟩ | rfl | ⟨s', q', r', t', plug, rfl, hready, hpass⟩
    · obtain ⟨rfl, rfl, rfl⟩ := by simpa using hloop
      exact .free h.anchors.real h.rep trivial
    · simp at hloop
    · simp only at hloop
      split at hloop
      · exact hpass _ _ _ _ (ih hready hloop)
      · next hr =>
        obtain ⟨rfl, rfl, rfl⟩ := by simpa using hloop
        obtain rfl : r' = 0 := Nat.eq_zero_of_not_pos hr
        obtain rfl := hready.apart.eq_empty_of_prefix hready.full nil_prefix
        exact hpass _ _ _ _ (.free hready.anchors.real hready.rep trivial)

/-! ### One call -/

variable {env : BuildEnv} {fuel : ℕ}

section Call

variable {addr : VgAddr}

/-- A self check changes nothing. -/
private theorem eq_of_check {x : Except Fault Unit}
    (h : (if env.debug = true then (do x; pure s) else pure s : Except Fault Shadow) = .ok s') :
    s = s' := by
  split at h
  · obtain ⟨-, -, h⟩ := bind_eq_ok.1 h
    exact pure_eq_ok.1 h
  · exact pure_eq_ok.1 h

/-- After the loop a free slot gets the rest of the address as guard, and nothing else. -/
theorem buildFinish_spec {mayOverwrite : Bool} (hfree : s.read p = void) (hu : u < 64)
    (h : buildFinish env fuel addr mayOverwrite s p u = .ok s') :
    ∃ new, s' = s.write p new ∧ new.core = void.core ∧ new.GuardOk ∧
      new.guardList = bits u addr.num := by
  simp only [buildFinish, hfree] at h
  obtain ⟨-, -, h⟩ := bind_eq_ok.1 h
  obtain ⟨g, hg, hrest⟩ := bind_eq_ok.1 h
  obtain ⟨-, -, -, rfl⟩ := extractBits64_eq_ok hg
  simp only [Int.toNat_zero, pow_zero, Nat.div_one, Int.toNat_natCast] at hrest
  split at hrest
  · obtain ⟨word, hword, hrest⟩ := bind_eq_ok.1 hrest
    obtain ⟨new, hnew, hrest⟩ := bind_eq_ok.1 hrest
    obtain ⟨hcore, hng, hnb⟩ := copyX_guard_spec (assertSome_eq_ok.1 hnew)
    obtain ⟨hwg, hwb, -, -, -, -, hlt⟩ :=
      AddrTrans.setGuardSubpage_spec hu (assertSome_eq_ok.1 hword)
    refine ⟨new, (eq_of_check hrest).symm, hcore, ?_, ?_⟩
    · rwa [Cap.GuardOk, hng, hnb, hwg, hwb]
    · rw [guardList, hng, hnb, hwg, hwb, bits_mod]
  · -- no bits are left and the slot has no guard already
    next hsame =>
    obtain rfl : u = 0 := by
      by_contra hne
      exact hsame (.inl hne)
    refine ⟨void, ?_, rfl, guardOk_void, rfl⟩
    rw [← hfree, write_read]
    exact (eq_of_check hrest).symm

/-- **One call of `as_build`** whose loop settles the address: whatever is put in the slot it
returns, without changing the guard there, the old entries are kept and the slot is the new
one. -/
theorem asBuild_spec {mayOverwrite : Bool}
    (hsettles : ∀ s₁ q r, buildLoop env fuel addr fuel s .root addr.depth = .ok (.inr (s₁, q, r)) →
      Settles addr.num s t .root addr.bits s₁ q r Q)
    (hbuild : asBuild env fuel addr mayOverwrite s = .ok (some q, s')) :
    (∀ d, q ≠ .fake d) ∧ (s'.read q).core = void.core ∧
      ∀ new : Cap, new.addrTrans.guard = (s'.read q).addrTrans.guard →
        new.addrTrans.guardBits = (s'.read q).addrTrans.guardBits →
        ∃ t', Evolves s (s'.write q new) t t' .root (· = addr.bits) ∧
          Holds t' .root addr.bits q ∧ Q t' := by
  simp only [asBuild, bind_eq_ok, require_eq_ok] at hbuild
  obtain ⟨-, hvoid, res, hloop, hbuild⟩ := hbuild
  cases res with
  | inl s => simp at hbuild
  | inr res =>
    obtain ⟨s₁, q', r⟩ := res
    simp only [bind_eq_ok, pure_eq_ok, Prod.mk.injEq, Option.some.injEq] at hbuild
    obtain ⟨s₂, hfinish, rfl, rfl⟩ := hbuild
    obtain ⟨hread, hreal, hlen, hnew⟩ := hsettles s₁ q' r hloop
    have hdepth : addr.depth ≤ vgAddrBits := VgAddr.depth_le_iff.2 hvoid
    rw [VgAddr.length_bits] at hlen
    obtain ⟨built, rfl, hcore, hok, hlist⟩ :=
      buildFinish_spec hread (hlen.trans_lt (Nat.lt_succ_of_le hdepth)) hfinish
    rw [read_write_self _ _ hreal]
    refine ⟨hreal, hcore, fun new hg hb => ?_⟩
    rw [write_write]
    exact hnew new (by rwa [Cap.GuardOk, hg, hb]) (by rwa [guardList, hg, hb])

/-- `vg_cap_copy_simple` gives the target everything but its guard. -/
theorem copySimple_spec {target source new : Cap} (h : copySimple target source = some new) :
    new.core = source.core ∧ new.addrTrans.guard = target.addrTrans.guard ∧
      new.addrTrans.guardBits = target.addrTrans.guardBits := by
  obtain ⟨sub, hsub, hstore⟩ := copyX_eq_some.1 h
  obtain ⟨hoid, hver, htype, hdisc, hprio, hg, hb, hp, hn, -⟩ := copyStore_spec hstore
  have hsub' : sub = (source.addrTrans.subpage, source.addrTrans.subpages) :=
    (Option.some.inj hsub).symm
  subst hsub'
  refine ⟨?_, hg, hb⟩
  rw [core, core, hoid, hver, hp, hn, policy, policy, hdisc, hprio, htype]
  rfl

end Call

/-! ### A sequence of calls -/

/-- A call of the library. -/
inductive BuildCall
  | build (addr : VgAddr) (mayOverwrite : Bool)
  | insert (addr : VgAddr) (source : Cap)

namespace BuildCall

/-- The address the call is made for. -/
def addr : BuildCall → VgAddr
  | build a _ => a
  | insert a _ => a

/-- The capability the call leaves at its address: nothing but a guard after `as_build`. -/
def inserted : BuildCall → Cap
  | build _ _ => .void
  | insert _ source => source

/-- Make the call: the slot for the address, or `none` for `NULL`. -/
def run (env : BuildEnv) (fuel : ℕ) : BuildCall → Shadow → Except Fault (Option ShadowPtr × Shadow)
  | build a mayOverwrite, s => asBuild env fuel a mayOverwrite s
  | insert a source, s => do
    let (slot, s) ← asInsert env fuel a source s
    pure (some slot, s)

/-- **One call** whose loop settles the address adds its capability and keeps all entries. -/
theorem run_spec {call : BuildCall} (hsettles : ∀ s₁ q r,
      buildLoop env fuel call.addr fuel s .root call.addr.depth = .ok (.inr (s₁, q, r)) →
      Settles call.addr.num s t .root call.addr.bits s₁ q r Q)
    (hrun : call.run env fuel s = .ok (some q, s')) :
    (s'.read q).core = call.inserted.core ∧
      ∃ t', Evolves s s' t t' .root (· = call.addr.bits) ∧ Holds t' .root call.addr.bits q ∧
        Q t' := by
  cases call with
  | build a mayOverwrite =>
    obtain ⟨-, hcore, hnew⟩ := asBuild_spec hsettles hrun
    have hsame := hnew _ rfl rfl
    rw [write_read] at hsame
    exact ⟨hcore, hsame⟩
  | insert a source =>
    simp only [run, asInsert, bind_eq_ok, pure_eq_ok, Prod.mk.injEq, Option.some.injEq] at hrun
    obtain ⟨⟨_, _⟩, ⟨⟨slot, s₁⟩, hbuild, hcopy⟩, rfl, rfl⟩ := hrun
    cases slot with
    | none => simp at hcopy
    | some slot =>
      simp only [bind_eq_ok, assertSome_eq_ok, pure_eq_ok, Prod.mk.injEq] at hcopy
      obtain ⟨new, hsimple, rfl, rfl⟩ := hcopy
      obtain ⟨hreal, -, hnew⟩ := asBuild_spec hsettles hbuild
      obtain ⟨hcore, hg, hb⟩ := copySimple_spec hsimple
      refine ⟨?_, hnew new hg hb⟩
      rw [read_write_self _ _ hreal]
      exact hcore

end BuildCall

/-- What happened in a call: the slot returned, and the number of the first page table that a
later call can allocate. -/
structure Built where
  call : BuildCall
  slot : ShadowPtr
  next : ℕ

/-- A sequence of calls that all return a slot, each with its own allocations. -/
inductive Builds : Shadow → List Built → Shadow → Prop
  | nil {s : Shadow} : Builds s [] s
  | snoc {s s₁ s' : Shadow} {log : List Built} {call : BuildCall} {q : ShadowPtr} {env : BuildEnv}
      {fuel : ℕ} : Builds s log s₁ → call.run env fuel s₁ = .ok (some q, s') →
      Builds s (log ++ [⟨call, q, s'.next⟩]) s'

/-- No address of a call is a prefix of another's. -/
def PrefixFree (log : List Built) : Prop :=
  log.Pairwise fun x y =>
    ¬ x.call.addr.bits <+: y.call.addr.bits ∧ ¬ y.call.addr.bits <+: x.call.addr.bits

/-- **The state after a sequence of calls**: a tree whose entries are those of the calls, in page
tables from number `start` on. -/
structure Inserted (start : ℕ) (s : Shadow) (log : List Built) (t : PageTree) : Prop where
  rep : Rep s t .root
  sep : t.Sep
  full : t.Full
  entries : ∀ x ∈ log, ∃ q, Holds t .root x.call.addr.bits q ∧
    (s.read q).core = x.call.inserted.core ∧
    (q = x.slot ∨ ∃ o i, q = .slot o i ∧ x.next ≤ o)
  next : ∀ x ∈ log, x.next ≤ s.next
  start_le : start ≤ s.next
  oids : ∀ o ∈ t.oids, start ≤ o
  only : ∀ e q, Holds t .root e q → ∃ x ∈ log, e = x.call.addr.bits

theorem Inserted.nil (h : s.root = void) : Inserted s.next s [] .empty where
  rep := h
  sep := trivial
  full := trivial
  only := fun e q hq => nomatch hq
  entries := by simp
  next := by simp
  start_le := le_rfl
  oids := fun o ho => ho.elim

/-- Addresses that are no prefixes of each other are apart. -/
theorem Inserted.ready {start : ℕ} {log : List Built} (h : Inserted start s log t) (addr : VgAddr)
    (hfree : ∀ x ∈ log, ¬ x.call.addr.bits <+: addr.bits ∧ ¬ addr.bits <+: x.call.addr.bits) :
    Ready addr.num s t .root addr.depth := by
  have hanc : Anchors s t .root := ⟨by simp, by simp [Outside], by simp⟩
  refine ⟨hanc, h.rep, h.sep, h.full, fun e q hq => ?_⟩
  obtain ⟨x, hx, rfl⟩ := h.only e q hq
  exact hfree x hx

/-- One more entry. -/
theorem Inserted.evolve {start : ℕ} {log : List Built} {call : BuildCall}
    (h : Inserted start s log t) (hcore : (s'.read q).core = call.inserted.core)
    (hev : Evolves s s' t t' .root (· = call.addr.bits))
    (hholds : Holds t' .root call.addr.bits q) :
    Inserted start s' (log ++ [⟨call, q, s'.next⟩]) t' := by
  refine ⟨hev.rep, hev.sep, hev.full, fun x hx => ?_, fun x hx => ?_,
    h.start_le.trans hev.next, fun o ho => ?_, fun e r hr => ?_⟩
  · rcases mem_append.1 hx with hx | hx
    · obtain ⟨r, hr, hrcore, hloc⟩ := h.entries x hx
      obtain ⟨r', hr', hcore', hloc'⟩ := hev.old _ r hr
      refine ⟨r', hr', hcore'.trans hrcore, ?_⟩
      rcases hloc' with rfl | ⟨o, i, rfl, ho⟩
      · exact hloc
      · exact .inr ⟨o, i, rfl, (h.next x hx).trans ho⟩
    · obtain rfl := mem_singleton.1 hx
      exact ⟨q, hholds, hcore, .inl rfl⟩
  · rcases mem_append.1 hx with hx | hx
    · exact (h.next x hx).trans hev.next
    · obtain rfl := mem_singleton.1 hx
      exact le_rfl
  · exact (hev.oids o ho).elim (h.oids o) h.start_le.trans
  · rcases hev.only e r hr with rfl | ⟨r₀, hr₀⟩
    · exact ⟨_, mem_append_right _ (mem_singleton_self _), rfl⟩
    · obtain ⟨x, hx, rfl⟩ := h.only e r₀ hr₀
      exact ⟨x, mem_append_left _ hx, rfl⟩

/-- A step: one more call. -/
theorem Inserted.snoc {start : ℕ} {log : List Built} {call : BuildCall} (h : Inserted start s log t)
    (hfree : ∀ x ∈ log, ¬ x.call.addr.bits <+: call.addr.bits ∧
      ¬ call.addr.bits <+: x.call.addr.bits)
    (hrun : call.run env fuel s = .ok (some q, s')) :
    ∃ t', Inserted start s' (log ++ [⟨call, q, s'.next⟩]) t' := by
  obtain ⟨hcore, t', hev, hholds, -⟩ :=
    call.run_spec (fun _ _ _ => buildLoop_settles (h.ready _ hfree)) hrun
  exact ⟨t', h.evolve hcore hev hholds⟩

/-- **Every run** from a void root ends in such a state. -/
theorem Builds.inserted {log : List Built} (h : Builds s log s') (hroot : s.root = void)
    (hfree : PrefixFree log) : ∃ t, Inserted s.next s' log t := by
  induction h with
  | nil => exact ⟨.empty, .nil hroot⟩
  | @snoc s₁ s' log call q env fuel _ hrun ih =>
    obtain ⟨hlog, -, hlast⟩ := pairwise_append.1 hfree
    have hnew : ∀ x ∈ log, ¬ x.call.addr.bits <+: call.addr.bits ∧
        ¬ call.addr.bits <+: x.call.addr.bits :=
      fun x hx => hlast x hx ⟨call, q, s'.next⟩ (mem_singleton_self _)
    obtain ⟨t, ht⟩ := ih hlog
    exact ht.snoc hnew hrun

end Viengoos
