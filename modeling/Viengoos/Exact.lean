import Viengoos.Shadow

/-!
# Exactness of address translation

A successful lookup should have consumed exactly the bits of the address: guard by guard and
index by index. It does so precisely when no comparison lost bits. `as_lookup_rel_internal` keeps
the extracted guard in an `int`, so of a guard deeper than 32 bits only the low 32 are compared,
and it enters its loop only for a non-empty address, so that a guarded root is returned as the
object at the empty address. `ComparedInFull` says that neither happened, and
`lookup_exact_iff` that it is all there is to exactness.
-/

namespace Viengoos

open BitString List Shadow

variable {σ P : Type}

/-! ### What a path spells -/

/-- The bits a traversed capability stands for: its guard, then the index selected. -/
def Hop.bits (h : Hop) : List Bool :=
  BitString.bits h.cap.addrTrans.guardBits h.cap.addrTrans.guard ++ BitString.bits h.width h.index

/-- The slot a hop selects, as object and slot number. -/
def Hop.selected (h : Hop) : ℕ × ℕ := (h.object, indexBase h.cap + h.index)

/-- The path of slots a lookup went through. -/
def LookupRet.slots (ret : LookupRet P) : List (ℕ × ℕ) := ret.hops.map Hop.selected

/-- The bits a path spells, from most significant to least. -/
def LookupRet.pathBits (ret : LookupRet P) : List Bool :=
  ret.hops.flatMap Hop.bits ++
    if ret.guardDone then bits ret.cap.addrTrans.guardBits ret.cap.addrTrans.guard else []

/-- **Exact translation**: the address is what the path spells, and in object mode the final
guard is part of it. -/
def Exact (a : VgAddr) (mode : LookupMode) (ret : LookupRet P) : Prop :=
  a.bits = ret.pathBits ∧
    (mode = .wantObject → ret.guardDone = true ∨ ret.cap.addrTrans.guardBits = 0)

instance (a : VgAddr) (mode : LookupMode) (ret : LookupRet P) : Decidable (Exact a mode ret) :=
  inferInstanceAs (Decidable (_ ∧ _))

/-! ### What the code compares -/

/-- At every capability to which the address leads from `root`, the address bits that its guard is
compared with **fit in 32 bits**. -/
def GuardsFit (m : Memory σ P) (s : σ) (root : P) (addr u : ℕ) : Prop :=
  ∀ hs s' p u', Walks m addr s root u hs s' p u' → GuardPasses addr u' (m.cap s' p) →
    field addr u' (m.cap s' p).addrTrans.guardBits < 2 ^ 32

/-- The lookup compares every guard bit: no guard meets address bits above the 32nd, and it is not
the empty address that is looked up at a guarded root in object mode. -/
def ComparedInFull (m : Memory σ P) (s : σ) (root : P) (a : VgAddr) (mode : LookupMode) : Prop :=
  GuardsFit m s root a.num a.depth ∧
    ¬ (mode = .wantObject ∧ a.depth = 0 ∧ (m.cap s root).addrTrans.guardBits ≠ 0)

variable {addr u u' : ℕ} {m : Memory σ P} {s s₁ s₂ s' : σ} {p p' : P} {hs : List Hop}

/-- A guard that passes is the address's bits iff these fit in the `int`. -/
theorem GuardPasses.bits_eq_iff {c : Cap} (h : GuardPasses addr u c) :
    bits c.addrTrans.guardBits (field addr u c.addrTrans.guardBits) =
        bits c.addrTrans.guardBits c.addrTrans.guard ↔
      field addr u c.addrTrans.guardBits < 2 ^ 32 := by
  rcases h with h0 | ⟨-, hcmp⟩
  · simp [h0]
  · rw [bits_eq_iff_mod, Nat.mod_eq_of_lt (field_lt _ _ _)]
    constructor
    · intro heq
      have hle := Nat.mod_le c.addrTrans.guard (2 ^ c.addrTrans.guardBits)
      omega
    · intro hlt
      rw [Nat.mod_eq_of_lt hlt] at hcmp
      rw [← hcmp, Nat.mod_eq_of_lt (field_lt _ _ _)]

/-- An address can make only one hop from a slot. -/
theorem Steps.unique {u₁ u₂ : ℕ} {p₁ p₂ : P} {h₁ h₂ : Hop} (h : Steps m addr s p u h₁ s₁ p₁ u₁)
    (h' : Steps m addr s p u h₂ s₂ p₂ u₂) :
    h₁ = h₂ ∧ s₁ = s₂ ∧ p₁ = p₂ ∧ u₁ = u₂ := by
  have hcap : h₁.cap = h₂.cap := h.cap.trans h'.cap.symm
  have hwidth : h₁.width = h₂.width :=
    Option.some.inj (h.width.symm.trans (hcap ▸ h'.width))
  have hu : u₁ = u₂ := by
    have h1 := h.bits
    have h2 := h'.bits
    rw [hcap, hwidth] at h1
    omega
  have hindex : h₁.index = h₂.index := by rw [h.index, h'.index, hwidth, hu]
  obtain ⟨hs, ho⟩ := Prod.mk.inj (Except.ok.inj (h.object.symm.trans h'.object))
  have hhop : h₁ = h₂ := by
    cases h₁
    cases h₂
    simp_all
  exact ⟨hhop, hs, by rw [h.target, h'.target, hhop, hs], hu⟩

/-- What `GuardsFit` says of the slots after the first hop. -/
theorem guardsFit_step_iff {hop : Hop} (h : Steps m addr s p u hop s' p' u') :
    GuardsFit m s p addr u ↔
      field addr u hop.cap.addrTrans.guardBits < 2 ^ 32 ∧ GuardsFit m s' p' addr u' := by
  constructor
  · intro hfit
    refine ⟨?_, fun hs t q v hwalk => hfit (hop :: hs) t q v (.cons h hwalk)⟩
    rw [h.cap]
    exact hfit [] s p u .nil (h.cap ▸ h.guard)
  · rintro ⟨hhead, htail⟩ hs t q v hwalk hpass
    cases hwalk with
    | nil => rwa [← h.cap]
    | cons hstep hrest =>
      obtain ⟨rfl, rfl, rfl, rfl⟩ := h.unique hstep
      exact htail _ t q v hrest hpass

/-- Where the address ends, `GuardsFit` only speaks of the guard there. -/
theorem guardsFit_end_iff (h : u ≤ (m.cap s p).addrTrans.guardBits)
    (hpass : u = 0 ∨ GuardPasses addr u (m.cap s p)) :
    GuardsFit m s p addr u ↔ (0 < u → addr % 2 ^ u < 2 ^ 32) := by
  have hmod : field addr u u = addr % 2 ^ u := by simp [field]
  constructor
  · intro hfit hpos
    have hp := hpass.resolve_left hpos.ne'
    have hu : u = (m.cap s p).addrTrans.guardBits := le_antisymm h hp.le
    have := hfit [] s p u .nil hp
    rwa [← hu, hmod] at this
  · intro hlow hs t q v hwalk hp
    cases hwalk with
    | nil =>
      have hu : u = (m.cap s p).addrTrans.guardBits := le_antisymm h hp.le
      rw [← hu, hmod]
      rcases Nat.eq_zero_or_pos u with rfl | hpos
      · simp [Nat.mod_one]
      · exact hlow hpos
    | cons hstep _ =>
      -- a hop would need bits beyond the guard
      have h1 := hstep.bits
      have h2 := hstep.pos
      rw [hstep.cap] at h1
      omega

/-- Along a walk, the address is the bits of the hops followed by what is left, and the guards at
its end fit, iff all guards fit. -/
theorem Walks.bits_eq_iff (h : Walks m addr s p u hs s' p' u') :
    bits u addr = hs.flatMap Hop.bits ++ bits u' addr ∧ GuardsFit m s' p' addr u' ↔
      GuardsFit m s p addr u := by
  induction h with
  | nil => simp
  | @cons s s₁ s' p p₁ p' u u₁ u' hop hs hstep _ ih =>
    have hguard : hop.cap.addrTrans.guardBits ≤ u := hstep.guard.le
    have hrest : u - hop.cap.addrTrans.guardBits = hop.width + u₁ := by
      have := hstep.bits
      omega
    have hsplit : bits u addr =
        bits hop.cap.addrTrans.guardBits (field addr u hop.cap.addrTrans.guardBits) ++
          (bits hop.width hop.index ++ bits u₁ addr) := by
      rw [bits_field_append hguard, hrest, bits_field_append (Nat.le_add_right hop.width u₁),
        ← hstep.index, Nat.add_sub_cancel_left]
    rw [guardsFit_step_iff hstep, ← ih, hsplit, flatMap_cons, Hop.bits, append_assoc,
      append_assoc, append_eq_append_iff_of_size_eq_left (by simp),
      hstep.guard.bits_eq_iff, append_cancel_left_eq, and_assoc]

/-- The bits a walk starts with are those of its hops and those it ends with. -/
theorem Walks.depth_eq (h : Walks m addr s p u hs s' p' u') :
    u = (hs.map fun hop => hop.cap.addrTrans.guardBits + hop.width).sum + u' := by
  induction h with
  | nil => simp
  | cons hstep _ ih =>
    have := hstep.bits
    simp only [map_cons, sum_cons]
    omega

/-- **A path of slots is walked in one way**: from one state and slot, walks that select the same
slots are the same walk. -/
theorem Walks.eq_of_selected_eq {a b v v' : ℕ} {p₁ p₂ : P} {hs' : List Hop}
    (h : Walks m a s p u hs s₁ p₁ u') (h' : Walks m b s p v hs' s₂ p₂ v')
    (heq : hs.map Hop.selected = hs'.map Hop.selected) : hs = hs' ∧ s₁ = s₂ ∧ p₁ = p₂ := by
  induction h generalizing v hs' with
  | nil =>
    cases h' with
    | nil => exact ⟨rfl, rfl, rfl⟩
    | cons => simp at heq
  | @cons _ t _ _ q _ _ _ _ hop hs hstep _ ih =>
    cases h' with
    | nil => simp at heq
    | @cons _ t' _ _ q' _ _ _ _ hop' hs' hstep' hwalk' =>
      rw [map_cons, map_cons, cons.injEq] at heq
      obtain ⟨hsel, htail⟩ := heq
      have hcap : hop.cap = hop'.cap := hstep.cap.trans hstep'.cap.symm
      obtain ⟨rfl, -⟩ := Prod.mk.inj (Except.ok.inj (hstep.object.symm.trans hstep'.object))
      have hwidth : hop.width = hop'.width := by
        have := hstep.width.symm.trans (hcap ▸ hstep'.width)
        exact Option.some.inj this
      simp only [Hop.selected, Prod.mk.injEq, hcap, Nat.add_left_cancel_iff] at hsel
      have hhop : hop = hop' := by
        cases hop
        cases hop'
        simp_all
      subst hhop
      obtain rfl : q = q' := hstep.target.trans hstep'.target.symm
      obtain ⟨rfl, hs, hp⟩ := ih hwalk' htail
      exact ⟨rfl, hs, hp⟩

/-! ### The main statement -/

/-- Splitting off the bits that the final guard takes. -/
private theorem bits_append_inj_right {d : ℕ} {l r : List Bool} (hu : u ≤ d) (hlen : r.length = u) :
    bits d addr = l ++ r ↔ bits d addr = l ++ bits u addr ∧ bits u addr = r := by
  have hsplit : bits d addr = bits (d - u) (addr / 2 ^ u) ++ bits u addr := by
    rw [← bits_add, Nat.sub_add_cancel hu]
  constructor
  · intro heq
    rw [hsplit] at heq
    obtain ⟨h1, h2⟩ := append_inj' heq (by simp [hlen])
    rw [hsplit, h1]
    exact ⟨rfl, h2⟩
  · rintro ⟨h1, h2⟩
    rw [h1, h2]

/-- For a successful lookup, exactness is full comparison. -/
theorem Resolves.exact_iff {root : P} {a : VgAddr} {type : Option CapType} {mode : LookupMode}
    {ret : LookupRet P} (h : Resolves m s root a type mode s' ret) :
    Exact a mode ret ↔ ComparedInFull m s root a mode := by
  obtain ⟨u, hwalk, hstop⟩ := h.walk
  have hbits := hwalk.bits_eq_iff
  have hdepth := hwalk.depth_eq
  rw [Exact, ComparedInFull, VgAddr.bits, LookupRet.pathBits, ← hbits]
  rcases hstop with ⟨hdone, rfl, hobj⟩ | ⟨hdone, hpos, hall, hpass⟩
  · -- no bits are left, so only object mode can leave a guard over
    rw [hdone, guardsFit_end_iff (Nat.zero_le _) (.inl rfl)]
    simp only [Bool.false_eq_true, if_false, bits_zero, append_nil, false_or, lt_irrefl,
      false_implies, and_true]
    refine and_congr_right fun _ => ⟨?_, ?_⟩
    · rintro h0 ⟨hm, hd, hne⟩
      -- at the empty address the walk has not left the root
      rw [hd] at hwalk
      obtain ⟨-, hs, hp, -⟩ := hwalk.of_zero
      exact hne (by rw [← hs, ← hp, ← h.cap]; exact h0 hm)
    · intro hne hm
      by_contra h1
      rcases hobj hm with hnil | h0
      · rw [hnil] at hwalk
        obtain ⟨hs, hp, hd⟩ := hwalk.nil_inv
        exact hne ⟨hm, hd.symm, by rwa [← hs, ← hp, ← h.cap]⟩
      · exact h1 h0
  · -- the final guard took the rest
    have hcap := h.cap
    have hfield : field a.num u u = a.num % 2 ^ u := by simp [field]
    have hfinal := hpass.bits_eq_iff
    rw [← hall, hfield, bits_mod] at hfinal
    rw [guardsFit_end_iff (hcap ▸ hall.le) (.inr (hcap ▸ hpass)), hdone, ← hall,
      ← hfinal]
    rw [bits_append_inj_right (u := u) (by omega) (by simp)]
    have hne : ¬ (mode = .wantObject ∧ a.depth = 0 ∧
        (m.cap s root).addrTrans.guardBits ≠ 0) := by
      rintro ⟨-, h0, -⟩
      omega
    simp [hpos, hne]

/-- Exact lookups of one depth along one path are lookups of one address. -/
theorem Resolves.eq_of_slots_eq {root : P} {a b : VgAddr} {type type' : Option CapType}
    {mode mode' : LookupMode} {ra rb : LookupRet P} (ha : Resolves m s root a type mode s₁ ra)
    (hb : Resolves m s root b type' mode' s₂ rb) (hva : a ≠ .void) (hvb : b ≠ .void)
    (hdepth : a.depth = b.depth) (hea : Exact a mode ra) (heb : Exact b mode' rb)
    (hslots : ra.slots = rb.slots) : a = b := by
  obtain ⟨u, hwa, hsa⟩ := ha.walk
  obtain ⟨v, hwb, hsb⟩ := hb.walk
  obtain ⟨hhops, rfl, hslot⟩ := hwa.eq_of_selected_eq hwb hslots
  have hcap : ra.cap = rb.cap := by rw [ha.cap, hb.cap, hslot]
  have huv : u = v := by
    have hda := hwa.depth_eq
    have hdb := hwb.depth_eq
    rw [hhops] at hda
    omega
  have hdone : ra.guardDone = rb.guardDone := by
    rcases hsa with ⟨h1, h2, -⟩ | ⟨h1, h2, -⟩ <;> rcases hsb with ⟨h3, h4, -⟩ | ⟨h3, h4, -⟩ <;>
      first | omega | rw [h1, h3]
  apply VgAddr.eq_of_bits_eq hva hvb
  rw [hea.1, heb.1, LookupRet.pathBits, LookupRet.pathBits, hhops, hcap, hdone]

/-- **Translation is exact iff the comparisons were full**, for every memory, root, address,
requested type and mode in which the lookup succeeds; and addresses of one depth that resolve with
full comparisons through the same path of slots are equal. -/
theorem lookup_exact_iff {σ P : Type} (m : Memory σ P) (s : σ) (root : P) :
    (∀ (fuel : ℕ) (a : VgAddr) (type : Option CapType) (mode : LookupMode) (s' : σ)
        (ret : LookupRet P), asLookupRel m fuel root a type mode s = .ok (s', some ret) →
      (Exact a mode ret ↔ ComparedInFull m s root a mode)) ∧
    (∀ (fuel fuel' : ℕ) (a b : VgAddr) (type type' : Option CapType) (mode mode' : LookupMode)
        (s₁ s₂ : σ) (ra rb : LookupRet P), a.depth ≤ vgAddrBits → a.depth = b.depth →
      asLookupRel m fuel root a type mode s = .ok (s₁, some ra) →
      asLookupRel m fuel' root b type' mode' s = .ok (s₂, some rb) →
      ComparedInFull m s root a mode → ComparedInFull m s root b mode' → ra.slots = rb.slots →
      a = b) := by
  refine ⟨fun fuel a type mode s' ret h => (asLookupRel_sound h).exact_iff, ?_⟩
  intro fuel fuel' a b type type' mode mode' s₁ s₂ ra rb hd hdepth ha hb hfa hfb hslots
  have hra := asLookupRel_sound ha
  have hrb := asLookupRel_sound hb
  exact hra.eq_of_slots_eq hrb (VgAddr.depth_le_iff.1 hd) (VgAddr.depth_le_iff.1 (hdepth ▸ hd))
    hdepth (hra.exact_iff.2 hfa) (hrb.exact_iff.2 hfb) hslots

/-- A guarded cappage as root, with a guarded page in its slot 7. -/
def guardedTable : Shadow where
  root := { Cap.void with type := .cappage, oid := 1, addrTrans := ⟨5, 0, 3⟩ }
  caps o i :=
    if o = 1 ∧ i = 7 then { Cap.void with type := .page, oid := 2, addrTrans := ⟨3, 0, 4⟩ }
    else .void
  next := 3

/-- The address `101 00000111 0011` of the page in `guardedTable`. -/
def guardedAddr : VgAddr := .ofNum 15 (5 * 2 ^ 12 + 7 * 2 ^ 4 + 3) (by decide) (by decide)

/-- What the lookup of `guardedAddr` hands back. -/
def guardedRet : LookupRet ShadowPtr where
  slot := .slot 1 7
  cap := guardedTable.caps 1 7
  writable := true
  hops := [⟨guardedTable.root, 1, 8, 7⟩]
  guardDone := true

theorem guardedTable_steps :
    Steps memory guardedAddr.num guardedTable .root guardedAddr.depth
      ⟨guardedTable.root, 1, 8, 7⟩ guardedTable (.slot 1 7) 4 where
  cap := rfl
  guard := .inr ⟨by decide, by decide⟩
  width := rfl
  bits := by decide
  pos := by decide
  index := by decide
  object := rfl
  target := rfl

theorem lookup_exact_guardedTable :
    asLookupRel Shadow.memory 2 .root guardedAddr none .wantObject guardedTable =
        .ok (guardedTable, some guardedRet) ∧
      Exact guardedAddr .wantObject guardedRet := by
  have hlookup : asLookupRel memory 2 .root guardedAddr none .wantObject guardedTable =
      .ok (guardedTable, some guardedRet) := rfl
  refine ⟨hlookup, ((lookup_exact_iff memory guardedTable .root).1 2 guardedAddr none
    .wantObject guardedTable guardedRet hlookup).2 ⟨?_, by decide⟩⟩
  have hend : GuardPasses guardedAddr.num 4 (guardedTable.caps 1 7) := .inr ⟨by decide, by decide⟩
  rw [guardsFit_step_iff guardedTable_steps, guardsFit_end_iff (by decide) (.inr hend)]
  exact ⟨by decide, by decide⟩

/-- A page behind a guard of 40 zero bits. -/
def deepGuard : Shadow where
  root := { Cap.void with type := .page, oid := 1, addrTrans := ⟨0, 0, 40⟩ }
  caps _ _ := .void
  next := 2

/-- The addresses of 40 bits. -/
def deepAddr (k : ℕ) (hk : k < 2 ^ 40) : VgAddr := .ofNum 40 k (by decide) hk

/-- The address of no bits. -/
def emptyAddr : VgAddr := .ofNum 0 0 (Nat.zero_le _) Nat.one_pos

/-- What a lookup in `deepGuard` hands back. -/
def deepRet (guardDone : Bool) : LookupRet ShadowPtr := ⟨.root, deepGuard.root, true, [], guardDone⟩

/-- The address whose bit 32 is set passes the zero guard, so that it and the zero address of the
same depth resolve through the same path; and the empty address finds the page as well, although
its guard is still to be translated. -/
theorem deepGuard_not_exact :
    asLookupRel Shadow.memory 2 .root (deepAddr (2 ^ 32) (by decide)) none .wantObject deepGuard =
        .ok (deepGuard, some (deepRet true)) ∧
      ¬ Exact (deepAddr (2 ^ 32) (by decide)) .wantObject (deepRet true) ∧
      asLookupRel Shadow.memory 2 .root (deepAddr 0 (by decide)) none .wantObject deepGuard =
        .ok (deepGuard, some (deepRet true)) ∧
      deepAddr (2 ^ 32) (by decide) ≠ deepAddr 0 (by decide) ∧
      asLookupRel Shadow.memory 2 .root emptyAddr none .wantObject deepGuard =
        .ok (deepGuard, some (deepRet false)) ∧
      ¬ Exact emptyAddr .wantObject (deepRet false) := by
  exact ⟨by rfl, by decide, by rfl, by decide, by rfl, by decide⟩

/-! ### Authority -/

/-- **A lookup does not add authority.** The walk is the one the capabilities describe, from the
root to the slot handed back. Where it reports the slot or the object writable, it met no read-only
cappage, and an object so reported is designated by a strong capability. A request for a strong
type never succeeds along a path with a read-only cappage in it, nor finds a weak capability. -/
theorem lookup_authority {σ P : Type} (m : Memory σ P) (fuel : ℕ) (root : P) (a : VgAddr)
    (type : Option CapType) (mode : LookupMode) (s s' : σ) (ret : LookupRet P)
    (h : asLookupRel m fuel root a type mode s = .ok (s', some ret)) :
    (∃ u, Walks m a.num s root a.depth ret.hops s' ret.slot u ∧ Stops a.num mode u ret) ∧
      ret.cap = m.cap s' ret.slot ∧
      (ret.writable = true → (∀ c ∈ ret.seen, c.type ≠ .rcappage) ∧
        (mode = .wantObject → ret.cap.type.weakP = false)) ∧
      ∀ t, type = some t → t.weakP = false →
        (∀ c ∈ ret.seen, c.type ≠ .rcappage) ∧ ret.cap.type.weakP = false := by
  have hres := asLookupRel_sound h
  refine ⟨hres.walk, hres.cap, fun hw => ⟨strongPath_iff.1 (hres.strong_of_writable hw), ?_⟩, ?_⟩
  · rintro rfl
    exact hres.strong_object_of_writable hw
  · rintro t rfl ht
    refine ⟨strongPath_iff.1 (hres.strong_of_strong_type ht), ?_⟩
    rw [typeOk_strong ht hres.type_ok, ht]

theorem lookup_authority_guardedTable :
    guardedRet.writable = true ∧ CapType.page.weakP = false ∧
      ∀ c ∈ guardedRet.seen, c.type ≠ .rcappage := by
  have hlookup : asLookupRel memory 2 .root guardedAddr (some .page) .wantObject
      guardedTable = .ok (guardedTable, some guardedRet) := rfl
  have h := lookup_authority memory 2 .root guardedAddr (some .page) .wantObject
    guardedTable guardedTable guardedRet hlookup
  exact ⟨rfl, rfl, (h.2.2.2 .page rfl rfl).1⟩

end Viengoos
