import Viengoos.Mm.Runs

/-!
# What a fault achieves

Two properties of `map_fault`, each with the states before the fault in which it holds. **Faults
stay inside their map**: `fault` widens a fault by pages before and after it, by their offsets in
the pager alone, so that a part of the pager that was unmapped, or is mapped with less access, gets
capabilities, too. **A resolved fault makes progress**: `fault` does not look at the slot of a page
that has storage, so that rights that `mprotect` took away do not come back.
-/

namespace Viengoos

open Outcome

namespace Maps

open Anon

variable {s s' : Maps Anon} {p o x : ℕ} {access : MapAccess} {info : FaultInfo}
  {recursive r : Bool}

/-! ### Faults and the maps around -/

/-- **A fault stays inside the maps of its pager**: every slot it changes is at an address that a
map of the pager covers, designates the storage at the offset that the address has there, and may be
written only if that map grants it. -/
def StaysInside (s s' : Maps Anon) (p : ℕ) : Prop :=
  ∀ a, s'.world.slot a ≠ s.world.slot a → ∃ st strong o access,
    s'.world.slot a = some (st, strong) ∧ s'.world.stored p o = some st ∧
      s.lookup a = some (p, o, access) ∧ (strong = true → access.write = true)

/-- **The window is mapped as the fault takes it to be**: a page of it that has no storage is in a
map of the pager at the distance that its offset has, and that map grants writes if the map of the
fault does. -/
def Sheltered (s : Maps Anon) (p o x : ℕ) (access : MapAccess) : Prop :=
  (s.world.pager p).noAlloc = true ∨ ∀ i < (s.world.window (s.length p) p o x).2.2,
    s.world.stored p ((s.world.window (s.length p) p o x).1 + i * pagesize) = none →
    ∃ access', s.lookup (((s.world.window (s.length p) p o x).2.1 + i * pagesize) % 2 ^ 32) =
        some (p, (s.world.window (s.length p) p o x).1 + i * pagesize, access') ∧
      (access.write = true → access'.write = true)

/-- **A fault stays inside the maps of its pager** if and only if the window is mapped as the fault
takes it to be. -/
theorem staysInside_iff (h : Sitting s) (hbelow : s.world.Below) (hx : x < 2 ^ 32)
    (hlook : s.lookup x = some (p, o, access)) (hallowed : denied access info = false)
    (hok : s.mapFault x info recursive = .ok (s', r)) :
    StaysInside s s' p ↔ Sheltered s p o x access := by
  obtain ⟨-, hserved⟩ := served_of_mapFault h hbelow hx hlook hallowed hok
  rw [StaysInside, Sheltered]
  generalize s'.world = w' at hserved ⊢
  cases hserved with
  | noAlloc hno => exact iff_of_true (fun a ha => absurd rfl ha) (.inl hno)
  | pages hno hf =>
    rw [hno, or_iff_right Bool.false_ne_true]
    constructor
    · intro hinside i hi hnone
      obtain ⟨st, hle, hst, hslot, -⟩ := hf.fresh i hi hnone
      -- the slot changed, for the storage is new
      obtain ⟨st', strong, o', access', hslot', hst', hlook', hstrong⟩ := hinside _ fun heq =>
        absurd (hbelow.slot (heq.symm.trans hslot)) (Nat.not_lt.2 hle)
      obtain ⟨rfl, rfl⟩ : st = st' ∧ (!!access.write) = strong := by
        simpa using hslot.symm.trans hslot'
      obtain rfl := hf.unique hle hst hst'
      exact ⟨access', hlook', by simpa using hstrong⟩
    · intro hshelter a ha
      obtain ⟨i, hi, hnone, rfl⟩ : ∃ i < (s.world.window (s.length p) p o x).2.2,
          s.world.stored p ((s.world.window (s.length p) p o x).1 + i * pagesize) = none ∧
          a = ((s.world.window (s.length p) p o x).2.1 + i * pagesize) % 2 ^ 32 := by
        by_contra hcon
        exact ha (hf.slots fun i hi hnone ha => hcon ⟨i, hi, hnone, ha⟩)
      obtain ⟨st, -, hst, hslot, -⟩ := hf.fresh i hi hnone
      obtain ⟨access', hlook', hwrite⟩ := hshelter i hi hnone
      exact ⟨st, _, _, access', hslot, hst, hlook', by simpa using hwrite⟩

/-- **A fault outside of the maps**: of two pages the second one is unmapped, and a fault on the
first one installs a page there. -/
theorem fault_strays : ∃ s s', Reached s ∧ s.lookup 0x10000 = some (0, 0, ⟨true, true⟩) ∧
    s.mapFault 0x10000 ⟨true, false⟩ false = .ok (s', true) ∧ s.lookup 0x11000 = none ∧
    s'.world.slot 0x11000 = some (1, true) ∧ ¬ StaysInside s s' 0 := by
  have hrun : (do
      let mapped ← started.mmap 0x10000 0x2000 ⟨true, true, false, false⟩ ⟨false, false⟩
      let s ← mapped.1.munmap backend 0x11000 0x1000
      let faulted ← s.mapFault 0x10000 ⟨true, false⟩ false
      pure (decide (faulted.2 = true ∧ s.lookup 0x10000 = some (0, 0, ⟨true, true⟩) ∧
        s.lookup 0x11000 = none ∧ s.world.slot 0x11000 = none ∧
        faulted.1.world.slot 0x11000 = some (1, true)))) = Except.ok true := by decide +kernel
  obtain ⟨⟨s₁, _⟩, hmmap, hrun⟩ := bind_eq_ok.1 hrun
  obtain ⟨s, hmunmap, hrun⟩ := bind_eq_ok.1 hrun
  obtain ⟨⟨s', r⟩, hfault, hrun⟩ := bind_eq_ok.1 hrun
  obtain ⟨(rfl : r = true), hlook, hnone, hslot, (hslot' : s'.world.slot _ = _)⟩ :=
    of_decide_eq_true (pure_eq_ok.1 hrun)
  have hreached : Reached s := ((Reached.initial _ _).mmap (by decide) hmmap).munmap hmunmap
  refine ⟨s, s', hreached, hlook, hfault, hnone, hslot', fun hinside => ?_⟩
  obtain ⟨st, strong, o, access, -, -, hlook', -⟩ := hinside 0x11000 (by simp [hslot, hslot'])
  simp [hnone] at hlook'

/-- A fault on the second of three pages brings in all of them. -/
theorem staysInside_iff_threePages : ∃ s s', s.lookup 0x11000 = some (0, 0x1000, ⟨true, true⟩) ∧
    s.mapFault 0x11000 ⟨true, false⟩ false = .ok (s', true) ∧
    s'.world.slot 0x10000 ≠ none ∧ s'.world.slot 0x12000 ≠ none ∧ StaysInside s s' 0 := by
  have hrun : (do
      let mapped ← started.mmap 0x10000 0x3000 ⟨true, true, false, false⟩ ⟨false, false⟩
      let faulted ← mapped.1.mapFault 0x11000 ⟨true, false⟩ false
      pure (decide (faulted.2 = true ∧ mapped.1.lookup 0x10000 = some (0, 0, ⟨true, true⟩) ∧
        mapped.1.lookup 0x11000 = some (0, 0x1000, ⟨true, true⟩) ∧
        mapped.1.lookup 0x12000 = some (0, 0x2000, ⟨true, true⟩) ∧
        mapped.1.world.window (mapped.1.length 0) 0 0x1000 0x11000 = (0, 0x10000, 3) ∧
        faulted.1.world.slot 0x10000 ≠ none ∧ faulted.1.world.slot 0x12000 ≠ none))) =
      Except.ok true := by decide +kernel
  obtain ⟨⟨s, _⟩, hmmap, hrun⟩ := bind_eq_ok.1 hrun
  obtain ⟨⟨s', r⟩, hfault, hrun⟩ := bind_eq_ok.1 hrun
  obtain ⟨(rfl : r = true), h₀, h₁, h₂, hwindow, hslots⟩ := of_decide_eq_true (pure_eq_ok.1 hrun)
  have hsound := ((Reached.initial _ _).mmap (by decide) hmmap).sound
  have hiff := staysInside_iff hsound.sitting hsound.below (by decide) h₁ rfl hfault
  refine ⟨s, s', h₁, hfault, hslots.1, hslots.2, hiff.2 (.inr fun i hi _ => ?_)⟩
  rw [hwindow] at hi ⊢
  obtain rfl | rfl | rfl : i = 0 ∨ i = 1 ∨ i = 2 := by
    have : i < 3 := hi
    omega
  · exact ⟨_, h₀, id⟩
  · exact ⟨_, h₁, id⟩
  · exact ⟨_, h₂, id⟩

/-! ### Faults and the page they are for -/

/-- **The fault is resolved**: the slot of the page designates its storage, which is not discarded,
with the rights for the access. -/
def Resolved (w : Anon) (p o x : ℕ) (info : FaultInfo) : Prop :=
  ∃ st strong, w.slot (pageOf x) = some (st, strong) ∧ w.stored p (pageOf o) = some st ∧
    w.discarded st = false ∧ (info.write = true → strong = true)

/-- **The page is new, or its slot is in order**: it designates the storage of the page, with the
rights for the access. -/
def Ready (w : Anon) (p o x : ℕ) (info : FaultInfo) : Prop :=
  w.stored p (pageOf o) = none ∨ ∃ st strong, w.slot (pageOf x) = some (st, strong) ∧
    w.stored p (pageOf o) = some st ∧ (info.write = true → strong = true)

/-- What the kernel says of a fault: the page is discarded if what its slot designates is. -/
def Accurate (w : Anon) (x : ℕ) (info : FaultInfo) : Prop :=
  info.discarded = true ↔
    ∃ st strong, w.slot (pageOf x) = some (st, strong) ∧ w.discarded st = true

/-- A fault leaves the slot of a page that has storage. -/
theorem slot_of_stored {c : Anon × List ℕ} {w : Anon} {readOnly : Bool} {offset a n i st : ℕ}
    (h : Faulted p readOnly info offset a n w c) (hn : n ≤ 2 ^ 20) (hi : i < n)
    (hst : w.stored p (offset + i * pagesize) = some st) :
    c.1.slot ((a + i * pagesize) % 2 ^ 32) = w.slot ((a + i * pagesize) % 2 ^ 32) := by
  refine h.slots fun j hj hnone heq => ?_
  obtain rfl : i = j := by
    simp only [pagesize] at heq
    omega
  simp [hst] at hnone

/-- **A fault that `map_fault` accepts is resolved**, in every run, if and only if the page was new
or its slot was in order. -/
theorem resolved_iff (h : Reached s) (hx : x < 2 ^ 32) (hlook : s.lookup x = some (p, o, access))
    (hinfo : Accurate s.world x info) (hok : s.mapFault x info recursive = .ok (s', true)) :
    Resolved s'.world p o x info ↔ Ready s.world p o x info := by
  have hsound := h.sound
  obtain ⟨-, -, -, hfault⟩ := mapFault_of_lookup hsound.sitting hx hlook info recursive
  have hallowed : denied access info = false := by
    by_contra hdenied
    rw [hfault, if_pos (by simpa using hdenied)] at hok
    simp at hok
  have hwrite : info.write = true → access.write = true := by
    simp only [denied, Bool.or_eq_false_iff] at hallowed
    intro hw
    simpa [hw] using hallowed.1
  obtain ⟨id, hfind, hplace⟩ := Option.map_eq_some_iff.1 hlook
  have hplain : (s.world.pager p).noAlloc = false := by
    have hpager := (hsound.sits id (hsound.mapFind hfind)).pager
    have hp : (s.map id).pager = p := congrArg Prod.fst hplace
    rw [hp] at hpager
    exact (hsound.plain p hpager).2
  obtain ⟨-, hserved⟩ := served_of_mapFault hsound.sitting hsound.below hx hlook hallowed hok
  have hpage : pageOf o % pagesize = 0 := Nat.mul_mod_left _ _
  obtain ⟨i, hi, hoffset, haddr⟩ := exists_mem_window (s.world.pager p).fill.isSome
    (s.length p) hpage ((pageOf_le x).trans_lt hx)
  generalize s'.world = w' at hserved ⊢
  cases hserved with
  | noAlloc hno => simp [hplain] at hno
  | @pages c _ hf =>
    cases hst : s.world.stored p (pageOf o) with
    | none =>
      obtain ⟨st, -, hst', hslot, hdisc⟩ := hf.fresh i hi (hoffset ▸ hst)
      rw [window, hoffset] at hst'
      rw [window, haddr] at hslot
      refine iff_of_true ⟨st, _, hslot, hst', ?_, by simpa using hwrite⟩ (.inl hst)
      simp [clearDiscarded, hdisc]
    | some st =>
      have hslot := slot_of_stored hf window_count_le hi (hoffset ▸ hst)
      rw [window, haddr] at hslot
      have hst' := hf.kept hst
      constructor
      · rintro ⟨st', strong, hslot', hst'', -, hstrong⟩
        refine .inr ⟨st', strong, hslot ▸ hslot', ?_, hstrong⟩
        rw [hst, ← hst']
        exact hst''
      · rintro (hnone | ⟨st', strong, hslot', hst'', hstrong⟩)
        · simp [hst] at hnone
        obtain rfl : st = st' := Option.some.inj (hst.symm.trans hst'')
        refine ⟨st, strong, hslot.trans hslot', hst', ?_, hstrong⟩
        -- storage that is discarded is on the list, for the kernel said so
        simp only [clearDiscarded]
        split_ifs with hmem
        · rfl
        · rw [hf.discarded (hsound.below.stored hst)]
          by_contra hdisc
          have hsaid := hinfo.2 ⟨st, strong, hslot', by simpa using hdisc⟩
          exact hmem (hf.queued hsaid i hi (hoffset ▸ hst))

/-- **Rights that do not come back**: a page is written, made read-only and writable again, and the
next write faults for ever. -/
theorem fault_without_progress : ∃ s s', Reached s ∧ Accurate s.world 0x10000 ⟨true, false⟩ ∧
    s.lookup 0x10000 = some (0, 0, ⟨true, true⟩) ∧
    s.mapFault 0x10000 ⟨true, false⟩ false = .ok (s', true) ∧
    s'.world.slot 0x10000 = some (0, false) ∧ ¬ Resolved s'.world 0 0 0x10000 ⟨true, false⟩ := by
  have hrun : (do
      let s ← protectedTwice 0x1000 0x10000
      let faulted ← s.mapFault 0x10000 ⟨true, false⟩ false
      pure (decide (faulted.2 = true ∧ s.lookup 0x10000 = some (0, 0, ⟨true, true⟩) ∧
        s.world.slot 0x10000 = some (0, false) ∧ s.world.discarded 0 = false ∧
        faulted.1.world.slot 0x10000 = some (0, false)))) = Except.ok true := by decide +kernel
  obtain ⟨s, hs, hrun⟩ := bind_eq_ok.1 hrun
  obtain ⟨⟨s', r⟩, hfault, hrun⟩ := bind_eq_ok.1 hrun
  obtain ⟨(rfl : r = true), hlook, hslot, hdisc, hslot'⟩ := of_decide_eq_true (pure_eq_ok.1 hrun)
  refine ⟨s, s', reached_protectedTwice hs, iff_of_false Bool.false_ne_true ?_, hlook, hfault,
    hslot', ?_⟩
  · rintro ⟨st, strong, hst, hdisc'⟩
    obtain ⟨⟩ := Option.some.inj (hslot.symm.trans hst)
    simp [hdisc] at hdisc'
  · rintro ⟨st, strong, hst, -, -, hstrong⟩
    obtain ⟨-, rfl⟩ := Prod.mk.inj (Option.some.inj (hslot'.symm.trans hst))
    exact Bool.false_ne_true (hstrong rfl)

/-- The first fault on a page is resolved. -/
theorem resolved_iff_first : ∃ s s', Reached s ∧
    s.mapFault 0x10000 ⟨true, false⟩ false = .ok (s', true) ∧
    Resolved s'.world 0 0 0x10000 ⟨true, false⟩ := by
  obtain ⟨s, hmmap, hlook, hslot, hstored, -, s', hfault⟩ := started_page
  have hreached : Reached s := (Reached.initial _ _).mmap (by decide) hmmap
  have hinfo : Accurate s.world 0x10000 ⟨true, false⟩ := by
    refine iff_of_false Bool.false_ne_true ?_
    rintro ⟨st, strong, hst, -⟩
    exact Option.some_ne_none _ (hst.symm.trans hslot)
  exact ⟨s, s', hreached, hfault,
    (resolved_iff hreached (by decide) hlook hinfo hfault).2 (.inl hstored)⟩

end Maps

end Viengoos
