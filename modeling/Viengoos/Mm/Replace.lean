import Viengoos.Mm.Area

/-!
# `mmap`

With `MAP_FIXED` the maps in the range are removed first. The length is rounded up to whole pages
only after that, an address of 0 is taken for none at all, and a range may wrap around: where one
of these matters, `mmap` panics or maps other pages. Without any of this, it **replaces exactly its
pages**. The access of the new map is another matter: it is that of `PROT_READ`, twice.
-/

namespace Viengoos

open Outcome FreeSpace Option

/-- A length, rounded up to whole pages. -/
def roundUp (length : ℕ) : ℕ := (length + pagesize - 1) / pagesize * pagesize

variable {fixed write : Bool} {access : MapAccess} {n x : ℕ}

section Rounding

variable {length : ℕ}

theorem roundUp_spec (hpos : 0 < length) :
    roundUp length % pagesize = 0 ∧ length ≤ roundUp length ∧
      roundUp length < length + pagesize := by
  simp only [roundUp, pagesize]
  omega

theorem roundUp32_eq (h : length ≤ 2 ^ 32 - pagesize) : roundUp32 length = roundUp length := by
  simp only [roundUp32, roundUp, pagesize] at *
  omega

/-- Where rounding overflows, nothing is left. -/
theorem roundUp32_eq_zero (h : ¬ length ≤ 2 ^ 32 - pagesize) (hlt : length < 2 ^ 32) :
    roundUp32 length = 0 := by
  simp only [roundUp32, pagesize] at *
  omega

theorem pageOf_eq (h : x % pagesize = 0) : pageOf x = x := by
  simp only [pageOf, pagesize] at *
  omega

end Rounding

namespace Maps

open Anon

variable {s s' : Maps Anon} {A : Set ℕ} {addr length start : ℕ} {prot : Prot} {flags : MmapFlags}

theorem Consistent.searched (h : Consistent s A) : Consistent s.searched A :=
  ⟨h.valid.searched, h.sound.searched, h.partitioned, h.mapped⟩

/-! ### `MAP_FIXED` -/

/-- **`MAP_FIXED` replaces exactly its pages**: `mmap` returns, and when it succeeds, the pages of
the range are those of the new map, every other address has what it had, and the maps do not
overlap. -/
def Replaces (s : Maps Anon) (addr length : ℕ) (prot : Prot) : Prop :=
  ∃ s' r, s.mmap addr length prot ⟨true, false⟩ = .ok (s', r) ∧ (r ≠ none → Valid s' ∧
    ∀ x < 2 ^ 32, s'.lookup x = if addr ≤ x ∧ x < addr + roundUp length then
      some (s.world.pagers, x - addr, prot.access) else s.lookup x)

/-- **There is room for the pages.** Rounding the length does not overflow. A range in the address
space ends at a page, or in one that is not mapped; if it starts at 0, either it is free without
the maps in it or there is no other place for it. A range that wraps around is in use, and no map
has both its end and its start. -/
def Room (s : Maps Anon) (A : Set ℕ) (addr length : ℕ) : Prop :=
  length ≤ 2 ^ 32 - pagesize ∧
    if addr + length ≤ 2 ^ 32 then
      (length % pagesize = 0 ∨ s.lookup (addr + length) = none) ∧
        (addr = 0 →
          Disjoint (pages 0 (roundUp length / pagesize)) (A \ (s.mapped ∩ Set.Ico 0 length)) ∨
          ∀ start, ¬ Vacant (A \ (s.mapped ∩ Set.Ico 0 length)) (roundUp length / pagesize) start)
    else
      (∀ m ∈ s.records, ¬ (m.start ≤ last32 addr length ∧ addr < m.stop)) ∧
        ¬ Disjoint (pages addr (roundUp length / pagesize)) A

theorem mmap_fixed (haddr : addr % pagesize = 0) (hpos : 0 < length) (hexec : prot.exec = false)
    (hother : prot.other = false) :
    s.mmap addr length prot ⟨true, false⟩ = (do
      let s ← s.munmap backend addr length
      s.anonymousPagerAlloc addr (roundUp32 length) prot.access false true) := by
  rw [mmap, if_neg hpos.ne', if_neg Bool.false_ne_true, hexec, hother,
    if_neg (by simp), if_neg (by simp [haddr]), pageOf_eq haddr]
  rfl

/-- A map that the end of a range is in is one that an address after the range is in. -/
theorem Valid.crosses_iff (h : Valid s) (haddr : addr % pagesize = 0)
    (hlength : length % pagesize ≠ 0) (hbound : addr + length ≤ 2 ^ 32) :
    (∃ m ∈ s.records, m.Crosses (addr + length)) ↔ s.lookup (addr + length) ≠ none := by
  have hlt : addr + length < 2 ^ 32 := by
    simp only [pagesize] at *
    omega
  rw [← isSome_iff_ne_none, h.isSome_lookup hlt]
  refine exists_congr fun m => and_congr_right fun hm => ?_
  have haligned := (h.laid.fits m hm).start_aligned
  simp only [Map.Crosses, Map.Covers, pagesize] at *
  omega

/-- There is no map of no pages. -/
theorem not_alloc_zero {hint : ℕ} {discardable : Bool} {c : Maps Anon × Option ℕ} :
    s.anonymousPagerAlloc hint 0 access discardable fixed ≠ .ok c := by
  intro hok
  obtain ⟨_, -, hok⟩ := bind_eq_ok.1 hok
  obtain ⟨_, -, hok⟩ := bind_eq_ok.1 hok
  obtain ⟨_, hzero, -⟩ := bind_eq_ok.1 hok
  exact absurd (require_eq_ok.1 hzero) (lt_irrefl 0)

/-- Where the range ends inside a page that is mapped, they cannot be removed. -/
theorem Consistent.munmap_panics (h : Consistent s A) (haddr : addr % pagesize = 0)
    (hpos : 0 < length) (hbound : addr + length ≤ 2 ^ 32)
    (hpage : ¬ (length % pagesize = 0 ∨ s.lookup (addr + length) = none)) :
    s.munmap backend addr length = .error .panic := by
  obtain ⟨hlength, hsome⟩ := not_or.1 hpage
  have hragged : (addr + length) % pagesize ≠ 0 := by
    simp only [pagesize] at *
    omega
  have hpanic := h.valid.munmap_ragged (B := backend) (show addr < addr + length by omega)
    hbound haddr hragged ((h.valid.crosses_iff haddr hlength hbound).2 hsome)
  rwa [Nat.add_sub_cancel_left] at hpanic

/-- The maps in the range are removed. -/
theorem Consistent.unmapped (h : Consistent s A) (haddr : addr % pagesize = 0) (hpos : 0 < length)
    (hbound : addr + length ≤ 2 ^ 32)
    (hpage : length % pagesize = 0 ∨ s.lookup (addr + length) = none) :
    ∃ s₁, s.munmap backend addr length = .ok s₁ ∧
      Consistent s₁ (A \ (s.mapped ∩ Set.Ico addr (addr + length))) ∧
      (∀ {x q}, Map.Has s₁.records x q ↔
        ¬ (addr ≤ x ∧ x < addr + length) ∧ Map.Has s.records x q) ∧
      s₁.world.pagers = s.world.pagers := by
  have hstop : ∀ m ∈ s.records, m.Crosses (addr + length) → (addr + length) % pagesize = 0 := by
    intro m hm hcross
    by_cases hlength : length % pagesize = 0
    · rw [Nat.add_mod, haddr, hlength, Nat.zero_mod]
    · have hsome := (h.valid.crosses_iff haddr hlength hbound).1 ⟨m, hm, hcross⟩
      exact absurd (hpage.resolve_left hlength) hsome
  obtain ⟨s₁, hok, hcons, hrecords, hpagers⟩ := h.munmap (by omega) hbound haddr hstop
  rw [Nat.add_sub_cancel_left] at hok
  refine ⟨s₁, hok, hcons, ?_, hpagers⟩
  intro x q
  rw [hrecords, Map.has_flatMap]
  simp only [Map.has_carve]
  constructor
  · rintro ⟨m, hm, hout, hx⟩
    exact ⟨hout, m, hm, hx⟩
  · rintro ⟨hout, m, hm, hx⟩
    exact ⟨m, hm, hout, hx⟩

/-- What the pages of the new map have, and the other ones. -/
theorem lookup_replaced {s₁ : Maps Anon} {F : Set ℕ} {p : ℕ}
    (h : Valid s) (hcons : Consistent s' F) (hle : length ≤ n)
    (hhas₁ : ∀ {x q}, Map.Has s₁.records x q ↔
      ¬ (addr ≤ x ∧ x < addr + length) ∧ Map.Has s.records x q)
    (hhas : ∀ {x q}, Map.Has s'.records x q ↔ Map.Has s₁.records x q ∨
      (addr ≤ x ∧ x < addr + n) ∧ (p, x - addr, access) = q) (hx : x < 2 ^ 32) :
    s'.lookup x = if addr ≤ x ∧ x < addr + n then some (p, x - addr, access) else s.lookup x := by
  split
  · next hin => exact (hcons.valid.lookup_eq_some hx).2 (hhas.2 (.inr ⟨hin, rfl⟩))
  · next hout =>
    refine ext fun q => ?_
    rw [hcons.valid.lookup_eq_some hx, h.lookup_eq_some hx, hhas, hhas₁]
    constructor
    · rintro (⟨-, hq⟩ | ⟨hin, -⟩)
      · exact hq
      · exact absurd hin hout
    · exact fun hq => .inl ⟨by omega, hq⟩

section

variable (h : Consistent s A) (haddr : addr % pagesize = 0) (haddr' : addr < 2 ^ 32)
  (hpos : 0 < length) (hexec : prot.exec = false) (hother : prot.other = false)
  (hround : length ≤ 2 ^ 32 - pagesize)

include h haddr haddr' hpos hexec hother hround

/-- `mmap` of a range in the address space, with the maps in it removed. -/
theorem Consistent.replaces_of_fits (hbound : addr + length ≤ 2 ^ 32)
    (hpage : length % pagesize = 0 ∨ s.lookup (addr + length) = none) :
    Replaces s addr length prot ↔ (addr = 0 →
      Disjoint (pages 0 (roundUp length / pagesize)) (A \ (s.mapped ∩ Set.Ico 0 length)) ∨
      ∀ start, ¬ Vacant (A \ (s.mapped ∩ Set.Ico 0 length)) (roundUp length / pagesize) start) := by
  obtain ⟨haligned, hle, hlt⟩ := roundUp_spec hpos
  have hword : roundUp length < 2 ^ 32 := by
    omega
  have hinside : addr + roundUp length ≤ 2 ^ 32 := by
    simp only [pagesize] at *
    omega
  obtain ⟨s₁, hmunmap, hcons, hhas₁, hpagers⟩ := h.unmapped haddr hpos hbound hpage
  obtain ⟨spaces, r, harea, hpart, hvalid, hsound, halloc⟩ := hcons.anonymousPagerAlloc_eq haddr
    haddr' haligned (by omega) hword prot.access false true
  have hmmap : s.mmap addr length prot ⟨true, false⟩ = _ :=
    (mmap_fixed haddr hpos hexec hother).trans (by
      rw [hmunmap, ok_bind, roundUp32_eq hround, halloc])
  -- a map that is created in the area
  have hcreate : ∀ {start}, start % pagesize = 0 → start + roundUp length ≤ 2 ^ 32 →
      r = some start →
      Disjoint (pages start (roundUp length / pagesize))
        (A \ (s.mapped ∩ Set.Ico addr (addr + length))) →
      ∃ s' F, s.mmap addr length prot ⟨true, false⟩ = .ok (s', some start) ∧ Consistent s' F ∧
        ∀ {x q}, Map.Has s'.records x q ↔ Map.Has s₁.records x q ∨
          (start ≤ x ∧ x < start + roundUp length) ∧
            (s.world.pagers, x - start, prot.access) = q := by
    rintro start hstart hfits rfl hfree
    obtain ⟨s', hok, hcons', hhas⟩ := hcons.mapCreate hstart haligned (by omega) hfits hfree hpart
      hvalid hsound prot.access
    rw [hpagers] at hhas
    exact ⟨s', _, hmmap.trans hok, hcons', hhas⟩
  have hdone : ∀ {s' F}, s.mmap addr length prot ⟨true, false⟩ = .ok (s', some addr) →
      Consistent s' F → (∀ {x q}, Map.Has s'.records x q ↔ Map.Has s₁.records x q ∨
        (addr ≤ x ∧ x < addr + roundUp length) ∧ (s.world.pagers, x - addr, prot.access) = q) →
      Replaces s addr length prot := fun hok hcons' hhas =>
    ⟨_, _, hok, fun _ => ⟨hcons'.valid, fun x hx =>
      lookup_replaced h.valid hcons' hle hhas₁ hhas hx⟩⟩
  have hnone : r = none → Replaces s addr length prot := by
    rintro rfl
    exact ⟨_, none, hmmap, fun hr => absurd rfl hr⟩
  cases hr : r with
  | none =>
    subst hr
    refine iff_of_true (hnone rfl) fun hzero => ?_
    cases harea with
    | refused hne => exact absurd hzero hne
    | full _ hfull =>
      subst hzero
      rw [Nat.zero_add] at hfull
      exact .inr hfull
  | some start =>
    subst hr
    cases harea with
    | asked hne hfree =>
      obtain ⟨s', F, hok, hcons', hhas⟩ := hcreate haddr hinside rfl hfree
      exact iff_of_true (hdone hok hcons' hhas) fun hzero => absurd hzero hne
    | first helse hvacant hfirst =>
      obtain rfl : addr = 0 := helse.resolve_right (by simp)
      have hbelow := hvacant.below
      rw [Nat.div_mul_cancel (Nat.dvd_of_mod_eq_zero haligned)] at hbelow
      have hmax : dataAddrMax ≤ 2 ^ 32 := by decide
      obtain ⟨s', F, hok, hcons', hhas⟩ :=
        hcreate hvacant.start_aligned (by omega) rfl hvacant.free
      rw [Nat.zero_add] at hvacant hfirst
      by_cases hfree : Disjoint (pages 0 (roundUp length / pagesize))
          (A \ (s.mapped ∩ Set.Ico 0 length))
      · -- the first vacant area is the one at 0
        have hzero : Vacant (A \ (s.mapped ∩ Set.Ico 0 length)) (roundUp length / pagesize) 0 := by
          refine ⟨dvd_zero _, ?_, hfree⟩
          rw [Nat.div_mul_cancel (Nat.dvd_of_mod_eq_zero haligned)]
          omega
        obtain rfl : start = 0 := Nat.le_zero.1 (hfirst 0 hzero)
        exact iff_of_true (hdone hok hcons' hhas) fun _ => .inl hfree
      · refine iff_of_false ?_ fun hroom => ?_
        · rintro ⟨s'', r, hok', hreplaced⟩
          obtain ⟨⟩ := Except.ok.inj (hok.symm.trans hok')
          have hlook := (hreplaced (by simp)).2 0 (by decide)
          rw [if_pos ⟨le_rfl, by omega⟩, hcons'.valid.lookup_eq_some (by decide), hhas,
            hhas₁] at hlook
          rcases hlook with ⟨hout, -⟩ | ⟨⟨hle, -⟩, -⟩
          · exact hout ⟨le_rfl, by omega⟩
          · obtain rfl : start = 0 := Nat.le_zero.1 hle
            exact hfree hvacant.free
        · exact (hroom rfl).elim hfree fun hfull => hfull start hvacant

/-- `mmap` of a range that wraps around. -/
theorem Consistent.replaces_of_wraps (hwraps : 2 ^ 32 < addr + length) :
    Replaces s addr length prot ↔
      (∀ m ∈ s.records, ¬ (m.start ≤ last32 addr length ∧ addr < m.stop)) ∧
        ¬ Disjoint (pages addr (roundUp length / pagesize)) A := by
  obtain ⟨haligned, hle, hlt⟩ := roundUp_spec hpos
  have hword : roundUp length < 2 ^ 32 := by
    omega
  have hlength : length < 2 ^ 32 := by omega
  rcases h.valid.munmap_wraps (B := backend) hlength hwraps haddr' haddr hpos with
    ⟨hmunmap, hspans⟩ | ⟨hmunmap, m, hm, hspans⟩
  · rw [and_iff_right hspans]
    obtain ⟨spaces, r, harea, -, hvalid, -, halloc⟩ := h.searched.anonymousPagerAlloc_eq haddr
      haddr' haligned (by omega) hword prot.access false true
    have hmmap : s.mmap addr length prot ⟨true, false⟩ = _ :=
      (mmap_fixed haddr hpos hexec hother).trans (by
        rw [hmunmap, ok_bind, roundUp32_eq hround, halloc])
    have hne : addr ≠ 0 := by omega
    cases harea with
    | asked _ hfree =>
      refine iff_of_false ?_ (not_not.2 hfree)
      rintro ⟨s', r, hok, hreplaced⟩
      rw [hmmap] at hok
      obtain ⟨⟨s₁, id⟩, hcreate, hok⟩ := bind_eq_ok.1 hok
      cases id with
      | none => simp at hok
      | some id =>
        obtain ⟨⟩ := pure_eq_ok.1 hok
        have hin : addr ∈ pages addr (roundUp length / pagesize) := by
          rw [pages, Nat.div_mul_cancel (Nat.dvd_of_mod_eq_zero haligned)]
          exact ⟨le_rfl, by omega⟩
        have hnone := hvalid.lookup_wraps hword haddr' (by omega) hcreate haddr' le_rfl fun hx =>
          Set.disjoint_left.1 hfree hin (h.mapped hx)
        have hlook := (hreplaced (by simp)).2 addr haddr'
        rw [hnone, if_pos ⟨le_rfl, by omega⟩] at hlook
        simp at hlook
    | refused _ _ hbusy => exact iff_of_true ⟨_, none, hmmap, fun hr => absurd rfl hr⟩ hbusy
    | first helse => exact absurd (helse.resolve_right (by simp)) hne
    | full helse => exact absurd (helse.resolve_right (by simp)) hne
  · refine iff_of_false ?_ fun hroom => hroom.1 m hm hspans
    rintro ⟨s', r, hok, -⟩
    rw [mmap_fixed haddr hpos hexec hother, hmunmap] at hok
    simp at hok

end

/-- What the maps in the way leave of the addresses in use: all of them, where nothing is
removed. -/
theorem Consistent.makeRoom (h : Consistent s A)
    (haligned : fixed = true → addr % pagesize = 0) (haddr : addr < 2 ^ 32) (hpos : 0 < length)
    (hlength : length < 2 ^ 32) (hok : s.makeRoom fixed addr length = .ok s') :
    ∃ F, Consistent s' F ∧ (fixed = false ∨ 2 ^ 32 < addr + length → F = A) := by
  rw [Maps.makeRoom] at hok
  cases fixed with
  | false =>
    obtain rfl := pure_eq_ok.1 hok
    exact ⟨A, h, fun _ => rfl⟩
  | true =>
    have haligned := haligned rfl
    by_cases hbound : addr + length ≤ 2 ^ 32
    · by_cases hpage : length % pagesize = 0 ∨ s.lookup (addr + length) = none
      · obtain ⟨s₁, hok', hcons, -⟩ := h.unmapped haligned hpos hbound hpage
        obtain rfl := Except.ok.inj (hok'.symm.trans hok)
        exact ⟨_, hcons, fun hwraps => absurd hwraps (by simp; omega)⟩
      · rw [h.munmap_panics haligned hpos hbound hpage] at hok
        simp at hok
    · rcases h.valid.munmap_wraps (B := backend) hlength (by omega) haddr haligned hpos with
        ⟨hsearched, -⟩ | ⟨hpanic, -⟩
      · obtain rfl := Except.ok.inj (hsearched.symm.trans hok)
        exact ⟨A, h.searched, fun _ => rfl⟩
      · rw [hpanic] at hok
        simp at hok

/-- **`mmap`, when it succeeds**: its arguments are in order, and it allocates a pager after it made
room. -/
theorem Consistent.mmap_alloc (h : Consistent s A) (haddr : addr < 2 ^ 32)
    (hlength : length < 2 ^ 32) (hok : s.mmap addr length prot flags = .ok (s', some start)) :
    ∃ s₁ F, Consistent s₁ F ∧ (flags.fixed = false ∨ 2 ^ 32 < addr + length → F = A) ∧
      (flags.fixed = true → addr % pagesize = 0) ∧ prot.exec = false ∧ 0 < length ∧
      length ≤ 2 ^ 32 - pagesize ∧
      s₁.anonymousPagerAlloc (pageOf addr) (roundUp length) prot.access false flags.fixed =
        .ok (s', some start) := by
  rw [mmap] at hok
  split_ifs at hok with hzero hflags hprot haligned
  · simp at hok
  · simp at hok
  obtain ⟨hexec, -⟩ : prot.exec = false ∧ prot.other = false := by simpa using hprot
  have hpos : 0 < length := Nat.pos_of_ne_zero hzero
  have haligned' : flags.fixed = true → addr % pagesize = 0 := fun hfixed => by
    by_contra hne
    exact haligned ⟨hfixed, hne⟩
  obtain ⟨s₁, hroom, hok⟩ := bind_eq_ok.1 hok
  obtain ⟨F, hcons, hsame⟩ := h.makeRoom haligned' haddr hpos hlength hroom
  have hround : length ≤ 2 ^ 32 - pagesize := by
    by_contra hround
    rw [roundUp32_eq_zero hround hlength] at hok
    exact not_alloc_zero hok
  rw [roundUp32_eq hround] at hok
  exact ⟨s₁, F, hcons, hsame, haligned', hexec, hpos, hround, hok⟩

/-- A map that `mmap` creates inside the address space keeps the database consistent. -/
theorem Consistent.mmap (h : Consistent s A) (haddr : addr < 2 ^ 32) (hlength : length < 2 ^ 32)
    (hok : s.mmap addr length prot flags = .ok (s', some start))
    (hinside : start + roundUp length ≤ 2 ^ 32) : ∃ A', Consistent s' A' := by
  obtain ⟨s₁, F, hcons, -, -, -, hpos, hround, hok⟩ := h.mmap_alloc haddr hlength hok
  obtain ⟨hwhole, hle, hlt⟩ := roundUp_spec hpos
  have hword : roundUp length < 2 ^ 32 := by
    omega
  obtain ⟨-, hfits, -⟩ := hcons.anonymousPagerAlloc (Nat.mul_mod_left _ _)
    ((pageOf_le addr).trans_lt haddr) hwhole (by omega) hword hok
  exact ⟨_, (hfits hinside).1⟩

theorem started_consistent : Consistent started ∅ where
  valid := ⟨⟨by simp [started, initial, records], by simp [started, initial, records],
    by simp [started, initial, records]⟩, by simp [started, initial], by simp [started, initial],
    by simp [started, initial], by simp [started, initial], by simp [started, initial],
    by simp [started, initial]⟩
  sound := (Reached.initial _ _).sound
  partitioned := run_whole.partitioned
  mapped := by
    rintro x ⟨m, hm, -⟩
    simp [started, initial, records] at hm

/-- **`MAP_FIXED` replaces exactly its pages** if and only if there is room for them. -/
theorem replaces_iff (h : Consistent s A) (haddr : addr % pagesize = 0) (haddr' : addr < 2 ^ 32)
    (hpos : 0 < length) (hlength : length < 2 ^ 32) (hexec : prot.exec = false)
    (hother : prot.other = false) : Replaces s addr length prot ↔ Room s A addr length := by
  by_cases hround : length ≤ 2 ^ 32 - pagesize
  · rw [Room, and_iff_right hround]
    split
    · next hbound =>
      by_cases hpage : length % pagesize = 0 ∨ s.lookup (addr + length) = none
      · rw [and_iff_right hpage]
        exact h.replaces_of_fits haddr haddr' hpos hexec hother hround hbound hpage
      · refine iff_of_false ?_ fun hroom => hpage hroom.1
        rintro ⟨s', r, hok, -⟩
        rw [mmap_fixed haddr hpos hexec hother, h.munmap_panics haddr hpos hbound hpage] at hok
        simp at hok
    · next hwraps =>
      exact h.replaces_of_wraps haddr haddr' hpos hexec hother hround (by omega)
  · refine iff_of_false ?_ fun hroom => hround hroom.1
    rintro ⟨s', r, hok, -⟩
    rw [mmap_fixed haddr hpos hexec hother] at hok
    obtain ⟨s₁, -, hok⟩ := bind_eq_ok.1 hok
    rw [roundUp32_eq_zero hround hlength] at hok
    exact not_alloc_zero hok

/-- **A length that is not rounded**: a page is mapped, and is to be replaced by 100 bytes. -/
theorem mmap_fixed_panics : ∃ s A, Consistent s A ∧
    s.mmap 0x10000 100 ⟨true, true, false, false⟩ ⟨true, false⟩ = .error .panic := by
  have hrun : (do
      let mapped ← started.mmap 0x10000 0x1000 ⟨true, true, false, false⟩ ⟨false, false⟩
      pure (decide (mapped.2 = some 0x10000 ∧ (mapped.1.mmap 0x10000 100 ⟨true, true, false, false⟩
        ⟨true, false⟩).map Prod.snd = .error .panic))) = Except.ok true := by decide +kernel
  obtain ⟨⟨s, start⟩, hmmap, hrun⟩ := bind_eq_ok.1 hrun
  obtain ⟨(rfl : start = _), hpanic⟩ := of_decide_eq_true (pure_eq_ok.1 hrun)
  obtain ⟨A, hcons⟩ := started_consistent.mmap (by decide) (by decide) hmmap (by decide)
  refine ⟨s, A, hcons, ?_⟩
  cases hfixed : s.mmap 0x10000 100 ⟨true, true, false, false⟩ ⟨true, false⟩ with
  | ok c => simp [hfixed, Except.map] at hpanic
  | error e => simpa [hfixed, Except.map] using hpanic

/-- A page where there is nothing. -/
theorem replaces_iff_page : Replaces started 0x10000 0x1000 ⟨true, true, false, false⟩ := by
  refine (replaces_iff started_consistent (by decide) (by decide) (by decide) (by decide) rfl
    rfl).2 ⟨by decide, ?_⟩
  exact ⟨.inl (by decide), fun hzero => absurd hzero (by decide)⟩

/-! ### Protection -/

/-- **`map_fault` accepts** a fault on a page that was not discarded. -/
def Accepts (s : Maps Anon) (x : ℕ) (write : Bool) : Prop :=
  ∃ s', s.mapFault x ⟨write, false⟩ false = .ok (s', true)

/-- **The protection is granted** in a range: faults are accepted as it asks for. -/
def Grants (s : Maps Anon) (start length : ℕ) (prot : Prot) : Prop :=
  ∀ x < 2 ^ 32, start ≤ x → x < start + length →
    (Accepts s x true ↔ prot.write = true) ∧
      (Accepts s x false ↔ prot.read = true ∨ prot.write = true)

/-- A fault on a page that was not discarded returns. -/
theorem fault_returns {p o : ℕ} {readOnly : Bool} (hplain : (s.world.pager p).fill = none)
    (hword : s.length p < 2 ^ 32) (hle : pageOf o + pagesize ≤ s.length p) :
    ∃ s', s.fault p o 1 readOnly x ⟨write, false⟩ false = .ok (s', true) := by
  have hstep : ∀ (offset x : ℕ) (c : Anon × List ℕ) (i : ℕ),
      ∃ c', faultPage p readOnly ⟨write, false⟩ offset x c i = .ok c' := by
    intro offset x c i
    rw [faultPage]
    split
    · exact ⟨c, rfl⟩
    · exact ⟨_, rfl⟩
  have hprovide : ∀ offset x count,
      ∃ w, s.world.provide p readOnly ⟨write, false⟩ offset x count = .ok w := by
    intro offset x count
    rw [provide]
    split
    · exact ⟨_, rfl⟩
    · obtain ⟨c, hc⟩ := foldlM_returns (hstep offset x) (List.range count) (s.world, [])
      exact ⟨_, by rw [faultPages, hc]; rfl⟩
  have hwindow : (faultWindow false (s.length p) (pageOf o) (pageOf x) 1).1 +
      (faultWindow false (s.length p) (pageOf o) (pageOf x) 1).2.2 * pagesize ≤ s.length p := by
    have hleft : leftOf (pageOf o) ≤ pageOf o := (leftOf_spec (Nat.mul_mod_left _ _)).2.1
    have hright : rightOf (s.length p) (pageOf o) ≤ s.length p - pagesize - pageOf o := by
      rw [rightOf]
      split <;> omega
    rw [faultWindow, if_pos ⟨rfl, rfl⟩]
    have hdiv := Nat.div_mul_le_self
      (leftOf (pageOf o) + pagesize + rightOf (s.length p) (pageOf o)) pagesize
    dsimp only
    omega
  obtain ⟨w, hw⟩ := hprovide (faultWindow false (s.length p) (pageOf o) (pageOf x) 1).1
    (faultWindow false (s.length p) (pageOf o) (pageOf x) 1).2.1
    (faultWindow false (s.length p) (pageOf o) (pageOf x) 1).2.2
  refine ⟨{ s with world := w }, ?_⟩
  rw [fault, require_of (by omega), ok_bind]
  simp only [hplain, isSome_none]
  rw [require_of ((Nat.mod_le _ _).trans hwindow), ok_bind, hw, ok_bind]
  simp [AnonPager.filled, hplain]

/-- `map_fault` accepts what the access of the map allows. -/
theorem Sound.accepts_iff (h : Sound s) {p o : ℕ}
    (hx : x < 2 ^ 32) (hlook : s.lookup x = some (p, o, access)) :
    Accepts s x write ↔ denied access ⟨write, false⟩ = false := by
  obtain ⟨hle, hword, -, heq⟩ := mapFault_of_lookup h.sitting hx hlook ⟨write, false⟩ false
  obtain ⟨id, hfind, hplace⟩ := map_eq_some_iff.1 hlook
  have hpager := (h.sits id (h.mapFind hfind)).pager
  have hp : (s.map id).pager = p := congrArg Prod.fst hplace
  have hplain := (h.plain p (hp ▸ hpager)).1
  rw [Accepts, heq]
  cases hdenied : denied access ⟨write, false⟩ with
  | true => simp
  | false =>
    have hfault : ∃ s', s.searched.fault p o 1 (!access.write) x ⟨write, false⟩ false =
        .ok (s', true) := fault_returns hplain hword hle
    exact iff_of_true hfault rfl

theorem not_accepts (hlook : s.lookup x = none) : ¬ Accepts s x write := by
  rintro ⟨s', hok⟩
  rw [mapFault, map_eq_none_iff.1 hlook] at hok
  simp at hok

/-- The faults that the access of `mmap` allows. -/
theorem denied_access (hexec : prot.exec = false) (write : Bool) :
    denied prot.access ⟨write, false⟩ = !prot.read := by
  rcases prot with ⟨read, _, exec, _⟩
  obtain rfl : exec = false := hexec
  cases read <;> cases write <;> rfl

/-- A range with the access that `mmap` gives. -/
theorem grants_of_lookup (h : Sound s) {p : ℕ} (hexec : prot.exec = false) (hpos : 0 < n)
    (hinside : start + n ≤ 2 ^ 32)
    (hlook : ∀ x, start ≤ x → x < start + n → s.lookup x = some (p, x - start, prot.access)) :
    Grants s start n prot ↔ prot.read = prot.write := by
  have haccepts : ∀ x, start ≤ x → x < start + n → ∀ write,
      Accepts s x write ↔ prot.read = true := fun x hs he write => by
    rw [h.accepts_iff (by omega) (hlook x hs he), denied_access hexec, Bool.not_eq_false']
  constructor
  · intro hgrants
    have hwrite := (hgrants start (by omega) le_rfl (by omega)).1
    rw [haccepts start le_rfl (by omega)] at hwrite
    exact Bool.eq_iff_iff.2 hwrite
  · intro heq x _ hs he
    rw [haccepts x hs he, haccepts x hs he, ← heq]
    simp

/-- A range in which nothing is found. -/
theorem grants_of_none (hpos : 0 < n) (hstart : start < 2 ^ 32)
    (hlook : ∀ x < 2 ^ 32, start ≤ x → s.lookup x = none) :
    Grants s start n prot ↔ prot.read = false ∧ prot.write = false := by
  have hnot : ∀ x < 2 ^ 32, start ≤ x → ∀ write, ¬ Accepts s x write := fun x hx hs write =>
    not_accepts (hlook x hx hs)
  constructor
  · intro hgrants
    obtain ⟨hwrite, hread⟩ := hgrants start hstart le_rfl (by omega)
    simp only [hnot start hstart le_rfl, false_iff, not_or, Bool.not_eq_true] at hwrite hread
    exact ⟨hread.1, hwrite⟩
  · rintro ⟨hread, hwrite⟩ x hx hs -
    simp [hnot x hx hs, hread, hwrite]

/-- **`mmap` grants the requested protection** if and only if reads and writes were asked for
together or neither of them was; and a range with access has to fit in the address space where it
was asked for, unless that place was in use. -/
theorem grants_iff (h : Consistent s A) (haddr : addr < 2 ^ 32) (hlength : length < 2 ^ 32)
    (hok : s.mmap addr length prot flags = .ok (s', some start)) :
    Grants s' start (roundUp length) prot ↔ prot.read = prot.write ∧ (prot.read = true →
      pageOf addr + roundUp length ≤ 2 ^ 32 ∨
        ¬ Disjoint (pages (pageOf addr) (roundUp length / pagesize)) A) := by
  obtain ⟨s₁, F, hcons, hsame, haligned', hexec, hpos, hround, hok⟩ :=
    h.mmap_alloc haddr hlength hok
  obtain ⟨hwhole, hle, hlt⟩ := roundUp_spec hpos
  have hword : roundUp length < 2 ^ 32 := by
    omega
  have hpage : pageOf addr % pagesize = 0 := Nat.mul_mod_left _ _
  have hpage' : pageOf addr < 2 ^ 32 := (pageOf_le addr).trans_lt haddr
  obtain ⟨harea, hfits, hwraps⟩ :=
    hcons.anonymousPagerAlloc hpage hpage' hwhole (by omega) hword hok
  -- a map that fits has the access everywhere
  have hgrants : start + roundUp length ≤ 2 ^ 32 →
      (Grants s' start (roundUp length) prot ↔ prot.read = prot.write) := fun hinside => by
    obtain ⟨hcons', hhas⟩ := hfits hinside
    have hlook : ∀ x, start ≤ x → x < start + roundUp length →
        s'.lookup x = some (s₁.world.pagers, x - start, prot.access) := fun x hs he =>
      (hcons'.valid.lookup_eq_some (by omega)).2 (hhas.2 (.inr ⟨⟨hs, he⟩, rfl⟩))
    exact grants_of_lookup hcons'.sound hexec (by omega) hinside hlook
  cases harea with
  | asked _ hfree =>
    by_cases hinside : pageOf addr + roundUp length ≤ 2 ^ 32
    · rw [hgrants hinside]
      exact (and_iff_left fun _ => .inl hinside).symm
    · -- the map wraps around, and nothing was removed for it
      obtain rfl : F = A := by
        refine hsame (Classical.or_iff_not_imp_left.2 fun hfixed => ?_)
        have hpage := haligned' (by simpa using hfixed)
        rw [pageOf_eq hpage] at hinside
        simp only [pagesize] at *
        omega
      have hlook : ∀ x < 2 ^ 32, pageOf addr ≤ x → s'.lookup x = none := fun x hx hs => by
        refine hwraps (by omega) x hx hs fun hmapped => ?_
        refine Set.disjoint_left.1 hfree ⟨hs, ?_⟩ (hcons.mapped hmapped)
        rw [Nat.div_mul_cancel (Nat.dvd_of_mod_eq_zero hwhole)]
        omega
      rw [grants_of_none (by omega) hpage' hlook]
      constructor
      · rintro ⟨hread, hwrite⟩
        exact ⟨hread.trans hwrite.symm, fun htrue => absurd htrue (by simp [hread])⟩
      · rintro ⟨heq, hread⟩
        have hfalse : prot.read = false := by
          by_contra htrue
          exact (hread (by simpa using htrue)).elim hinside fun hbusy => hbusy hfree
        exact ⟨hfalse, heq ▸ hfalse⟩
  | first helse hvacant =>
    have hbelow := hvacant.below
    rw [Nat.div_mul_cancel (Nat.dvd_of_mod_eq_zero hwhole)] at hbelow
    have hmax : dataAddrMax ≤ 2 ^ 32 := by decide
    rw [hgrants (by omega)]
    refine (and_iff_left fun _ => ?_).symm
    rcases helse with hzero | ⟨hfixed, hbusy⟩
    · exact .inl (by omega)
    · exact .inr (hsame (.inl hfixed) ▸ hbusy)

/-- **Reads become writes**: memory that is mapped for reads only is writable. -/
theorem mmap_grants_write : ∃ s', started.mmap 0x10000 0x1000 ⟨true, false, false, false⟩
      ⟨false, false⟩ = .ok (s', some 0x10000) ∧
    Accepts s' 0x10000 true := by
  have hrun : (do
      let mapped ← started.mmap 0x10000 0x1000 ⟨true, false, false, false⟩ ⟨false, false⟩
      let faulted ← mapped.1.mapFault 0x10000 ⟨true, false⟩ false
      pure (decide (mapped.2 = some 0x10000 ∧ faulted.2 = true))) = Except.ok true := by
    decide +kernel
  obtain ⟨⟨s, start⟩, hmmap, hrun⟩ := bind_eq_ok.1 hrun
  obtain ⟨⟨s', r⟩, hfault, hrun⟩ := bind_eq_ok.1 hrun
  obtain ⟨(rfl : start = _), (rfl : r = true)⟩ := of_decide_eq_true (pure_eq_ok.1 hrun)
  exact ⟨s, hmmap, s', hfault⟩

/-- Memory that is mapped for reads and writes. -/
theorem grants_iff_both : ∃ s', started.mmap 0x10000 0x1000 ⟨true, true, false, false⟩
      ⟨false, false⟩ = .ok (s', some 0x10000) ∧
    Grants s' 0x10000 (roundUp 0x1000) ⟨true, true, false, false⟩ := by
  obtain ⟨s, hmmap, -⟩ := started_page
  exact ⟨s, hmmap, (grants_iff started_consistent (by decide) (by decide) hmmap).2
    ⟨rfl, fun _ => .inl (by decide)⟩⟩

end Maps

end Viengoos
