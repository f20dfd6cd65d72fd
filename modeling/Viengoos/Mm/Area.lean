import Viengoos.Mm.Protect
import Viengoos.Mm.Runs

/-!
# Maps and the address-space allocator

The map database and the allocator of address space know of the same memory: what is mapped is
allocated. `munmap` gives back what it unmaps, and the area of a new map is taken where there is
nothing.
-/

namespace Viengoos

open Outcome FreeSpace Function List VgAddr

/-! ### Releasing the area of a map -/

namespace Anon

variable {w : Anon} {A : Set ℕ} {m : Map}

variable {discardable fixed : Bool} {addr : VgAddr} {hint x : ℕ} {len : ℕ → ℕ}

/-- The addresses of a map as the range that `mdestroy` frees. -/
theorem rangeOf_map (hdepth : addr.depth = vgAddrBits)
    (hbits : addr.prefixBits = m.start) : rangeOf addr m.length = {x | m.Covers x} := by
  ext x
  simp only [rangeOf, hdepth, hbits, Nat.sub_self, pow_zero, Nat.one_mul, Set.mem_ofPred_eq,
    Map.Covers, Map.stop]

/-- A map whose addresses are allocated can be released. -/
theorem release_ok (h : Partitioned w.spaces A) (hpos : 0 < m.length)
    (hsub : ∀ x, m.Covers x → x ∈ A) (last : Bool) :
    ∃ w', Maps.release backend m last w = .ok w' ∧ w'.pagers = w.pagers ∧
      Partitioned w'.spaces (A \ {x | m.Covers x}) := by
  have hstart : m.start < 2 ^ vgAddrBits :=
    h.inside _ (hsub _ ⟨le_rfl, Nat.lt_add_of_pos_right hpos⟩)
  obtain ⟨addr, hmake, hdepth, hbits⟩ := exists_make (Nat.zero_le vgAddrBits)
    (one_dvd m.start) hstart
  rw [Nat.sub_zero] at hmake hdepth
  have hrange := rangeOf_map hdepth hbits
  have hvoid : addr ≠ .void := depth_le_iff.1 hdepth.le
  obtain ⟨spaces, hfree, hpart⟩ := h.asFree hvoid hpos (hrange ▸ hsub)
  rw [hrange] at hpart
  obtain ⟨w', hw', hpagers, rfl, hempty⟩ : ∃ w', mdestroy m last w = .ok w' ∧
      w'.pagers = w.pagers ∧ w'.spaces = spaces ∧ (last = true → w'.storage m.pager = []) := by
    refine ⟨{ w with
      spaces
      storage := update w.storage m.pager (if last then [] else
        (w.storage m.pager).filter fun d =>
          decide (d.1 < m.offset ∨ m.offset + m.length - 1 < d.1)) }, ?_, rfl, rfl, fun hlast => ?_⟩
    · rw [mdestroy, hmake, ok_bind, hfree]
      rfl
    · simp [hlast]
  refine ⟨w', ?_, hpagers, hpart⟩
  have hbackend : backend.destroy m last w = .ok w' := hw'
  rw [Maps.release, hbackend, ok_bind]
  cases last with
  | true =>
    change destroy m.pager w' = .ok w'
    rw [destroy, require_of (hempty rfl)]
    rfl
  | false => rfl

end Anon

/-! ### Unmapping -/

namespace Map

variable {m : Map} {l l' : List Map} {start stop x : ℕ}

/-- Two maps have no address in common. -/
def Apart (m m' : Map) : Prop := ∀ x, m.Covers x → ¬ m'.Covers x

/-- What is cut out of a map. -/
theorem mem_cut {m' : Map} (h : m' ∈ m.cut start stop) (hlt : m.start < m.stop)
    (hrange : start < stop) :
    0 < m'.length ∧ ∀ x, m'.Covers x ↔ m.Covers x ∧ start ≤ x ∧ x < stop := by
  rw [cut] at h
  split at h
  · next hmeets =>
    obtain ⟨hms, hsm⟩ := hmeets
    obtain rfl := mem_singleton.1 h
    have hle : max m.start start < min m.stop stop := by omega
    refine ⟨Nat.sub_pos_of_lt hle, fun x => ?_⟩
    change (m.inside start stop).Covers x ↔ _
    rw [inside, covers_slice hle.le, Covers]
    omega
  · simp at h

/-- A map that covers an address of the range is cut there. -/
theorem exists_mem_cut (hx : m.Covers x) (hstart : start ≤ x) (hstop : x < stop) :
    ∃ m', m' ∈ m.cut start stop := by
  have hmeets : m.Meets start stop := ⟨hx.1.trans_lt hstop, hstart.trans_lt hx.2⟩
  exact ⟨_, by rw [cut, if_pos hmeets]; exact mem_singleton_self _⟩

theorem Laid.pairwise_cut (h : Laid len l) (hrange : start < stop) :
    (l.flatMap (Map.cut start stop)).Pairwise Apart := by
  refine pairwise_flatMap.2 ⟨fun m _ => ?_, h.apart.imp_of_mem ?_⟩
  · rw [Map.cut]
    split <;> simp
  · intro a b ha hb hab a' ha' b' hb' x hx hx'
    have hxa := ((mem_cut ha' (h.fits a ha).lt_stop hrange).2 x).1 hx
    have hxb := ((mem_cut hb' (h.fits b hb).lt_stop hrange).2 x).1 hx'
    have := hxa.1.2
    have := hxb.1.1
    omega

end Map

namespace Maps

open Anon

variable {s s' : Maps Anon} {A : Set ℕ} {start stop length : ℕ}

/-- The addresses that are mapped. -/
def mapped (s : Maps Anon) : Set ℕ := {x | ∃ m ∈ s.records, m.Covers x}

/-- **The map database is consistent with the allocator**, which has the addresses of `A` in use:
what is mapped is in use. The pagers are those that `mmap` makes, without a fill function. -/
structure Consistent (s : Maps Anon) (A : Set ℕ) : Prop where
  valid : Valid s
  sound : Sound s
  partitioned : Partitioned s.world.spaces A
  mapped : s.mapped ⊆ A

theorem Valid.isSome_lookup (h : Valid s) (hx : x < 2 ^ 32) :
    (s.lookup x).isSome ↔ x ∈ s.mapped := by
  rw [Option.isSome_iff_exists]
  simp only [h.lookup_eq_some hx, Map.Has, Maps.mapped, Set.mem_ofPred_eq]
  constructor
  · rintro ⟨p, m, hm, hcovers, -⟩
    exact ⟨m, hm, hcovers⟩
  · rintro ⟨m, hm, hcovers⟩
    exact ⟨_, m, hm, hcovers, rfl⟩

/-- The world with maps still to be released: without them, the addresses of `F` are in use. -/
structure Pending (F : Set ℕ) (pagers : ℕ) (ms : List Map) (w : Anon) : Prop where
  apart : ms.Pairwise Map.Apart
  pos : ∀ m ∈ ms, 0 < m.length
  clear : ∀ m ∈ ms, ∀ x, m.Covers x → x ∉ F
  partitioned : Partitioned w.spaces (F ∪ {x | ∃ m ∈ ms, m.Covers x})
  pagers : w.pagers = pagers

theorem Pending.release {F : Set ℕ} {pagers : ℕ} {m : Map} {ms : List Map} {w : Anon}
    (h : Pending F pagers (m :: ms) w) (last : Bool) :
    ∃ w', release backend m last w = .ok w' ∧ Pending F pagers ms w' := by
  obtain ⟨hm, hms⟩ := pairwise_cons.1 h.apart
  obtain ⟨w', hw', hpagers, hpart⟩ := release_ok h.partitioned (h.pos m (by simp))
    (fun x hx => .inr ⟨m, by simp, hx⟩) last
  refine ⟨w', hw', hms, fun a ha => h.pos a (by simp [ha]), fun a ha => h.clear a (by simp [ha]),
    ?_, hpagers.trans h.pagers⟩
  convert hpart using 1
  ext x
  simp only [Set.mem_union, Set.mem_sdiff, Set.mem_ofPred_eq, mem_cons, exists_eq_or_imp]
  constructor
  · rintro (hx | ⟨a, ha, hx⟩)
    · exact ⟨.inl hx, fun hm => h.clear m (by simp) x hm hx⟩
    · exact ⟨.inr (.inr ⟨a, ha, hx⟩), fun hx' => hm a ha x hx' hx⟩
  · rintro ⟨hx | hx | hx, hnot⟩
    · exact .inl hx
    · exact absurd hx hnot
    · exact .inr hx

/-- **`munmap` gives back what it unmaps.** -/
theorem Consistent.munmap (h : Consistent s A) (hrange : start < stop) (hbound : stop ≤ 2 ^ 32)
    (hstart : start % pagesize = 0)
    (hstop : ∀ m ∈ s.records, m.Crosses stop → stop % pagesize = 0) :
    ∃ s', s.munmap backend start (stop - start) = .ok s' ∧
      Consistent s' (A \ (s.mapped ∩ Set.Ico start stop)) ∧
      s'.records = s.records.flatMap (Map.carve start stop) ∧
      s'.world.pagers = s.world.pagers := by
  have hlaid := h.valid.laid
  obtain ⟨s', hok, hvalid, hrecords, -, hpending⟩ := h.valid.munmap
    (I := Pending (A \ (s.mapped ∩ Set.Ico start stop)) s.world.pagers) hrange hbound hstart hstop
    (fun m ms last w hI => hI.release last) fun l hl => by
      have hmem : ∀ m ∈ l, 0 < m.length ∧
          ∃ m' ∈ s.records, ∀ x, m.Covers x ↔ m'.Covers x ∧ start ≤ x ∧ x < stop := by
        intro m hm
        obtain ⟨m', hm', hcut⟩ := mem_flatMap.1 (hl.subset hm)
        obtain ⟨hpos, hcovers⟩ := Map.mem_cut hcut (hlaid.fits m' hm').lt_stop hrange
        exact ⟨hpos, m', hm', hcovers⟩
      refine ⟨?_, fun m hm => (hmem m hm).1, fun m hm x hx hF => ?_, ?_, rfl⟩
      · exact (hl.pairwise_iff fun hab x hx hx' => hab x hx' hx).2 (hlaid.pairwise_cut hrange)
      · obtain ⟨-, m', hm', hcovers⟩ := hmem m hm
        obtain ⟨hx', hin⟩ := (hcovers x).1 hx
        exact hF.2 ⟨⟨m', hm', hx'⟩, hin⟩
      · convert h.partitioned using 1
        ext x
        constructor
        · rintro (hx | ⟨m, hm, hx⟩)
          · exact hx.1
          · obtain ⟨-, m', hm', hcovers⟩ := hmem m hm
            exact h.mapped ⟨m', hm', ((hcovers x).1 hx).1⟩
        · intro hx
          by_cases hin : x ∈ s.mapped ∧ start ≤ x ∧ x < stop
          · obtain ⟨⟨m, hm, hcovers⟩, hs, he⟩ := hin
            obtain ⟨m', hm'⟩ := Map.exists_mem_cut hcovers hs he
            refine .inr ⟨m', hl.symm.subset (mem_flatMap.2 ⟨m, hm, hm'⟩), ?_⟩
            exact ((Map.mem_cut hm' (hlaid.fits m hm).lt_stop hrange).2 x).2 ⟨hcovers, hs, he⟩
          · exact .inl ⟨hx, hin⟩
  refine ⟨s', hok, ⟨hvalid, h.sound.munmap hok, ?_, ?_⟩, hrecords, hpending.pagers⟩
  · have hpart := hpending.partitioned
    simpa using hpart
  · rintro x ⟨m, hm, hx⟩
    have hhas : Map.Has s'.records x (m.place x) := ⟨m, hm, hx, rfl⟩
    rw [hrecords, Map.has_flatMap] at hhas
    obtain ⟨m', hm', hhas⟩ := hhas
    obtain ⟨hout, hcovers, -⟩ := Map.has_carve.1 hhas
    exact ⟨h.mapped ⟨m', hm', hcovers⟩, fun hin => hout hin.2⟩

end Maps

/-! ### Taking an area -/

section Areas

variable {t t' : Spaces} {A : Set ℕ} {hint count start : ℕ}

/-- The addresses of pages. -/
def pages (start count : ℕ) : Set ℕ := Set.Ico start (start + count * pagesize)

theorem rangeOf_pages (count : ℕ) (hdepth : addr.depth = vgAddrBits - 12)
    (hbits : addr.prefixBits = start) : rangeOf addr count = pages start count := by
  ext x
  have hpow : 2 ^ (vgAddrBits - (vgAddrBits - 12)) = 4096 := by decide
  simp only [rangeOf, hdepth, hbits, hpow, pages, pagesize, Set.mem_ofPred_eq, Set.mem_Ico,
    Nat.mul_comm]

/-- The address of the page that a pointer points to. -/
theorem exists_page (hhint : hint % pagesize = 0) (hlt : hint < 2 ^ 32) :
    ∃ addr area, make hint vgAddrBits = .ok addr ∧ addr.chop 12 = .ok area ∧
      area ≠ .void ∧ area.depth = vgAddrBits - 12 ∧ area.prefixBits = hint := by
  have hlt' : hint < 2 ^ 63 := hlt.trans (by decide)
  have hmake : make (hint * 2 ^ (vgAddrBits - vgAddrBits)) vgAddrBits =
      .ok (.ofNum vgAddrBits hint le_rfl hlt') := make_mul_two_pow
  rw [Nat.sub_self, pow_zero, Nat.mul_one] at hmake
  refine ⟨_, _, hmake, chop_ofNum (c := 12) (by decide), ofNum_ne_void _ _,
    depth_ofNum, ?_⟩
  have hpow : 2 ^ (vgAddrBits - (vgAddrBits - 12)) = 4096 := by decide
  rw [prefixBits_ofNum, hpow]
  simp only [pagesize] at hhint
  omega

/-- Pages that are free, as the allocator has them. -/
theorem subset_covered_iff (h : Partitioned t A) (hlt : start + count * pagesize ≤ 2 ^ 63) :
    pages start count ⊆ Extent.covered t.nodes ↔ Disjoint (pages start count) A := by
  rw [Set.disjoint_left]
  refine forall₂_congr fun x hx => ?_
  rw [h.free_iff]
  exact and_iff_right (hx.2.trans_le hlt)

/-- An area that is asked for is taken if it is free. -/
theorem areaAt_spec (h : Partitioned t A) (hhint : hint % pagesize = 0) (hlt : hint < 2 ^ 32)
    (hzero : hint ≠ 0) (hcount : 0 < count) (hcount' : count < 2 ^ 20) :
    ∃ t' alloced, areaAt t hint count = .ok (t', alloced) ∧
      (alloced = true ↔ Disjoint (pages hint count) A) ∧
      Partitioned t' (if alloced then A ∪ pages hint count else A) := by
  obtain ⟨addr, area, hmake, hchop, hvoid, hdepth, hbits⟩ := exists_page hhint hlt
  have hrange := rangeOf_pages count hdepth hbits
  have hfits : RangeFits area count := by
    refine ⟨hvoid, hcount, ?_⟩
    have hpow : 2 ^ (vgAddrBits - (vgAddrBits - 12)) = 4096 := by decide
    rw [hbits, hdepth, hpow]
    omega
  obtain ⟨t', alloced, hok, hiff, hpart⟩ := h.asAllocAt hfits
  rw [hrange] at hiff hpart
  refine ⟨t', alloced, ?_, hiff.trans (subset_covered_iff h ?_), hpart⟩
  · rw [areaAt, if_neg hzero, hmake, ok_bind, hchop, ok_bind, hok]
  · simp only [pagesize]
    omega

/-- The alignment of an area that is taken anywhere. -/
def areaAlign (count : ℕ) : ℕ := 2 ^ (12 + (vgLsb64 count - 1))

/-- Where an area of pages can be taken. -/
structure Vacant (A : Set ℕ) (count start : ℕ) : Prop where
  aligned : areaAlign count ∣ start
  below : start + count * pagesize ≤ dataAddrMax
  free : Disjoint (pages start count) A

theorem Vacant.start_aligned (h : Vacant A count start) : start % pagesize = 0 := by
  have hdvd : pagesize ∣ areaAlign count := pow_dvd_pow 2 (Nat.le_add_right 12 _)
  exact Nat.mod_eq_zero_of_dvd (hdvd.trans h.aligned)

theorem allocFits_pages (hcount : 0 < count) (hcount' : count < 2 ^ 20) :
    AllocFits 12 count true := by
  refine ⟨hcount, hcount'.trans (by decide), ?_⟩
  have hwide : allocWidth true (12 + (vgLsb64 count - 1)) = 12 + (vgLsb64 count - 1) := if_pos rfl
  rw [hwide, pow_add, Nat.mul_assoc]
  have hle := Nat.mul_div_le count (2 ^ (vgLsb64 count - 1))
  omega

/-- An area is aligned by the power of two in the number of its pages. -/
theorem two_pow_dvd (hcount : 0 < count) (hcount' : count < 2 ^ 20) :
    2 ^ (vgLsb64 count - 1) ∣ count := by
  obtain ⟨shift, k, -, rfl, hlsb⟩ := exists_odd_part hcount.ne' (hcount'.trans (by decide))
  rw [hlsb, Nat.add_sub_cancel]
  exact Nat.dvd_mul_right _ _

/-- The pointer to the page at an address. -/
theorem exists_extend_page {area : VgAddr} (hvoid : area ≠ .void)
    (hdepth : area.depth = vgAddrBits - 12) :
    ∃ addr, area.extend 0 12 = .ok addr ∧ addr.depth = vgAddrBits ∧
      addr.prefixBits = area.prefixBits := by
  obtain ⟨d, k, hd, hk, rfl⟩ := exists_ofNum area hvoid
  rw [depth_ofNum] at hdepth
  subst hdepth
  refine ⟨_, extend_ofNum (c := 12) (by decide) (by decide), depth_ofNum, ?_⟩
  simp [vgAddrBits]

/-- **An area anywhere** is the first one that is vacant, if there is one. -/
theorem areaAnywhere_spec (h : Partitioned t A) (hcount : 0 < count) (hcount' : count < 2 ^ 20) :
    (areaAnywhere t count = .ok (t, none) ∧ ∀ start, ¬ Vacant A count start) ∨
      ∃ t' start, areaAnywhere t count = .ok (t', some start) ∧ Vacant A count start ∧
        (∀ start', Vacant A count start' → start ≤ start') ∧
        Partitioned t' (A ∪ pages start count) := by
  have hfits := allocFits_pages hcount hcount'
  have hdata : dataAddrMax < 2 ^ 32 - 1 := by decide
  have hlength : 2 ^ (12 + (vgLsb64 count - 1)) * (count / 2 ^ (vgLsb64 count - 1)) =
      count * pagesize := by
    rw [pow_add, Nat.mul_assoc, Nat.mul_div_cancel' (two_pow_dvd hcount hcount'), Nat.mul_comm]
    rfl
  -- a vacant area is in a region that fits
  have hvacant : ∀ start, Vacant A count start → ∃ r ∈ t.nodes,
      fits (areaAlign count) (count * pagesize) r = true ∧
        alignedStart (areaAlign count) r ≤ start := by
    rintro start ⟨haligned, hbelow, hfree⟩
    refine exists_fits h.separated (by simp only [pagesize]; omega) haligned ?_
    refine Set.Subset.trans (fun x hx => ?_) ((subset_covered_iff h (by omega)).2 hfree)
    simp only [pages, pagesize, Set.mem_Icc, Set.mem_Ico] at hx ⊢
    omega
  have hwidth : allocWidth true (12 + (vgLsb64 count - 1)) = 12 + (vgLsb64 count - 1) := if_pos rfl
  have hsize := hfits.2.2
  rw [hwidth] at hsize
  rcases asAlloc_takes h.separated (fun r => h.bound) hfits.1 hfits.2.1 hwidth
      (hwidth ▸ hfits.width_lt) ((Nat.mod_eq_of_lt hsize).trans hlength) with
    ⟨hnone, hlimit⟩ | ⟨t', area, hok, hvoid, hdepth, haligned, hfirst, -, e, he, hsub, hsep,
      hcovered, hmax⟩
  · refine .inl ⟨by rw [areaAnywhere, hnone]; rfl, fun start hstart => ?_⟩
    obtain ⟨r, hr, hfit, hle⟩ := hvacant start hstart
    have := (hlimit r hr hfit).2
    have := hstart.below
    rw [areaAlign] at hle
    omega
  · rw [Nat.add_sub_cancel] at hdepth
    have hmax := hmax rfl
    have hpages : Set.Icc area.prefixBits e = pages area.prefixBits count := by
      ext x
      simp only [pages, Set.mem_Icc, Set.mem_Ico]
      omega
    have hpart := h.take hsub hsep hcovered
    rw [hpages] at hpart hsub
    have hbelow : area.prefixBits + count * pagesize ≤ dataAddrMax := by omega
    refine .inr ⟨t', area.prefixBits, ?_, ⟨haligned, hbelow, ?_⟩, fun start hstart => ?_, hpart⟩
    · obtain ⟨addr, hextend, hdepth', hbits⟩ := exists_extend_page hvoid hdepth
      rw [areaAnywhere, hok, ok_bind]
      dsimp only
      rw [hextend, ok_bind, hbits, require_of (by omega), ok_bind, require_of hdepth', ok_bind]
      rfl
    · exact (subset_covered_iff h (by omega)).1 hsub
    · obtain ⟨r, hr, hfit, hle⟩ := hvacant start hstart
      exact (hfirst r hr hfit).trans hle

/-- No area is asked for, or one that is in use and need not be the one. -/
def Elsewhere (A : Set ℕ) (hint count : ℕ) (fixed : Bool) : Prop :=
  hint = 0 ∨ fixed = false ∧ ¬ Disjoint (pages hint count) A

/-- **What `anonymous_pager_alloc` takes**: the area that it is asked for if that is free; otherwise
none if the area is fixed, and else the first one that is vacant. -/
inductive Area (A : Set ℕ) (hint count : ℕ) (fixed : Bool) : Option ℕ → Prop
  | asked : hint ≠ 0 → Disjoint (pages hint count) A → Area A hint count fixed (some hint)
  | refused : hint ≠ 0 → fixed = true → ¬ Disjoint (pages hint count) A →
      Area A hint count fixed none
  | first {start : ℕ} : Elsewhere A hint count fixed → Vacant A count start →
      (∀ start', Vacant A count start' → start ≤ start') → Area A hint count fixed (some start)
  | full : Elsewhere A hint count fixed → (∀ start, ¬ Vacant A count start) →
      Area A hint count fixed none

theorem Area.some_spec (h : Area A hint count fixed (some start))
    (hhint : hint % pagesize = 0) (hlt : hint < 2 ^ 32) :
    start % pagesize = 0 ∧ start < 2 ^ 32 ∧ Disjoint (pages start count) A := by
  cases h with
  | asked _ hfree => exact ⟨hhint, hlt, hfree⟩
  | first _ hvacant =>
    have hbelow := hvacant.below
    have hmax : dataAddrMax < 2 ^ 32 := by decide
    exact ⟨hvacant.start_aligned, by omega, hvacant.free⟩

/-- The addresses in use after an area was taken. -/
def taking (A : Set ℕ) (count : ℕ) : Option ℕ → Set ℕ
  | none => A
  | some start => A ∪ pages start count

theorem mapArea_spec (h : Partitioned t A) (hhint : hint % pagesize = 0) (hlt : hint < 2 ^ 32)
    (hcount : 0 < count) (hcount' : count < 2 ^ 20) (fixed : Bool) :
    ∃ t' r, mapArea t hint count fixed = .ok (t', r) ∧ Area A hint count fixed r ∧
      Partitioned t' (taking A count r) := by
  have hanywhere : ∀ {t : Spaces}, Partitioned t A → Elsewhere A hint count fixed →
      ∃ t' r, areaAnywhere t count = .ok (t', r) ∧ Area A hint count fixed r ∧
        Partitioned t' (taking A count r) := by
    intro t h hfree
    rcases areaAnywhere_spec h hcount hcount' with
      ⟨hok, hfull⟩ | ⟨t', start, hok, hvacant, hfirst, hpart⟩
    · exact ⟨t, none, hok, .full hfree hfull, h⟩
    · exact ⟨t', some start, hok, .first hfree hvacant hfirst, hpart⟩
  by_cases hzero : hint = 0
  · obtain ⟨t', r, hok, harea, hpart⟩ := hanywhere h (.inl hzero)
    refine ⟨t', r, ?_, harea, hpart⟩
    rw [mapArea, areaAt, if_pos hzero]
    simp only [pure_bind, hzero, ne_eq, not_true_eq_false, false_and, if_false, Bool.false_eq_true]
    exact hok
  · obtain ⟨t₁, alloced, hat, hiff, hpart⟩ := areaAt_spec h hhint hlt hzero hcount hcount'
    cases alloced with
    | true =>
      refine ⟨t₁, some hint, ?_, .asked hzero (hiff.1 rfl), hpart⟩
      rw [mapArea, hat]
      rfl
    | false =>
      have hbusy : ¬ Disjoint (pages hint count) A := fun hd => Bool.false_ne_true (hiff.2 hd)
      cases fixed with
      | true =>
        refine ⟨t₁, none, ?_, .refused hzero rfl hbusy, hpart⟩
        rw [mapArea, hat, ok_bind]
        simp [hzero]
      | false =>
        obtain ⟨t', r, hok, harea, hpart'⟩ := hanywhere hpart (.inr ⟨rfl, hbusy⟩)
        refine ⟨t', r, ?_, harea, hpart'⟩
        rw [mapArea, hat, ok_bind]
        simpa using hok

end Areas

/-! ### A new map -/

namespace Maps

open Anon

variable {s s' : Maps Anon} {A : Set ℕ} {start length p : ℕ} {access : MapAccess}

/-- Maps that do not meet a range are before it or after it. -/
theorem exists_gap {f : ℕ → Map} {stop : ℕ} (hrange : start < stop) : ∀ {l : List ℕ},
    Map.Laid len (l.map f) → (∀ id ∈ l, ¬ (f id).Meets start stop) →
    ∃ pre post, l = pre ++ post ∧ (∀ id ∈ pre, (f id).stop ≤ start) ∧
      ∀ id ∈ post, stop ≤ (f id).start
  | [], _, _ => ⟨[], [], rfl, by simp, by simp⟩
  | id :: l, hlaid, hnone => by
    have hlt := (hlaid.fits (f id) (by simp)).lt_stop
    have hself := hnone id (by simp)
    by_cases hbefore : (f id).stop ≤ start
    · obtain ⟨pre, post, rfl, hpre, hpost⟩ := exists_gap hrange (hlaid.sublist (by simp))
        fun j hj => hnone j (mem_cons_of_mem _ hj)
      refine ⟨id :: pre, post, rfl, fun j hj => ?_, hpost⟩
      rcases mem_cons.1 hj with rfl | hj
      · exact hbefore
      · exact hpre j hj
    · have hge : stop ≤ (f id).start := by
        simp only [Map.Meets] at hself
        omega
      refine ⟨[], id :: l, rfl, by simp, fun j hj => ?_⟩
      rcases mem_cons.1 hj with rfl | hj
      · exact hge
      · have hapart := (pairwise_cons.1 hlaid.apart).1 (f j) (mem_map_of_mem hj)
        omega

/-- A new pager has no maps. -/
theorem Valid.newPager (h : Valid s) (hsound : Sound s) (hlength : length < 2 ^ 32)
    (discardable : Bool) : Valid (s.newPager length discardable) := by
  have hne : ∀ id < s.fresh, (s.map id).pager ≠ s.world.pagers := fun id hid =>
    (hsound.sits id hid).pager.ne
  refine ⟨⟨h.laid.connected, fun m hm => ?_, h.laid.apart⟩, h.nodup, h.below, fun id hid => ?_,
    fun p => ?_, fun p id hid => ?_, fun p => ?_⟩
  · obtain ⟨id, hid, rfl⟩ := mem_records.1 hm
    have hfits := h.fits hid
    have hother : (s.newPager length discardable).length (s.map id).pager =
        s.length (s.map id).pager := update_of_ne (hne id (h.below id hid)) _ _
    change (s.map id).Fits ((s.newPager length discardable).length (s.map id).pager)
    rwa [hother]
  · have hother : (s.newPager length discardable).list (s.map id).pager =
        s.list (s.map id).pager := update_of_ne (hne id (h.below id hid)) _ _
    change id ∈ (s.newPager length discardable).list (s.map id).pager
    rw [hother]
    exact h.listed id hid
  · simp only [Maps.newPager, update_apply]
    split
    · exact .nil
    · exact h.lists p
  · simp only [Maps.newPager, update_apply] at hid
    split at hid
    · simp at hid
    · exact h.owned p id hid
  · simp only [Maps.newPager, update_apply]
    split
    · exact hlength
    · exact h.words p

/-- `map_create` where there are no maps. -/
theorem Valid.mapCreate (h : Valid s) (hstart : start % pagesize = 0)
    (hlength : length % pagesize = 0) (hpos : 0 < length) (hinside : start + length ≤ 2 ^ 32)
    (hwithin : length ≤ s.length p) (hnone : ∀ m ∈ s.records, ¬ m.Meets start (start + length))
    (access : MapAccess) :
    ∃ s', s.mapCreate start length access p 0 = .ok (s', some s.fresh) ∧ Valid s' ∧
      s'.world = s.world ∧ ∀ {x q}, Map.Has s'.records x q ↔
        Map.Has s.records x q ∨ (start ≤ x ∧ x < start + length) ∧ (p, x - start, access) = q := by
  let m : Map := ⟨false, p, 0, start, length, access⟩
  let s₀ := { s with fresh := s.fresh + 1 }.setMap s.fresh m
  have hvalid₀ : Valid s₀ := h.alloc m
  have hself : s₀.map s.fresh = m := update_self ..
  obtain ⟨pre, post, hl, hpre, hpost⟩ := exists_gap (show start < start + length by omega) h.laid
    fun id hid => hnone _ (mem_records.2 ⟨id, hid, rfl⟩)
  have hsame : ∀ l : List ℕ, (∀ j ∈ l, j ∈ s.tree.nodes) → l.map s₀.map = l.map s.map :=
    fun l hl => map_congr_left fun j hj => update_of_ne (h.below j (hl j hj)).ne _ _
  have hpre' := hsame pre fun j hj => by simp [hl, hj]
  have hpost' := hsame post fun j hj => by simp [hl, hj]
  have hlaid : Map.Laid s₀.length
      (pre.map s₀.map ++ { s₀.map s.fresh with connected := true } :: post.map s₀.map) := by
    have hold := h.laid
    rw [records, hl, map_append, Map.laid_append] at hold
    rw [hpre', hpost', hself, ← singleton_append, Map.laid_append, Map.laid_append]
    have hfits : ({ m with connected := true } : Map).Fits (s₀.length p) :=
      ⟨hpos, hstart, hlength, rfl, hinside, (Nat.zero_add _).trans_le hwithin⟩
    have hnew : Map.Laid s₀.length [{ m with connected := true }] :=
      ⟨by simp, fun a ha => by rwa [mem_singleton.1 ha], by simp⟩
    refine ⟨hold.1, ⟨hnew, hold.2.1, fun a ha b hb => ?_⟩, fun a ha b hb => ?_⟩
    · obtain rfl := mem_singleton.1 ha
      obtain ⟨j, hj, rfl⟩ := mem_map.1 hb
      exact hpost j hj
    · obtain ⟨i, hi, rfl⟩ := mem_map.1 ha
      rcases mem_append.1 hb with hb | hb
      · obtain rfl := mem_singleton.1 hb
        exact hpre i hi
      · exact hold.2.2 _ ha b hb
  obtain ⟨hok, hvalid⟩ := hvalid₀.mapInstall hl hlaid (Nat.lt_succ_self _)
    (fun hmem => absurd (h.below _ hmem) (lt_irrefl _))
    fun q hmem => absurd (h.owned q _ hmem).1 (lt_irrefl _)
  refine ⟨_, ?_, hvalid, rfl, ?_⟩
  · change (s₀.mapInstall s.fresh >>= fun c => pure (c.1, if c.2 then some s.fresh else none)) = _
    rw [hok]
    rfl
  · intro x q
    have hrecords : (s₀.installed s.fresh (pre ++ s.fresh :: post)).records =
        pre.map s.map ++ { m with connected := true } :: post.map s.map := by
      have hinstalled : ∀ l : List ℕ, (∀ j ∈ l, j ∈ s.tree.nodes) →
          l.map (s₀.installed s.fresh (pre ++ s.fresh :: post)).map = l.map s₀.map :=
        fun l hl => map_congr_left fun j hj =>
          update_of_ne (h.below j (hl j hj)).ne _ _
      have hnew : (s₀.installed s.fresh (pre ++ s.fresh :: post)).map s.fresh =
          { m with connected := true } := by simp [Maps.installed, hself]
      change (pre ++ s.fresh :: post).map _ = _
      rw [map_append, map_cons, hinstalled pre fun j hj => by simp [hl, hj],
        hinstalled post fun j hj => by simp [hl, hj], hpre', hpost', hnew]
    have hrecords' : s.records = pre.map s.map ++ post.map s.map := by
      rw [records, hl, map_append]
    have hplace : ({ m with connected := true } : Map).place x = (p, x - start, access) := by
      simp [Map.place, m]
    rw [hrecords, hrecords', ← singleton_append, Map.has_append, Map.has_append,
      Map.has_append, Map.has_singleton, hplace, or_comm (b := Map.Has (post.map s.map) x q),
      ← or_assoc]
    rfl

/-- `map_install` adds its map, and changes no region. -/
theorem mapInstall_frame {id : ℕ} {b : Bool} (hok : s.mapInstall id = .ok (s', b)) :
    (∀ j ∈ s'.tree.nodes, j = id ∨ j ∈ s.tree.nodes) ∧
      ∀ j, (s'.map j).start = (s.map j).start ∧ (s'.map j).last = (s.map j).last := by
  iterate 5 obtain ⟨_, -, hok⟩ := bind_eq_ok.1 hok
  have hnodes : ∀ j ∈ (s.tree.insert (fun j => (s.map j).compare (s.map id).start
      (s.map id).length) id).2.nodes, j = id ∨ j ∈ s.tree.nodes :=
    fun j => SearchTree.mem_of_mem_insert
  split at hok
  · next htree =>
    obtain ⟨⟩ := pure_eq_ok.1 hok
    rw [htree] at hnodes
    exact ⟨hnodes, fun j => ⟨rfl, rfl⟩⟩
  · next htree =>
    obtain ⟨⟩ := pure_eq_ok.1 hok
    rw [htree] at hnodes
    refine ⟨hnodes, fun j => ?_⟩
    simp only [setMap, update_apply]
    split
    · next heq => exact heq ▸ ⟨rfl, rfl⟩
    · exact ⟨rfl, rfl⟩

/-- A map that wraps around is not found at an address from its start on, where there was none. -/
theorem Valid.lookup_wraps {r : Option ℕ} (h : Valid s) (hlength : length < 2 ^ 32)
    (hstart : start < 2 ^ 32) (hwraps : 2 ^ 32 < start + length)
    (hok : s.mapCreate start length access p 0 = .ok (s', r)) (hx : x < 2 ^ 32)
    (hle : start ≤ x) (hnone : x ∉ s.mapped) : s'.lookup x = none := by
  obtain ⟨⟨s₁, b⟩, hinstall, ⟨⟩⟩ := bind_pure_eq_ok.1 hok
  rw [lookup, Option.map_eq_none_iff]
  by_contra hsome
  obtain ⟨id, hfind⟩ := Option.ne_none_iff_exists'.1 hsome
  obtain ⟨hmem, hfirst, hlast⟩ := mapFind_covers hx hfind
  obtain ⟨hnodes, hregion⟩ := mapInstall_frame hinstall
  rw [(hregion id).1] at hfirst
  rw [(hregion id).2] at hlast
  rcases hnodes id hmem with rfl | hold
  · -- the new map ends before it starts
    simp only [Maps.setMap, update_self, Map.last,
      last32_wraps hlength hstart hwraps] at hlast
    omega
  · have hne : id ≠ s.fresh := (h.below id hold).ne
    simp only [Maps.setMap, update_of_ne hne] at hfirst hlast
    have hfits := h.fits hold
    rw [hfits.last_eq] at hlast
    exact hnone ⟨_, mem_records.2 ⟨id, hold, rfl⟩, hfirst, by omega⟩

/-- The database before the new map is created: the area was taken, and there is a pager. -/
def prepared (s : Maps Anon) (spaces : Spaces) (length : ℕ) (discardable : Bool) : Maps Anon :=
  { s with world := { s.world with spaces } }.newPager length discardable

/-- **`anonymous_pager_alloc`** takes an area, and creates a map there. -/
theorem Consistent.anonymousPagerAlloc_eq (h : Consistent s A)
    (hhint : hint % pagesize = 0) (hlt : hint < 2 ^ 32) (hlength : length % pagesize = 0)
    (hpos : 0 < length) (hlt' : length < 2 ^ 32) (access : MapAccess) (discardable fixed : Bool) :
    ∃ spaces r, Area A hint (length / pagesize) fixed r ∧
      Partitioned spaces (taking A (length / pagesize) r) ∧
      Valid (s.prepared spaces length discardable) ∧ Sound (s.prepared spaces length discardable) ∧
      s.anonymousPagerAlloc hint length access discardable fixed = match r with
        | none => .ok ({ s with world := { s.world with spaces } }, none)
        | some start =>
          (s.prepared spaces length discardable).mustCreate start length access s.world.pagers := by
  have hcount : 0 < length / pagesize ∧ length / pagesize < 2 ^ 20 := by
    simp only [pagesize] at hlength ⊢
    omega
  obtain ⟨spaces, r, hok, harea, hpart⟩ :=
    mapArea_spec h.partitioned hhint hlt hcount.1 hcount.2 fixed
  have hkeeps : Keeps s.world { s.world with spaces } :=
    ⟨rfl, rfl, fun hb => ⟨hb.storage, hb.slot⟩⟩
  have hsound : Sound { s with world := { s.world with spaces } } := h.sound.keep hkeeps _
  have hvalid : Valid { s with world := { s.world with spaces } } :=
    ⟨h.valid.laid, h.valid.nodup, h.valid.below, h.valid.listed, h.valid.lists, h.valid.owned,
      h.valid.words⟩
  refine ⟨spaces, r, harea, hpart, hvalid.newPager hsound hlt' discardable,
    hsound.newPager hlt' discardable, ?_⟩
  rw [Maps.anonymousPagerAlloc, require_of hhint, ok_bind, require_of hlength, ok_bind,
    require_of hpos, ok_bind, hok, ok_bind]
  cases r <;> rfl

/-- A map in an area that fits in the address space. -/
theorem Consistent.mapCreate {spaces : Spaces} (h : Consistent s A)
    (hstart : start % pagesize = 0) (hlength : length % pagesize = 0) (hpos : 0 < length)
    (hinside : start + length ≤ 2 ^ 32) (hfree : Disjoint (pages start (length / pagesize)) A)
    (hpart : Partitioned spaces (A ∪ pages start (length / pagesize)))
    (hvalid : Valid (s.prepared spaces length discardable))
    (hsound : Sound (s.prepared spaces length discardable)) (access : MapAccess) :
    ∃ s', (s.prepared spaces length discardable).mustCreate start length access s.world.pagers =
        .ok (s', some start) ∧
      Consistent s' (A ∪ pages start (length / pagesize)) ∧
      ∀ {x q}, Map.Has s'.records x q ↔ Map.Has s.records x q ∨
        (start ≤ x ∧ x < start + length) ∧ (s.world.pagers, x - start, access) = q := by
  have hpages : pages start (length / pagesize) = Set.Ico start (start + length) := by
    rw [pages, Nat.div_mul_cancel (Nat.dvd_of_mod_eq_zero hlength)]
  rw [hpages] at hfree hpart ⊢
  have hwithin : length ≤ (s.prepared spaces length discardable).length s.world.pagers := by
    simp [prepared, Maps.newPager]
  have hnone : ∀ m ∈ s.records, ¬ m.Meets start (start + length) := by
    intro m hm hmeets
    have hlt := (h.valid.laid.fits m hm).lt_stop
    have hin : max m.start start ∈ Set.Ico start (start + length) :=
      ⟨le_max_right _ _, max_lt hmeets.1 (by omega)⟩
    exact Set.disjoint_left.1 hfree hin (h.mapped ⟨m, hm, le_max_left _ _, max_lt hlt hmeets.2⟩)
  obtain ⟨s', hok, hvalid', hworld, hhas⟩ :=
    hvalid.mapCreate hstart hlength hpos hinside hwithin hnone access
  refine ⟨s', by rw [mustCreate, hok]; rfl, ⟨hvalid', ?_, ?_, ?_⟩, hhas⟩
  · exact hsound.mapCreate (by omega) hwithin (Nat.lt_succ_self _) hok
  · rw [hworld]
    exact hpart
  · rintro x ⟨m, hm, hx⟩
    rcases hhas.1 ⟨m, hm, hx, rfl⟩ with ⟨m', hm', hx', -⟩ | ⟨hin, -⟩
    · exact .inl (h.mapped ⟨m', hm', hx'⟩)
    · exact .inr hin

/-- **`anonymous_pager_alloc`, when it succeeds**: the new map has the pages of its area, unless it
wraps around. -/
theorem Consistent.anonymousPagerAlloc (h : Consistent s A)
    (hhint : hint % pagesize = 0) (hlt : hint < 2 ^ 32) (hlength : length % pagesize = 0)
    (hpos : 0 < length) (hlt' : length < 2 ^ 32)
    (hok : s.anonymousPagerAlloc hint length access discardable fixed = .ok (s', some start)) :
    Area A hint (length / pagesize) fixed (some start) ∧
      (start + length ≤ 2 ^ 32 → Consistent s' (A ∪ pages start (length / pagesize)) ∧
        ∀ {x q}, Map.Has s'.records x q ↔ Map.Has s.records x q ∨
          (start ≤ x ∧ x < start + length) ∧ (s.world.pagers, x - start, access) = q) ∧
      (2 ^ 32 < start + length → ∀ x < 2 ^ 32, start ≤ x → x ∉ s.mapped → s'.lookup x = none) := by
  obtain ⟨spaces, r, harea, hpart, hvalid, hsound, heq⟩ :=
    h.anonymousPagerAlloc_eq hhint hlt hlength hpos hlt' access discardable fixed
  rw [heq] at hok
  cases r with
  | none => simp at hok
  | some start' =>
    have hcreate := hok
    obtain ⟨⟨s₁, id⟩, hmap, hcreate⟩ := bind_eq_ok.1 hcreate
    cases id with
    | none => simp at hcreate
    | some id =>
      obtain ⟨rfl, hstart⟩ := Prod.mk.inj (pure_eq_ok.1 hcreate)
      obtain rfl := Option.some.inj hstart
      obtain ⟨haligned, hsmall, hfree⟩ := harea.some_spec hhint hlt
      refine ⟨harea, fun hinside => ?_, fun hwraps x hx hle hnone => ?_⟩
      · obtain ⟨s', hok', hcons, hhas⟩ := h.mapCreate haligned hlength hpos hinside hfree hpart
          hvalid hsound access
        obtain ⟨⟩ := Except.ok.inj (hok'.symm.trans hok)
        exact ⟨hcons, hhas⟩
      · exact hvalid.lookup_wraps hlt' hsmall hwraps hmap hx hle hnone

end Maps

end Viengoos
