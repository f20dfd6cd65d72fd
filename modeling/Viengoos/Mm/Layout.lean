import Viengoos.Lib.Extents
import Viengoos.Mm.Map

/-!
# Maps laid out in the address space

The maps of the database in the order of the tree, as a list of records: each one fits in the
address space and in its pager, and they do not overlap. What an address has is a pager, an offset
into it and an access. Cutting a map in slices leaves what its addresses have.
-/

namespace Viengoos

open List

namespace Map

/-- The first address after a map. -/
def stop (m : Map) : ℕ := m.start + m.length

/-- The map covers an address. -/
def Covers (m : Map) (x : ℕ) : Prop := m.start ≤ x ∧ x < m.stop

/-- **What an address of a map has**: a pager, an offset into it, and an access. -/
def place (m : Map) (x : ℕ) : ℕ × ℕ × MapAccess := (m.pager, m.offset + (x - m.start), m.access)

/-- **A map in order**: it has pages, and fits in the address space and in its pager. -/
structure Fits (m : Map) (pagerLength : ℕ) : Prop where
  pos : 0 < m.length
  start_aligned : m.start % pagesize = 0
  length_aligned : m.length % pagesize = 0
  offset_aligned : m.offset % pagesize = 0
  inside : m.stop ≤ 2 ^ 32
  within : m.offset + m.length ≤ pagerLength

/-- The part of a map from one address to another one. -/
def slice (m : Map) (a b : ℕ) : Map :=
  { m with start := a, length := b - a, offset := m.offset + (a - m.start) }

/-- The map has addresses in a range. -/
def Meets (m : Map) (start stop : ℕ) : Prop := m.start < stop ∧ start < m.stop

instance (m : Map) (start stop : ℕ) : Decidable (m.Meets start stop) :=
  inferInstanceAs (Decidable (_ ∧ _))

/-- The map has addresses on both sides of one. -/
def Crosses (m : Map) (x : ℕ) : Prop := m.start < x ∧ x < m.stop

/-- The part of a map before a range. -/
def before (m : Map) (start : ℕ) : List Map :=
  if m.start < start then [m.slice m.start start] else []

/-- The part of a map in a range. -/
def inside (m : Map) (start stop : ℕ) : Map := m.slice (max m.start start) (min m.stop stop)

/-- The part of a map after a range. -/
def after (m : Map) (stop : ℕ) : List Map := if stop < m.stop then [m.slice stop m.stop] else []

/-- What is left of a map without a range. -/
def carve (start stop : ℕ) (m : Map) : List Map :=
  if m.Meets start stop then m.before start ++ m.after stop else [m]

/-- A map with another access in a range. -/
def recolour (start stop : ℕ) (access : MapAccess) (m : Map) : List Map :=
  if m.Meets start stop ∧ m.access ≠ access then
    m.before start ++ { m.inside start stop with access } :: m.after stop
  else [m]

section Slices

variable {m : Map} {a b x len start stop : ℕ}

@[simp] theorem slice_stop (h : a ≤ b) : (m.slice a b).stop = b := Nat.add_sub_cancel' h

theorem slice_self : m.slice m.start m.stop = m := by
  simp [slice, Map.stop]

theorem slice_slice {c d : ℕ} (ha : m.start ≤ a) (hc : a ≤ c) :
    (m.slice a b).slice c d = m.slice c d := by
  simp only [slice, Map.mk.injEq, true_and, and_true]
  omega

theorem covers_slice (h : a ≤ b) : (m.slice a b).Covers x ↔ a ≤ x ∧ x < b := by
  rw [Covers, slice_stop h]
  rfl

/-- A slice has what the map has. -/
theorem place_slice (ha : m.start ≤ a) (hx : a ≤ x) : (m.slice a b).place x = m.place x := by
  simp only [place, slice, Prod.mk.injEq, true_and, and_true]
  omega

theorem Fits.slice (h : m.Fits len) (ha : m.start ≤ a) (hab : a < b) (hb : b ≤ m.stop)
    (ha' : a % pagesize = 0) (hb' : b % pagesize = 0) : (m.slice a b).Fits len := by
  obtain ⟨hpos, hstart, hlength, hoffset, hinside, hwithin⟩ := h
  simp only [pagesize, Map.stop] at *
  refine ⟨?_, ha', ?_, ?_, ?_, ?_⟩ <;> simp only [Map.slice, pagesize, Map.stop] <;> omega

end Slices

/-! ### Lists of maps -/

/-- **Maps laid out**: they are connected, in order, and do not overlap. -/
structure Laid (len : ℕ → ℕ) (l : List Map) : Prop where
  connected : ∀ m ∈ l, m.connected = true
  fits : ∀ m ∈ l, m.Fits (len m.pager)
  apart : l.Pairwise fun a b => a.stop ≤ b.start

/-- An address has a pager, an offset into it and an access by some map. -/
def Has (l : List Map) (x : ℕ) (p : ℕ × ℕ × MapAccess) : Prop :=
  ∃ m ∈ l, m.Covers x ∧ m.place x = p

section Lists

variable {len : ℕ → ℕ} {l l' pre mid mid' post : List Map} {m : Map} {x start stop : ℕ}
  {p : ℕ × ℕ × MapAccess} {access : MapAccess}

theorem has_append : Has (l ++ l') x p ↔ Has l x p ∨ Has l' x p := by
  simp [Has, or_and_right, exists_or]

theorem has_singleton : Has [m] x p ↔ m.Covers x ∧ m.place x = p := by
  simp [Has]

theorem has_flatMap {f : Map → List Map} : Has (l.flatMap f) x p ↔ ∃ m ∈ l, Has (f m) x p := by
  simp only [Has, mem_flatMap]
  constructor
  · rintro ⟨m', ⟨m, hm, hm'⟩, h⟩
    exact ⟨m, hm, m', hm', h⟩
  · rintro ⟨m, hm, m', hm', h⟩
    exact ⟨m', ⟨m, hm, hm'⟩, h⟩

theorem laid_append : Laid len (l ++ l') ↔
    Laid len l ∧ Laid len l' ∧ ∀ a ∈ l, ∀ b ∈ l', a.stop ≤ b.start := by
  constructor
  · rintro ⟨hconn, hfits, hapart⟩
    obtain ⟨h, h', hcross⟩ := pairwise_append.1 hapart
    exact ⟨⟨fun m hm => hconn m (mem_append_left _ hm),
        fun m hm => hfits m (mem_append_left _ hm), h⟩,
      ⟨fun m hm => hconn m (mem_append_right _ hm),
        fun m hm => hfits m (mem_append_right _ hm), h'⟩, hcross⟩
  · rintro ⟨h, h', hcross⟩
    exact ⟨fun m hm => (mem_append.1 hm).elim (h.connected m) (h'.connected m),
      fun m hm => (mem_append.1 hm).elim (h.fits m) (h'.fits m),
      pairwise_append.2 ⟨h.apart, h'.apart, hcross⟩⟩

theorem Laid.middle (h : Laid len (pre ++ m :: post)) :
    m.connected = true ∧ m.Fits (len m.pager) ∧ (∀ a ∈ pre, a.stop ≤ m.start) ∧
      ∀ b ∈ post, m.stop ≤ b.start := by
  refine ⟨h.connected m (by simp), h.fits m (by simp), ?_⟩
  rw [← singleton_append, laid_append, laid_append] at h
  exact ⟨fun a ha => h.2.2 a ha m (by simp), fun b hb => h.2.1.2.2 m (by simp) b hb⟩

/-- A map is replaced by maps that reach no further. -/
theorem Laid.replace (h : Laid len (pre ++ m :: post)) (hmid : Laid len mid)
    (hin : ∀ a ∈ mid, m.start ≤ a.start ∧ a.stop ≤ m.stop) : Laid len (pre ++ (mid ++ post)) := by
  rw [← singleton_append, laid_append, laid_append] at h
  obtain ⟨hpre, ⟨-, hpost, hcross'⟩, hcross⟩ := h
  refine laid_append.2 ⟨hpre, laid_append.2 ⟨hmid, hpost, fun a ha b hb => ?_⟩, fun a ha b hb => ?_⟩
  · exact (hin a ha).2.trans (hcross' m (by simp) b hb)
  · rcases mem_append.1 hb with hb | hb
    · exact (hcross a ha m (by simp)).trans (hin b hb).1
    · exact hcross a ha b (by simp [hb])

theorem Laid.unique (h : Laid len l) {m' : Map} (hm : m ∈ l) (hm' : m' ∈ l) (hx : m.Covers x)
    (hx' : m'.Covers x) : m = m' := by
  obtain ⟨hle, hlt⟩ := hx
  obtain ⟨hle', hlt'⟩ := hx'
  rcases eq_or_of_pairwise h.apart hm hm' with rfl | hapart
  · rfl
  · omega

theorem Laid.sublist (h : Laid len l) (hl : l'.Sublist l) : Laid len l' :=
  ⟨fun m hm => h.connected m (hl.subset hm), fun m hm => h.fits m (hl.subset hm),
    h.apart.sublist hl⟩

theorem has_before :
    Has (m.before start) x p ↔ (m.start ≤ x ∧ x < start) ∧ m.place x = p := by
  rw [before]
  split
  · next hlt =>
    rw [has_singleton, covers_slice hlt.le]
    exact and_congr_right fun hx => by rw [place_slice le_rfl hx.1]
  · simp only [Has, not_mem_nil, false_and, exists_false, false_iff, not_and]
    omega

theorem has_after (h : m.Meets start stop) :
    Has (m.after stop) x p ↔ (stop ≤ x ∧ x < m.stop) ∧ m.place x = p := by
  rw [after]
  split
  · next hlt =>
    rw [has_singleton, covers_slice hlt.le]
    exact and_congr_right fun hx => by rw [place_slice h.1.le hx.1]
  · simp only [Has, not_mem_nil, false_and, exists_false, false_iff, not_and]
    omega

theorem has_inside (h : m.Meets start stop) (hrange : start < stop) :
    Has [{ m.inside start stop with access }] x p ↔ (max m.start start ≤ x ∧ x < min m.stop stop) ∧
      p = ((m.place x).1, (m.place x).2.1, access) := by
  have hle : max m.start start ≤ min m.stop stop := by
    have hself : m.start ≤ m.stop := Nat.le_add_right _ _
    obtain ⟨hlt, hgt⟩ := h
    omega
  have hcovers : Covers { m.inside start stop with access } x ↔ (m.inside start stop).Covers x :=
    Iff.rfl
  rw [has_singleton, hcovers, inside, covers_slice hle]
  refine and_congr_right fun hx => ?_
  have hplace := congrArg (fun p => (p.1, p.2.1, access))
    (place_slice (m := m) (b := min m.stop stop) (le_max_left m.start start) hx.1)
  rw [eq_comm, ← hplace]
  rfl

/-- Outside the range a map without it has what it had, and inside it has nothing. -/
theorem has_carve :
    Has (m.carve start stop) x p ↔ ¬ (start ≤ x ∧ x < stop) ∧ m.Covers x ∧ m.place x = p := by
  rw [carve]
  split
  · next hmeets =>
    rw [has_append, has_before, has_after hmeets, ← or_and_right, ← and_assoc, Covers]
    obtain ⟨hlt, hgt⟩ := hmeets
    refine and_congr_left fun _ => ?_
    omega
  · next hmeets =>
    rw [has_singleton]
    simp only [Meets, Covers] at hmeets ⊢
    constructor
    · rintro ⟨hx, hp⟩
      exact ⟨by omega, hx, hp⟩
    · rintro ⟨-, h⟩
      exact h

/-- In the range a map has the new access, and outside it has what it had. -/
theorem has_recolour (hrange : start < stop) :
    Has (m.recolour start stop access) x p ↔ m.Covers x ∧
      p = if start ≤ x ∧ x < stop then ((m.place x).1, (m.place x).2.1, access) else m.place x := by
  rw [recolour]
  split
  · next hmeets =>
    obtain ⟨hmeets, -⟩ := hmeets
    rw [← singleton_append, has_append, has_append, has_before, has_after hmeets,
      has_inside hmeets hrange]
    obtain ⟨hlt, hgt⟩ := hmeets
    rw [Covers, eq_comm (b := p)]
    split
    · next hin =>
      constructor
      · rintro (⟨hx, -⟩ | ⟨hx, hp⟩ | ⟨hx, -⟩)
        · omega
        · exact ⟨by omega, hp⟩
        · omega
      · rintro ⟨hx, hp⟩
        exact .inr (.inl ⟨by omega, hp⟩)
    · next hout =>
      constructor
      · rintro (⟨hx, hp⟩ | ⟨hx, -⟩ | ⟨hx, hp⟩)
        · exact ⟨by omega, hp⟩
        · omega
        · exact ⟨by omega, hp⟩
      · rintro ⟨hx, hp⟩
        rcases Nat.lt_or_ge x start with hxs | hxs
        · exact .inl ⟨⟨hx.1, hxs⟩, hp⟩
        · exact .inr (.inr ⟨by omega, hp⟩)
  · next hmeets =>
    rw [has_singleton, eq_comm]
    refine and_congr_right fun hx => ?_
    split
    · next hin =>
      have hmeets' : m.Meets start stop := ⟨hx.1.trans_lt hin.2, hin.1.trans_lt hx.2⟩
      have haccess : m.access = access := by
        by_contra hne
        exact hmeets ⟨hmeets', hne⟩
      simp [place, haccess]
    · rfl

/-- **Cutting a map** at a page boundary inside it. -/
theorem Laid.cut (h : Laid len (pre ++ m :: post)) (hlt : m.start < x) (hgt : x < m.stop)
    (hx : x % pagesize = 0) :
    Laid len (pre ++ m.slice m.start x :: m.slice x m.stop :: post) := by
  have hfits := h.fits m (by simp)
  have hconn := h.connected m (by simp)
  have hend : m.stop % pagesize = 0 := by
    rw [Map.stop, Nat.add_mod, hfits.start_aligned, hfits.length_aligned, Nat.zero_mod]
  have hlow := hfits.slice le_rfl hlt hgt.le hfits.start_aligned hx
  have hhigh := hfits.slice hlt.le hgt le_rfl hx hend
  have hcut : Laid len [m.slice m.start x, m.slice x m.stop] := by
    refine ⟨by simpa using ⟨hconn, hconn⟩, by simpa using ⟨hlow, hhigh⟩, ?_⟩
    simp only [pairwise_cons, mem_singleton, forall_eq, not_mem_nil, false_implies,
      implies_true, List.Pairwise.nil, and_true]
    rw [slice_stop hlt.le]
    exact le_rfl
  refine h.replace hcut ?_
  simp only [mem_cons, not_mem_nil, or_false, forall_eq_or_imp, forall_eq]
  rw [slice_stop hlt.le, slice_stop hgt.le]
  exact ⟨⟨le_rfl, hgt.le⟩, hlt.le, le_rfl⟩

end Lists

end Map

end Viengoos
