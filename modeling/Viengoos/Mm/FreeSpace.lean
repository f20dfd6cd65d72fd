import Viengoos.Addr
import Viengoos.Lib.Extents
import Viengoos.Lib.Outcome
import Viengoos.Lib.SearchTree

/-!
# The allocator of virtual addresses of `libhurd-mm/as.c`

The free regions of the address space are the nodes of a search tree. Allocation carves a range out
of a free region; `as_free` puts a range back, and coalesces it with the regions that it touches.
Numbers are 64-bit words. A shift by 64 or more, which C leaves undefined, gives 0 here.

Sizes are computed without regard to overflow, and an empty range can be "allocated" in the middle
of a free region. Where neither occurs, free and allocated ranges partition the address space along
every run, and the free regions are separated.
-/

namespace Viengoos

open Outcome List VgAddr

namespace FreeSpace

/-! ### The code -/

/-- `region_compare` with the region of a node. -/
def regionCompare (a b : Extent) : Ordering :=
  if a.last < b.start then .lt else if a.start > b.last then .gt else .eq

/-- The free regions. -/
abbrev Spaces := SearchTree Extent

/-- `x + 1` in 64 bits. -/
def inc64 (x : ℕ) : ℕ := (x + 1) % 2 ^ 64

/-- `start + length - 1` in 64 bits. -/
def last64 (start length : ℕ) : ℕ := (start + length + (2 ^ 64 - 1)) % 2 ^ 64

/-- `free_space_split`: carve a range out of the `i`th free region, which is `f`. -/
def freeSpaceSplit (t : Spaces) (i : ℕ) (f : Extent) (start last : ℕ) : Except Fault Spaces := do
  require (f.start ≤ start) .assertion
  require (last ≤ f.last) .assertion
  if start = f.start ∧ last = f.last then
    pure (t.after (t.nodes.eraseIdx i))
  else if start = f.start then
    pure { t with nodes := t.nodes.set i { f with start := inc64 last } }
  else if last = f.last then
    pure { t with nodes := t.nodes.set i { f with last := start - 1 } }
  else
    let new : Extent := ⟨inc64 last, f.last⟩
    let t : Spaces := { t with nodes := t.nodes.set i { f with last := start - 1 } }
    let (place, t) := t.insert (regionCompare new) new
    require (place.isRight = true) .assertion
    pure t

/-- `DATA_ADDR_MAX` of 32-bit machines. -/
def dataAddrMax : ℕ := 0xC0000000

/-- The width that `as_alloc` rounds a width up to. -/
def allocWidth (dataMappable : Bool) (w : ℕ) : ℕ :=
  if dataMappable then w
  else if w ≤ 4 then 4
  else if w ≤ 12 then 12
  else w + (8 - (w - 12) % 8)

/-- Where an aligned range can start in a region. -/
def alignedStart (align : ℕ) (f : Extent) : ℕ := (f.start + align - 1) % 2 ^ 64 / align * align

/-- Whether `as_alloc` takes a region. -/
def fits (align length : ℕ) (f : Extent) : Bool :=
  alignedStart align f < f.last ∧ length ≤ f.last - alignedStart align f + 1

/-- `as_alloc`, after `as_init`. A shift by 64 bits or more, which C leaves undefined, gives 0. -/
def asAlloc (t : Spaces) (width count : ℕ) (dataMappable : Bool) :
    Except Fault (Spaces × Option VgAddr) := do
  require (count ≠ 0) .assertion
  let shift := vgLsb64 count - 1
  let w := allocWidth dataMappable (width + shift)
  let align := 2 ^ w % 2 ^ 64
  let length := align * (count / 2 ^ shift) % 2 ^ 64
  match t.nodes.findIdx? (fits align length) with
  | none => pure (t, none)
  | some i =>
    let f := t.nodes.getD i ⟨0, 0⟩
    let start := alignedStart align f
    if dataMappable ∧ last64 start length ≥ dataAddrMax then pure (t, none)
    else
      let t ← freeSpaceSplit t i f start (last64 start length)
      let addr ← VgAddr.make start (vgAddrBits - (w - shift))
      pure (t, some addr)

/-- The length in bytes of `count` objects at an address, in 64 bits. -/
def length64 (addr : VgAddr) (count : ℕ) : ℕ := 2 ^ (vgAddrBits - addr.depth) * count % 2 ^ 64

/-- `as_alloc_at`. -/
def asAllocAt (t : Spaces) (addr : VgAddr) (count : ℕ) : Except Fault (Spaces × Bool) := do
  let start := addr.prefixBits
  let last := last64 start (length64 addr count)
  let found := t.find (regionCompare ⟨start, last⟩)
  let t := t.after t.nodes
  match found with
  | none => pure (t, false)
  | some i =>
    let f := t.nodes.getD i ⟨0, 0⟩
    if f.start ≤ start ∧ last ≤ f.last then
      let t ← freeSpaceSplit t i f start last
      pure (t, true)
    else pure (t, false)

/-- The region before the `i`th one. -/
def regionBefore (l : List Extent) : ℕ → Option Extent
  | 0 => none
  | i + 1 => l[i]?

/-- Coalesce a range with the region after a gap. -/
def extendNext (t : Spaces) (gap start last : ℕ) : Except Fault Spaces :=
  match t.nodes[gap]? with
  | none => .error .assertion
  | some next => do
    require (inc64 last = next.start) .assertion
    pure { t with nodes := t.nodes.set gap { next with start } }

/-- The part of `as_free` that coalesces a range with the regions around a gap. -/
def coalesce (t : Spaces) (gap start last : ℕ) : Except Fault Spaces :=
  match regionBefore t.nodes gap with
  | none => extendNext t gap start last
  | some prev =>
    if inc64 prev.last = start then
      match t.nodes[gap]? with
      | some next =>
        if inc64 last = next.start then
          pure (t.after ((t.nodes.set (gap - 1) { prev with last := next.last }).eraseIdx gap))
        else pure { t with nodes := t.nodes.set (gap - 1) { prev with last } }
      | none => pure { t with nodes := t.nodes.set (gap - 1) { prev with last } }
    else extendNext t gap start last

/-- `as_free`. -/
def asFree (t : Spaces) (addr : VgAddr) (count : ℕ) : Except Fault Spaces :=
  let start := addr.prefixBits
  let last := last64 start (length64 addr count)
  -- a range that overlaps with the regions it could be coalesced with
  let space : Extent := ⟨start - 1, if last = 2 ^ 64 - 1 then last else last + 1⟩
  match t.insert (regionCompare space) space with
  | (.inl i, t) => do
    let f := t.nodes.getD i ⟨0, 0⟩
    require (inc64 f.last = start ∨ inc64 last = f.start) .assertion
    coalesce t (if inc64 f.last = start then i + 1 else i) start last
  | (.inr p, t) => pure { t with nodes := t.nodes.set p ⟨start, last⟩ }

/-! ### One operation -/

variable {dataMappable : Bool} {addr : VgAddr} {count length start w : ℕ}

section Operations

open Extent SearchTree

variable {t t' : Spaces} {pre post : List Extent} {f : Extent} {s e : ℕ}

theorem regionCompare_eq_lt {a b : Extent} : regionCompare a b = .lt ↔ a.last < b.start := by
  rw [regionCompare]
  split
  · simp [*]
  · split <;> simp [*]

theorem regionCompare_eq_gt {a b : Extent} :
    regionCompare a b = .gt ↔ b.start ≤ a.last ∧ b.last < a.start := by
  rw [regionCompare]
  split
  · simp
    omega
  · split <;> simp <;> omega

theorem regionCompare_eq_eq {a b : Extent} :
    regionCompare a b = .eq ↔ b.start ≤ a.last ∧ a.start ≤ b.last := by
  rw [regionCompare]
  split
  · simp
    omega
  · split <;> simp <;> omega

/-- Separated regions are ordered for every search. -/
theorem ordered (h : Separated t.nodes) (key : Extent) :
    Ordered (regionCompare key) t.nodes := by
  refine h.apart.imp_of_mem fun {a b} ha hb hab => ?_
  have ha := h.nonempty a ha
  have hb := h.nonempty b hb
  rw [regionCompare_eq_lt, regionCompare_eq_lt, regionCompare_eq_gt, regionCompare_eq_gt]
  omega

theorem inc64_of_lt {x : ℕ} (h : x < 2 ^ 64 - 1) : inc64 x = x + 1 := Nat.mod_eq_of_lt (by omega)

/-- `free_space_split` carves the range out. -/
theorem freeSpaceSplit_spec (h : Separated t.nodes) (hl : t.nodes = pre ++ f :: post)
    (hs : f.start ≤ s) (hse : s ≤ e) (he : e ≤ f.last) (hf : f.last < 2 ^ 64) :
    ∃ t', freeSpaceSplit t pre.length f s e = .ok t' ∧
      t'.nodes = pre ++ (f.carve s e ++ post) := by
  rw [freeSpaceSplit, require_of hs, ok_bind, require_of he, ok_bind, carve]
  by_cases hstart : s = f.start <;> by_cases hlast : e = f.last
  · simp only [hstart, hlast, and_self, if_true]
    exact ⟨_, rfl, by simp [SearchTree.after, hl, eraseIdx_append_of_length_le]⟩
  · simp only [hstart, hlast, and_false, if_true, if_false, inc64_of_lt (x := e) (by omega)]
    exact ⟨_, rfl, by simp [hl]⟩
  · simp only [hstart, hlast, and_true, if_true, if_false]
    exact ⟨_, rfl, by simp [hl]⟩
  · have hset : t.nodes.set pre.length { f with last := s - 1 } =
        (pre ++ [⟨f.start, s - 1⟩]) ++ post := by simp [hl]
    rw [hl] at h
    obtain ⟨-, hcons, hpre⟩ := separated_append.1 h
    obtain ⟨-, -, hpost⟩ := separated_cons.1 hcons
    have hless : ∀ b ∈ pre ++ [⟨f.start, s - 1⟩], regionCompare ⟨e + 1, f.last⟩ b = .gt := by
      intro b hb
      rw [regionCompare_eq_gt]
      rcases mem_append.1 hb with hb | hb
      · have := hpre b hb f (by simp)
        have := (separated_append.1 h).1.nonempty b hb
        exact ⟨by dsimp only; omega, by dsimp only; omega⟩
      · obtain rfl := mem_singleton.1 hb
        exact ⟨by dsimp only; omega, by dsimp only; omega⟩
    have hgreater : ∀ b ∈ post, regionCompare ⟨e + 1, f.last⟩ b = .lt := fun b hb => by
      rw [regionCompare_eq_lt]
      exact (Nat.lt_succ_self _).trans (hpost b hb)
    simp only [hstart, hlast, and_false, if_false, inc64_of_lt (x := e) (by omega)]
    rw [insert_between hset hless hgreater]
    exact ⟨_, rfl, by simp [SearchTree.after]⟩

/-- A range is coalesced with the region above, unless it touches the one below. -/
theorem extendNext_spec {A B : List Extent} (h : Separated (A ++ B)) (hl : t.nodes = A ++ B)
    (hA : ∀ a ∈ A, a.last + 1 < s) (hB : ∀ b ∈ B, e < b.start) (hse : s ≤ e) (he : e < 2 ^ 63)
    (htouch : ∃ b ∈ B, e + 1 = b.start) :
    ∃ t', extendNext t A.length s e = .ok t' ∧ Separated t'.nodes ∧
      covered t'.nodes = covered (A ++ B) ∪ Set.Icc s e := by
  obtain ⟨c, hc, hec⟩ := htouch
  cases B with
  | nil => simp at hc
  | cons b B =>
    obtain ⟨hsep, hsep', hne, hbelow, hpost, hcross⟩ := separated_append_cons.1 h
    obtain rfl : c = b := by
      rcases mem_cons.1 hc with rfl | hc
      · rfl
      · have := hpost c hc
        have := hB b (by simp)
        omega
    have hget : t.nodes[A.length]? = some c := by simp [hl]
    have hset : t.nodes.set A.length ⟨s, c.last⟩ = A ++ ⟨s, c.last⟩ :: B := by simp [hl]
    rw [extendNext, hget]
    simp only [inc64_of_lt (x := e) (by omega), require_of hec, ok_bind, hset]
    refine ⟨_, rfl, separated_append_cons.2 ⟨hsep, hsep', ?_, hA, hpost, hcross⟩,
      Set.ext fun x => ?_⟩
    · dsimp only
      omega
    · have hx : s ≤ x ∧ x ≤ c.last ↔ (s ≤ x ∧ x ≤ e) ∨ (c.start ≤ x ∧ x ≤ c.last) := by omega
      simp only [mem_covered_append, mem_covered_cons, Set.mem_union, Set.mem_Icc, hx]
      rw [or_comm (b := s ≤ x ∧ x ≤ e), or_assoc, or_left_comm]

/-- A range between free regions, which touches one of them, is coalesced. -/
theorem coalesce_spec {A B : List Extent} (h : Separated (A ++ B)) (hl : t.nodes = A ++ B)
    (hA : ∀ a ∈ A, a.last < s) (hB : ∀ b ∈ B, e < b.start) (hse : s ≤ e) (he : e < 2 ^ 63)
    (htouch : (∃ a ∈ A, a.last + 1 = s) ∨ ∃ b ∈ B, e + 1 = b.start) :
    ∃ t', coalesce t A.length s e = .ok t' ∧ Separated t'.nodes ∧
      covered t'.nodes = covered (A ++ B) ∪ Set.Icc s e := by
  rcases eq_nil_or_concat' A with rfl | ⟨A, prev, rfl⟩
  · rw [coalesce]
    exact extendNext_spec h hl (by simp) hB hse he (htouch.resolve_left (by simp))
  · have hbefore : regionBefore t.nodes (A ++ [prev]).length = some prev := by
      simp [regionBefore, hl]
    have hset : ∀ r, t.nodes.set ((A ++ [prev]).length - 1) r = A ++ r :: B := by simp [hl]
    have hget : t.nodes[(A ++ [prev]).length]? = B.head? := by
      rw [hl, getElem?_append_right le_rfl, Nat.sub_self, head?_eq_getElem?]
    have hassoc : (A ++ [prev]) ++ B = A ++ prev :: B := by simp
    have hprev := hA prev (by simp)
    obtain ⟨hsep, hsep', hne, hbelow, habove, hcross⟩ := separated_append_cons.1 (hassoc ▸ h)
    rw [coalesce, hbefore]
    simp only [inc64_of_lt (x := prev.last) (by omega)]
    by_cases hps : prev.last + 1 = s
    · simp only [if_pos hps, hset, hget, inc64_of_lt (x := e) (by omega), hassoc]
      -- the region below takes the range, and the region above where it touches it
      have hextend : (∀ b ∈ B, e + 1 < b.start) → Separated (A ++ ⟨prev.start, e⟩ :: B) ∧
          covered (A ++ ⟨prev.start, e⟩ :: B) = covered (A ++ prev :: B) ∪ Set.Icc s e := by
        intro hlt
        refine ⟨separated_append_cons.2 ⟨hsep, hsep', ?_, hbelow, hlt, hcross⟩,
          Set.ext fun x => ?_⟩
        · dsimp only
          omega
        · have hx : prev.start ≤ x ∧ x ≤ e ↔
              (prev.start ≤ x ∧ x ≤ prev.last) ∨ (s ≤ x ∧ x ≤ e) := by omega
          simp only [mem_covered_append, mem_covered_cons, Set.mem_union, Set.mem_Icc, hx]
          simp only [or_assoc, or_comm]
      cases B with
      | nil => exact ⟨_, rfl, hextend (by simp)⟩
      | cons next B =>
        obtain ⟨hnext, hB', hlt⟩ := separated_cons.1 hsep'
        simp only [head?_cons]
        by_cases hen : e + 1 = next.start
        · simp only [if_pos hen]
          have herase : (A ++ ⟨prev.start, next.last⟩ :: next :: B).eraseIdx (A ++ [prev]).length =
              A ++ ⟨prev.start, next.last⟩ :: B := by
            rw [eraseIdx_append_of_length_le (by simp)]
            simp
          refine ⟨_, rfl, ?_⟩
          simp only [SearchTree.after, herase]
          refine ⟨separated_append_cons.2 ⟨hsep, hB', ?_, hbelow, hlt, fun a ha b hb =>
            hcross a ha b (mem_cons_of_mem _ hb)⟩, Set.ext fun x => ?_⟩
          · dsimp only
            omega
          · have hx : prev.start ≤ x ∧ x ≤ next.last ↔ (prev.start ≤ x ∧ x ≤ prev.last) ∨
                (next.start ≤ x ∧ x ≤ next.last) ∨ (s ≤ x ∧ x ≤ e) := by omega
            simp only [mem_covered_append, mem_covered_cons, Set.mem_union, Set.mem_Icc, hx]
            simp only [or_assoc, or_left_comm, or_comm]
        · simp only [if_neg hen]
          refine ⟨_, rfl, hextend fun b hb => ?_⟩
          have := hB next (by simp)
          rcases mem_cons.1 hb with rfl | hb
          · omega
          · have := hlt b hb
            omega
    · rw [if_neg hps]
      have hlt : ∀ a ∈ A ++ [prev], a.last + 1 < s := by
        intro a ha
        rcases mem_append.1 ha with ha | ha
        · have := hbelow a ha
          omega
        · rw [mem_singleton.1 ha]
          omega
      refine extendNext_spec h hl hlt hB hse he (htouch.resolve_left ?_)
      rintro ⟨a, ha, has⟩
      exact (hlt a ha).ne has

section

variable (h : Separated t.nodes) (hbound : ∀ r ∈ t.nodes, r.last < 2 ^ 63)
  (hlast : last64 addr.prefixBits (length64 addr count) = e)
include h hbound hlast

/-- `as_free` puts a range back that is not free. -/
theorem asFree_spec (hs : addr.prefixBits = s)
    (hse : s ≤ e) (he : e < 2 ^ 63) (hfree : ∀ x, s ≤ x → x ≤ e → x ∉ covered t.nodes) :
    ∃ t', asFree t addr count = .ok t' ∧ Separated t'.nodes ∧
      covered t'.nodes = covered t.nodes ∪ Set.Icc s e := by
  -- a region that is not below the range is above it
  have hside : ∀ r ∈ t.nodes, r.last < s ∨ e < r.start := fun r hr => by
    by_contra hcon
    rw [not_or, not_lt, not_lt] at hcon
    have := h.nonempty r hr
    exact hfree (max s r.start) (le_max_left _ _) (max_le hse hcon.2)
      ⟨r, hr, le_max_right _ _, max_le hcon.1 this⟩
  rw [asFree, hlast, hs]
  simp only [if_neg (show e ≠ 2 ^ 64 - 1 by omega)]
  rcases insert_spec (ordered h ⟨s - 1, e + 1⟩) ⟨s - 1, e + 1⟩ with
    ⟨pre, f, post, hl, hok, hf⟩ | ⟨pre, post, hl, hok, hpre, hpost⟩
  · rw [regionCompare_eq_eq] at hf
    dsimp only at hf
    have hget : (t.after t.nodes).nodes.getD pre.length ⟨0, 0⟩ = f := by
      simp [SearchTree.after, hl]
    have hinc : inc64 f.last = f.last + 1 := inc64_of_lt (by
      have := hbound f (by simp [hl])
      omega)
    have hsep := h
    rw [hl] at hsep
    obtain ⟨-, hsep', hne, hbelow, habove, -⟩ := separated_append_cons.1 hsep
    simp only [hok, hget, hinc, inc64_of_lt (x := e) (by omega)]
    rcases hside f (by simp [hl]) with hfs | hfs
    · rw [require_of (.inl (by omega)), ok_bind, if_pos (by omega)]
      have hl' : t.nodes = (pre ++ [f]) ++ post := by simp [hl]
      have hA : ∀ a ∈ pre ++ [f], a.last < s := by
        intro a ha
        rcases mem_append.1 ha with ha | ha
        · have := hbelow a ha
          omega
        · rwa [mem_singleton.1 ha]
      have hB : ∀ b ∈ post, e < b.start := fun b hb => by
        have := habove b hb
        have := hsep'.nonempty b hb
        have := hside b (by simp [hl, hb])
        omega
      have hco := coalesce_spec (t := t.after t.nodes) (hl' ▸ h) hl' hA hB hse he
        (.inl ⟨f, by simp, by omega⟩)
      rwa [← hl', length_append, length_singleton] at hco
    · rw [require_of (.inr (by omega)), ok_bind, if_neg (by omega)]
      have hA : ∀ a ∈ pre, a.last < s := fun a ha => by
        have := hbelow a ha
        have := (separated_append.1 hsep).1.nonempty a ha
        have := hside a (by simp [hl, ha])
        omega
      have hB : ∀ b ∈ f :: post, e < b.start := by
        intro b hb
        rcases mem_cons.1 hb with rfl | hb
        · exact hfs
        · have := habove b hb
          omega
      have hco := coalesce_spec (t := t.after t.nodes) hsep hl hA hB hse he
        (.inr ⟨f, by simp, by omega⟩)
      rwa [← hl] at hco
  · rw [hok]
    have hset : (pre ++ ⟨s - 1, e + 1⟩ :: post).set pre.length ⟨s, e⟩ = pre ++ ⟨s, e⟩ :: post := by
      simp
    refine ⟨_, rfl, ?_⟩
    simp only [SearchTree.after, hset]
    rw [hl] at h ⊢
    obtain ⟨hsep, hsep', hcross⟩ := separated_append.1 h
    refine ⟨separated_append_cons.2 ⟨hsep, hsep', hse, fun a ha => ?_, fun b hb => ?_, hcross⟩,
      Set.ext fun x => ?_⟩
    · have := (regionCompare_eq_gt.1 (hpre a ha)).2
      dsimp only at this ⊢
      omega
    · have := regionCompare_eq_lt.1 (hpost b hb)
      omega
    · simp only [mem_covered_append, mem_covered_cons, Set.mem_union, Set.mem_Icc]
      rw [or_comm (a := s ≤ x ∧ x ≤ e), or_assoc]

/-- `as_alloc_at` takes a range out that is free, and no other one. -/
theorem asAllocAt_spec (hs : addr.prefixBits = s) (hse : s ≤ e) :
    ∃ t' ok, asAllocAt t addr count = .ok (t', ok) ∧
      (ok = true ↔ Set.Icc s e ⊆ covered t.nodes) ∧ Separated t'.nodes ∧
      covered t'.nodes = if ok then covered t.nodes \ Set.Icc s e else covered t.nodes := by
  rw [asAllocAt, hlast, hs]
  rcases find_spec (ordered h ⟨s, e⟩) with ⟨pre, f, post, hl, hfind, hf⟩ | ⟨hfind, hnone⟩
  · have hget : (t.after t.nodes).nodes.getD pre.length ⟨0, 0⟩ = f := by
      simp [SearchTree.after, hl]
    have hmem : f ∈ t.nodes := by simp [hl]
    simp only [hfind, hget]
    by_cases hin : f.start ≤ s ∧ e ≤ f.last
    · obtain ⟨t', hok, hnodes⟩ := freeSpaceSplit_spec (t := t.after t.nodes) h hl hin.1 hse hin.2
        ((hbound f hmem).trans (by decide))
      rw [if_pos hin, hok]
      have hcarve := Separated.carve (hl ▸ h) hin.1 hse hin.2
      rw [← hnodes, ← hl] at hcarve
      refine ⟨t', true, rfl, iff_of_true rfl fun x hx => ⟨f, hmem, hin.1.trans hx.1,
        hx.2.trans hin.2⟩, by simpa using hcarve⟩
    · rw [if_neg hin]
      refine ⟨_, false, rfl, iff_of_false (by simp) fun hsub => ?_, h, rfl⟩
      -- a region that the range is in would be the one that was found
      obtain ⟨r, hr, hin'⟩ := h.exists_of_subset hse hsub
      obtain ⟨hfe, hsf⟩ := regionCompare_eq_eq.1 hf
      dsimp only at hfe hsf
      rcases h.eq_or_apart hmem hr with rfl | hapart
      · exact hin hin'
      · omega
  · simp only [hfind]
    refine ⟨_, false, rfl, iff_of_false (by simp) fun hsub => ?_, h, rfl⟩
    obtain ⟨r, hr, hin'⟩ := h.exists_of_subset hse hsub
    exact hnone r hr (regionCompare_eq_eq.2 ⟨hin'.1.trans hse, hse.trans hin'.2⟩)

end

theorem le_allocWidth (dataMappable : Bool) (w : ℕ) : w ≤ allocWidth dataMappable w := by
  rw [allocWidth]
  split
  · exact le_rfl
  · split <;> [omega; skip]
    split <;> omega

/-- An aligned start in a region is a multiple of the alignment from its start on. -/
theorem alignedStart_spec (hw : w < 64) (hf : f.start < 2 ^ 63) :
    f.start ≤ alignedStart (2 ^ w) f ∧ 2 ^ w ∣ alignedStart (2 ^ w) f := by
  refine ⟨?_, Nat.dvd_mul_left _ _⟩
  have hle : 2 ^ w ≤ 2 ^ 63 := Nat.pow_le_pow_right Nat.two_pos (by omega)
  rw [alignedStart, Nat.mod_eq_of_lt (by omega)]
  have hdiv := Nat.div_add_mod' (f.start + 2 ^ w - 1) (2 ^ w)
  omega

/-- The size that `as_alloc` allocates fits in 64 bits. -/
def AllocFits (width count : ℕ) (dataMappable : Bool) : Prop :=
  0 < count ∧ count < 2 ^ 64 ∧
    2 ^ allocWidth dataMappable (width + (vgLsb64 count - 1)) * (count / 2 ^ (vgLsb64 count - 1))
      < 2 ^ 64

/-- An aligned start is the first one in the region. -/
theorem alignedStart_le (hf : f.start ≤ start) (hdvd : 2 ^ w ∣ start) :
    alignedStart (2 ^ w) f ≤ start := by
  obtain ⟨q, rfl⟩ := hdvd
  have hpos : 0 < 2 ^ w := Nat.two_pow_pos w
  have hdiv : (f.start + 2 ^ w - 1) % 2 ^ 64 / 2 ^ w ≤ q := by
    refine Nat.lt_succ_iff.1 ((Nat.div_lt_iff_lt_mul hpos).2 ?_)
    rw [Nat.succ_mul, Nat.mul_comm q]
    omega
  rw [alignedStart, Nat.mul_comm (2 ^ w)]
  exact Nat.mul_le_mul_right _ hdiv

/-- A region fits if there is an aligned range in it, and gives one not after it. -/
theorem fits_of_le (hlength : 1 < length) (hdvd : 2 ^ w ∣ start)
    (hs : f.start ≤ start) (he : start + length ≤ f.last + 1) :
    fits (2 ^ w) length f = true ∧ alignedStart (2 ^ w) f ≤ start := by
  have hle := alignedStart_le hs hdvd
  refine ⟨?_, hle⟩
  simp only [fits, decide_eq_true_eq]
  omega

theorem exists_fits {l : List Extent} (h : Separated l)
    (hlength : 1 < length) (hdvd : 2 ^ w ∣ start)
    (hfree : Set.Icc start (start + length - 1) ⊆ covered l) :
    ∃ r ∈ l, fits (2 ^ w) length r = true ∧ alignedStart (2 ^ w) r ≤ start := by
  obtain ⟨r, hr, hs, he⟩ := h.exists_of_subset (by omega) hfree
  exact ⟨r, hr, fits_of_le hlength hdvd hs (by omega)⟩

/-- A size is computed modulo `2 ^ 64`, and is a multiple of the alignment. -/
theorem size_mod (hw : w < 64) (k : ℕ) :
    ∃ q, 2 ^ w * (2 * k + 1) % 2 ^ 64 = 2 ^ w * (2 * q + 1) := by
  obtain ⟨d, hd⟩ : ∃ d, 64 = w + (d + 1) := ⟨63 - w, by omega⟩
  refine ⟨k % 2 ^ d, ?_⟩
  have hhalf : (2 * k + 1) / 2 = k := by omega
  rw [hd, pow_add, Nat.mul_mod_mul_left, pow_succ', Nat.mod_mul, hhalf]
  congr 1
  omega

/-- **`as_alloc`** takes the first region that fits, where `w` is the width it aligns to and
`length` the size it computes. -/
theorem asAlloc_takes {width : ℕ} (h : Separated t.nodes)
    (hbound : ∀ r ∈ t.nodes, r.last < 2 ^ 63) (hpos : 0 < count) (hlt : count < 2 ^ 64)
    (hw : allocWidth dataMappable (width + (vgLsb64 count - 1)) = w) (hw64 : w < 64)
    (hlength : 2 ^ w * (count / 2 ^ (vgLsb64 count - 1)) % 2 ^ 64 = length) :
    (asAlloc t width count dataMappable = .ok (t, none) ∧
        ∀ r ∈ t.nodes, fits (2 ^ w) length r = true →
          dataMappable = true ∧ dataAddrMax < alignedStart (2 ^ w) r + length) ∨
      ∃ t' addr, asAlloc t width count dataMappable = .ok (t', some addr) ∧ addr ≠ .void ∧
        addr.depth = vgAddrBits - (w - (vgLsb64 count - 1)) ∧ 2 ^ w ∣ addr.prefixBits ∧
        (∀ r ∈ t.nodes, fits (2 ^ w) length r = true →
          addr.prefixBits ≤ alignedStart (2 ^ w) r) ∧
        (∃ r ∈ t.nodes, r.start < r.last ∧ r.start ≤ addr.prefixBits ∧
          addr.prefixBits + length ≤ r.last + 1) ∧
        ∃ e, e + 1 = addr.prefixBits + length ∧ Set.Icc addr.prefixBits e ⊆ covered t.nodes ∧
          Separated t'.nodes ∧ covered t'.nodes = covered t.nodes \ Set.Icc addr.prefixBits e ∧
          (dataMappable = true → e < dataAddrMax) := by
  obtain ⟨shift, k, -, rfl, hlsb⟩ := exists_odd_part hpos.ne' hlt
  rw [hlsb, Nat.add_sub_cancel] at hw hlength ⊢
  rw [Nat.mul_div_cancel_left _ (Nat.two_pow_pos shift)] at hlength
  have hlpos : 2 ^ w ≤ length := by
    obtain ⟨q, hq⟩ := size_mod hw64 k
    rw [← hlength, hq]
    exact Nat.le_mul_of_pos_right _ (by omega)
  have hpow := Nat.two_pow_pos w
  rw [asAlloc, require_of hpos.ne', ok_bind]
  simp only [hlsb, Nat.add_sub_cancel, Nat.mul_div_cancel_left _ (Nat.two_pow_pos shift), hw,
    Nat.mod_eq_of_lt (Nat.pow_lt_pow_right (by decide : 1 < 2) hw64), hlength]
  cases hfind : t.nodes.findIdx? (fits (2 ^ w) length) with
  | none =>
    refine .inl ⟨rfl, fun r hr hfit => ?_⟩
    simp [findIdx?_eq_none_iff.1 hfind r hr] at hfit
  | some i =>
    obtain ⟨hi, hfit, hnot⟩ := findIdx?_eq_some_iff_getElem.1 hfind
    have hl : t.nodes = t.nodes.take i ++ t.nodes[i] :: t.nodes.drop (i + 1) := by
      rw [getElem_cons_drop, take_append_drop]
    have hlen : (t.nodes.take i).length = i := length_take_of_le hi.le
    have hmem : t.nodes[i] ∈ t.nodes := getElem_mem hi
    have hget : t.nodes.getD i ⟨0, 0⟩ = t.nodes[i] := by simp [List.getD, hi]
    -- the regions before do not fit, and those after it start later
    have hfirst : ∀ r ∈ t.nodes, fits (2 ^ w) length r = true →
        alignedStart (2 ^ w) t.nodes[i] ≤ alignedStart (2 ^ w) r := fun r hr hfit' => by
      obtain ⟨j, hj, rfl⟩ := getElem_of_mem hr
      rcases Nat.lt_trichotomy j i with hji | rfl | hij
      · exact absurd hfit' (hnot j hji)
      · exact le_rfl
      · have hapart := pairwise_iff_getElem.1 h.apart i j hi hj hij
        have hstart := (alignedStart_spec (f := t.nodes[j]) hw64
          ((h.nonempty _ hr).trans_lt (hbound _ hr))).1
        simp only [fits, decide_eq_true_eq] at hfit
        omega
    simp only [hget]
    generalize t.nodes[i] = f at hl hmem hfit hfirst ⊢
    have hf := hbound f hmem
    have hne := h.nonempty f hmem
    obtain ⟨hstart, hdvd⟩ := alignedStart_spec (f := f) hw64 (by omega)
    simp only [fits, decide_eq_true_eq] at hfit
    generalize alignedStart (2 ^ w) f = start at hstart hdvd hfit hfirst ⊢
    have hend : last64 start length = start + length - 1 := by
      rw [last64]
      omega
    rw [hend]
    split
    · next hmax =>
      refine .inl ⟨rfl, fun r hr hfit' => ⟨hmax.1, ?_⟩⟩
      have := hfirst r hr hfit'
      omega
    · next hmax =>
      obtain ⟨t', hok, hnodes⟩ := freeSpaceSplit_spec h hl hstart
        (show start ≤ start + length - 1 by omega) (by omega) (by omega)
      obtain ⟨addr, hmake, hdepth, rfl⟩ := exists_make (p := start)
        (w := w - shift) (show w - shift ≤ 63 by omega)
        ((pow_dvd_pow 2 (Nat.sub_le _ _)).trans hdvd) (show start < 2 ^ 63 by omega)
      rw [hlen] at hok
      rw [hok, ok_bind, hmake]
      have hcarve := Separated.carve (hl ▸ h) hstart
        (show addr.prefixBits ≤ addr.prefixBits + length - 1 by omega) (by omega)
      rw [← hnodes, ← hl] at hcarve
      refine .inr ⟨t', addr, rfl, depth_le_iff.1 (hdepth ▸ Nat.sub_le _ _), hdepth,
        hdvd, hfirst, ⟨f, hmem, by omega, hstart, by omega⟩, addr.prefixBits + length - 1, by omega,
        fun x hx => ?_, hcarve.1, hcarve.2, fun hdata => Nat.not_le.1 fun hle => hmax ⟨hdata, hle⟩⟩
      exact ⟨f, hmem, hstart.trans hx.1, hx.2.trans (by omega)⟩

/-- The width that a size that fits is aligned to. -/
theorem AllocFits.width_lt {width : ℕ} (hfits : AllocFits width count dataMappable) :
    allocWidth dataMappable (width + (vgLsb64 count - 1)) < 64 := by
  obtain ⟨hpos, hlt, hsize⟩ := hfits
  obtain ⟨shift, k, -, rfl, hlsb⟩ := exists_odd_part hpos.ne' hlt
  rw [hlsb, Nat.add_sub_cancel, Nat.mul_div_cancel_left _ (Nat.two_pow_pos shift)] at hsize
  rw [hlsb, Nat.add_sub_cancel]
  exact (Nat.pow_lt_pow_iff_right (by decide)).1
    ((Nat.le_mul_of_pos_right _ (by omega)).trans_lt hsize)

/-- The objects at an address of the depth that `as_alloc` returns take up the size it computes. -/
theorem size_eq {width : ℕ} (hpos : 0 < count) (hlt : count < 2 ^ 64)
    (hw : allocWidth dataMappable (width + (vgLsb64 count - 1)) = w) (hw64 : w < 64)
    (hdepth : addr.depth = vgAddrBits - (w - (vgLsb64 count - 1))) :
    2 ^ (vgAddrBits - addr.depth) * count = 2 ^ w * (count / 2 ^ (vgLsb64 count - 1)) := by
  obtain ⟨shift, k, -, rfl, hlsb⟩ := exists_odd_part hpos.ne' hlt
  rw [hlsb, Nat.add_sub_cancel] at hw hdepth ⊢
  have hshift := le_allocWidth dataMappable (width + shift)
  have hexp : vgAddrBits - addr.depth + shift = w := by
    rw [hdepth]
    exact (congrArg (· + shift) (Nat.sub_sub_self (show w - shift ≤ 63 by omega))).trans
      (Nat.sub_add_cancel (by omega))
  rw [Nat.mul_div_cancel_left _ (Nat.two_pow_pos shift), ← Nat.mul_assoc, ← pow_add, hexp]

end Operations

/-! ### Runs -/

section Runs

open Extent

/-- The addresses of `count` objects at an address. -/
def rangeOf (addr : VgAddr) (count : ℕ) : Set ℕ :=
  {x | addr.prefixBits ≤ x ∧ x < addr.prefixBits + 2 ^ (vgAddrBits - addr.depth) * count}

/-- A range that is not empty, at an address, and ends in 64 bits. -/
def RangeFits (addr : VgAddr) (count : ℕ) : Prop :=
  addr ≠ .void ∧ 0 < count ∧
    addr.prefixBits + 2 ^ (vgAddrBits - addr.depth) * count ≤ 2 ^ 64

/-- **A run** from `as_init` on, with the addresses that are allocated. Sizes fit in 64 bits, and
ranges are not empty. -/
inductive Run : Spaces → Set ℕ → Prop
  | init {shapes : ℕ → ℕ → ℕ → ℕ} {t : Spaces} :
      (VgAddr.make 0 0 >>= fun addr => asFree ⟨[], shapes⟩ addr 1) = .ok t → Run t ∅
  | alloc {t t' : Spaces} {A : Set ℕ} {width count : ℕ} {dataMappable : Bool} {addr : VgAddr} :
      Run t A → AllocFits width count dataMappable →
      asAlloc t width count dataMappable = .ok (t', some addr) → Run t' (A ∪ rangeOf addr count)
  | allocNone {t t' : Spaces} {A : Set ℕ} {width count : ℕ} {dataMappable : Bool} :
      Run t A → AllocFits width count dataMappable →
      asAlloc t width count dataMappable = .ok (t', none) → Run t' A
  | allocAt {t t' : Spaces} {A : Set ℕ} {addr : VgAddr} {count : ℕ} :
      Run t A → RangeFits addr count → asAllocAt t addr count = .ok (t', true) →
      Run t' (A ∪ rangeOf addr count)
  | allocAtNone {t t' : Spaces} {A : Set ℕ} {addr : VgAddr} {count : ℕ} :
      Run t A → RangeFits addr count → asAllocAt t addr count = .ok (t', false) → Run t' A
  | free {t t' : Spaces} {A : Set ℕ} {addr : VgAddr} {count : ℕ} :
      Run t A → addr ≠ .void → 0 < count → rangeOf addr count ⊆ A → asFree t addr count = .ok t' →
      Run t' (A \ rangeOf addr count)

/-- **The invariant**: the free regions are separated, and what is not in them is allocated. -/
structure Partitioned (t : Spaces) (A : Set ℕ) : Prop where
  separated : Separated t.nodes
  inside : ∀ x ∈ A, x < 2 ^ vgAddrBits
  free_iff : ∀ x, x ∈ covered t.nodes ↔ x < 2 ^ vgAddrBits ∧ x ∉ A

variable {t t' : Spaces} {A : Set ℕ} {addr : VgAddr} {width count : ℕ}

theorem Partitioned.bound (h : Partitioned t A) {r : Extent} (hr : r ∈ t.nodes) : r.last < 2 ^ 63 :=
  ((h.free_iff r.last).1 ⟨r, hr, h.separated.nonempty r hr, le_rfl⟩).1

/-- The last address of a range as it is computed. -/
theorem RangeFits.last (h : RangeFits addr count) :
    ∃ e, last64 addr.prefixBits (length64 addr count) = e ∧ addr.prefixBits ≤ e ∧
      e + 1 = addr.prefixBits + 2 ^ (vgAddrBits - addr.depth) * count ∧
      rangeOf addr count = Set.Icc addr.prefixBits e := by
  obtain ⟨-, hcount, hfits⟩ := h
  have hpos : 0 < 2 ^ (vgAddrBits - addr.depth) * count := Nat.mul_pos (Nat.two_pow_pos _) hcount
  rw [length64, last64]
  simp only [rangeOf, Set.Icc]
  generalize 2 ^ (vgAddrBits - addr.depth) * count = n at hpos hfits ⊢
  refine ⟨addr.prefixBits + n - 1, by omega, by omega, by omega, Set.ext fun x => ?_⟩
  simp only [Set.mem_ofPred_eq]
  omega

section

variable (h : Partitioned t A)

include h

/-- A range of allocated addresses is one that fits. -/
theorem Partitioned.rangeFits (haddr : addr ≠ .void) (hcount : 0 < count)
    (hsub : rangeOf addr count ⊆ A) :
    RangeFits addr count ∧ addr.prefixBits + 2 ^ (vgAddrBits - addr.depth) * count ≤ 2 ^ 63 := by
  have hpos : 0 < 2 ^ (vgAddrBits - addr.depth) * count := Nat.mul_pos (Nat.two_pow_pos _) hcount
  have hlast : addr.prefixBits + 2 ^ (vgAddrBits - addr.depth) * count - 1 < 2 ^ 63 :=
    h.inside _ (hsub ⟨by omega, by omega⟩)
  exact ⟨⟨haddr, hcount, by omega⟩, by omega⟩

/-- Taking a free range out. -/
theorem Partitioned.take {s e : ℕ} (hsub : Set.Icc s e ⊆ covered t.nodes)
    (hsep : Separated t'.nodes) (hcovered : covered t'.nodes = covered t.nodes \ Set.Icc s e) :
    Partitioned t' (A ∪ Set.Icc s e) := by
  refine ⟨hsep, fun x hx => ?_, fun x => ?_⟩
  · exact hx.elim (h.inside x) fun hx => ((h.free_iff x).1 (hsub hx)).1
  · rw [hcovered, Set.mem_sdiff, h.free_iff, Set.mem_union, not_or, and_assoc]

/-- Putting an allocated range back. -/
theorem Partitioned.put {s e : ℕ} (hsub : Set.Icc s e ⊆ A) (hsep : Separated t'.nodes)
    (hcovered : covered t'.nodes = covered t.nodes ∪ Set.Icc s e) :
    Partitioned t' (A \ Set.Icc s e) := by
  refine ⟨hsep, fun x hx => h.inside x hx.1, fun x => ?_⟩
  rw [hcovered, Set.mem_union, h.free_iff, Set.mem_sdiff, not_and, not_not]
  constructor
  · rintro (⟨hlt, hx⟩ | hx)
    · exact ⟨hlt, fun h => absurd h hx⟩
    · exact ⟨h.inside x (hsub hx), fun _ => hx⟩
  · rintro ⟨hlt, hx⟩
    by_cases hA : x ∈ A
    · exact .inr (hx hA)
    · exact .inl ⟨hlt, hA⟩

theorem Partitioned.asFree (haddr : addr ≠ .void) (hcount : 0 < count)
    (hsub : rangeOf addr count ⊆ A) :
    ∃ t', asFree t addr count = .ok t' ∧ Partitioned t' (A \ rangeOf addr count) := by
  obtain ⟨hfits, hle⟩ := h.rangeFits haddr hcount hsub
  obtain ⟨e, hlast, hse, he, hrange⟩ := hfits.last
  rw [hrange] at hsub ⊢
  obtain ⟨t', hok, hsep, hcovered⟩ := asFree_spec h.separated (fun r => h.bound) hlast rfl hse
    (by omega) fun x hs he hx => ((h.free_iff x).1 hx).2 (hsub ⟨hs, he⟩)
  exact ⟨t', hok, h.put hsub hsep hcovered⟩

theorem Partitioned.asAllocAt (hfits : RangeFits addr count) :
    ∃ t' ok, asAllocAt t addr count = .ok (t', ok) ∧
      (ok = true ↔ rangeOf addr count ⊆ covered t.nodes) ∧
      Partitioned t' (if ok then A ∪ rangeOf addr count else A) := by
  obtain ⟨e, hlast, hse, -, hrange⟩ := hfits.last
  obtain ⟨t', ok, hok, hiff, hsep, hcovered⟩ := asAllocAt_spec h.separated (fun r => h.bound)
    hlast rfl hse
  rw [hrange]
  refine ⟨t', ok, hok, hiff, ?_⟩
  cases ok with
  | true => exact h.take (hiff.1 rfl) hsep hcovered
  | false =>
    exact ⟨hsep, h.inside, fun x => (iff_of_eq (congrArg (x ∈ ·) hcovered)).trans (h.free_iff x)⟩

/-- What a range returned by `as_alloc` is: free, aligned, and of objects of the width. -/
structure Suits (t : Spaces) (width count : ℕ) (addr : VgAddr) : Prop where
  free : rangeOf addr count ⊆ covered t.nodes
  aligned : ∀ k, 2 ^ k ∣ count → 2 ^ (width + k) ∣ addr.prefixBits
  wide : addr.depth ≤ vgAddrBits - width

theorem Partitioned.asAlloc (hfits : AllocFits width count dataMappable) :
    FreeSpace.asAlloc t width count dataMappable = .ok (t, none) ∨
      ∃ t' addr, FreeSpace.asAlloc t width count dataMappable = .ok (t', some addr) ∧
        Suits t width count addr ∧ Partitioned t' (A ∪ rangeOf addr count) := by
  rcases asAlloc_takes h.separated (fun r => h.bound) hfits.1 hfits.2.1 rfl hfits.width_lt rfl with
    ⟨hnone, -⟩ | ⟨t', addr, hok, hvoid, hdepth, hdvd, -, -, e, he, hsub, hsep, hcovered, -⟩
  · exact .inl hnone
  · have hlength := size_eq hfits.1 hfits.2.1 rfl hfits.width_lt hdepth
    rw [Nat.mod_eq_of_lt hfits.2.2, ← hlength] at he
    have hrange : rangeOf addr count = Set.Icc addr.prefixBits e := Set.ext fun x => by
      simp only [rangeOf, hlength, Set.mem_ofPred_eq, Set.mem_Icc]
      omega
    have hwidth := le_allocWidth dataMappable (width + (vgLsb64 count - 1))
    refine .inr ⟨t', addr, hok, ⟨hrange ▸ hsub, fun j hj => ?_, by omega⟩, ?_⟩
    · obtain ⟨shift, k, -, rfl, hlsb⟩ := exists_odd_part hfits.1.ne' hfits.2.1
      have hodd : Nat.Coprime (2 ^ j) (2 * k + 1) := Nat.Coprime.pow_left _ (by simp)
      have hle : j ≤ shift := (Nat.pow_dvd_pow_iff_le_right (by decide)).1
        (hodd.dvd_of_dvd_mul_right hj)
      exact (pow_dvd_pow 2 (by omega)).trans hdvd
    · rw [hrange]
      exact h.take hsub hsep hcovered

end

/-- The initial address space is free. -/
theorem partitioned_init {shapes : ℕ → ℕ → ℕ → ℕ}
    (hok : (make 0 0 >>= fun addr => FreeSpace.asFree ⟨[], shapes⟩ addr 1) = .ok t) :
    Partitioned t ∅ := by
  obtain ⟨addr, hmake, hok⟩ := bind_eq_ok.1 hok
  obtain ⟨addr', hmake', hdepth, hbits⟩ := exists_make (p := 0) (w := 63) le_rfl (by simp)
    (by decide)
  obtain rfl : addr = addr' := Except.ok.inj (hmake.symm.trans hmake')
  have hlength : length64 addr 1 = 2 ^ 63 := by
    rw [length64, hdepth]
    decide
  have hlast : last64 addr.prefixBits (length64 addr 1) = 2 ^ 63 - 1 := by
    rw [hlength, hbits]
    decide
  obtain ⟨t', hok', hsep, hcovered⟩ := asFree_spec (t := ⟨[], shapes⟩) separated_nil (by simp)
    hlast hbits (by omega) (by omega) (by simp)
  obtain rfl : t = t' := Except.ok.inj (hok.symm.trans hok')
  refine ⟨hsep, by simp, fun x => ?_⟩
  simp only [hcovered, covered_nil, Set.empty_union, Set.mem_Icc, Set.mem_empty_iff_false,
    not_false_eq_true, and_true, vgAddrBits]
  omega

/-- After every run free and allocated addresses partition the address space. -/
theorem Run.partitioned (h : Run t A) : Partitioned t A := by
  induction h with
  | init hok => exact partitioned_init hok
  | alloc _ hfits hok ih =>
    rcases ih.asAlloc hfits with hnone | ⟨t', addr, hok', -, hpart⟩
    · rw [hnone] at hok
      simp at hok
    · rw [hok'] at hok
      obtain ⟨rfl, rfl⟩ := by simpa using hok
      exact hpart
  | allocNone _ hfits hok ih =>
    rcases ih.asAlloc hfits with hnone | ⟨t', addr, hok', -, -⟩
    · rw [hnone] at hok
      obtain rfl := by simpa using hok
      exact ih
    · rw [hok'] at hok
      simp at hok
  | allocAt _ hfits hok ih | allocAtNone _ hfits hok ih =>
    obtain ⟨t', ok, hok', -, hpart⟩ := ih.asAllocAt hfits
    obtain ⟨⟩ := Except.ok.inj (hok.symm.trans hok')
    exact hpart
  | free _ haddr hcount hsub hok ih =>
    obtain ⟨t', hok', hpart⟩ := ih.asFree haddr hcount hsub
    obtain rfl := Except.ok.inj (hok.symm.trans hok')
    exact hpart

/-- **The allocator is sound.** After every run whose sizes fit, the free regions are sorted and
never touch, free and allocated addresses partition the address space, and the next call returns:
`as_alloc` gives an aligned range that is not allocated, if any, `as_alloc_at` succeeds if and only
if the whole range is free, and allocated ranges can be freed. -/
theorem address_space_partitioned (h : Run t A) :
    Separated t.nodes ∧ (∀ x, x < 2 ^ vgAddrBits ↔ x ∈ covered t.nodes ∨ x ∈ A) ∧
      Disjoint (covered t.nodes) A ∧
      (∀ width count dataMappable, AllocFits width count dataMappable →
        ∃ t' found, asAlloc t width count dataMappable = .ok (t', found) ∧
          ∀ addr, found = some addr → Suits t width count addr ∧ Disjoint (rangeOf addr count) A) ∧
      (∀ addr count, RangeFits addr count → ∃ t' ok, asAllocAt t addr count = .ok (t', ok) ∧
        (ok = true ↔ rangeOf addr count ⊆ covered t.nodes)) ∧
      ∀ addr count, addr ≠ .void → 0 < count → rangeOf addr count ⊆ A →
        ∃ t', asFree t addr count = .ok t' := by
  have hpart := h.partitioned
  have hdisjoint : Disjoint (covered t.nodes) A :=
    Set.disjoint_left.2 fun x hx => ((hpart.free_iff x).1 hx).2
  refine ⟨hpart.separated, fun x => ?_, hdisjoint, fun width count dataMappable hfits => ?_,
    fun addr count hfits => ?_, fun addr count haddr hcount hsub => ?_⟩
  · rw [hpart.free_iff]
    constructor
    · intro hlt
      by_cases hx : x ∈ A
      · exact .inr hx
      · exact .inl ⟨hlt, hx⟩
    · rintro (⟨hlt, -⟩ | hx)
      · exact hlt
      · exact hpart.inside x hx
  · rcases hpart.asAlloc hfits with hnone | ⟨t', addr, hok, hsuits, -⟩
    · exact ⟨t, none, hnone, nofun⟩
    · refine ⟨t', some addr, hok, ?_⟩
      rintro _ ⟨⟩
      exact ⟨hsuits, hdisjoint.mono_left hsuits.free⟩
  · obtain ⟨t', ok, hok, hiff, -⟩ := hpart.asAllocAt hfits
    exact ⟨t', ok, hok, hiff⟩
  · obtain ⟨t', hok, -⟩ := hpart.asFree haddr hcount hsub
    exact ⟨t', hok⟩

/-- The address space after `as_init`. -/
def whole : Spaces := ⟨[⟨0, 2 ^ 63 - 1⟩], fun _ _ _ => 0⟩

theorem run_whole : Run whole ∅ := by
  have hok : (make 0 0 >>= fun addr => asFree ⟨[], fun _ _ _ => 0⟩ addr 1) = .ok whole := rfl
  exact .init hok

/-- **A size that does not fit in 64 bits**: one page is taken out for `2 ^ 52 + 1` pages, and the
next allocation is in the range that was returned. -/
theorem asAlloc_overflow : ∃ t t' addr addr', Run whole ∅ ∧
    asAlloc whole 12 (2 ^ 52 + 1) true = .ok (t, some addr) ∧
    asAlloc t 12 1 true = .ok (t', some addr') ∧
    rangeOf addr' 1 ⊆ rangeOf addr (2 ^ 52 + 1) := by
  have hboth : (do
      let (t, addr) ← asAlloc whole 12 (2 ^ 52 + 1) true
      let (_, addr') ← asAlloc t 12 1 true
      pure (addr, addr')) = Except.ok (some (.ofNum 51 0 (by decide) (by decide)),
        some (.ofNum 51 1 (by decide) (by decide))) := by decide
  obtain ⟨⟨t, addr⟩, hfirst, hrest⟩ := bind_eq_ok.1 hboth
  obtain ⟨⟨t', addr'⟩, hsecond, ⟨⟩⟩ := bind_pure_eq_ok.1 hrest
  refine ⟨t, t', _, _, run_whole, hfirst, hsecond, fun x => ?_⟩
  simp only [rangeOf, prefixBits_ofNum, depth_ofNum, Set.mem_ofPred_eq, vgAddrBits]
  omega

/-- Two pages of the address space after `as_init`. -/
theorem address_space_partitioned_whole : AllocFits 12 2 true ∧ ∃ t addr,
    Run t (∅ ∪ rangeOf addr 2) ∧ Separated t.nodes ∧
      Disjoint (covered t.nodes) (∅ ∪ rangeOf addr 2) := by
  have hfits : AllocFits 12 2 true := by
    rw [AllocFits]
    decide
  have hsome : (do
      let (_, addr) ← asAlloc whole 12 2 true
      pure addr) = Except.ok (some (.ofNum 51 0 (by decide) (by decide))) := by decide
  obtain ⟨⟨t, addr⟩, hok, rfl⟩ := bind_pure_eq_ok.1 hsome
  have hrun := Run.alloc run_whole hfits hok
  obtain ⟨hsep, -, hdisjoint, -⟩ := address_space_partitioned hrun
  exact ⟨hfits, _, _, hrun, hsep, hdisjoint⟩

end Runs

/-! ### Completeness -/

section Completeness

open Extent

variable {t : Spaces}

/-- The width that a block is aligned to: any width for memory that can be mapped, the smallest of
4, 12, 20, 28, … that is large enough for other memory. -/
def blockWidth (dataMappable : Bool) (w : ℕ) : ℕ :=
  if dataMappable then w else if w ≤ 4 then 4 else 12 + (w - 12 + 7) / 8 * 8

/-- An aligned block in a free region, below `DATA_ADDR_MAX` if it is to be mapped. -/
structure Block (t : Spaces) (dataMappable : Bool) (w length start : ℕ) : Prop where
  aligned : 2 ^ w ∣ start
  free : ∃ r ∈ t.nodes, r.start ≤ start ∧ start + length ≤ r.last + 1
  below : dataMappable = true → start + length ≤ dataAddrMax

/-- `as_alloc` takes a block of a length aligned to a width, if there is one. -/
def Complete (t : Spaces) (width count : ℕ) (dataMappable : Bool) (w length : ℕ) : Prop :=
  ∃ t' r, asAlloc t width count dataMappable = .ok (t', r) ∧
    (r = none ↔ ∀ start, ¬Block t dataMappable w length start) ∧
    ∀ addr, r = some addr → Block t dataMappable w length addr.prefixBits ∧
      covered t'.nodes = covered t.nodes \ Set.Ico addr.prefixBits (addr.prefixBits + length)

theorem blockWidth_le (dataMappable : Bool) (w : ℕ) :
    blockWidth dataMappable w ≤ allocWidth dataMappable w := by
  rw [blockWidth, allocWidth]
  split_ifs <;> omega

theorem allocWidth_eq_iff (dataMappable : Bool) (w : ℕ) :
    allocWidth dataMappable w = blockWidth dataMappable w ↔
      dataMappable = true ∨ w ≤ 12 ∨ (w - 12) % 8 ≠ 0 := by
  rw [blockWidth, allocWidth]
  split_ifs <;> simp_all <;> omega

theorem complete_iff_none {width count w length : ℕ} {dataMappable : Bool}
    (hnone : ∀ start, ¬Block t dataMappable w length start) :
    Complete t width count dataMappable w length ↔
      ∃ t', asAlloc t width count dataMappable = .ok (t', none) := by
  constructor
  · rintro ⟨t', r, hok, hiff, -⟩
    exact ⟨t', hiff.2 hnone ▸ hok⟩
  · rintro ⟨t', hok⟩
    exact ⟨t', none, hok, iff_of_true rfl hnone, nofun⟩

theorem complete_iff_some {width count w length start : ℕ} {dataMappable : Bool}
    (hblock : Block t dataMappable w length start) :
    Complete t width count dataMappable w length ↔
      ∃ t' addr, asAlloc t width count dataMappable = .ok (t', some addr) ∧
        Block t dataMappable w length addr.prefixBits ∧
        covered t'.nodes = covered t.nodes \
          Set.Ico addr.prefixBits (addr.prefixBits + length) := by
  constructor
  · rintro ⟨t', r, hok, hiff, hsome⟩
    obtain ⟨addr, rfl⟩ := Option.ne_none_iff_exists'.1 fun hr => hiff.1 hr start hblock
    exact ⟨t', addr, hok, hsome addr rfl⟩
  · rintro ⟨t', addr, hok, hsome⟩
    refine ⟨t', some addr, hok, iff_of_false nofun fun hnone => hnone start hblock, ?_⟩
    rintro _ ⟨⟩
    exact hsome

/-- Whether a region fits for the alignment and the size that `as_alloc` computes in 64 bits. -/
def regionFits (width count : ℕ) (dataMappable : Bool) (r : Extent) : Bool :=
  let shift := vgLsb64 count - 1
  let align := 2 ^ allocWidth dataMappable (width + shift) % 2 ^ 64
  fits align (align * (count / 2 ^ shift) % 2 ^ 64) r

theorem asAlloc_none {width count : ℕ} {dataMappable : Bool} (hpos : 0 < count)
    (hnone : ∀ r ∈ t.nodes, regionFits width count dataMappable r = false) :
    asAlloc t width count dataMappable = .ok (t, none) := by
  have hfits : regionFits width count dataMappable = fits _ _ := rfl
  have hfind := findIdx?_eq_none_iff.2 hnone
  rw [hfits] at hfind
  rw [asAlloc, require_of hpos.ne', ok_bind]
  simp only [hfind]
  rfl

theorem count_lt {width count : ℕ} (hsize : 2 ^ width * count < 2 ^ 63) : count < 2 ^ 64 :=
  ((Nat.le_mul_of_pos_left count (Nat.two_pow_pos width)).trans_lt hsize).trans (by decide)

/-- A size below `2 ^ 63` fits if it is not rounded up. -/
theorem allocFits_mappable {width count : ℕ} (hpos : 0 < count)
    (hsize : 2 ^ width * count < 2 ^ 63) : AllocFits width count true := by
  refine ⟨hpos, count_lt hsize, ?_⟩
  obtain ⟨shift, k, -, rfl, hlsb⟩ := exists_odd_part hpos.ne' (count_lt hsize)
  rw [hlsb, Nat.add_sub_cancel, Nat.mul_div_cancel_left _ (Nat.two_pow_pos shift), allocWidth,
    if_pos rfl, pow_add, Nat.mul_assoc]
  exact hsize.trans (by decide)

/-- With a width of 64 or more the range that is split off would end at the very last address. -/
theorem asAlloc_wide {width count : ℕ} {r : Extent} (hbound : ∀ r ∈ t.nodes, r.last < 2 ^ 63)
    (hpos : 0 < count) (hw : 64 ≤ allocWidth false (width + (vgLsb64 count - 1)))
    (hr : r ∈ t.nodes) (hfits : regionFits width count false r = true) :
    asAlloc t width count false = .error .assertion := by
  have halign : 2 ^ allocWidth false (width + (vgLsb64 count - 1)) % 2 ^ 64 = 0 :=
    Nat.mod_eq_zero_of_dvd (pow_dvd_pow 2 hw)
  simp only [regionFits, halign, Nat.zero_mul, Nat.zero_mod] at hfits
  obtain ⟨i, hfind⟩ := Option.isSome_iff_exists.1
    (findIdx?_isSome.trans (any_eq_true.2 ⟨r, hr, hfits⟩))
  obtain ⟨hi, -⟩ := findIdx?_eq_some_iff_getElem.1 hfind
  have hlast : ¬2 ^ 64 - 1 ≤ t.nodes[i].last := by
    have := hbound _ (getElem_mem hi)
    omega
  have hget : t.nodes.getD i ⟨0, 0⟩ = t.nodes[i] := by simp [List.getD, hi]
  rw [asAlloc, require_of hpos.ne', ok_bind]
  simp only [halign, Nat.zero_mul, Nat.zero_mod, hfind, hget, Bool.false_eq_true, false_and,
    if_false, alignedStart, Nat.mul_zero]
  have hend : last64 0 0 = 2 ^ 64 - 1 := rfl
  rw [freeSpaceSplit, hend]
  by_cases hstart : t.nodes[i].start ≤ 0
  · rw [require_of hstart, ok_bind, require, if_neg hlast]
    rfl
  · rw [require, if_neg hstart]
    rfl

section

variable {width count w length : ℕ} {dataMappable : Bool} (h : Separated t.nodes)
  (hbound : ∀ r ∈ t.nodes, r.last < 2 ^ 63) (hpos : 0 < count) (hsize : 2 ^ width * count < 2 ^ 63)
  (hw : blockWidth dataMappable (width + (vgLsb64 count - 1)) = w)
  (hlength : 2 ^ w * (count / 2 ^ (vgLsb64 count - 1)) = length)

include h hbound hpos hsize hw hlength in
/-- Where there is no block, nothing may be found. -/
theorem complete_iff_fits (hnone : ∀ start, ¬Block t dataMappable w length start) :
    Complete t width count dataMappable w length ↔ AllocFits width count dataMappable ∨
      ∀ r ∈ t.nodes, regionFits width count dataMappable r = false := by
  have hlt := count_lt hsize
  have hle := hw ▸ blockWidth_le dataMappable (width + (vgLsb64 count - 1))
  rw [complete_iff_none hnone]
  constructor
  · rintro ⟨t', hok⟩
    rw [or_iff_not_imp_left]
    intro hfits r hr
    obtain rfl : dataMappable = false := by
      cases dataMappable with
      | false => rfl
      | true => exact absurd (allocFits_mappable hpos hsize) hfits
    by_contra hfit
    rw [Bool.not_eq_false] at hfit
    rcases Nat.lt_or_ge (allocWidth false (width + (vgLsb64 count - 1))) 64 with hw64 | hw64
    · rcases asAlloc_takes h hbound hpos hlt rfl hw64 rfl with ⟨-, hlimit⟩ | ⟨t₁, addr, hok', -⟩
      · simp only [regionFits, Nat.mod_eq_of_lt
          (Nat.pow_lt_pow_right (by decide : 1 < 2) hw64)] at hfit
        exact Bool.false_ne_true (hlimit r hr hfit).1
      · simp [hok] at hok'
    · simp [asAlloc_wide hbound hpos hw64 hr hfit] at hok
  · rintro (hfits | hnofit)
    · rcases asAlloc_takes h hbound hpos hlt rfl hfits.width_lt rfl with
        ⟨hok, -⟩ | ⟨t', addr, -, -, -, hdvd, -, ⟨r, hr, -, hs, he⟩, e, he', -, -, -, hmax⟩
      · exact ⟨t, hok⟩
      · -- a range of the larger width is a block
        rw [Nat.mod_eq_of_lt hfits.2.2] at he he'
        have hlen : length ≤ 2 ^ allocWidth dataMappable (width + (vgLsb64 count - 1)) *
            (count / 2 ^ (vgLsb64 count - 1)) :=
          hlength ▸ Nat.mul_le_mul_right _ (Nat.pow_le_pow_right Nat.two_pos hle)
        refine absurd ⟨(pow_dvd_pow 2 hle).trans hdvd, ⟨r, hr, hs, by omega⟩, fun hdata => ?_⟩
          (hnone addr.prefixBits)
        have := hmax hdata
        omega
    · exact ⟨t, asAlloc_none hpos hnofit⟩

include hpos hsize hw hlength in
/-- A block of another width has another size, also where the size is taken modulo `2 ^ 64`. -/
theorem size_ne (hw64 : allocWidth dataMappable (width + (vgLsb64 count - 1)) < 64)
    (hne : allocWidth dataMappable (width + (vgLsb64 count - 1)) ≠ w) :
    2 ^ allocWidth dataMappable (width + (vgLsb64 count - 1)) *
      (count / 2 ^ (vgLsb64 count - 1)) % 2 ^ 64 ≠ length := by
  have hle := hw ▸ blockWidth_le dataMappable (width + (vgLsb64 count - 1))
  obtain ⟨shift, k, -, rfl, hlsb⟩ := exists_odd_part hpos.ne' (count_lt hsize)
  rw [hlsb, Nat.add_sub_cancel] at hlength hw64 hne hle ⊢
  rw [Nat.mul_div_cancel_left _ (Nat.two_pow_pos shift)] at hlength ⊢
  obtain ⟨q, hq⟩ := size_mod hw64 k
  obtain ⟨d, hd⟩ := Nat.exists_eq_add_of_lt (lt_of_le_of_ne hle (Ne.symm hne))
  rw [hq, ← hlength, hd, Nat.add_assoc, pow_add, Nat.mul_assoc, pow_succ']
  intro heq
  have := Nat.eq_of_mul_eq_mul_left (Nat.two_pow_pos w) heq
  rw [Nat.mul_assoc] at this
  omega

include hpos hsize hlength in
theorem two_pow_le_length : 2 ^ w ≤ length := by
  obtain ⟨shift, k, -, rfl, hlsb⟩ := exists_odd_part hpos.ne' (count_lt hsize)
  rw [hlsb, Nat.add_sub_cancel, Nat.mul_div_cancel_left _ (Nat.two_pow_pos shift)] at hlength
  exact hlength ▸ Nat.le_mul_of_pos_right _ (by omega)

include hpos hsize hw hlength in
theorem one_lt_length (hdata : dataMappable = false) : 1 < length := by
  have hw4 : 4 ≤ w := by
    rw [← hw, blockWidth, if_neg (by simp [hdata])]
    split_ifs <;> omega
  have := Nat.pow_le_pow_right Nat.two_pos hw4
  have := two_pow_le_length hpos hsize hlength
  omega

include h hbound hpos hsize hw hlength in
/-- Where there is a block, one of the size and of the width must be found. -/
theorem complete_iff_rounds {start : ℕ} (hb : Block t dataMappable w length start) :
    Complete t width count dataMappable w length ↔
      allocWidth dataMappable (width + (vgLsb64 count - 1)) = w ∧
        (1 < length ∨ ∃ r ∈ t.nodes, r.start < r.last ∧ r.start < dataAddrMax) := by
  have hlt := count_lt hsize
  have hpow := (Nat.two_pow_pos w).trans_le (two_pow_le_length hpos hsize hlength)
  obtain ⟨r, hr, hs, he⟩ := hb.free
  have hlast := hbound r hr
  rw [complete_iff_some hb]
  constructor
  · rintro ⟨t', addr, hok, hb', hcovered⟩
    rcases Nat.lt_or_ge (allocWidth dataMappable (width + (vgLsb64 count - 1))) 64 with hw64 | hw64
    · rcases asAlloc_takes h hbound hpos hlt rfl hw64 rfl with ⟨hnone, -⟩ |
        ⟨t₁, addr₁, hok₁, -, -, -, -, ⟨r', hr', hlt', hs', -⟩, e, he', hsub, -, hcovered', -⟩
      · simp [hok] at hnone
      rw [hok] at hok₁
      obtain ⟨rfl, rfl⟩ : t' = t₁ ∧ addr = addr₁ := by simpa using hok₁
      refine ⟨by_contra fun hne => ?_, ?_⟩
      · -- with another width more or less than the block is taken
        have hother := size_ne hpos hsize hw hlength hw64 hne
        have hsub' : Set.Ico addr.prefixBits (addr.prefixBits + length) ⊆ covered t.nodes := by
          obtain ⟨r', hr', hs', he'⟩ := hb'.free
          exact fun x hx => ⟨r', hr', hs'.trans hx.1, by have := hx.2; omega⟩
        rw [hcovered, sdiff_eq_sdiff_iff_inf_eq_inf, inf_eq_right.2 hsub,
          inf_eq_right.2 hsub'] at hcovered'
        have hend := Set.ext_iff.1 hcovered' (addr.prefixBits + length)
        have hend' := Set.ext_iff.1 hcovered' (e + 1)
        simp only [Set.mem_Ico, Set.mem_Icc] at hend hend'
        omega
      · cases dataMappable with
        | false => exact .inl (one_lt_length hpos hsize hw hlength rfl)
        | true =>
          have := hb'.below rfl
          exact .inr ⟨r', hr', hlt', by omega⟩
    · -- a shift by 64 or more is never right
      cases dataMappable with
      | false =>
        have hone := one_lt_length hpos hsize hw hlength rfl
        have hfits : regionFits width count false r = true := by
          simp only [regionFits, Nat.mod_eq_zero_of_dvd (pow_dvd_pow 2 hw64), fits, alignedStart,
            decide_eq_true_eq]
          omega
        simp [asAlloc_wide hbound hpos hw64 hr hfits] at hok
      | true => exact absurd (allocFits_mappable hpos hsize).width_lt (not_lt.2 hw64)
  · rintro ⟨heq, hregion⟩
    have hw64 : w < 64 := by
      refine (Nat.pow_lt_pow_iff_right (by decide : 1 < 2)).1 ?_
      have := two_pow_le_length hpos hsize hlength
      omega
    rcases asAlloc_takes h hbound hpos hlt heq hw64 rfl with ⟨hok, hlimit⟩ |
      ⟨t', addr, hok, -, -, hdvd, -, ⟨r', hr', -, hs', he'⟩, e, hend, -, -, hcovered, hmax⟩
    · rw [hlength, Nat.mod_eq_of_lt (by omega)] at hlimit
      exfalso
      by_cases hone : 1 < length
      · obtain ⟨hfit, hstart⟩ := fits_of_le hone hb.aligned hs he
        obtain ⟨hdata, hmax⟩ := hlimit r hr hfit
        have := hb.below hdata
        omega
      · -- a region with more than one address fits for a block of one
        obtain ⟨r, hr, hlt, hrmax⟩ := hregion.resolve_left hone
        obtain rfl : w = 0 := by
          by_contra hw0
          have := Nat.one_lt_two_pow hw0
          have := two_pow_le_length hpos hsize hlength
          omega
        have hstart := alignedStart_le (w := 0) (le_refl r.start) (by simp)
        have hfit : fits (2 ^ 0) length r = true := by
          simp only [fits, decide_eq_true_eq]
          omega
        have := (hlimit r hr hfit).2
        omega
    · rw [hlength, Nat.mod_eq_of_lt (by omega)] at he' hend
      refine ⟨t', addr, hok, ⟨hdvd, ⟨r', hr', hs', he'⟩, fun hdata => ?_⟩,
        hcovered.trans (congrArg _ (Set.ext fun x => ?_))⟩
      · have := hmax hdata
        omega
      · simp only [Set.mem_Icc, Set.mem_Ico]
        omega

/-- **`as_alloc` is complete** for a request of a size below `2 ^ 63` if and only if: where there is
no block of the size, the size it computes fits in 64 bits or fits in no region when it is taken
modulo `2 ^ 64`; and where there is one, the width is rounded up as it should be, and the block has
more than one address or a region with more than one starts below `DATA_ADDR_MAX`. -/
theorem asAlloc_complete_iff {width count w length : ℕ} {dataMappable : Bool}
    (h : Separated t.nodes) (hbound : ∀ r ∈ t.nodes, r.last < 2 ^ 63)
    (hpos : 0 < count) (hsize : 2 ^ width * count < 2 ^ 63)
    (hw : blockWidth dataMappable (width + (vgLsb64 count - 1)) = w)
    (hlength : 2 ^ w * (count / 2 ^ (vgLsb64 count - 1)) = length) :
    Complete t width count dataMappable w length ↔
      ((∀ start, ¬Block t dataMappable w length start) →
        AllocFits width count dataMappable ∨
          ∀ r ∈ t.nodes, regionFits width count dataMappable r = false) ∧
      ((∃ start, Block t dataMappable w length start) →
        (dataMappable = true ∨ width + (vgLsb64 count - 1) ≤ 12 ∨
          (width + (vgLsb64 count - 1) - 12) % 8 ≠ 0) ∧
        (1 < length ∨ ∃ r ∈ t.nodes, r.start < r.last ∧ r.start < dataAddrMax)) := by
  by_cases hblock : ∃ start, Block t dataMappable w length start
  · rw [← allocWidth_eq_iff, hw]
    obtain ⟨start, hb⟩ := hblock
    rw [complete_iff_rounds h hbound hpos hsize hw hlength hb]
    exact ⟨fun hc => ⟨fun hnone => absurd hb (hnone start), fun _ => hc⟩,
      fun hc => hc.2 ⟨start, hb⟩⟩
  · rw [complete_iff_fits h hbound hpos hsize hw hlength (not_exists.1 hblock)]
    exact ⟨fun hc => ⟨fun _ => hc, fun hex => absurd hex hblock⟩,
      fun hc => hc.1 (not_exists.1 hblock)⟩

end

/-- Three pages of the address space after `as_init`. -/
theorem asAlloc_complete_whole : Complete whole 12 3 true 12 (2 ^ 12 * 3) := by
  refine (asAlloc_complete_iff ⟨?_, ?_⟩ ?_ (by decide) (by decide) (by decide) (by decide)).2
    ⟨fun _ => .inl ?_, fun _ => ?_⟩
  · simp [whole]
  · simp [whole]
  · simp [whole]
  · exact allocFits_mappable (by decide) (by decide)
  · decide

/-- **A width of 20 is rounded up to 28**, and 256 times the block is taken. -/
theorem asAlloc_rounds_up : Run whole ∅ ∧ ¬Complete whole 20 1 false 20 (2 ^ 20) := by
  refine ⟨run_whole, ?_⟩
  rintro ⟨t', r, hok, -, hsome⟩
  have hresult : (asAlloc whole 20 1 false).map (fun x => (x.1.nodes, x.2)) =
      .ok ([⟨2 ^ 28, 2 ^ 63 - 1⟩], some (.ofNum 35 0 (by decide) (by decide))) := by decide
  rw [hok] at hresult
  obtain ⟨hnodes, rfl⟩ := by simpa [Except.map] using hresult
  have hmem : 2 ^ 20 ∈ covered t'.nodes := by
    rw [(hsome _ rfl).2, prefixBits_ofNum]
    simp [whole, covered]
  simp [hnodes, covered] at hmem

end Completeness

end FreeSpace

end Viengoos
