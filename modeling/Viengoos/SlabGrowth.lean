import Viengoos.Addr
import Viengoos.Lib.ByteMemory

/-!
# Growing a slab space

`grow` of `libhurd-slab` fills a fresh page with buffers, each with a control word in its last four
bytes, below the header `struct hurd_slab` in the last 16 bytes of the page. If the constructor
refuses a buffer, the page is to be given back. By then the cursor `p` has moved on, and nothing has
set the free list to empty: growth **fails cleanly** only if the first buffer is refused and the
word of the free list happens to be zero.
-/

namespace Viengoos

open Outcome ByteMemory

namespace Slab

/-- `struct hurd_slab_space`. What a constructor writes to its buffer is not read by `grow`, so it
is given by the buffers it accepts, and the destructor by whether there is one. -/
structure Space where
  requestedSize : BitVec 32
  requestedAlign : BitVec 32
  initialized : Bool
  slabFirst : ℕ
  slabLast : ℕ
  firstFree : ℕ
  fullRefcount : ℕ
  size : BitVec 32
  constructor : Option (ℕ → Bool)
  destructor : Bool

/-- Memory, `__hurd_slab_nr_pages`, and what destructor and `deallocate_buffer` were called on. -/
structure World where
  mem : ByteMemory
  nrPages : ℤ
  destroyed : List ℕ
  deallocated : List (ℕ × ℕ)

/-- `init_space`, if the space is not initialized. -/
def Space.init (s : Space) : Except Fault Space := do
  if s.initialized then .ok s
  else
    let size := (s.requestedSize + 4 + s.requestedAlign - 1) &&& ~~~(s.requestedAlign - 1)
    require (size.toNat ≤ pagesize - 16 - 4) .assertion
    -- a division by zero
    require (size ≠ 0) .panic
    .ok { s with size, fullRefcount := (pagesize - 16) / size.toNat, initialized := true }

/-- The destructor is called along a free list; without one, the call jumps to address zero. -/
def destroyAll (s : Space) : ℕ → ℕ → World → Except Fault World
  | 0, _, _ => .error .outOfFuel
  | n + 1, bufctl, w => do
    if bufctl = 0 then .ok w
    else
      require s.destructor .panic
      let buffer := bufctl - (s.size.toNat - 4)
      destroyAll s n (w.mem.le bufctl 4) { w with destroyed := w.destroyed ++ [buffer] }

/-- The loop over the buffers of the page, the next one at `p`. -/
def populate (s : Space) (slab fuel : ℕ) : ℕ → ℕ → World → Except Fault (World × Bool)
  | 0, _, w => .ok (w, true)
  | n + 1, p, w => do
    if s.constructor.all (· p) then
      let bufctl := p + s.size.toNat - 4
      let m := w.mem.putLe bufctl 4 (w.mem.le (slab + 12) 4)
      populate s slab fuel n (p + s.size.toNat) { w with mem := m.putLe (slab + 12) 4 bufctl }
    else
      let w ← destroyAll s fuel (w.mem.le (slab + 12) 4) w
      .ok ({ w with deallocated := w.deallocated ++ [(p, pagesize)] }, false)

/-- `insert_slab`. -/
def insertSlab (s : Space) (w : World) (slab : ℕ) : Except Fault (Space × World) := do
  require (w.mem.le (slab + 8) 4 = 0) .assertion
  if s.slabFirst = 0 then .ok ({ s with slabFirst := slab, slabLast := slab }, w)
  else
    let m := w.mem.putLe s.slabLast 4 slab
    .ok ({ s with slabLast := slab }, { w with mem := m.putLe (slab + 4) 4 s.slabLast })

/-- `grow`, with the page that `allocate_buffer` hands out; whether it succeeded. -/
def grow (s : Space) (w : World) (page : Option ℕ) (fuel : ℕ) :
    Except Fault (Space × World × Bool) := do
  let s ← s.init
  if let some p := page then
    let slab := p + pagesize - 16
    let w := { w with nrPages := w.nrPages + 1 }
    let r ← populate s slab fuel ((pagesize - 16) / s.size.toNat) p w
    if r.2 then
      let r ← insertSlab s r.1 slab
      .ok ({ r.1 with firstFree := slab }, r.2, true)
    else .ok (s, r.1, false)
  else .ok (s, w, false)

/-- The growth of `s`, once initialized `s₀`, by the page at `p` **fails cleanly** at buffer `k`:
the space is as before, the destructor is called for the first `k` buffers, exactly the page is
given back, and no other memory changes. -/
def FailsCleanly (s s₀ : Space) (w : World) (p k : ℕ) : Prop :=
  let buffers := (List.range k).map fun i => p + i * s₀.size.toNat
  ∃ fuel w', grow s w (some p) fuel = .ok (s₀, w', false) ∧
    w'.destroyed.Perm (w.destroyed ++ if s₀.destructor then buffers else []) ∧
    w'.deallocated = w.deallocated ++ [(p, pagesize)] ∧
    ∀ i, ¬ InRange p pagesize i → w'.mem i = w.mem i

variable {s s₀ : Space} {n p k b : ℕ} {w w' : World}

theorem destroyAll_spec (h : destroyAll s n b w = .ok w') :
    w'.deallocated = w.deallocated ∧ w.destroyed.length ≤ w'.destroyed.length ∧
      (w'.destroyed.length = w.destroyed.length → b = 0) := by
  induction n generalizing b w with
  | zero => cases h
  | succ n ih =>
    rw [destroyAll] at h
    split at h
    · cases h
      exact ⟨rfl, le_rfl, fun _ => ‹_›⟩
    · obtain ⟨_, _, h⟩ := bind_eq_ok.1 h
      obtain ⟨hdealloc, hle, _⟩ := ih h
      simp only [List.length_append, List.length_singleton] at hle
      exact ⟨hdealloc, by omega, by omega⟩

/-- Populating a page up to a buffer that the constructor refuses: only memory has changed when the
free list is read. -/
theorem populate_fails (slab fuel : ℕ) (w : World) (hk : k < n)
    (hok : ∀ i < k, s.constructor.all (· (p + i * s.size.toNat)) = true)
    (hfail : s.constructor.all (· (p + k * s.size.toNat)) = false) :
    ∃ m, (k = 0 → m = w.mem) ∧ populate s slab fuel n p w = (do
      let w' ← destroyAll s fuel (m.le (slab + 12) 4) { w with mem := m }
      .ok ({ w' with
        deallocated := w'.deallocated ++ [(p + k * s.size.toNat, pagesize)] }, false)) := by
  induction k generalizing n p w with
  | zero =>
    obtain ⟨n, rfl⟩ := Nat.exists_eq_succ_of_ne_zero hk.ne'
    rw [zero_mul, add_zero] at hfail ⊢
    exact ⟨w.mem, fun _ => rfl, by simp only [populate, hfail]; rfl⟩
  | succ k ih =>
    obtain ⟨n, rfl⟩ := Nat.exists_eq_succ_of_ne_zero (Nat.ne_zero_of_lt hk)
    have hnext (i : ℕ) : p + (i + 1) * s.size.toNat = p + s.size.toNat + i * s.size.toNat := by
      ring
    have hfirst := hok 0 (by omega)
    rw [zero_mul, add_zero] at hfirst
    simp only [populate, hfirst, if_true, hnext] at hfail ⊢
    obtain ⟨m, _, h⟩ := ih _ (Nat.lt_of_succ_lt_succ hk)
      (fun i hi => hnext i ▸ hok (i + 1) (by omega)) hfail
    exact ⟨m, by omega, h⟩

/-- What is given back starts at buffer `k`, so growth fails cleanly only at the first one. -/
theorem FailsCleanly.first (hinit : s.init = .ok s₀) (hk : k < (pagesize - 16) / s₀.size.toNat)
    (hok : ∀ i < k, s₀.constructor.all (· (p + i * s₀.size.toNat)) = true)
    (hfail : s₀.constructor.all (· (p + k * s₀.size.toNat)) = false)
    (h : FailsCleanly s s₀ w p k) : k = 0 ∧ w.mem.le (p + pagesize - 16 + 12) 4 = 0 := by
  obtain ⟨fuel, w', hgrow, hdestroyed, hdealloc, _⟩ := h
  obtain ⟨m, hm, hpopulate⟩ := populate_fails (p + pagesize - 16) fuel
    { w with nrPages := w.nrPages + 1 } hk hok hfail
  simp only [grow, hinit, ok_bind, hpopulate] at hgrow
  obtain ⟨r, hr, hgrow⟩ := bind_eq_ok.1 hgrow
  obtain ⟨u, hu, hr⟩ := bind_eq_ok.1 hr
  cases hr
  cases hgrow
  obtain ⟨hsame, _, hnone⟩ := destroyAll_spec hu
  have hsize : s₀.size.toNat ≠ 0 := fun h0 => by simp [h0] at hk
  have hk0 : k = 0 := by simpa [hsame, hsize] using hdealloc
  cases hk0
  cases hm rfl
  exact ⟨rfl, hnone (by simpa using hdestroyed.length_eq)⟩

/-- Growth that the constructor stops at buffer `k` fails cleanly exactly if it stops it at the
first one and the page has a zero where the free list is. -/
theorem failsCleanly_iff (hinit : s.init = .ok s₀) (hk : k < (pagesize - 16) / s₀.size.toNat)
    (hok : ∀ i < k, s₀.constructor.all (· (p + i * s₀.size.toNat)) = true)
    (hfail : s₀.constructor.all (· (p + k * s₀.size.toNat)) = false) :
    FailsCleanly s s₀ w p k ↔ k = 0 ∧ w.mem.le (p + pagesize - 16 + 12) 4 = 0 := by
  refine ⟨fun h => h.first hinit hk hok hfail, ?_⟩
  rintro ⟨rfl, hzero⟩
  obtain ⟨m, hm, h⟩ := populate_fails (p + pagesize - 16) 1
    { w with nrPages := w.nrPages + 1 } hk hok hfail
  cases hm rfl
  refine ⟨1, ⟨w.mem, w.nrPages + 1, w.destroyed, w.deallocated ++ [(p, pagesize)]⟩, ?_,
    by simp, rfl, fun _ _ => rfl⟩
  simp only [grow, hinit, ok_bind, h]
  simp [destroyAll, hzero]

/-- A space of 12-byte buffers, whose constructor refuses the buffer at `refused`. -/
def refusing (refused : ℕ) : Space :=
  { requestedSize := 12, requestedAlign := 4, initialized := true, slabFirst := 0, slabLast := 0,
    firstFree := 0, fullRefcount := 255, size := 16, constructor := some (· ≠ refused),
    destructor := true }

/-- Nothing but a zeroed memory. -/
def zeroed : World := ⟨fun _ => 0, 0, [], []⟩

/-- Refusing the first buffer of a zeroed page. -/
theorem failsCleanly_first : FailsCleanly (refusing 4096) (refusing 4096) zeroed 4096 0 :=
  (failsCleanly_iff rfl (by decide) (by simp) (by decide)).2 ⟨rfl, by decide⟩

/-- If the second buffer is refused, what is given back starts at the second buffer. -/
theorem grow_second_refused :
    (∃ w, grow (refusing 4112) zeroed (some 4096) 2 = .ok (refusing 4112, w, false) ∧
      w.destroyed = [4096] ∧ w.deallocated = [(4112, 4096)]) ∧
      ¬FailsCleanly (refusing 4112) (refusing 4112) zeroed 4096 1 := by
  refine ⟨⟨_, rfl, by decide, by decide⟩, fun h => ?_⟩
  have hfirst := h.first rfl (by decide) (by decide) (by decide)
  exact absurd hfirst.1 (by decide)

end Slab

end Viengoos
