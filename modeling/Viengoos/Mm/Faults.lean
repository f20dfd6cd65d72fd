import Viengoos.Mm.Anonymous

/-!
# Faults on anonymous memory

`fault` goes through the pages of a window of its pager, of which the page of the fault is one. A
page without storage gets some, and its slot then designates it; a page with storage keeps it, and
keeps its slot. What holds after the pages so far is `Faulted`, from which the results on faults
are read off.
-/

namespace Viengoos

open Outcome List Function

namespace Anon

variable {w w' : Anon} {p offset x n o st : ℕ} {readOnly : Bool} {info : FaultInfo}
  {c : Anon × List ℕ}

/-- Storage that a pager has, and that a slot designates, is allocated. -/
structure Below (w : Anon) : Prop where
  storage : ∀ {p d}, d ∈ w.storage p → d.2 < w.objects
  slot : ∀ {x st strong}, w.slot x = some (st, strong) → st < w.objects

theorem Below.stored (h : w.Below) (hst : w.stored p o = some st) : st < w.objects := by
  obtain ⟨l, l', hl, -⟩ := lookup_eq_some_iff.1 hst
  have hmem : (o, st) ∈ w.storage p := by simp [hl]
  exact h.storage hmem

/-- **What the first `n` pages of a fault did**, and the storage whose discarded bit is to be
cleared. -/
structure Faulted (p : ℕ) (readOnly : Bool) (info : FaultInfo) (offset x n : ℕ) (w : Anon)
    (c : Anon × List ℕ) : Prop where
  objects : w.objects ≤ c.1.objects
  kept : ∀ {o st}, w.stored p o = some st → c.1.stored p o = some st
  others : ∀ {o}, (∀ i < n, o ≠ offset + i * pagesize) → c.1.stored p o = w.stored p o
  below : ∀ {o st}, c.1.stored p o = some st → st < c.1.objects
  unique : ∀ {o o' st}, w.objects ≤ st → c.1.stored p o = some st → c.1.stored p o' = some st →
    o = o'
  fresh : ∀ i < n, w.stored p (offset + i * pagesize) = none → ∃ st, w.objects ≤ st ∧
    c.1.stored p (offset + i * pagesize) = some st ∧
    c.1.slot ((x + i * pagesize) % 2 ^ 32) = some (st, !readOnly) ∧ c.1.discarded st = false
  slots : ∀ {a}, (∀ i < n, w.stored p (offset + i * pagesize) = none →
    a ≠ (x + i * pagesize) % 2 ^ 32) → c.1.slot a = w.slot a
  discarded : ∀ {st}, st < w.objects → c.1.discarded st = w.discarded st
  queued : info.discarded = true → ∀ i < n, ∀ {st},
    w.stored p (offset + i * pagesize) = some st → st ∈ c.2

theorem Faulted.zero (h : w.Below) : Faulted p readOnly info offset x 0 w (w, []) where
  objects := le_rfl
  kept := id
  others := fun _ => rfl
  below := fun hst => h.stored hst
  unique := fun hle hst _ => absurd (h.stored hst) (Nat.not_lt.2 hle)
  fresh := fun _ hi => absurd hi (Nat.not_lt_zero _)
  slots := fun _ => rfl
  discarded := fun _ => rfl
  queued := fun _ _ hi => absurd hi (Nat.not_lt_zero _)

/-- The page after the first `n` ones is as it was. -/
theorem Faulted.stored_next (h : Faulted p readOnly info offset x n w c) :
    c.1.stored p (offset + n * pagesize) = w.stored p (offset + n * pagesize) := by
  refine h.others fun i hi heq => ?_
  simp only [pagesize] at heq
  omega

/-- A page that has storage. -/
theorem Faulted.keep (h : Faulted p readOnly info offset x n w c) {l : List ℕ}
    (hst : w.stored p (offset + n * pagesize) = some st) (hsub : ∀ st ∈ c.2, st ∈ l)
    (hl : info.discarded = true → st ∈ l) :
    Faulted p readOnly info offset x (n + 1) w (c.1, l) where
  objects := h.objects
  kept := h.kept
  others := fun ho => h.others fun i hi => ho i (by omega)
  below := h.below
  unique := h.unique
  fresh := fun i hi hnone => by
    rcases Nat.lt_succ_iff_lt_or_eq.1 hi with hlt | rfl
    · exact h.fresh i hlt hnone
    · simp [hst] at hnone
  slots := fun ha => h.slots fun i hi => ha i (by omega)
  discarded := h.discarded
  queued := fun hinfo i hi st' hst' => by
    rcases Nat.lt_succ_iff_lt_or_eq.1 hi with hlt | rfl
    · exact hsub _ (h.queued hinfo i hlt hst')
    · obtain rfl : st = st' := Option.some.inj (hst.symm.trans hst')
      exact hl hinfo

/-- The world after storage was allocated for a page. -/
def allocate (w : Anon) (p o a : ℕ) (strong : Bool) : Anon :=
  { w with
    objects := w.objects + 1
    storage := Function.update w.storage p ((o, w.objects) :: w.storage p)
    discarded := Function.update w.discarded w.objects false
    slot := Function.update w.slot a (some (w.objects, strong)) }

variable {strong : Bool}

theorem stored_allocate {a o' : ℕ} :
    (w.allocate p o a strong).stored p o' = if o' = o then some w.objects else w.stored p o' := by
  simp only [stored, allocate, update_self, lookup_cons]
  split_ifs with h
  · simp [h]
  · simp [beq_false_of_ne h]

theorem slot_allocate {a a' : ℕ} : (w.allocate p o a strong).slot a' =
    if a' = a then some (w.objects, strong) else w.slot a' :=
  update_apply ..

theorem discarded_allocate {a st : ℕ} : (w.allocate p o a strong).discarded st =
    if st = w.objects then false else w.discarded st :=
  update_apply ..

/-- A page that has no storage. -/
theorem Faulted.allocate (h : Faulted p readOnly info offset x n w c) (hn : n < 2 ^ 20)
    (hnone : w.stored p (offset + n * pagesize) = none) :
    Faulted p readOnly info offset x (n + 1) w
      (c.1.allocate p (offset + n * pagesize) ((x + n * pagesize) % 2 ^ 32) (!readOnly), c.2) where
  objects := Nat.le_succ_of_le h.objects
  kept := fun {o st} hst => by
    rw [stored_allocate, if_neg, h.kept hst]
    rintro rfl
    simp [hnone] at hst
  others := fun {o} ho => by
    rw [stored_allocate, if_neg (ho n (by omega)), h.others fun i hi => ho i (by omega)]
  below := fun {o st} hst => by
    rw [stored_allocate] at hst
    split at hst
    · obtain rfl := Option.some.inj hst
      exact Nat.lt_succ_self _
    · exact Nat.lt_succ_of_lt (h.below hst)
  unique := fun {o o' st} hle hst hst' => by
    rw [stored_allocate] at hst hst'
    split at hst <;> split at hst'
    · next ho ho' => exact ho.trans ho'.symm
    · obtain rfl := Option.some.inj hst
      exact absurd (h.below hst') (lt_irrefl _)
    · obtain rfl := Option.some.inj hst'
      exact absurd (h.below hst) (lt_irrefl _)
    · exact h.unique hle hst hst'
  fresh := fun i hi hi' => by
    rw [stored_allocate]
    rcases Nat.lt_succ_iff_lt_or_eq.1 hi with hlt | rfl
    · obtain ⟨st, hle, hst, hslot, hdisc⟩ := h.fresh i hlt hi'
      have hst' := h.below hst
      refine ⟨st, hle, ?_, ?_, ?_⟩
      · rw [if_neg, hst]
        simp only [pagesize]
        omega
      · rw [slot_allocate, if_neg, hslot]
        simp only [pagesize]
        omega
      · rw [discarded_allocate, if_neg hst'.ne, hdisc]
    · exact ⟨c.1.objects, h.objects, if_pos rfl, slot_allocate.trans (if_pos rfl),
        discarded_allocate.trans (if_pos rfl)⟩
  slots := fun {a} ha => by
    rw [slot_allocate, if_neg (ha n (by omega) hnone), h.slots fun i hi => ha i (by omega)]
  discarded := fun {st} hst => by
    rw [discarded_allocate, if_neg (hst.trans_le h.objects).ne, h.discarded hst]
  queued := fun hinfo i hi st hst => by
    rcases Nat.lt_succ_iff_lt_or_eq.1 hi with hlt | rfl
    · exact h.queued hinfo i hlt hst
    · simp [hnone] at hst

/-- One page of a fault. -/
theorem Faulted.step (h : Faulted p readOnly info offset x n w c) (hn : n < 2 ^ 20)
    {c' : Anon × List ℕ} (hok : faultPage p readOnly info offset x c n = .ok c') :
    Faulted p readOnly info offset x (n + 1) w c' := by
  have hnext := h.stored_next
  rw [faultPage] at hok
  split at hok
  · next st hst =>
    rw [hnext] at hst
    split at hok
    · obtain ⟨_, -, rfl⟩ := bind_pure_eq_ok.1 hok
      exact h.keep hst (fun _ => mem_append_left _) fun _ => by simp
    · next hinfo =>
      obtain rfl := pure_eq_ok.1 hok
      exact h.keep hst (fun _ => id) fun hinfo' => absurd hinfo' hinfo
  · next hnone =>
    obtain rfl := pure_eq_ok.1 hok
    exact h.allocate hn (hnext ▸ hnone)

/-- **All pages of a fault.** -/
theorem faulted_foldlM (h : w.Below) : ∀ {n : ℕ} {c : Anon × List ℕ}, n ≤ 2 ^ 20 →
    (range n).foldlM (faultPage p readOnly info offset x) (w, []) = .ok c →
    Faulted p readOnly info offset x n w c
  | 0, c, _, hok => by
    obtain rfl := pure_eq_ok.1 hok
    exact .zero h
  | n + 1, c, hn, hok => by
    rw [range_succ, foldlM_append] at hok
    obtain ⟨c', hc', hok⟩ := bind_eq_ok.1 hok
    rw [foldlM_cons] at hok
    obtain ⟨c'', hc'', rfl⟩ := bind_pure_eq_ok.1 hok
    exact (faulted_foldlM h (by omega) hc').step (by omega) hc''

end Anon

/-! ### The window of a fault -/

section Window

variable {length offset x i : ℕ}

theorem pageOf_le (x : ℕ) : pageOf x ≤ x := Nat.div_mul_le_self x pagesize

theorem leftOf_spec (h : offset % pagesize = 0) :
    leftOf offset % pagesize = 0 ∧ leftOf offset ≤ offset ∧ leftOf offset ≤ 8 * pagesize := by
  have hpage : pagesize = 4096 := rfl
  rw [hpage] at h
  rw [leftOf, hpage]
  split_ifs <;> omega

theorem rightOf_le : rightOf length offset ≤ 16 * pagesize := by
  rw [rightOf]
  split
  · omega
  · exact le_rfl

/-- The page of the fault is in the window. -/
theorem exists_mem_window (fill : Bool) (length : ℕ) (hoffset : offset % pagesize = 0)
    (hx : x < 2 ^ 32) :
    ∃ i < (faultWindow fill length offset x 1).2.2,
      (faultWindow fill length offset x 1).1 + i * pagesize = offset ∧
      ((faultWindow fill length offset x 1).2.1 + i * pagesize) % 2 ^ 32 = x := by
  obtain ⟨hleft, hle, hle'⟩ := leftOf_spec hoffset
  rw [faultWindow]
  split
  · refine ⟨leftOf offset / pagesize, ?_, ?_, ?_⟩ <;> simp only [pagesize] at * <;> omega
  · exact ⟨0, Nat.one_pos, by simp, by simpa using hx⟩

theorem window_count_le {fill : Bool} : (faultWindow fill length offset x 1).2.2 ≤ 2 ^ 20 := by
  rw [faultWindow]
  split
  · have hleft : leftOf offset ≤ 8 * pagesize := by
      rw [leftOf]
      split <;> omega
    have hright : rightOf length offset ≤ 16 * pagesize := rightOf_le
    simp only [pagesize] at *
    omega
  · exact Nat.le_of_ble_eq_true rfl

end Window

namespace Anon

/-- The window of a fault at an offset of a pager, which has a length, and at an address. -/
def window (w : Anon) (length p o x : ℕ) : ℕ × ℕ × ℕ :=
  faultWindow (w.pager p).fill.isSome length (pageOf o) (pageOf x) 1

/-- **What a fault did to the world.** -/
inductive Served (w : Anon) (length p o x : ℕ) (readOnly : Bool) (info : FaultInfo) : Anon → Prop
  | noAlloc : (w.pager p).noAlloc = true → Served w length p o x readOnly info w
  | pages {c : Anon × List ℕ} : (w.pager p).noAlloc = false →
      Faulted p readOnly info (w.window length p o x).1 (w.window length p o x).2.1
        (w.window length p o x).2.2 w c →
      Served w length p o x readOnly info (c.1.clearDiscarded c.2)

end Anon

namespace Maps

open Anon

variable {s s' : Maps Anon} {p o x id : ℕ} {access : MapAccess} {info : FaultInfo}
  {readOnly recursive r : Bool}

/-- **Maps in order**, apart from the end of the address space: a map may wrap around. -/
structure Sitting (s : Maps Anon) : Prop where
  start : ∀ id ∈ s.tree.nodes, (s.map id).start < 2 ^ 32 ∧ (s.map id).start % pagesize = 0
  offset : ∀ id ∈ s.tree.nodes, (s.map id).offset % pagesize = 0
  within : ∀ id ∈ s.tree.nodes,
    (s.map id).offset + (s.map id).length ≤ s.length (s.map id).pager
  words : ∀ id ∈ s.tree.nodes, s.length (s.map id).pager < 2 ^ 32
  pos : ∀ id ∈ s.tree.nodes, 0 < (s.map id).length ∧ (s.map id).length % pagesize = 0

/-- A map that is found covers the address, in any order of the maps. -/
theorem mapFind_covers (hx : x < 2 ^ 32) (h : s.mapFind x 1 = some id) :
    id ∈ s.tree.nodes ∧ (s.map id).start ≤ x ∧ x ≤ (s.map id).last := by
  obtain ⟨i, hi, hid⟩ := Option.bind_eq_some_iff.1 h
  obtain ⟨j, hj, heq⟩ := SearchTree.exists_of_find hi
  obtain rfl : j = id := Option.some.inj (hj.symm.trans hid)
  refine ⟨mem_of_getElem? hj, ?_⟩
  have hlast : last32 x 1 = x := by
    rw [last32]
    omega
  rw [Map.compare, hlast] at heq
  split_ifs at heq
  omega

/-- The place of an address in a pager, and the fault on it, as `map_fault` computes them. -/
theorem mapFault_of_lookup (h : Sitting s) (hx : x < 2 ^ 32)
    (hlook : s.lookup x = some (p, o, access)) (info : FaultInfo) (recursive : Bool) :
    pageOf o + pagesize ≤ s.length p ∧ s.length p < 2 ^ 32 ∧ o % pagesize = x % pagesize ∧
      s.mapFault x info recursive = if denied access info then .ok (s.searched, false)
        else s.searched.fault p o 1 (!access.write) x info recursive := by
  obtain ⟨id, hfind, hplace⟩ := Option.map_eq_some_iff.1 hlook
  obtain ⟨hmem, hle, hlast⟩ := mapFind_covers hx hfind
  obtain ⟨rfl, rfl, rfl⟩ : (s.map id).pager = p ∧ (s.map id).offset + (x - (s.map id).start) = o ∧
      (s.map id).access = access := by simpa [Map.place] using hplace
  obtain ⟨hstart, haligned⟩ := h.start id hmem
  have hoffset := h.offset id hmem
  have hwithin := h.within id hmem
  have hwords := h.words id hmem
  obtain ⟨hpos, hpages⟩ := h.pos id hmem
  -- a map that wraps around ends before it starts, and is not found
  have hlt : x < (s.map id).start + (s.map id).length := by
    rw [Map.last, last32] at hlast
    omega
  have hword : ((s.map id).offset + (x + 2 ^ 32 - (s.map id).start)) % 2 ^ 32 =
      (s.map id).offset + (x - (s.map id).start) := by omega
  refine ⟨?_, hwords, ?_, ?_⟩
  · simp only [pageOf, pagesize] at *
    omega
  · simp only [pagesize] at *
    omega
  · rw [mapFault, hfind]
    simp only [hword]
    rfl

theorem served_of_fault (h : s.world.Below)
    (hok : s.fault p o 1 readOnly x info recursive = .ok (s', r)) :
    s' = { s with world := s'.world } ∧
      Served s.world (s.length p) p o x readOnly info s'.world := by
  obtain ⟨_, -, hok⟩ := bind_eq_ok.1 hok
  obtain ⟨_, -, hok⟩ := bind_eq_ok.1 hok
  obtain ⟨w, hw, ⟨⟩⟩ := bind_pure_eq_ok.1 hok
  refine ⟨rfl, ?_⟩
  rw [provide] at hw
  split at hw
  · next hno =>
    obtain rfl := pure_eq_ok.1 hw
    exact .noAlloc hno
  · next hno =>
    obtain ⟨c, hc, rfl⟩ := bind_pure_eq_ok.1 hw
    exact .pages (by simpa using hno) (faulted_foldlM h window_count_le hc)

theorem served_of_mapFault (h : Sitting s) (hbelow : s.world.Below) (hx : x < 2 ^ 32)
    (hlook : s.lookup x = some (p, o, access)) (hallowed : denied access info = false)
    (hok : s.mapFault x info recursive = .ok (s', r)) :
    s' = { s.searched with world := s'.world } ∧
      Served s.world (s.length p) p o x (!access.write) info s'.world := by
  obtain ⟨-, -, -, heq⟩ := mapFault_of_lookup h hx hlook info recursive
  rw [heq, hallowed, if_neg Bool.false_ne_true] at hok
  exact served_of_fault hbelow hok

end Maps

end Viengoos
