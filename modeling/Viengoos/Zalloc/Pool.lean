import Viengoos.Zalloc.Allocator
import Viengoos.Lib.Dyadic

/-!
# The zones are the maximal blocks of the free pages

The whole state of the allocator is described by one set, the pages that are free: zone `z` lists,
in the order of their addresses, the blocks of `2 ^ z` pages that are maximal in this set
(`Represents`). Joining buddies takes a maximal block out of the set and adds a block of twice the
size; when the buddy is not free, the block that is added is maximal itself. Everything else follows
from what is known about maximal blocks: free blocks are aligned and disjoint and cover the free
pages (`zalloc_sound`), no two of them are buddies, and two histories that leave the same pages free
leave the same lists (`zones_canonical`).
-/

namespace Viengoos

namespace Zalloc

open Outcome DoublyLinked Dyadic Function List

/-! ### Addresses and pages -/

theorem pagesize_eq : pagesize = 2 ^ 12 := rfl

theorem zoneSize_eq (z : ℕ) : zoneSize z = 2 ^ z * pagesize := by
  rw [zoneSize, pagesize_eq, pow_add]

theorem zoneSize_pos (z : ℕ) : 0 < zoneSize z := by
  rw [zoneSize]
  exact Nat.two_pow_pos _

theorem pagesize_pos : 0 < pagesize := by decide

/-- The page where block `k` of zone `z` starts. -/
theorem mul_zoneSize_div (z k : ℕ) : k * zoneSize z / pagesize = k * 2 ^ z := by
  rw [zoneSize_eq, ← Nat.mul_assoc, Nat.mul_div_cancel _ pagesize_pos]

variable {k z a n : ℕ} {links : Links ℕ} {l : List ℕ} {p : Pool}

variable {b i size w : ℕ}

/-- The test of `add_block` for buddies. -/
theorem xor_eq_zoneSize_iff :
    (i * zoneSize z) ^^^ (k * zoneSize z) = zoneSize z ↔ i = buddy k := by
  have hxor : (i * zoneSize z) ^^^ (k * zoneSize z) = (i ^^^ k) * zoneSize z := by
    rw [zoneSize, ← Nat.shiftLeft_eq, ← Nat.shiftLeft_eq, ← Nat.shiftLeft_eq,
      Nat.shiftLeft_xor_distrib]
  rw [hxor, Nat.mul_eq_right (zoneSize_pos z).ne', buddy]
  constructor
  · intro h
    rw [← h, Nat.xor_comm i k, ← Nat.xor_assoc, Nat.xor_self, Nat.zero_xor]
  · rintro rfl
    rw [Nat.xor_comm k 1, Nat.xor_assoc, Nat.xor_self, Nat.xor_zero]

/-! ### The zones' lists -/

/-- The zones list the maximal blocks of the free pages. -/
structure Represents (s : State) (S : Finset ℕ) (Z : ℕ → List ℕ) : Prop where
  linked : ∀ z < zones, IsList s.links (s.zone z) (Z z)
  sorted : ∀ z < zones, (Z z).Pairwise (· < ·)
  mem_iff : ∀ z < zones, ∀ a, a ∈ Z z ↔ ∃ k, a = k * zoneSize z ∧ Maximal S z k
  bounded : ∀ i ∈ S, 0 < i ∧ i < 2 ^ zones

variable {s : State} {S : Finset ℕ} {Z : ℕ → List ℕ}

section

variable (h : Represents s S Z) (hz : z < zones)

include h hz

theorem Represents.nodup : (Z z).Nodup :=
  (h.sorted z hz).imp fun hlt => Nat.ne_of_lt hlt

/-- The page at the start of a listed block. -/
theorem Represents.page_mem (ha : a ∈ Z z) : a / pagesize ∈ S ∧ a % pagesize = 0 := by
  obtain ⟨k, rfl, hmax⟩ := (h.mem_iff z hz a).1 ha
  refine ⟨?_, ?_⟩
  · rw [mul_zoneSize_div]
    exact hmax.1 (mul_mem_block z k)
  · rw [zoneSize_eq, ← Nat.mul_assoc, Nat.mul_mod_left]

/-- A block is in one zone only. -/
theorem Represents.zone_unique (hw : w < zones) (haz : a ∈ Z z) (haw : a ∈ Z w) :
    z = w := by
  obtain ⟨k, rfl, hk⟩ := (h.mem_iff z hz a).1 haz
  obtain ⟨j, hj, hj'⟩ := (h.mem_iff w hw _).1 haw
  have hpage : k * 2 ^ z = j * 2 ^ w := by
    rw [← mul_zoneSize_div, ← mul_zoneSize_div, hj]
  exact (eq_of_maximal hk hj' (mul_mem_block z k) (hpage ▸ mul_mem_block w j)).1

theorem Represents.length_le : (Z z).length < loopLimit := by
  have hinj : ((Z z).map (· / pagesize)).Nodup := by
    refine (nodup_map_iff_inj_on (h.nodup hz)).2 fun a ha b hb hab => ?_
    have ha' := (h.page_mem hz ha).2
    have hb' := (h.page_mem hz hb).2
    rw [← Nat.div_add_mod a pagesize, ← Nat.div_add_mod b pagesize, ha', hb', hab]
  have hsub : ((Z z).map (· / pagesize)).toFinset ⊆ Finset.range (2 ^ zones) := by
    intro i hi
    obtain ⟨a, ha, rfl⟩ := mem_map.1 (mem_toFinset.1 hi)
    exact Finset.mem_range.2 (h.bounded _ (h.page_mem hz ha).1).2
  have hcard := Finset.card_le_card hsub
  rw [toFinset_card_of_nodup hinj, length_map, Finset.card_range] at hcard
  exact hcard.trans_lt (by decide)

end

/-- A block of free pages is never as large as all memory. -/
theorem lt_zones_of_bounded (h : ∀ i ∈ block w k, 0 < i ∧ i < 2 ^ zones) :
    w < zones := by
  by_contra hw
  obtain ⟨hpos, hlt⟩ := h _ (mul_mem_block w k)
  have hk : 1 ≤ k := Nat.pos_of_ne_zero fun hk => by simp [hk] at hpos
  have hpow : 2 ^ zones ≤ 2 ^ w := Nat.pow_le_pow_right (by decide) (by omega)
  have := Nat.le_mul_of_pos_left (2 ^ w) hk
  omega

/-! ### Finding the neighbours -/

theorem findNeighbours_of_seg (block : ℕ) {left head : Option ℕ} (h : Seg links left head l none)
    (hn : l.length < n) :
    findNeighbours links block n left head =
      .ok ((l.takeWhile (· < block)).getLast?.or left, (l.dropWhile (· < block)).head?) := by
  induction l generalizing left head n with
  | nil =>
    obtain ⟨n, rfl⟩ : ∃ m, n = m + 1 := ⟨n - 1, by simp at hn; omega⟩
    obtain rfl : head = none := h
    rfl
  | cons x l ih =>
    obtain ⟨n, rfl⟩ : ∃ m, n = m + 1 := ⟨n - 1, by simp at hn; omega⟩
    obtain ⟨rfl, _, hrest⟩ := h
    rw [findNeighbours]
    by_cases hx : x < block
    · rw [if_pos hx, ih hrest (by simpa using hn), takeWhile_cons_of_pos (by simpa using hx),
        dropWhile_cons_of_pos (by simpa using hx), getLast?_cons]
      cases (l.takeWhile (· < block)).getLast? <;> rfl
    · rw [if_neg hx, takeWhile_cons_of_neg (by simpa using hx),
        dropWhile_cons_of_neg (by simpa using hx)]
      rfl

/-- Where a block that is not listed belongs. -/
theorem exists_split (hsorted : l.Pairwise (· < ·)) (hb : b ∉ l) :
    ∃ l₁ l₂, l = l₁ ++ l₂ ∧ l₁ = l.takeWhile (· < b) ∧ l₂ = l.dropWhile (· < b) ∧
      (∀ x ∈ l₁, x < b) ∧ ∀ x ∈ l₂, b < x := by
  refine ⟨_, _, (takeWhile_append_dropWhile (p := (· < b))).symm, rfl, rfl, fun x hx => ?_,
    fun x hx => ?_⟩
  · simpa using mem_takeWhile_imp hx
  · have hne : x ≠ b := fun hxb => hb (hxb ▸ (dropWhile_sublist _).subset hx)
    have hsub := hsorted.sublist (dropWhile_sublist (p := (· < b)))
    cases hdrop : l.dropWhile (· < b) with
    | nil => simp [hdrop] at hx
    | cons y rest =>
      have hy : ¬ y < b := by
        have := head?_dropWhile_not (· < b) l
        rw [hdrop] at this
        simpa using this
      rw [hdrop] at hx hsub
      rcases mem_cons.1 hx with rfl | hx
      · omega
      · have := (pairwise_cons.1 hsub).1 x hx
        omega

theorem getLast?_eq_of_max (hsorted : l.Pairwise (· < ·)) (ha : a ∈ l) (hmax : ∀ x ∈ l, x ≤ a) :
    l.getLast? = some a := by
  obtain ⟨l₁, l₂, rfl⟩ := append_of_mem ha
  cases l₂ with
  | nil => simp
  | cons y l₂ =>
    have hlt : a < y := (pairwise_cons.1 (pairwise_append.1 hsorted).2.1).1 y (by simp)
    have := hmax y (by simp)
    omega

theorem head?_eq_of_min (hsorted : l.Pairwise (· < ·)) (ha : a ∈ l) (hmin : ∀ x ∈ l, a ≤ x) :
    l.head? = some a := by
  cases l with
  | nil => cases ha
  | cons y l =>
    rcases mem_cons.1 ha with rfl | ha
    · rfl
    · have := (pairwise_cons.1 hsorted).1 a ha
      have := hmin y (by simp)
      omega

/-! ### Joining buddies -/

/-- Taking a maximal block out of its zone. -/
theorem Represents.unlink (h : Represents s S Z) (hz : z < zones) (hk : Maximal S z k) :
    ∃ Z', Represents (s.unlink z (k * zoneSize z)) (S \ block z k) Z' := by
  have ha : k * zoneSize z ∈ Z z := (h.mem_iff z hz _).2 ⟨k, rfl, hk⟩
  obtain ⟨l₁, l₂, hl⟩ := append_of_mem ha
  have hnodup := h.nodup hz
  have hlist := h.linked z hz
  rw [hl] at hnodup hlist
  obtain ⟨hremoved, hframe⟩ := hlist.remove hnodup
  have hsub : (l₁ ++ l₂).Sublist (Z z) := by
    rw [hl]
    exact List.Sublist.append_left (sublist_cons_self ..) l₁
  have hmem : ∀ a, a ∈ l₁ ++ l₂ ↔ a ∈ Z z ∧ a ≠ k * zoneSize z := by
    intro a
    rw [hl]
    have hnot : k * zoneSize z ∉ l₁ ++ l₂ := (nodup_middle.1 hnodup).notMem
    simp only [mem_append, mem_cons] at hnot ⊢
    constructor
    · intro ha
      exact ⟨ha.imp_right .inr, fun hak => hnot (hak ▸ ha)⟩
    · rintro ⟨h₁ | h₂ | h₂, hne⟩
      · exact .inl h₁
      · exact absurd h₂ hne
      · exact .inr h₂
  refine ⟨update Z z (l₁ ++ l₂), fun w hw => ?_, fun w hw => ?_, fun w hw a => ?_,
    fun i hi => h.bounded i (Finset.sdiff_subset hi)⟩
  · by_cases hwz : w = z
    · subst hwz
      simp only [State.unlink, update_self]
      exact hremoved
    · simp only [State.unlink, update_of_ne hwz]
      refine (h.linked w hw).congr fun y hy => hframe y fun hy' => ?_
      exact hwz (h.zone_unique hw hz hy (hl ▸ hy'))
  · by_cases hwz : w = z
    · subst hwz
      rw [update_self]
      exact (h.sorted w hw).sublist hsub
    · rw [update_of_ne hwz]
      exact h.sorted w hw
  · simp only [maximal_sdiff hk]
    by_cases hwz : w = z
    · subst hwz
      rw [update_self, hmem, h.mem_iff w hw]
      constructor
      · rintro ⟨⟨j, rfl, hj⟩, hne⟩
        exact ⟨j, rfl, hj, fun hjk => hne (by rw [hjk.2])⟩
      · rintro ⟨j, rfl, hj, hne⟩
        refine ⟨⟨j, rfl, hj⟩, fun hjk => hne ⟨rfl, ?_⟩⟩
        exact Nat.eq_of_mul_eq_mul_right (zoneSize_pos w) hjk
    · rw [update_of_ne hwz, h.mem_iff w hw]
      simp [hwz]

/-- Listing a block whose buddy is not free. -/
theorem Represents.link (h : Represents s S Z) (hz : z < zones) (hdisj : Disjoint (block z k) S)
    (hbounded : ∀ i ∈ block z k, 0 < i ∧ i < 2 ^ zones) (hbuddy : ¬ block z (buddy k) ⊆ S)
    {l₁ l₂ : List ℕ} (hl : Z z = l₁ ++ l₂) (hl₁ : ∀ x ∈ l₁, x < k * zoneSize z)
    (hl₂ : ∀ x ∈ l₂, k * zoneSize z < x) :
    ∃ Z', Represents (s.link z l₁.getLast? l₂.head? (k * zoneSize z)) (S ∪ block z k) Z' := by
  have hnodup := h.nodup hz
  have hlist := h.linked z hz
  have hsorted := h.sorted z hz
  rw [hl] at hnodup hlist hsorted
  have hnot : k * zoneSize z ∉ l₁ ++ l₂ := by
    intro hmem
    rcases mem_append.1 hmem with h₁ | h₂
    · exact lt_irrefl _ (hl₁ _ h₁)
    · exact lt_irrefl _ (hl₂ _ h₂)
  obtain ⟨hinserted, hframe⟩ := hlist.insert hnodup hnot
  refine ⟨update Z z (l₁ ++ k * zoneSize z :: l₂), fun w hw => ?_, fun w hw => ?_,
    fun w hw a => ?_, fun i hi => ?_⟩
  · by_cases hwz : w = z
    · subst hwz
      simp only [State.link, update_self]
      exact hinserted
    · simp only [State.link, update_of_ne hwz]
      refine (h.linked w hw).congr fun y hy => hframe y fun hy' => ?_
      have hy'' : y = k * zoneSize z ∨ y ∈ l₁ ++ l₂ := by
        rcases mem_append.1 hy' with h₁ | h₂
        · exact .inr (mem_append_left _ h₁)
        · exact (mem_cons.1 h₂).imp_right (mem_append_right _)
      rcases hy'' with rfl | hy''
      · have hpage := (h.page_mem hw hy).1
        rw [mul_zoneSize_div] at hpage
        exact Finset.disjoint_left.1 hdisj (mul_mem_block z k) hpage
      · exact hwz (h.zone_unique hw hz hy (hl ▸ hy''))
  · by_cases hwz : w = z
    · subst hwz
      rw [update_self]
      obtain ⟨hp₁, hp₂, hcross⟩ := pairwise_append.1 hsorted
      refine pairwise_append.2 ⟨hp₁, pairwise_cons.2 ⟨hl₂, hp₂⟩, fun x hx y hy => ?_⟩
      rcases mem_cons.1 hy with rfl | hy
      · exact hl₁ x hx
      · exact hcross x hx y hy
    · rw [update_of_ne hwz]
      exact h.sorted w hw
  · simp only [maximal_union hdisj hbuddy]
    by_cases hwz : w = z
    · subst hwz
      have hmem : a ∈ l₁ ++ k * zoneSize w :: l₂ ↔ a ∈ Z w ∨ a = k * zoneSize w := by
        rw [hl, mem_append, mem_append, mem_cons, or_assoc, or_comm (a := a ∈ l₂)]
      rw [update_self, hmem, h.mem_iff w hw]
      constructor
      · rintro (⟨j, rfl, hj⟩ | rfl)
        · exact ⟨j, rfl, .inl hj⟩
        · exact ⟨k, rfl, .inr ⟨rfl, rfl⟩⟩
      · rintro ⟨j, rfl, hj | ⟨_, rfl⟩⟩
        · exact .inl ⟨j, rfl, hj⟩
        · exact .inr rfl
    · rw [update_of_ne hwz, h.mem_iff w hw]
      simp [hwz]
  · rcases Finset.mem_union.1 hi with hi | hi
    · exact h.bounded i hi
    · exact hbounded i hi

/-- What `add_block` finds: the neighbours, and among them the buddy if it is free. -/
theorem Represents.neighbours (h : Represents s S Z) (hz : z < zones)
    (hdisj : Disjoint (block z k) S) :
    ∃ l₁ l₂, Z z = l₁ ++ l₂ ∧ (∀ x ∈ l₁, x < k * zoneSize z) ∧ (∀ x ∈ l₂, k * zoneSize z < x) ∧
      findNeighbours s.links (k * zoneSize z) loopLimit none (s.zone z) =
        .ok (l₁.getLast?, l₂.head?) ∧
      buddyOf l₁.getLast? (k * zoneSize z) z =
        (if Maximal S z (buddy k) ∧ buddy k < k then some (buddy k * zoneSize z) else none) ∧
      buddyOf l₂.head? (k * zoneSize z) z =
        (if Maximal S z (buddy k) ∧ k < buddy k then some (buddy k * zoneSize z) else none) := by
  have hnot : k * zoneSize z ∉ Z z := fun hmem => by
    have hpage := (h.page_mem hz hmem).1
    rw [mul_zoneSize_div] at hpage
    exact Finset.disjoint_left.1 hdisj (mul_mem_block z k) hpage
  obtain ⟨l₁, l₂, hl, htake, hdrop, hl₁, hl₂⟩ := exists_split (h.sorted z hz) hnot
  have hsorted := h.sorted z hz
  rw [hl] at hsorted
  obtain ⟨hs₁, hs₂, _⟩ := pairwise_append.1 hsorted
  have hfind := findNeighbours_of_seg (k * zoneSize z) (h.linked z hz) (h.length_le hz)
  rw [← htake, ← hdrop, Option.or_none] at hfind
  -- Every listed address is a multiple of the size, and the buddy is listed iff it is maximal.
  have hmult : ∀ x ∈ l₁ ++ l₂, ∃ j, x = j * zoneSize z ∧ Maximal S z j := fun x hx =>
    (h.mem_iff z hz x).1 (hl ▸ hx)
  have hbuddy : Maximal S z (buddy k) → buddy k * zoneSize z ∈ l₁ ++ l₂ := fun hmax =>
    hl ▸ (h.mem_iff z hz _).2 ⟨_, rfl, hmax⟩
  have htest : ∀ x ∈ l₁ ++ l₂, x ^^^ (k * zoneSize z) = zoneSize z →
      x = buddy k * zoneSize z ∧ Maximal S z (buddy k) := by
    intro x hx hxor
    obtain ⟨j, rfl, hj⟩ := hmult x hx
    obtain rfl := xor_eq_zoneSize_iff.1 hxor
    exact ⟨rfl, hj⟩
  refine ⟨l₁, l₂, hl, hl₁, hl₂, hfind, ?_, ?_⟩
  · split
    next hcond =>
      obtain ⟨hmax, hlt⟩ := hcond
      have hmem : buddy k * zoneSize z ∈ l₁ := by
        refine (mem_append.1 (hbuddy hmax)).resolve_right fun hmem => ?_
        have := Nat.lt_of_mul_lt_mul_right (hl₂ _ hmem)
        omega
      have hlast : l₁.getLast? = some (buddy k * zoneSize z) := by
        refine getLast?_eq_of_max hs₁ hmem fun x hx => ?_
        obtain ⟨j, rfl, -⟩ := hmult x (mem_append_left _ hx)
        have := Nat.lt_of_mul_lt_mul_right (hl₁ _ hx)
        refine Nat.mul_le_mul_right _ ?_
        have := (eq_buddy_iff (k := k)).1 rfl
        omega
      rw [hlast]
      exact Option.filter_some_pos (by simpa using xor_eq_zoneSize_iff.2 rfl)
    next hcond =>
      refine Option.filter_eq_none_iff.2 fun x hx hxor => hcond ?_
      have hmem := mem_of_getLast? hx
      obtain ⟨rfl, hmax⟩ := htest x (mem_append_left _ hmem) (by simpa using hxor)
      exact ⟨hmax, Nat.lt_of_mul_lt_mul_right (hl₁ _ hmem)⟩
  · split
    next hcond =>
      obtain ⟨hmax, hlt⟩ := hcond
      have hmem : buddy k * zoneSize z ∈ l₂ := by
        refine (mem_append.1 (hbuddy hmax)).resolve_left fun hmem => ?_
        have := Nat.lt_of_mul_lt_mul_right (hl₁ _ hmem)
        omega
      have hhead : l₂.head? = some (buddy k * zoneSize z) := by
        refine head?_eq_of_min hs₂ hmem fun x hx => ?_
        obtain ⟨j, rfl, -⟩ := hmult x (mem_append_right _ hx)
        have := Nat.lt_of_mul_lt_mul_right (hl₂ _ hx)
        refine Nat.mul_le_mul_right _ ?_
        have := (eq_buddy_iff (k := k)).1 rfl
        omega
      rw [hhead]
      exact Option.filter_some_pos (by simpa using xor_eq_zoneSize_iff.2 rfl)
    next hcond =>
      refine Option.filter_eq_none_iff.2 fun x hx hxor => hcond ?_
      have hmem := mem_of_head? hx
      obtain ⟨rfl, hmax⟩ := htest x (mem_append_right _ hmem) (by simpa using hxor)
      exact ⟨hmax, Nat.lt_of_mul_lt_mul_right (hl₂ _ hmem)⟩

/-- **Adding a block** makes its pages free, whatever is joined on the way. -/
theorem addBlock_spec (h : Represents s S Z) (hdisj : Disjoint (block z k) S)
    (hbounded : ∀ i ∈ block z k, 0 < i ∧ i < 2 ^ zones) :
    ∃ s' Z', addBlock s (k * zoneSize z) z = .ok s' ∧ Represents s' (S ∪ block z k) Z' ∧
      s'.memory = s.memory := by
  -- By induction on the number of zones above: joining goes on one zone higher.
  obtain ⟨n, hn⟩ : ∃ n, zones - z = n := ⟨_, rfl⟩
  induction n generalizing s S Z z k with
  | zero => exact absurd (lt_zones_of_bounded hbounded) (by omega)
  | succ n ih =>
    have hz := lt_zones_of_bounded hbounded
    obtain ⟨l₁, l₂, hl, hl₁, hl₂, hfind, hleft, hright⟩ := h.neighbours hz hdisj
    rw [addBlock, if_pos hz, hfind, ok_bind]
    dsimp only
    rw [hleft, hright]
    by_cases hmax : Maximal S z (buddy k)
    · -- The buddy is taken out, and the block of twice the size is added.
      obtain ⟨Z₁, hrep⟩ := h.unlink hz hmax
      have hpair : (S \ block z (buddy k)) ∪ block (z + 1) (k / 2) = S ∪ block z k := by
        rw [block_succ]
        ext i
        have hsub : i ∈ block z (buddy k) → i ∈ S := fun hi => hmax.1 hi
        simp only [Finset.mem_union, Finset.mem_sdiff]
        tauto
      have hdisj' : Disjoint (block (z + 1) (k / 2)) (S \ block z (buddy k)) := by
        rw [block_succ, Finset.disjoint_union_left]
        exact ⟨hdisj.mono_right Finset.sdiff_subset, Finset.disjoint_sdiff⟩
      have hbounded' : ∀ i ∈ block (z + 1) (k / 2), 0 < i ∧ i < 2 ^ zones := by
        intro i hi
        rw [block_succ] at hi
        rcases Finset.mem_union.1 hi with hi | hi
        · exact hbounded i hi
        · exact h.bounded i (hmax.1 hi)
      obtain ⟨s', Z', hadd, hrep', hmem⟩ := ih hrep hdisj' hbounded' (by omega)
      rw [hpair] at hrep'
      have hsize : k / 2 * zoneSize (z + 1) = k / 2 * 2 * zoneSize z := by
        rw [zoneSize, zoneSize, Nat.add_right_comm, pow_succ', Nat.mul_assoc]
      rw [hsize] at hadd
      obtain ⟨hhalf, hne⟩ := (eq_buddy_iff (k := k)).1 rfl
      rcases lt_or_gt_of_ne hne with hlt | hgt
      · rw [if_pos ⟨hmax, hlt⟩]
        have hstart : k / 2 * 2 = buddy k := by omega
        rw [hstart] at hadd
        exact ⟨s', Z', hadd, hrep', hmem⟩
      · rw [if_neg fun hc => absurd hc.2 (by omega), if_pos ⟨hmax, hgt⟩]
        have hstart : k / 2 * 2 = k := by omega
        rw [hstart] at hadd
        exact ⟨s', Z', hadd, hrep', hmem⟩
    · rw [if_neg fun hc => hmax hc.1, if_neg fun hc => hmax hc.1]
      obtain ⟨Z', hrep⟩ := h.link hz hdisj hbounded
        (fun hsub => hmax (maximal_buddy hdisj hsub)) hl hl₁ hl₂
      exact ⟨_, Z', rfl, hrep, rfl⟩

/-! ### Freeing -/

theorem wrapSub_of_le (hb : b ≤ a) (ha : a < 2 ^ 32) : wrapSub a b = a - b := by
  rw [wrapSub, Nat.add_sub_assoc hb, Nat.add_mod_left, Nat.mod_eq_of_lt (by omega)]

theorem vgMsb_mul_pageSize (hn : 0 < n) : vgMsb (n * pagesize) = n.log2 + 13 := by
  have hpos : n * pagesize ≠ 0 := (Nat.mul_pos hn pagesize_pos).ne'
  rw [vgMsb, vgMsb64, if_neg hpos]
  have hlog : (n * pagesize).log2 = n.log2 + 12 := by
    rw [Nat.log2_eq_iff hpos, pagesize, pow_add, Nat.add_right_comm, pow_add]
    have hlow := Nat.log2_self_le hn.ne'
    have hhigh := Nat.lt_log2_self (n := n)
    exact ⟨Nat.mul_le_mul_right _ hlow, Nat.mul_lt_mul_of_pos_right hhigh (by decide)⟩
  rw [hlog]

/-- The first block that is cut off: its size divides the address, and is at most the size. -/
theorem cutZone_spec {p : ℕ} (hp : 0 < p) (hn : 0 < n) (hend : p + n ≤ 2 ^ zones) :
    ∃ z, cutZone (p * pagesize) (n * pagesize) = z ∧ 2 ^ z ∣ p ∧ 2 ^ z ≤ n := by
  obtain ⟨t, m, hm, hpt⟩ := Nat.exists_eq_two_pow_mul_odd hp.ne'
  obtain ⟨m, rfl⟩ := hm
  have hzones : zones = 19 := rfl
  have ht : t < 19 := by
    have hle : 2 ^ t ≤ p := hpt ▸ Nat.le_mul_of_pos_right _ (by omega)
    have hlt : 2 ^ t < 2 ^ 19 := by rw [hzones] at hend; omega
    exact (Nat.pow_lt_pow_iff_right (by decide)).1 hlt
  have hlog : n.log2 < 19 := by
    rw [Nat.log2_lt hn.ne']
    rw [hzones] at hend
    omega
  have hlsb : vgLsb (p * pagesize) = t + 13 := by
    have hfactor : p * pagesize = 2 ^ (t + 12) * (2 * m + 1) := by
      rw [hpt, pagesize, pow_add]
      ring
    rw [vgLsb, hfactor, vgLsb64_two_pow_mul (by omega)]
  refine ⟨min t n.log2, ?_, ?_, ?_⟩
  · have hblock : wrapSub (t + 13) 1 = t + 12 := wrapSub_of_le (by omega) (by omega)
    have hsize : wrapSub (n.log2 + 13) 1 = n.log2 + 12 := wrapSub_of_le (by omega) (by omega)
    rw [cutZone, hlsb, vgMsb_mul_pageSize hn, hblock, hsize, wrapSub_of_le (by omega) (by omega)]
    omega
  · rw [hpt]
    exact (Nat.pow_dvd_pow 2 (min_le_left _ _)).mul_right _
  · exact (Nat.pow_le_pow_right (by decide) (min_le_right _ _)).trans (Nat.log2_self_le hn.ne')

/-- The loop of `zfree` frees all pages of the piece. -/
theorem zfreeLoop_spec {p fuel : ℕ} (h : Represents s S Z) (hp : 0 < p) (hn : 0 < n)
    (hend : p + n ≤ 2 ^ zones) (hdisj : Disjoint (Finset.Ico p (p + n)) S) (hfuel : n ≤ fuel) :
    ∃ s' Z', zfreeLoop fuel s (p * pagesize) (n * pagesize) = .ok s' ∧
      Represents s' (S ∪ Finset.Ico p (p + n)) Z' ∧ s'.memory = s.memory := by
  induction fuel generalizing s S Z p n with
  | zero => omega
  | succ fuel ih =>
    obtain ⟨z, hcut, ⟨k, hk⟩, hle⟩ := cutZone_spec hp hn hend
    have hzones : zones = 19 := rfl
    have hpow := Nat.two_pow_pos z
    have hblock : block z k = Finset.Ico p (p + 2 ^ z) := by
      rw [block, Nat.add_mul, Nat.one_mul, Nat.mul_comm k, ← hk]
    have haddr : p * pagesize = k * zoneSize z := by
      rw [zoneSize_eq, hk]
      ring
    have hsub : Finset.Ico p (p + 2 ^ z) ⊆ Finset.Ico p (p + n) :=
      Finset.Ico_subset_Ico_right (by omega)
    obtain ⟨s₁, Z₁, hadd, hrep, hmem⟩ := addBlock_spec h (z := z) (k := k)
      (by rw [hblock]; exact hdisj.mono_left hsub)
      (fun i hi => by
        rw [hblock, Finset.mem_Ico] at hi
        omega)
    rw [hblock] at hrep
    have hsize : wrapSub (n * pagesize) (zoneSize z) = (n - 2 ^ z) * pagesize := by
      have hbig : n * pagesize < 2 ^ 32 := by
        rw [hzones] at hend
        simp only [pagesize]
        omega
      have hle' : zoneSize z ≤ n * pagesize := by
        rw [zoneSize_eq]
        exact Nat.mul_le_mul_right _ hle
      rw [wrapSub_of_le hle' hbig, zoneSize_eq, Nat.sub_mul]
    have hnext : (p * pagesize + zoneSize z) % 2 ^ 32 = (p + 2 ^ z) * pagesize := by
      rw [zoneSize_eq, ← Nat.add_mul]
      refine Nat.mod_eq_of_lt ?_
      rw [hzones] at hend
      simp only [pagesize]
      omega
    rw [zfreeLoop]
    rw [hcut, hsize, hnext, haddr, hadd, ok_bind]
    by_cases hrest : n = 2 ^ z
    · rw [if_neg (by simp [hrest])]
      exact ⟨s₁, Z₁, rfl, hrest ▸ hrep, hmem⟩
    · rw [if_pos (Nat.mul_pos (by omega) pagesize_pos)]
      obtain ⟨s', Z', hloop, hrep', hmem'⟩ := ih hrep (p := p + 2 ^ z) (n := n - 2 ^ z) (by omega)
        (by omega) (by omega) (by
          refine Finset.disjoint_left.2 fun i hi hi' => ?_
          rw [Finset.mem_Ico] at hi
          rcases Finset.mem_union.1 hi' with hS | hcutoff
          · exact Finset.disjoint_left.1 hdisj (Finset.mem_Ico.2 (by omega)) hS
          · rw [Finset.mem_Ico] at hcutoff
            omega) (by omega)
      refine ⟨s', Z', hloop, ?_, hmem'.trans hmem⟩
      have hlast : p + 2 ^ z + (n - 2 ^ z) = p + n := by omega
      rwa [hlast, Finset.union_assoc, Finset.Ico_union_Ico_eq_Ico (by omega) (by omega)] at hrep'

theorem zfree_spec {p : ℕ} (h : Represents s S Z) (hp : 0 < p) (hn : 0 < n)
    (hend : p + n ≤ 2 ^ zones) (hdisj : Disjoint (Finset.Ico p (p + n)) S) :
    ∃ s' Z', zfree s (p * pagesize) (n * pagesize) = .ok s' ∧
      Represents s' (S ∪ Finset.Ico p (p + n)) Z' ∧ s'.memory = (s.memory + n) % 2 ^ 32 := by
  have hne : p * pagesize ≠ 0 := (Nat.mul_pos hp pagesize_pos).ne'
  have hfuel : n ≤ loopLimit := by
    have : 2 ^ zones ≤ loopLimit := by decide
    omega
  have hrep : Represents { s with memory := (s.memory + n * pagesize / pagesize) % 2 ^ 32 } S Z :=
    ⟨h.linked, h.sorted, h.mem_iff, h.bounded⟩
  obtain ⟨s', Z', hloop, hrep', hmem⟩ := zfreeLoop_spec hrep hp hn hend hdisj hfuel
  refine ⟨s', Z', ?_, hrep', by rw [hmem, Nat.mul_div_cancel n pagesize_pos]⟩
  rw [zfree, require_of hne, ok_bind, require_of (Nat.mul_mod_left ..), ok_bind,
    require_of (Nat.mul_mod_left ..), ok_bind, hloop]

/-! ### Allocating -/

theorem findZone_spec (s : State) (z : ℕ) (hz : z ≤ zones) :
    z ≤ findZone s z ∧ findZone s z ≤ zones ∧
      (findZone s z < zones → (s.zone (findZone s z)).isSome) ∧
      ∀ w, z ≤ w → w < findZone s z → s.zone w = none := by
  obtain ⟨n, hn⟩ : ∃ n, zones - z = n := ⟨_, rfl⟩
  induction n generalizing z with
  | zero =>
    have hstop : findZone s z = z := by rw [findZone, if_neg (by omega)]
    rw [hstop]
    exact ⟨le_rfl, hz, fun hlt => by omega, fun w h₁ h₂ => by omega⟩
  | succ n ih =>
    rw [findZone, if_pos (by omega)]
    split
    next hsome => exact ⟨le_rfl, hz, fun _ => hsome, fun w h₁ h₂ => by omega⟩
    next hnone =>
      obtain ⟨hle, htop, hfound, hempty⟩ := ih (z + 1) (by omega) (by omega)
      refine ⟨by omega, htop, hfound, fun w h₁ h₂ => ?_⟩
      rcases Nat.eq_or_lt_of_le h₁ with rfl | hlt
      · simpa using hnone
      · exact hempty w hlt h₂

/-- The zone in which the search starts has blocks that are large enough. -/
theorem startZone_spec (hn : 0 < n) (hmax : n ≤ 2 ^ (zones - 1)) :
    wrapSub (vgMsb (wrapSub (n * pagesize) 1)) 12 < zones ∧
      n ≤ 2 ^ wrapSub (vgMsb (wrapSub (n * pagesize) 1)) 12 := by
  have hpage : pagesize = 4096 := by decide
  have hzones : zones = 19 := rfl
  rw [hzones] at hmax ⊢
  have hone : 4096 ≤ n * pagesize := by
    rw [hpage]
    omega
  have hall : n * pagesize ≤ 2 ^ 30 := by
    rw [hpage]
    omega
  have hsub : wrapSub (n * pagesize) 1 = n * pagesize - 1 :=
    wrapSub_of_le (by omega) (by omega)
  rw [hsub, vgMsb]
  have hlow : 12 ≤ vgMsb64 (n * pagesize - 1) := by
    by_contra hlt
    have := vgMsb64_le_iff.1 (Nat.le_of_lt_succ (not_le.1 hlt))
    omega
  have hhigh : vgMsb64 (n * pagesize - 1) ≤ 30 := by
    rw [vgMsb64_le_iff]
    omega
  rw [wrapSub_of_le hlow (by omega)]
  refine ⟨by omega, ?_⟩
  have hlt := lt_two_pow_vgMsb64 (n * pagesize - 1)
  have hsplit : 2 ^ vgMsb64 (n * pagesize - 1) =
      2 ^ (vgMsb64 (n * pagesize - 1) - 12) * pagesize := by
    have hexp : vgMsb64 (n * pagesize - 1) - 12 + 12 = vgMsb64 (n * pagesize - 1) := by omega
    nth_rewrite 3 [pagesize_eq]
    rw [← pow_add, hexp]
  have hle : n * pagesize ≤ 2 ^ (vgMsb64 (n * pagesize - 1) - 12) * pagesize := by omega
  exact Nat.le_of_mul_le_mul_right hle pagesize_pos

theorem startZone_one : wrapSub (vgMsb (wrapSub (1 * pagesize) 1)) 12 = 0 := by decide +kernel

/-- Free memory is in some zone. -/
theorem Represents.exists_mem (h : Represents s S Z) (hi : i ∈ S) :
    ∃ z < zones, ∃ k, k * zoneSize z ∈ Z z ∧ i ∈ block z k := by
  have hout : ¬ block zones (i / 2 ^ zones) ⊆ S := by
    intro hsub
    exact (lt_irrefl _ (lt_zones_of_bounded fun j hj => h.bounded j (hsub hj)))
  obtain ⟨z, hz, hmax⟩ := exists_maximal hi hout
  exact ⟨z, hz, i / 2 ^ z, (h.mem_iff z hz _).2 ⟨_, rfl, hmax⟩, mem_block.2 rfl⟩

/-- Memory outside of the free pages may be overwritten. -/
theorem Represents.overwrite (h : Represents s S Z) (m : ℕ)

    (hsame : ∀ a, a / pagesize ∈ S →
      links.next a = s.links.next a ∧ links.prev a = s.links.prev a) :
    Represents { s with links := links, memory := m } S Z :=
  ⟨fun z hz => (h.linked z hz).congr fun a ha => hsame a (h.page_mem hz ha).1, h.sorted, h.mem_iff,
    h.bounded⟩

/-- The first block of a zone. -/
theorem Represents.popFirst (h : Represents s S Z) (hz : z < zones) (ha : s.zone z = some a) :
    ∃ k, a = k * zoneSize z ∧ Maximal S z k ∧
      ∃ Z', Represents (s.popFirst z a) (S \ block z k) Z' := by
  have hhead : (Z z).head? = some a := (h.linked z hz).head_eq.symm.trans ha
  obtain ⟨k, rfl, hk⟩ := (h.mem_iff z hz a).1 (mem_of_head? hhead)
  refine ⟨k, rfl, hk, ?_⟩
  have hprev : s.links.prev (k * zoneSize z) = none := by
    obtain ⟨l, hl⟩ : ∃ l, Z z = k * zoneSize z :: l := by
      cases hZ : Z z with
      | nil => simp [hZ] at hhead
      | cons x l => exact ⟨l, by rw [hZ] at hhead; rw [Option.some.inj hhead]⟩
    have hlist := h.linked z hz
    rw [hl] at hlist
    exact hlist.2.1
  have hpop : s.popFirst z (k * zoneSize z) = s.unlink z (k * zoneSize z) := by
    simp only [State.popFirst, State.unlink, Links.remove, Links.redirect, hprev]
  rw [hpop]
  exact h.unlink hz hk

theorem Represents.card_lt (h : Represents s S Z) : S.card < 2 ^ 32 := by
  have hsub : S ⊆ Finset.range (2 ^ zones) := fun i hi => Finset.mem_range.2 (h.bounded i hi).2
  have hcard := Finset.card_le_card hsub
  rw [Finset.card_range] at hcard
  exact hcard.trans_lt (by decide)

/-- What is left over of a maximal block is freed again: just the first `n` pages are gone. -/
theorem giveBack_spec (h : Represents s (S \ block z k) Z) (hk : block z k ⊆ S)
    (hbounded : ∀ i ∈ S, 0 < i ∧ i < 2 ^ zones) (hn : n ≤ 2 ^ z) (hmem : s.memory + 2 ^ z = S.card)
    (hcard : S.card < 2 ^ 32) :
    ∃ s' Z', giveBack s z (k * zoneSize z) (n * pagesize) = .ok s' ∧
      Represents s' (S \ Finset.Ico (k * 2 ^ z) (k * 2 ^ z + n)) Z' ∧ s'.memory + n = S.card := by
  have hblock : block z k = Finset.Ico (k * 2 ^ z) (k * 2 ^ z + 2 ^ z) := by
    rw [block, Nat.add_mul, Nat.one_mul]
  rw [giveBack]
  rcases Nat.eq_or_lt_of_le hn with rfl | hlt
  · rw [if_neg (by rw [zoneSize_eq]; exact lt_irrefl _)]
    rw [hblock] at h
    exact ⟨s, Z, rfl, h, hmem⟩
  · have hsize : n * pagesize < zoneSize z := by
      rw [zoneSize_eq]
      exact Nat.mul_lt_mul_of_pos_right hlt pagesize_pos
    have hstart : k * zoneSize z + n * pagesize = (k * 2 ^ z + n) * pagesize := by
      rw [zoneSize_eq]
      ring
    have hrest : zoneSize z - n * pagesize = (2 ^ z - n) * pagesize := by
      rw [zoneSize_eq, Nat.sub_mul]
    have hfirst := hbounded _ (hk (mul_mem_block z k))
    have hlast := hbounded (k * 2 ^ z + 2 ^ z - 1) (hk (by
      rw [hblock, Finset.mem_Ico]
      omega))
    have hdisj : Disjoint (Finset.Ico (k * 2 ^ z + n) (k * 2 ^ z + n + (2 ^ z - n)))
        (S \ block z k) := by
      refine Finset.disjoint_left.2 fun i hi hi' => (Finset.mem_sdiff.1 hi').2 ?_
      rw [hblock, Finset.mem_Ico]
      rw [Finset.mem_Ico] at hi
      omega
    obtain ⟨s', Z', hfree, hrep, hmem'⟩ := zfree_spec h (p := k * 2 ^ z + n) (n := 2 ^ z - n)
      (by omega) (by omega) (by omega) hdisj
    rw [if_pos hsize, hstart, hrest]
    have hset : S \ block z k ∪ Finset.Ico (k * 2 ^ z + n) (k * 2 ^ z + n + (2 ^ z - n)) =
        S \ Finset.Ico (k * 2 ^ z) (k * 2 ^ z + n) := by
      ext i
      have hin : i ∈ block z k → i ∈ S := fun hi => hk hi
      rw [hblock, Finset.mem_Ico] at hin
      simp only [Finset.mem_union, Finset.mem_sdiff, hblock, Finset.mem_Ico]
      by_cases hi : i ∈ S
      · simp only [hi, true_and]
        omega
      · have hout := mt hin hi
        simp only [hi, false_and, false_or, iff_false]
        omega
    refine ⟨s', Z', hfree, hset ▸ hrep, ?_⟩
    omega

/-- **Allocation** of `n` pages: either nothing changes and no zone from some zone on, whose blocks
would be large enough, has a block, or the first pages of a block are taken out of the free ones. -/
theorem zallocInternal_spec (h : Represents s S Z) (hmem : s.memory = S.card) (hn : 0 < n)
    (hmax : n ≤ 2 ^ (zones - 1)) :
    zallocInternal s (n * pagesize) = .ok (s, 0) ∨
    ∃ s' p Z', zallocInternal s (n * pagesize) = .ok (s', p * pagesize) ∧ 0 < p ∧
      Finset.Ico p (p + n) ⊆ S ∧ Represents s' (S \ Finset.Ico p (p + n)) Z' ∧
      s'.memory + n = S.card := by
  obtain ⟨hstart, hlarge⟩ := startZone_spec hn hmax
  obtain ⟨hle, htop, hfound, hempty⟩ := findZone_spec s _ hstart.le
  rw [zallocInternal, require_of (Nat.mul_mod_left ..), ok_bind]
  generalize findZone s (wrapSub (vgMsb (wrapSub (n * pagesize) 1)) 12) = z at *
  rw [if_neg (not_lt.2 htop)]
  rcases Nat.eq_or_lt_of_le htop with heq | hlt
  · rw [if_pos heq]
    refine .inl ?_
    have hassert : n * pagesize = pagesize → s.memory = 0 := by
      intro hone
      have hn1 : n = 1 := Nat.eq_of_mul_eq_mul_right pagesize_pos (by rw [hone, Nat.one_mul])
      have hzero : wrapSub (vgMsb (wrapSub (n * pagesize) 1)) 12 = 0 := by
        rw [hn1]
        exact startZone_one
      rw [hmem, Finset.card_eq_zero]
      refine Finset.eq_empty_of_forall_notMem fun i hi => ?_
      obtain ⟨w, hw, k, hk, _⟩ := h.exists_mem hi
      have hnone := hempty w (by omega) (by omega)
      have hhead := (h.linked w hw).head_eq
      rw [hnone] at hhead
      rw [head?_eq_none_iff.1 hhead.symm] at hk
      cases hk
    rw [require_of hassert]
    rfl
  · rw [if_neg hlt.ne]
    obtain ⟨a, ha⟩ := Option.isSome_iff_exists.1 (hfound hlt)
    obtain ⟨k, rfl, hk, Z₁, hrep⟩ := h.popFirst hlt ha
    have hroom : n ≤ 2 ^ z := hlarge.trans (Nat.pow_le_pow_right (by decide) hle)
    have hcard := h.card_lt
    have hpages : 2 ^ z ≤ S.card := by
      rw [← card_block z k]
      exact Finset.card_le_card hk.1
    have hzone : zoneSize z / pagesize = 2 ^ z := by
      rw [zoneSize_eq, Nat.mul_div_cancel _ pagesize_pos]
    rw [ha]
    dsimp only
    have hsub : wrapSub (s.popFirst z (k * zoneSize z)).memory (zoneSize z / pagesize) =
        S.card - 2 ^ z := by
      change wrapSub s.memory _ = _
      rw [hzone, hmem, wrapSub_of_le hpages hcard]
    rw [hsub]
    obtain ⟨s', Z', hback, hrep', hmem'⟩ := giveBack_spec (n := n)
      (hrep.overwrite (S.card - 2 ^ z) fun _ _ => ⟨rfl, rfl⟩) hk.1 h.bounded hroom
      (by change S.card - 2 ^ z + 2 ^ z = _; omega) hcard
    have hstartpage := h.bounded _ (hk.1 (mul_mem_block z k))
    have haddr : k * zoneSize z = k * 2 ^ z * pagesize := by rw [zoneSize_eq, Nat.mul_assoc]
    refine .inr ⟨{ s' with links := zeroed s'.links (k * zoneSize z) (n * pagesize) }, k * 2 ^ z,
      Z', ?_, hstartpage.1, ?_, ?_, hmem'⟩
    · rw [hback, ok_bind, haddr]
      rfl
    · intro i hi
      refine hk.1 ?_
      rw [block, Finset.mem_Ico, Nat.add_mul]
      rw [Finset.mem_Ico] at hi
      omega
    · refine hrep'.overwrite s'.memory fun b hb => ?_
      -- The block that was handed out is not among the free pages.
      have hout : ¬ (k * zoneSize z ≤ b ∧ b < k * zoneSize z + n * pagesize) := by
        rw [haddr, ← Nat.add_mul]
        intro hin
        refine (Finset.mem_sdiff.1 hb).2 (Finset.mem_Ico.2 ⟨?_, ?_⟩)
        · exact (Nat.le_div_iff_mul_le pagesize_pos).2 hin.1
        · exact (Nat.div_lt_iff_lt_mul pagesize_pos).2 hin.2
      simp only [zeroed, if_neg hout, and_self]

/-! ### Histories -/

/-- The pages of a piece of memory. -/
def pages (addr size : ℕ) : Finset ℕ := Finset.Ico (addr / pagesize) ((addr + size) / pagesize)

theorem pages_mul (p n : ℕ) : pages (p * pagesize) (n * pagesize) = Finset.Ico p (p + n) := by
  rw [pages, ← Nat.add_mul, Nat.mul_div_cancel _ pagesize_pos, Nat.mul_div_cancel _ pagesize_pos]

theorem pages_zone (z k : ℕ) : pages (k * zoneSize z) (zoneSize z) = block z k := by
  have haddr : k * zoneSize z = k * 2 ^ z * pagesize := by rw [zoneSize_eq, Nat.mul_assoc]
  rw [haddr, zoneSize_eq, pages_mul, block, Nat.add_mul, Nat.one_mul]

/-- The allocator, and as a ghost the pages that were freed and are not allocated. -/
structure Pool where
  state : State
  free : Finset ℕ

/-- The operations: freeing, allocating, and whatever the owners of allocated memory write there. -/
inductive Op
  | free (block size : ℕ)
  | alloc (size : ℕ)
  | write (links : Links ℕ)

/-- What the allocator may be asked in a state. -/
def Op.Legal (p : Pool) : Op → Prop
  | .free block size => block % pagesize = 0 ∧ size % pagesize = 0 ∧ block ≠ 0 ∧ size ≠ 0 ∧
      block + size ≤ 2 ^ 31 ∧ Disjoint (pages block size) p.free
  | .alloc size => size % pagesize = 0 ∧ pagesize ≤ size ∧ size ≤ zoneSize (zones - 1)
  | .write links => ∀ a, a / pagesize ∈ p.free →
      links.next a = p.state.links.next a ∧ links.prev a = p.state.links.prev a

/-- Do an operation. The result is the address that `zalloc` returns. -/
def Pool.exec (p : Pool) : Op → Except Fault (Pool × ℕ)
  | .free block size => do
    let s ← zfree p.state block size
    pure (⟨s, p.free ∪ pages block size⟩, 0)
  | .alloc size => do
    let (s, addr) ← zalloc p.state size
    pure (⟨s, if addr = 0 then p.free else p.free \ pages addr size⟩, addr)
  | .write links => pure (⟨{ p.state with links := links }, p.free⟩, 0)

/-- The pools that legal operations lead to from one with nothing in it. -/
inductive Reached : Pool → Prop
  | start (links : Links ℕ) : Reached ⟨⟨links, fun _ => none, 0⟩, ∅⟩
  | step {p q : Pool} {op : Op} {addr : ℕ} (hp : Reached p) (hlegal : op.Legal p)
      (hexec : p.exec op = .ok (q, addr)) : Reached q

/-- The zones represent the free pages, and `zalloc_memory` counts them. -/
def Pool.Sound (p : Pool) : Prop :=
  (∃ Z, Represents p.state p.free Z) ∧ p.state.memory = p.free.card

theorem sound_start (links : Links ℕ) : Pool.Sound ⟨⟨links, fun _ => none, 0⟩, ∅⟩ := by
  refine ⟨⟨fun _ => [], fun _ _ => rfl, fun _ _ => .nil, fun z _ a => ?_, by simp⟩, rfl⟩
  simp only [not_mem_nil, false_iff, not_exists, not_and]
  exact fun k _ hmax => absurd (hmax.1 (mul_mem_block z k)) (Finset.notMem_empty _)

/-- **Freeing.** -/
theorem Pool.Sound.free (h : p.Sound) {block : ℕ} (hlegal : (Op.free block size).Legal p) :
    ∃ q, p.exec (.free block size) = .ok (q, 0) ∧ q.Sound ∧ q.free = p.free ∪ pages block size := by
  obtain ⟨⟨Z, hrep⟩, hmem⟩ := h
  obtain ⟨hblock, hsize, hne, hpos, hend, hdisj⟩ := hlegal
  obtain ⟨a, rfl⟩ := Nat.dvd_of_mod_eq_zero hblock
  obtain ⟨n, rfl⟩ := Nat.dvd_of_mod_eq_zero hsize
  rw [Nat.mul_comm pagesize a, Nat.mul_comm pagesize n] at *
  rw [pages_mul] at hdisj ⊢
  have ha : 0 < a := Nat.pos_of_ne_zero fun ha => hne (by rw [ha, Nat.zero_mul])
  have hn : 0 < n := Nat.pos_of_ne_zero fun hn => hpos (by rw [hn, Nat.zero_mul])
  have hend' : a + n ≤ 2 ^ zones := by
    have hsplit : (2 : ℕ) ^ 31 = 2 ^ zones * pagesize := by decide
    rw [← Nat.add_mul, hsplit] at hend
    exact Nat.le_of_mul_le_mul_right hend pagesize_pos
  obtain ⟨s', Z', hfree, hrep', hmem'⟩ := zfree_spec hrep ha hn hend' hdisj
  refine ⟨⟨s', p.free ∪ Finset.Ico a (a + n)⟩, ?_, ⟨⟨Z', hrep'⟩, ?_⟩, rfl⟩
  · simp only [Pool.exec, hfree, ok_bind, pages_mul]
    rfl
  · have hcard : (p.free ∪ Finset.Ico a (a + n)).card = p.free.card + n := by
      rw [Finset.card_union_of_disjoint hdisj.symm, Nat.card_Ico, Nat.add_sub_cancel_left]
    have hlt := hrep'.card_lt
    rw [hcard] at hlt
    rw [hmem', hmem, hcard, Nat.mod_eq_of_lt hlt]

/-- **Allocating.** -/
theorem Pool.Sound.alloc (h : p.Sound) (hlegal : (Op.alloc size).Legal p) :
    ∃ q addr, p.exec (.alloc size) = .ok (q, addr) ∧ q.Sound ∧
      (addr = 0 ∧ q = p ∨ addr ≠ 0 ∧ addr % pagesize = 0 ∧ pages addr size ⊆ p.free ∧
        q.free = p.free \ pages addr size) := by
  obtain ⟨⟨Z, hrep⟩, hmem⟩ := h
  obtain ⟨hsize, hlow, hhigh⟩ := hlegal
  obtain ⟨n, rfl⟩ := Nat.dvd_of_mod_eq_zero hsize
  rw [Nat.mul_comm pagesize n] at *
  have hn : 0 < n := Nat.pos_of_ne_zero fun hn => by
    rw [hn, Nat.zero_mul] at hlow
    exact absurd hlow (by decide)
  have hmax : n ≤ 2 ^ (zones - 1) := by
    rw [zoneSize_eq] at hhigh
    exact Nat.le_of_mul_le_mul_right hhigh pagesize_pos
  have hfail : zalloc p.state (n * pagesize) = .ok (p.state, 0) →
      p.exec (.alloc (n * pagesize)) = .ok (p, 0) := by
    intro hz
    simp only [Pool.exec, hz, ok_bind, if_true]
    rfl
  by_cases hfew : p.state.memory < n * pagesize / pagesize
  · exact ⟨p, 0, hfail (by rw [zalloc, if_pos hfew]; rfl), ⟨⟨Z, hrep⟩, hmem⟩, .inl ⟨rfl, rfl⟩⟩
  · rcases zallocInternal_spec hrep hmem hn hmax with
      hnone | ⟨s', a, Z', hsome, ha, hsub, hrep', hmem'⟩
    · exact ⟨p, 0, hfail (by rw [zalloc, if_neg hfew, hnone]), ⟨⟨Z, hrep⟩, hmem⟩, .inl ⟨rfl, rfl⟩⟩
    · have hne : a * pagesize ≠ 0 := (Nat.mul_pos ha pagesize_pos).ne'
      refine ⟨⟨s', p.free \ Finset.Ico a (a + n)⟩, a * pagesize, ?_, ⟨⟨Z', hrep'⟩, ?_⟩,
        .inr ⟨hne, Nat.mul_mod_left .., by rwa [pages_mul], by rw [pages_mul]⟩⟩
      · simp only [Pool.exec, zalloc, if_neg hfew, hsome, ok_bind, if_neg hne, pages_mul]
        rfl
      · change s'.memory = _
        rw [Finset.card_sdiff_of_subset hsub, Nat.card_Ico, Nat.add_sub_cancel_left]
        omega

theorem Pool.Sound.write (h : p.Sound) (hlegal : (Op.write links).Legal p) :
    Pool.Sound ⟨{ p.state with links := links }, p.free⟩ := by
  obtain ⟨⟨Z, hrep⟩, hmem⟩ := h
  exact ⟨⟨Z, hrep.overwrite p.state.memory hlegal⟩, hmem⟩

/-- One operation. -/
theorem Pool.Sound.exec (h : p.Sound) {op : Op} (hlegal : op.Legal p) :
    ∃ q addr, p.exec op = .ok (q, addr) ∧ q.Sound := by
  cases op with
  | free block size =>
    obtain ⟨q, hq, hsound, _⟩ := h.free hlegal
    exact ⟨q, 0, hq, hsound⟩
  | alloc size =>
    obtain ⟨q, addr, hq, hsound, _⟩ := h.alloc hlegal
    exact ⟨q, addr, hq, hsound⟩
  | write links => exact ⟨_, 0, rfl, h.write hlegal⟩

/-- Every history. -/
theorem Reached.sound (h : Reached p) : p.Sound := by
  induction h with
  | start links => exact sound_start links
  | step _ hlegal hexec ih =>
    obtain ⟨q', addr', hexec', hsound⟩ := ih.exec hlegal
    rw [hexec] at hexec'
    cases hexec'
    exact hsound

/-- **Soundness.** In every state that a legal history leads to, the zones' lists are sorted and
doubly linked, their blocks are aligned and disjoint and make up the free memory, and
`zalloc_memory` is its number of pages. Every legal operation is carried out, and memory that is
allocated was free. -/
theorem zalloc_sound {p : Pool} (hp : Reached p) :
    (∃ Z : ℕ → List ℕ,
      (∀ z < zones, IsList p.state.links (p.state.zone z) (Z z) ∧ (Z z).Pairwise (· < ·) ∧
        ∀ a ∈ Z z, zoneSize z ∣ a) ∧
      (∀ z < zones, ∀ w < zones, ∀ a ∈ Z z, ∀ b ∈ Z w, (z, a) ≠ (w, b) →
        Disjoint (pages a (zoneSize z)) (pages b (zoneSize w))) ∧
      (∀ i, i ∈ p.free ↔ ∃ z < zones, ∃ a ∈ Z z, i ∈ pages a (zoneSize z))) ∧
    p.state.memory = p.free.card ∧
    ∀ op, op.Legal p → ∃ q addr, p.exec op = .ok (q, addr) ∧
      ∀ size, op = .alloc size → addr ≠ 0 → addr % pagesize = 0 ∧ pages addr size ⊆ p.free := by
  have hsound := hp.sound
  obtain ⟨⟨Z, hrep⟩, hmem⟩ := hsound
  refine ⟨⟨Z, fun z hz => ⟨hrep.linked z hz, hrep.sorted z hz, fun a ha => ?_⟩, ?_, fun i => ?_⟩,
    hmem, fun op hlegal => ?_⟩
  · obtain ⟨k, rfl, _⟩ := (hrep.mem_iff z hz a).1 ha
    exact Nat.dvd_mul_left ..
  · intro z hz w hw a ha b hb hne
    obtain ⟨k, rfl, hk⟩ := (hrep.mem_iff z hz a).1 ha
    obtain ⟨j, rfl, hj⟩ := (hrep.mem_iff w hw b).1 hb
    rw [pages_zone, pages_zone]
    refine Finset.disjoint_left.2 fun i hik hij => hne ?_
    obtain ⟨rfl, rfl⟩ := eq_of_maximal hk hj hik hij
    rfl
  · constructor
    · intro hi
      obtain ⟨z, hz, k, hk, hik⟩ := hrep.exists_mem hi
      exact ⟨z, hz, _, hk, by rwa [pages_zone]⟩
    · rintro ⟨z, hz, a, ha, hia⟩
      obtain ⟨k, rfl, hk⟩ := (hrep.mem_iff z hz a).1 ha
      rw [pages_zone] at hia
      exact hk.1 hia
  · cases op with
    | alloc size =>
      obtain ⟨q, addr, hq, _, hcase⟩ := hp.sound.alloc hlegal
      refine ⟨q, addr, hq, ?_⟩
      rintro _ ⟨⟩ hne
      rcases hcase with ⟨rfl, _⟩ | ⟨_, haligned, hsub, _⟩
      · exact absurd rfl hne
      · exact ⟨haligned, hsub⟩
    | free block size =>
      obtain ⟨q, addr, hq, _⟩ := hp.sound.exec hlegal
      exact ⟨q, addr, hq, fun _ h => by cases h⟩
    | write links =>
      obtain ⟨q, addr, hq, _⟩ := hp.sound.exec hlegal
      exact ⟨q, addr, hq, fun _ h => by cases h⟩

/-- Two pages are freed, and one of them is allocated. -/
theorem zalloc_sound_twoPages :
    ∃ q, Reached q ∧ q.free = {1, 2} ∧ ∃ r addr, q.exec (.alloc 4096) = .ok (r, addr) ∧
      (addr ≠ 0 → pages addr 4096 ⊆ q.free) := by
  have hstart := Reached.start ⟨fun _ => none, fun _ => none⟩
  have hlegal : (Op.free 4096 8192).Legal ⟨⟨⟨fun _ => none, fun _ => none⟩, fun _ => none, 0⟩, ∅⟩ :=
    ⟨by decide, by decide, by decide, by decide, by decide, Finset.disjoint_empty_right _⟩
  obtain ⟨q, hq, _, hfree⟩ := hstart.sound.free hlegal
  have hreached := Reached.step hstart hlegal hq
  obtain ⟨r, addr, hr, hinside⟩ := (zalloc_sound hreached).2.2 (.alloc 4096)
    ⟨by decide, by decide, by decide +kernel⟩
  refine ⟨q, hreached, hfree.trans (by decide), r, addr, hr, fun hne => ?_⟩
  exact (hinside 4096 rfl hne).2

/-- **Canonicity.** Two histories that leave the same pages free leave the same blocks in every
zone, in the same order, and no two blocks of a zone are buddies. -/
theorem zones_canonical {p q : Pool} (hp : Reached p) (hq : Reached q) (hfree : p.free = q.free)
    {z : ℕ} (hz : z < zones) :
    ∃ l, IsList p.state.links (p.state.zone z) l ∧ IsList q.state.links (q.state.zone z) l ∧
      (∀ l', IsList p.state.links (p.state.zone z) l' ∨ IsList q.state.links (q.state.zone z) l' →
        l' = l) ∧
      ∀ a ∈ l, ∀ b ∈ l, a ^^^ b ≠ zoneSize z := by
  obtain ⟨⟨Z, hrep⟩, _⟩ := hp.sound
  obtain ⟨⟨Z', hrep'⟩, _⟩ := hq.sound
  have hsame : Z z = Z' z := by
    refine (hrep.sorted z hz).eq_of_mem_iff (hrep'.sorted z hz) fun a => ?_
    rw [hrep.mem_iff z hz, hrep'.mem_iff z hz, hfree]
  have hlist := hrep.linked z hz
  have hlist' := hrep'.linked z hz
  rw [← hsame] at hlist'
  refine ⟨Z z, hlist, hlist', ?_, fun a ha b hb hxor => ?_⟩
  · rintro l' (hl' | hl')
    · exact Seg.unique hl' hlist
    · exact Seg.unique hl' hlist'
  · obtain ⟨i, rfl, hi⟩ := (hrep.mem_iff z hz a).1 ha
    obtain ⟨k, rfl, hk⟩ := (hrep.mem_iff z hz b).1 hb
    obtain rfl := xor_eq_zoneSize_iff.1 hxor
    exact not_maximal_buddy hk hi

/-- Pages 1 and 2 freed in one piece, or one after the other. -/
theorem zones_canonical_twoPages :
    ∃ p q, Reached p ∧ Reached q ∧ p.free = {1, 2} ∧ q.free = {1, 2} ∧
      ∀ z < zones, ∃ l, IsList p.state.links (p.state.zone z) l ∧
        IsList q.state.links (q.state.zone z) l := by
  have hstart := Reached.start ⟨fun _ => none, fun _ => none⟩
  have hlegal : ∀ block size, block % pagesize = 0 → size % pagesize = 0 → block ≠ 0 → size ≠ 0 →
      block + size ≤ 2 ^ 31 →
      (Op.free block size).Legal ⟨⟨⟨fun _ => none, fun _ => none⟩, fun _ => none, 0⟩, ∅⟩ :=
    fun _ _ h₁ h₂ h₃ h₄ h₅ => ⟨h₁, h₂, h₃, h₄, h₅, Finset.disjoint_empty_right _⟩
  have hboth := hlegal 4096 8192 (by decide) (by decide) (by decide) (by decide) (by decide)
  have hsecond := hlegal 8192 4096 (by decide) (by decide) (by decide) (by decide) (by decide)
  obtain ⟨p, hp, _, hpfree⟩ := hstart.sound.free hboth
  obtain ⟨q₁, hq₁, hsound₁, hqfree₁⟩ := hstart.sound.free hsecond
  have hfirst : (Op.free 4096 4096).Legal q₁ :=
    ⟨by decide, by decide, by decide, by decide, by decide, by rw [hqfree₁]; decide⟩
  obtain ⟨q, hq, _, hqfree⟩ := hsound₁.free hfirst
  have hreached := Reached.step hstart hboth hp
  have hreached' := Reached.step (.step hstart hsecond hq₁) hfirst hq
  have hpset : p.free = {1, 2} := hpfree.trans (by decide)
  have hqset : q.free = {1, 2} := by
    rw [hqfree, hqfree₁]
    decide
  refine ⟨p, q, hreached, hreached', hpset, hqset, fun z hz => ?_⟩
  obtain ⟨l, hl, hl', _⟩ := zones_canonical hreached hreached' (hpset.trans hqset.symm) hz
  exact ⟨l, hl, hl'⟩

end Zalloc

end Viengoos
