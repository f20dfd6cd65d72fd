import Mathlib

/-!
# Open addressing with tombstones

A table of slots that are empty, deleted or live, and for each key the order in which slots are
probed. A deleted slot keeps its key, and a search for a key stops at the first slot that is empty
or has the key, **be it deleted**. So a live slot must come before every deleted one with its key:
`Sound` says that a search for the key of a live slot gets to it without a stop.

* Deleting a slot keeps a table sound, whatever the slot.
* Storing a key keeps it sound if the search for the key would get to the slot, and the key is not
  live elsewhere.

The second part is about the probe order `h, h + 1, h - 1, h + 4, h - 4, …` modulo a prime that is
3 modulo 4: it gets to every slot.
-/

namespace Viengoos.OpenAddressing

open Function List

/-- The value of a slot. -/
inductive Cell (V : Type*)
  | empty
  | deleted
  | live (v : V)
deriving DecidableEq, Repr

/-- A slot. The key of a slot that is not live is left over. -/
structure Item (V : Type*) where
  value : Cell V
  key : ℕ

variable {V : Type*} {items : ℕ → Item V} {probe : ℕ → List ℕ}

/-- A search for the key stops at this slot. -/
def Item.Stops (item : Item V) (key : ℕ) : Prop := item.value = .empty ∨ item.key = key

/-- A search for the key gets to the slot. -/
def Reaches (items : ℕ → Item V) (probe : ℕ → List ℕ) (key i : ℕ) : Prop :=
  ∃ pre post, probe key = pre ++ i :: post ∧ ∀ j ∈ pre, ¬ (items j).Stops key

/-- **The table is sound**: the search for the key of a live slot gets to the slot. -/
def Sound (items : ℕ → Item V) (probe : ℕ → List ℕ) : Prop :=
  ∀ i v, (items i).value = .live v → Reaches items probe (items i).key i

/-- A slot that is reached is reached at its first place in the probe order. -/
theorem Reaches.first {key i : ℕ} (h : Reaches items probe key i) :
    ∃ pre post, probe key = pre ++ i :: post ∧ i ∉ pre ∧ ∀ j ∈ pre, ¬ (items j).Stops key := by
  obtain ⟨pre, post, hprobe, hpre⟩ := h
  by_cases hi : i ∈ pre
  · obtain ⟨as, bs, rfl, has⟩ := eq_append_cons_of_mem hi
    exact ⟨as, bs ++ i :: post, by simp [hprobe], has, fun j hj => hpre j (by simp [hj])⟩
  · exact ⟨pre, post, hprobe, hi, hpre⟩

/-- No key is live in two slots. -/
theorem Sound.unique (h : Sound items probe) {i j : ℕ} {v w : V} (hi : (items i).value = .live v)
    (hj : (items j).value = .live w) (hkey : (items i).key = (items j).key) : i = j := by
  obtain ⟨pre, post, hprobe, hpre⟩ := h i v hi
  obtain ⟨pre', post', hprobe', hpre'⟩ := h j w hj
  rw [← hkey] at hprobe' hpre'
  rw [hprobe] at hprobe'
  -- the one that comes second in the probe order is kept from a search by the first one
  rcases append_eq_append_iff.1 hprobe' with ⟨l, rfl, heq⟩ | ⟨l, rfl, heq⟩
  · cases l with
    | nil => exact (cons.inj heq).1
    | cons x l =>
      obtain ⟨rfl, -⟩ := cons.inj heq
      exact absurd (.inr rfl) (hpre' i (by simp))
  · cases l with
    | nil => exact (cons.inj heq).1.symm
    | cons x l =>
      obtain ⟨rfl, -⟩ := cons.inj heq
      exact absurd (.inr hkey.symm) (hpre j (by simp))

/-- Deleting a slot. -/
theorem Sound.delete (h : Sound items probe) {i : ℕ} (hi : (items i).value ≠ .empty) :
    Sound (update items i { items i with value := .deleted }) probe := by
  have hkey : ∀ j, (update items i { items i with value := .deleted } j).key =
      (items j).key := fun j => by
    by_cases hj : j = i
    · subst hj
      simp
    · simp [hj]
  intro j v hj
  have hji : j ≠ i := by
    rintro rfl
    simp at hj
  rw [update_of_ne hji] at hj
  obtain ⟨pre, post, hprobe, hpre⟩ := h j v hj
  rw [hkey]
  refine ⟨pre, post, hprobe, fun x hx hstop => hpre x hx ?_⟩
  rcases hstop with hempty | hstop
  · by_cases hxi : x = i
    · subst hxi
      simp at hempty
    · rw [update_of_ne hxi] at hempty
      exact .inl hempty
  · exact .inr ((hkey x).symm.trans hstop)

/-- Storing a key in a slot that the search for it gets to. -/
theorem Sound.put (h : Sound items probe) {i key : ℕ} (v : V) (hi : Reaches items probe key i)
    (hnew : ∀ j w, j ≠ i → (items j).value = .live w → (items j).key ≠ key) :
    Sound (update items i ⟨.live v, key⟩) probe := by
  intro j w hj
  by_cases hji : j = i
  · subst hji
    obtain ⟨pre, post, hprobe, hjpre, hpre⟩ := hi.first
    rw [update_self]
    refine ⟨pre, post, hprobe, fun x hx => ?_⟩
    rw [update_of_ne (ne_of_mem_of_not_mem hx hjpre)]
    exact hpre x hx
  · rw [update_of_ne hji] at hj ⊢
    obtain ⟨pre, post, hprobe, hpre⟩ := h j w hj
    refine ⟨pre, post, hprobe, fun x hx => ?_⟩
    by_cases hxi : x = i
    · subst hxi
      rw [update_self]
      rintro (hempty | hkey)
      · simp at hempty
      · exact hnew j w hji hj hkey.symm
    · rw [update_of_ne hxi]
      exact hpre x hx

/-! ### Quadratic probing in both directions -/

/-- The slots after the first one, from the last ones probed above and below. The step `i` goes
through the odd numbers. -/
def twoSided (size : ℕ) : ℕ → ℕ → ℕ → ℕ → List ℕ
  | 0, _, _, _ => []
  | n + 1, up, down, i =>
    let up := (up + i) % size
    let down := ((if down < i then down + size else down) - i) % size
    up :: down :: if (i + 2) % size = 0 then [] else twoSided size n up down ((i + 2) % size)

/-- Modulo a prime that is 3 modulo 4, a number is a square or the opposite of one. -/
theorem exists_sq_eq_or_neg {p : ℕ} [Fact p.Prime] (hp : p % 4 = 3) (a : ZMod p) :
    ∃ m : ℕ, 2 * m < p ∧ (a = (m : ZMod p) ^ 2 ∨ a = -(m : ZMod p) ^ 2) := by
  have hsquare : IsSquare a ∨ IsSquare (-a) := by
    by_contra hnot
    obtain ⟨ha, hna⟩ := not_or.1 hnot
    have hone : ¬ IsSquare (-1 : ZMod p) := by
      rw [ZMod.exists_sq_eq_neg_one_iff]
      simp [hp]
    rw [← quadraticChar_neg_one_iff_not_isSquare] at ha hna hone
    rw [← neg_one_mul, map_mul, hone, ha] at hna
    simp at hna
  -- the root may be taken in the lower half
  have hroot : ∀ b : ZMod p, ∃ m : ℕ, 2 * m < p ∧ b ^ 2 = (m : ZMod p) ^ 2 := fun b => by
    have hle := b.natAbs_valMinAbs_le
    refine ⟨b.valMinAbs.natAbs, by omega, ?_⟩
    rw [ZMod.natCast_natAbs_valMinAbs]
    split <;> ring
  rcases hsquare with ⟨b, hb⟩ | ⟨b, hb⟩ <;> obtain ⟨m, hm, hsq⟩ := hroot b
  · exact ⟨m, hm, .inl (by rw [hb, ← hsq]; ring)⟩
  · exact ⟨m, hm, .inr (by rw [← hsq, ← neg_eq_iff_eq_neg, hb]; ring)⟩

/-- The slots at distance `m ^ 2` from the first one are probed. -/
theorem mem_twoSided {p n up down j m : ℕ} {h : ZMod p} (hup : (up : ZMod p) = h + (j : ZMod p) ^ 2)
    (hdown : (down : ZMod p) = h - (j : ZMod p) ^ 2) (hjm : j < m) (hm : 2 * m < p)
    (hn : m ≤ j + n) :
    (∃ x ∈ twoSided p n up down (2 * j + 1), x < p ∧ (x : ZMod p) = h + (m : ZMod p) ^ 2) ∧
      ∃ x ∈ twoSided p n up down (2 * j + 1), x < p ∧ (x : ZMod p) = h - (m : ZMod p) ^ 2 := by
  induction n generalizing up down j with
  | zero => omega
  | succ n ih =>
    have hp : 0 < p := by omega
    set up' := (up + (2 * j + 1)) % p with hup'
    set down' := ((if down < 2 * j + 1 then down + p else down) - (2 * j + 1)) % p with hdown'
    have hcast : (up' : ZMod p) = h + ((j + 1 : ℕ) : ZMod p) ^ 2 := by
      rw [hup', ZMod.natCast_mod]
      push_cast
      rw [hup]
      ring
    have hcast' : (down' : ZMod p) = h - ((j + 1 : ℕ) : ZMod p) ^ 2 := by
      have hle : 2 * j + 1 ≤ if down < 2 * j + 1 then down + p else down := by
        split <;> omega
      rw [hdown', ZMod.natCast_mod, Nat.cast_sub hle]
      split
      · push_cast
        rw [hdown, CharP.cast_eq_zero (ZMod p) p]
        ring
      · push_cast
        rw [hdown]
        ring
    have hlist : twoSided p (n + 1) up down (2 * j + 1) = up' :: down' ::
        if (2 * j + 1 + 2) % p = 0 then [] else twoSided p n up' down' ((2 * j + 1 + 2) % p) := rfl
    rw [hlist]
    by_cases hlast : m = j + 1
    · subst hlast
      exact ⟨⟨up', by simp, Nat.mod_lt _ hp, hcast⟩, ⟨down', by simp, Nat.mod_lt _ hp, hcast'⟩⟩
    · have hstep : (2 * j + 1 + 2) % p = 2 * (j + 1) + 1 := Nat.mod_eq_of_lt (by omega)
      obtain ⟨⟨x, hx, hx'⟩, y, hy, hy'⟩ := ih hcast hcast' (by omega) (by omega)
      rw [hstep, if_neg (by omega)]
      exact ⟨⟨x, by simp [hx], hx'⟩, y, by simp [hy], hy'⟩

/-- **Every slot is probed** if the size is a prime that is 3 modulo 4. -/
theorem mem_probe {p : ℕ} (hprime : p.Prime) (hp : p % 4 = 3) {home r : ℕ} (hhome : home < p)
    (hr : r < p) : r ∈ home :: twoSided p p home home 1 := by
  have : Fact p.Prime := ⟨hprime⟩
  have heq : ∀ {x}, x < p → (x : ZMod p) = r → x = r := fun {x} hx hcast => by
    rwa [ZMod.natCast_eq_natCast_iff', Nat.mod_eq_of_lt hx, Nat.mod_eq_of_lt hr] at hcast
  obtain ⟨m, hm, hsq⟩ := exists_sq_eq_or_neg hp ((r : ZMod p) - home)
  rcases Nat.eq_zero_or_pos m with rfl | hpos
  · have hcast : (home : ZMod p) = r := by
      rcases hsq with hsq | hsq <;> simp only [Nat.cast_zero, ne_eq, OfNat.ofNat_ne_zero,
        not_false_eq_true, zero_pow, neg_zero, sub_eq_zero] at hsq <;> exact hsq.symm
    rw [heq hhome hcast]
    simp
  · have hstart : (home : ZMod p) = (home : ZMod p) + ((0 : ℕ) : ZMod p) ^ 2 := by simp
    have hstart' : (home : ZMod p) = (home : ZMod p) - ((0 : ℕ) : ZMod p) ^ 2 := by simp
    obtain ⟨⟨x, hx, hxp, hxc⟩, y, hy, hyp, hyc⟩ :=
      mem_twoSided (n := p) hstart hstart' hpos hm (by omega)
    refine mem_cons_of_mem _ ?_
    rcases hsq with hsq | hsq
    · rwa [← heq hxp (by rw [hxc, ← hsq]; ring)]
    · rwa [← heq hyp (by rw [hyc, sub_eq_add_neg, ← hsq]; ring)]

end Viengoos.OpenAddressing
