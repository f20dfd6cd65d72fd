import Mathlib

/-!
# Slots with wrapping versions

A store of slots in containers. Each slot has a kind and a version that counts, modulo `n`, how
often what was in the slot has been given up; some slots are in memory, with a copy of the kind and
version. A ticket for a slot is its version at some time, and the point of versions is that the
ticket stops matching once the slot is turned over (`Evolves.version_ne`) and not before
(`Evolves.version_eq`), as long as the count does not wrap around in between.

`Sound` is the invariant together with what evolves, as one relation that composes; there is one
rule for each kind of change.
-/

/-- The records of a store. `withheld` slots are not brought into memory, and neither are those
with content on a backing store. -/
structure Ledger (α κ : Type) (n : ℕ) where
  live : α → Option (κ × Fin n)
  version : α → Fin n
  kind : α → κ
  withheld : α → Bool
  stored : α → Bool
  turnover : α → ℕ

namespace Ledger

open Function

variable {α κ : Type} {n : ℕ}

/-- Containers, each of which is a slot that owns itself, and the kind of an empty slot. -/
structure Layout (α κ : Type) where
  owner : α → α
  void : κ
  owner_owner : ∀ a, owner (owner a) = owner a

variable (L : Layout α κ)

/-- The container of a slot is in memory. -/
def Resident (l : Ledger α κ n) (a : α) : Prop := (l.live (L.owner a)).isSome = true

/-- **The copies in memory agree with the records**, and nothing has content elsewhere. -/
structure Consistent (l : Ledger α κ n) : Prop where
  resident : ∀ {a k v}, l.live a = some (k, v) → l.Resident L a
  live : ∀ {a k v}, l.live a = some (k, v) → k = l.kind a ∧ v = l.version a
  notVoid : ∀ {a k v}, l.live a = some (k, v) → k ≠ L.void
  notWithheld : ∀ {a k v}, L.owner a ≠ a → l.live a = some (k, v) → l.withheld a = false
  notStored : ∀ {a}, l.Resident L a → L.owner a ≠ a → l.stored a = false

/-- **How the records move on.** A version moves by `k` steps, at most one for each turnover, and
by at least one if there was something to give up. -/
structure Evolves (l m : Ledger α κ n) : Prop where
  turnover : ∀ a, l.turnover a ≤ m.turnover a
  freed : ∀ {a}, L.owner a ≠ a → l.turnover (L.owner a) < m.turnover (L.owner a) →
    l.turnover a < m.turnover a
  resident : ∀ {a}, l.Resident L a → m.Resident L a
  version : ∀ {a}, l.Resident L a → ∃ k, (m.version a : ℕ) = (l.version a + k) % n ∧
    k + l.turnover a ≤ m.turnover a ∧ (k = 0 → m.turnover a = l.turnover a ∨ l.kind a = L.void)
  kind : ∀ {a}, l.Resident L a → m.turnover a = l.turnover a → m.kind a = l.kind a

/-- What a change of the records must be like: it keeps them consistent and only moves them on. -/
def Sound (l m : Ledger α κ n) : Prop := l.Consistent L → m.Consistent L ∧ Evolves L l m

variable {L} {l m r : Ledger α κ n}

/-! ### Tickets -/

private theorem add_mod_ne {v k : ℕ} (hv : v < n) (hk : 0 < k) (hkn : k < n) : (v + k) % n ≠ v := by
  by_cases h : v + k < n
  · rw [Nat.mod_eq_of_lt h]
    omega
  · rw [Nat.mod_eq_sub_mod (by omega), Nat.mod_eq_of_lt (by omega)]
    omega

/-- A slot that is turned over, fewer than `n` times, never has the old version. -/
theorem Evolves.version_ne (h : Evolves L l m) {a : α} (hres : l.Resident L a)
    (hkind : l.kind a ≠ L.void) (hlt : l.turnover a < m.turnover a)
    (hbound : m.turnover a < l.turnover a + n) : m.version a ≠ l.version a := by
  obtain ⟨k, hk, hle, hzero⟩ := h.version hres
  have hpos : 0 < k := by
    rcases Nat.eq_zero_or_pos k with h0 | hpos
    · rcases hzero h0 with heq | hvoid
      · omega
      · exact absurd hvoid hkind
    · exact hpos
  intro heq
  rw [heq] at hk
  exact add_mod_ne (l.version a).isLt hpos (by omega) hk.symm

/-- A slot that is not turned over keeps its version. -/
theorem Evolves.version_eq (h : Evolves L l m) {a : α} (hres : l.Resident L a)
    (heq : m.turnover a = l.turnover a) : m.version a = l.version a := by
  obtain ⟨k, hk, hle, -⟩ := h.version hres
  have h0 : k = 0 := by omega
  rw [h0, Nat.add_zero, Nat.mod_eq_of_lt (l.version a).isLt] at hk
  exact Fin.ext hk

/-! ### Composition -/

theorem Evolves.refl (l : Ledger α κ n) : Evolves L l l where
  turnover _ := le_rfl
  freed _ h := absurd h (lt_irrefl _)
  resident h := h
  version {a} _ := ⟨0, (Nat.mod_eq_of_lt (l.version a).isLt).symm, by omega, fun _ => .inl rfl⟩
  kind _ _ := rfl

theorem Evolves.trans (h : Evolves L l m) (h' : Evolves L m r) : Evolves L l r where
  turnover a := Nat.le_trans (h.turnover a) (h'.turnover a)
  freed {a} hslot hlt := by
    by_cases hm : l.turnover (L.owner a) < m.turnover (L.owner a)
    · exact Nat.lt_of_lt_of_le (h.freed hslot hm) (h'.turnover a)
    · exact Nat.lt_of_le_of_lt (h.turnover a) (h'.freed hslot (by omega))
  resident hres := h'.resident (h.resident hres)
  version {a} hres := by
    obtain ⟨k, hk, hle, hzero⟩ := h.version hres
    obtain ⟨k', hk', hle', hzero'⟩ := h'.version (h.resident hres)
    refine ⟨k + k', ?_, by omega, fun h0 => ?_⟩
    · rw [hk', hk, Nat.mod_add_mod, Nat.add_assoc]
    · rcases hzero (by omega) with heq | hvoid
      · rcases hzero' (by omega) with heq' | hvoid'
        · exact .inl (heq'.trans heq)
        · exact .inr ((h.kind hres heq).symm.trans hvoid')
      · exact .inr hvoid
  kind {a} hres heq := by
    have hle := h.turnover a
    have hle' := h'.turnover a
    rw [h'.kind (h.resident hres) (by omega), h.kind hres (by omega)]

theorem Sound.refl (l : Ledger α κ n) : Sound L l l := fun hl => ⟨hl, .refl l⟩

theorem Sound.trans (h : Sound L l m) (h' : Sound L m r) : Sound L l r := by
  intro hl
  obtain ⟨hm, hlm⟩ := h hl
  obtain ⟨hr, hmr⟩ := h' hm
  exact ⟨hr, hlm.trans hmr⟩

/-! ### The changes -/

/-- Records evolve if only the slots of containers not in memory change, and no container
leaves. -/
private theorem Evolves.of_eq (hturn : m.turnover = l.turnover)
    (hversion : ∀ a, l.Resident L a → m.version a = l.version a)
    (hkind : ∀ a, l.Resident L a → m.kind a = l.kind a)
    (hres : ∀ a, l.Resident L a → m.Resident L a) : Evolves L l m where
  turnover a := by rw [hturn]
  freed _ h := absurd h (by rw [hturn]; exact lt_irrefl _)
  resident h := hres _ h
  version {a} h := ⟨0, by rw [hversion a h, Nat.add_zero, Nat.mod_eq_of_lt (l.version a).isLt],
    by rw [hturn]; omega, fun _ => .inl (by rw [hturn])⟩
  kind h _ := hkind _ h

/-- No slot's container is a slot that is not a container. -/
theorem Layout.owner_ne {a : α} (hslot : L.owner a ≠ a) (b : α) : L.owner b ≠ a := by
  rintro rfl
  exact hslot (L.owner_owner b)

section Changes

variable [DecidableEq α] {a : α}

/-- Put a slot into memory, or take it out. -/
def setLive (l : Ledger α κ n) (a : α) (x : Option (κ × Fin n)) : Ledger α κ n :=
  { l with live := update l.live a x }

/-- What is in memory of one slot does not bear on which containers are. -/
theorem setLive_resident (hslot : L.owner a ≠ a) (x : Option (κ × Fin n)) (b : α) :
    (l.setLive a x).Resident L b ↔ l.Resident L b := by
  simp [setLive, Resident, L.owner_ne hslot b]

/-- A slot may have in memory what is recorded about it, or nothing. -/
private theorem Sound.setLive {x : Option (κ × Fin n)} (hslot : L.owner a ≠ a)
    (hx : ∀ k v, x = some (k, v) → l.Resident L a ∧ k = l.kind a ∧ v = l.version a ∧
      k ≠ L.void ∧ l.withheld a = false) : Sound L l (l.setLive a x) := by
  intro hl
  have hcase : ∀ {b k v}, (l.setLive a x).live b = some (k, v) →
      b = a ∧ x = some (k, v) ∨ l.live b = some (k, v) := by
    intro b k v hb
    by_cases hba : b = a
    · subst hba
      exact .inl ⟨rfl, by simpa [Ledger.setLive] using hb⟩
    · exact .inr (by simpa [Ledger.setLive, hba] using hb)
  refine ⟨⟨?_, ?_, ?_, ?_, ?_⟩,
    .of_eq rfl (fun _ _ => rfl) (fun _ _ => rfl) fun b => (setLive_resident hslot x b).2⟩
  · intro b k v hb
    rw [setLive_resident hslot]
    rcases hcase hb with ⟨rfl, hsome⟩ | hb
    · exact (hx k v hsome).1
    · exact hl.resident hb
  · intro b k v hb
    rcases hcase hb with ⟨rfl, hsome⟩ | hb
    · exact ⟨(hx k v hsome).2.1, (hx k v hsome).2.2.1⟩
    · exact hl.live hb
  · intro b k v hb
    rcases hcase hb with ⟨rfl, hsome⟩ | hb
    · exact (hx k v hsome).2.2.2.1
    · exact hl.notVoid hb
  · intro b k v hs hb
    rcases hcase hb with ⟨rfl, hsome⟩ | hb
    · exact (hx k v hsome).2.2.2.2
    · exact hl.notWithheld hs hb
  · intro b hb
    exact hl.notStored ((setLive_resident hslot x b).1 hb)

/-- A slot is **brought into memory** as it is recorded. -/
theorem Sound.bring (hslot : L.owner a ≠ a) (hres : l.Resident L a) (hwith : l.withheld a = false)
    (hvoid : l.kind a ≠ L.void) : Sound L l (l.setLive a (some (l.kind a, l.version a))) := by
  refine .setLive hslot fun k v heq => ?_
  obtain ⟨⟩ := Option.some.inj heq
  exact ⟨hres, rfl, rfl, hvoid, hwith⟩

/-- A slot **leaves memory**. -/
theorem Sound.drop (hslot : L.owner a ≠ a) : Sound L l (l.setLive a none) :=
  .setLive hslot fun _ _ heq => absurd heq (by simp)

/-- A slot that is not in memory is **withheld**, and its content is gone. -/
theorem Sound.withhold (hdead : l.live a = none) :
    Sound L l { l with
      withheld := update l.withheld a true
      stored := update l.stored a false } := by
  intro hl
  refine ⟨⟨hl.resident, hl.live, hl.notVoid, ?_, ?_⟩,
    .of_eq rfl (fun _ _ => rfl) (fun _ _ => rfl) fun _ => id⟩
  · intro b k v hb hlive
    have hba : b ≠ a := by
      rintro rfl
      simp [hdead] at hlive
    simpa [hba] using hl.notWithheld hb hlive
  · intro b hres hb
    by_cases hba : b = a
    · simp [hba]
    · simpa [hba] using hl.notStored hres hb

/-- A container that was not in memory is **brought in empty**. -/
theorem Sound.bringContainer (hdead : l.live a = none) (howner : L.owner a = a)
    (hlive : m.live = update l.live a (some (m.kind a, m.version a)))
    (hvoid : m.kind a ≠ L.void) (hturn : m.turnover = l.turnover)
    (hother : ∀ b, L.owner b ≠ a → m.version b = l.version b ∧ m.kind b = l.kind b ∧
      m.withheld b = l.withheld b ∧ m.stored b = l.stored b)
    (hmine : ∀ b, L.owner b = a → L.owner b ≠ b → m.stored b = false) : Sound L l m := by
  intro hl
  have hnot : ∀ {b}, l.Resident L b → L.owner b ≠ a := by
    rintro b hb rfl
    simp [Resident, hdead] at hb
  have hmono : ∀ b, l.Resident L b → m.Resident L b := fun b hb => by
    have hne := hnot hb
    simpa [Resident, hlive, hne] using hb
  have hcase : ∀ {b k v}, m.live b = some (k, v) →
      b = a ∧ k = m.kind a ∧ v = m.version a ∨ b ≠ a ∧ l.live b = some (k, v) := by
    intro b k v hb
    rw [hlive] at hb
    by_cases hba : b = a
    · subst hba
      simp only [update_self, Option.some.injEq, Prod.mk.injEq] at hb
      exact .inl ⟨rfl, hb.1.symm, hb.2.symm⟩
    · rw [update_of_ne hba] at hb
      exact .inr ⟨hba, hb⟩
  refine ⟨⟨?_, ?_, ?_, ?_, ?_⟩, .of_eq hturn (fun b hb => (hother b (hnot hb)).1)
    (fun b hb => (hother b (hnot hb)).2.1) hmono⟩
  · intro b k v hb
    rcases hcase hb with ⟨rfl, -, -⟩ | ⟨-, hb'⟩
    · simp [Resident, howner, hb]
    · exact hmono b (hl.resident hb')
  · intro b k v hb
    rcases hcase hb with ⟨rfl, hk, hv⟩ | ⟨-, hb'⟩
    · exact ⟨hk, hv⟩
    · obtain ⟨hversion, hkind, -⟩ := hother b (hnot (hl.resident hb'))
      rw [hversion, hkind]
      exact hl.live hb'
  · intro b k v hb
    rcases hcase hb with ⟨rfl, hk, -⟩ | ⟨-, hb'⟩
    · exact hk ▸ hvoid
    · exact hl.notVoid hb'
  · intro b k v hslot hb
    rcases hcase hb with ⟨rfl, -, -⟩ | ⟨-, hb'⟩
    · exact absurd howner hslot
    · rw [(hother b (hnot (hl.resident hb'))).2.2.1]
      exact hl.notWithheld hslot hb'
  · intro b hres hslot
    by_cases hba : L.owner b = a
    · exact hmine b hba hslot
    · have hres' : l.Resident L b := by simpa [Resident, hlive, hba] using hres
      rw [(hother b hba).2.2.2]
      exact hl.notStored hres' hslot

/-- A slot is **turned over**: it gets a new kind, and a new version if it was not empty. -/
theorem Sound.turn (hslot : L.owner a ≠ a) (hres : l.Resident L a)
    (hlive : m.live a = none ∨ m.live a = some (m.kind a, m.version a) ∧ m.kind a ≠ L.void)
    (hwith : m.withheld a = false) (hstored : m.stored a = false)
    (hturn : m.turnover a = l.turnover a + 1)
    (hversion : l.kind a = L.void ∧ m.version a = l.version a ∨
      (m.version a : ℕ) = (l.version a + 1) % n)
    (hother : ∀ b ≠ a, m.live b = l.live b ∧ m.version b = l.version b ∧ m.kind b = l.kind b ∧
      m.withheld b = l.withheld b ∧ m.stored b = l.stored b ∧ m.turnover b = l.turnover b) :
    Sound L l m := by
  intro hl
  have hcontainer := L.owner_ne hslot
  have hresident : ∀ b, m.Resident L b ↔ l.Resident L b := fun b => by
    simp [Resident, (hother _ (hcontainer b)).1]
  constructor
  · refine ⟨?_, ?_, ?_, ?_, ?_⟩
    · intro b k v hb
      rw [hresident]
      by_cases hba : b = a
      · exact hba ▸ hres
      · exact hl.resident ((hother b hba).1 ▸ hb)
    · intro b k v hb
      by_cases hba : b = a
      · subst hba
        rcases hlive with hnone | ⟨hsome, -⟩
        · simp [hnone] at hb
        · simp only [hsome, Option.some.injEq, Prod.mk.injEq] at hb
          exact ⟨hb.1.symm, hb.2.symm⟩
      · obtain ⟨hb', hversion', hkind', -⟩ := hother b hba
        rw [hversion', hkind']
        exact hl.live (hb' ▸ hb)
    · intro b k v hb
      by_cases hba : b = a
      · subst hba
        rcases hlive with hnone | ⟨hsome, hvoid⟩
        · simp [hnone] at hb
        · simp only [hsome, Option.some.injEq, Prod.mk.injEq] at hb
          exact hb.1 ▸ hvoid
      · exact hl.notVoid ((hother b hba).1 ▸ hb)
    · intro b k v hs hb
      by_cases hba : b = a
      · exact hba ▸ hwith
      · obtain ⟨hb', -, -, hwith', -⟩ := hother b hba
        rw [hwith']
        exact hl.notWithheld hs (hb' ▸ hb)
    · intro b hb hs
      by_cases hba : b = a
      · exact hba ▸ hstored
      · rw [(hother b hba).2.2.2.2.1]
        exact hl.notStored ((hresident b).1 hb) hs
  · refine ⟨fun b => ?_, ?_, fun {b} => (hresident b).2, ?_, ?_⟩
    · by_cases hba : b = a
      · subst hba
        omega
      · rw [(hother b hba).2.2.2.2.2]
    · intro b _ hlt
      rw [(hother _ (hcontainer b)).2.2.2.2.2] at hlt
      exact absurd hlt (lt_irrefl _)
    · intro b hb
      by_cases hba : b = a
      · subst hba
        rcases hversion with ⟨hvoid, heq⟩ | hbump
        · exact ⟨0, by rw [heq, Nat.add_zero, Nat.mod_eq_of_lt (l.version b).isLt], by omega,
            fun _ => .inr hvoid⟩
        · exact ⟨1, hbump, by omega, by simp⟩
      · obtain ⟨-, heq, -, -, -, hturn'⟩ := hother b hba
        exact ⟨0, by rw [heq, Nat.add_zero, Nat.mod_eq_of_lt (l.version b).isLt], by omega,
          fun _ => .inl hturn'⟩
    · intro b hb heq
      by_cases hba : b = a
      · subst hba
        omega
      · exact (hother b hba).2.2.1

/-- A container is **given up** after all its slots were turned over. -/
theorem Evolves.release (hlm : Evolves L l m) (hm : m.Consistent L) (howner : L.owner a = a)
    (hslots : ∀ b, L.owner b = a → b ≠ a → l.turnover b < m.turnover b)
    (hlive : r.live = update m.live a ((m.live a).map fun x => (x.1, r.version a)))
    (hversion : (r.version a : ℕ) = (m.version a + 1) % n)
    (hturn : r.turnover = update m.turnover a (m.turnover a + 1))
    (hkind : r.kind = m.kind) (hwith : r.withheld = m.withheld) (hstored : r.stored = m.stored)
    (hother : ∀ b ≠ a, r.version b = m.version b) : r.Consistent L ∧ Evolves L l r := by
  have hresident : ∀ b, r.Resident L b ↔ m.Resident L b := fun b => by
    by_cases hb : L.owner b = a
    · simp [Resident, hlive, hb]
    · simp [Resident, hlive, hb]
  have hcase : ∀ {b k v}, r.live b = some (k, v) →
      ∃ v', m.live b = some (k, v') ∧ (b = a → v = r.version a) ∧ (b ≠ a → v' = v) := by
    intro b k v hb
    rw [hlive] at hb
    by_cases hba : b = a
    · subst hba
      rw [update_self, Option.map_eq_some_iff] at hb
      obtain ⟨⟨k', v'⟩, hb', heq⟩ := hb
      obtain ⟨rfl, rfl⟩ := Prod.mk.inj heq
      exact ⟨v', hb', fun _ => rfl, fun h => absurd rfl h⟩
    · rw [update_of_ne hba] at hb
      exact ⟨v, hb, fun h => absurd h hba, fun _ => rfl⟩
  constructor
  · refine ⟨?_, ?_, ?_, ?_, ?_⟩
    · intro b k v hb
      obtain ⟨v', hb', -⟩ := hcase hb
      exact (hresident b).2 (hm.resident hb')
    · intro b k v hb
      obtain ⟨v', hb', heq, hne⟩ := hcase hb
      obtain ⟨hk, hv⟩ := hm.live hb'
      refine ⟨by rw [hk, hkind], ?_⟩
      by_cases hba : b = a
      · rw [heq hba, hba]
      · rw [hother b hba, ← hne hba, hv]
    · intro b k v hb
      obtain ⟨v', hb', -⟩ := hcase hb
      exact hm.notVoid hb'
    · intro b k v hs hb
      obtain ⟨v', hb', -⟩ := hcase hb
      exact hwith ▸ hm.notWithheld hs hb'
    · intro b hb hs
      exact hstored ▸ hm.notStored ((hresident b).1 hb) hs
  · have hturn_ne : ∀ b ≠ a, r.turnover b = m.turnover b := fun b hb => by simp [hturn, hb]
    have hturn_self : r.turnover a = m.turnover a + 1 := by simp [hturn]
    refine ⟨fun b => ?_, ?_, fun {b} hb => (hresident b).2 (hlm.resident hb), ?_, ?_⟩
    · have hle := hlm.turnover b
      by_cases hba : b = a
      · subst hba
        omega
      · rw [hturn_ne b hba]
        exact hle
    · intro b hs hlt
      have hba : b ≠ a := by
        rintro rfl
        exact hs howner
      rw [hturn_ne b hba]
      by_cases hb : L.owner b = a
      · exact hslots b hb hba
      · rw [hturn_ne _ hb] at hlt
        exact hlm.freed hs hlt
    · intro b hb
      obtain ⟨k, hk, hle, hzero⟩ := hlm.version hb
      by_cases hba : b = a
      · subst hba
        exact ⟨k + 1, by rw [hversion, hk, Nat.mod_add_mod, Nat.add_assoc], by omega, by simp⟩
      · exact ⟨k, by rw [hother b hba, hk], by rw [hturn_ne b hba]; exact hle,
          by rw [hturn_ne b hba]; exact hzero⟩
    · intro b hb heq
      have hle := hlm.turnover b
      by_cases hba : b = a
      · subst hba
        omega
      · rw [hkind]
        exact hlm.kind hb (by rw [← hturn_ne b hba, heq])

end Changes

end Ledger
