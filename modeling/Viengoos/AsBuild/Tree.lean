import Viengoos.AsBuild.Code

/-!
# Page-table trees

What the shadow page tables are for: a set of **entries**, each at an address, in a tree that
compresses paths into guards. A `PageTree` is that tree as a value. `Rep s t p` says that the
tables below slot `p` of the state `s` are the tree `t`, `Holds t p a q` that `t` has an entry at
address `a`, kept in slot `q`.

An entry is a slot that `as_build` returned, whether or not a capability was put there. Entries
carry no capability here: the state has it.
-/

namespace Viengoos

open BitString

/-! ### Guards as bit strings -/

namespace Cap

/-- The guard of a capability, bit by bit. -/
def guardList (c : Cap) : List Bool := bits c.addrTrans.guardBits c.addrTrans.guard

/-- The guard's value has no more bits than its depth says. -/
def GuardOk (c : Cap) : Prop := c.addrTrans.guard < 2 ^ c.addrTrans.guardBits

/-- A capability without its guard: what it designates and how. -/
structure Core where
  type : CapType
  oid : ℕ
  version : Fin (2 ^ 20)
  policy : ObjectPolicy
  subpage : ℕ
  subpages : ℕ
deriving DecidableEq

/-- Forget the guard. -/
def core (c : Cap) : Core :=
  ⟨c.type, c.oid, c.version, c.policy, c.addrTrans.subpage, c.addrTrans.subpages⟩

@[simp] theorem length_guardList (c : Cap) : c.guardList.length = c.addrTrans.guardBits :=
  length_bits _ _

theorem guardOk_void : Cap.void.GuardOk := by simp [GuardOk, void]

end Cap

/-! ### Trees -/

/-- A path-compressed tree of page tables: a free slot, an entry behind a guard, or behind a guard
the table `o` that translates `w` bits. -/
inductive PageTree
  | empty
  | entry (g : List Bool)
  | table (g : List Bool) (o w : ℕ) (child : ℕ → PageTree)

namespace PageTree

/-- The tables of a tree. -/
def oids : PageTree → Set ℕ
  | empty => ∅
  | entry _ => ∅
  | table _ o w child => {o} ∪ ⋃ i < 2 ^ w, (child i).oids

/-- No table occurs twice. -/
def Sep : PageTree → Prop
  | empty => True
  | entry _ => True
  | table _ o w child =>
    (∀ i < 2 ^ w, (child i).Sep ∧ o ∉ (child i).oids) ∧
      ∀ i < 2 ^ w, ∀ j < 2 ^ w, i ≠ j → Disjoint (child i).oids (child j).oids

/-- The slot `p` is not in a table of the tree. -/
def Outside (t : PageTree) (p : ShadowPtr) : Prop := ∀ o i, p = .slot o i → o ∉ t.oids

/-- The tree has an entry at address `a`, in slot `q`. -/
inductive Holds : PageTree → ShadowPtr → List Bool → ShadowPtr → Prop
  | entry {g : List Bool} {p : ShadowPtr} : Holds (.entry g) p g p
  | table {g : List Bool} {o w i : ℕ} {child : ℕ → PageTree} {p q : ShadowPtr} {a : List Bool} :
      i < 2 ^ w → Holds (child i) (.slot o i) a q →
      Holds (.table g o w child) p (g ++ (bits w i ++ a)) q

/-- Every table leads to an entry. -/
def Full : PageTree → Prop
  | empty => True
  | entry _ => True
  | table _ o w child =>
    (∀ i < 2 ^ w, (child i).Full) ∧ ∃ i < 2 ^ w, ∃ a q, Holds (child i) (.slot o i) a q

/-- The guard in front of a tree that is not a free slot. -/
def guard : PageTree → List Bool
  | empty => []
  | entry g => g
  | table g _ _ _ => g

/-- The same tree behind another guard. -/
def reguard (g' : List Bool) : PageTree → PageTree
  | empty => empty
  | entry _ => entry g'
  | table _ o w child => table g' o w child

@[simp] theorem oids_reguard (g : List Bool) (t : PageTree) : (t.reguard g).oids = t.oids := by
  cases t <;> rfl

variable {a : List Bool} {t : PageTree} {o : ℕ}

theorem mem_oids_table {g : List Bool} {w x : ℕ} {child : ℕ → PageTree} :
    x ∈ (table g o w child).oids ↔ x = o ∨ ∃ i < 2 ^ w, x ∈ (child i).oids := by
  simp [oids]

theorem Sep.reguard (h : t.Sep) (g : List Bool) : (t.reguard g).Sep := by
  cases t <;> exact h

theorem Full.reguard (h : t.Full) (g : List Bool) : (t.reguard g).Full := by
  cases t <;> exact h

/-- An entry's address begins with the tree's guard. -/
theorem Holds.exists_eq_guard_append {p q : ShadowPtr}
    (h : Holds t p a q) : ∃ b, a = t.guard ++ b := by
  cases h with
  | entry => exact ⟨[], by simp [guard]⟩
  | table => exact ⟨_, rfl⟩

/-- A tree that is not a free slot has an entry. -/
theorem exists_holds (h : t.Full) (hne : t ≠ empty) (p : ShadowPtr) :
    ∃ a q, Holds t p a q := by
  cases t with
  | empty => exact absurd rfl hne
  | entry g => exact ⟨g, p, .entry⟩
  | table g o w child =>
    obtain ⟨-, i, hi, a, q, hq⟩ := h
    exact ⟨_, q, .table hi hq⟩

/-- The slot of an entry is the slot in front of the tree or in one of its tables. -/
theorem Holds.slot_cases {p q : ShadowPtr} (h : Holds t p a q) :
    q = p ∨ ∃ o i, q = .slot o i ∧ o ∈ t.oids := by
  induction h with
  | entry => exact .inl rfl
  | @table g o w i child p q a hi _ ih =>
    right
    rcases ih with rfl | ⟨o', j, rfl, ho'⟩
    · exact ⟨o, i, rfl, mem_oids_table.2 (.inl rfl)⟩
    · exact ⟨o', j, rfl, mem_oids_table.2 (.inr ⟨i, hi, ho'⟩)⟩

/-- Entries behind another guard; only an entry in front of the tree changes its slot. -/
theorem Holds.reguard {p q : ShadowPtr} {b : List Bool} (p' : ShadowPtr)
    (g : List Bool) (h : Holds t p (t.guard ++ b) q) :
    ∃ q', Holds (t.reguard g) p' (g ++ b) q' ∧
      ((q' = q ∧ ∃ o i, q = .slot o i ∧ o ∈ t.oids) ∨ q = p ∧ q' = p') := by
  generalize ha : t.guard ++ b = a at h
  cases h with
  | entry =>
    obtain rfl : b = [] := by simpa [guard] using ha
    exact ⟨p', by simpa [PageTree.reguard] using Holds.entry, .inr ⟨rfl, rfl⟩⟩
  | @table _ o _ i _ _ _ _ hi h =>
    obtain rfl := List.append_cancel_left ha
    refine ⟨q, .table hi h, .inl ⟨rfl, ?_⟩⟩
    rcases h.slot_cases with rfl | ⟨o', j, rfl, ho'⟩
    · exact ⟨o, i, rfl, mem_oids_table.2 (.inl rfl)⟩
    · exact ⟨o', j, rfl, mem_oids_table.2 (.inr ⟨i, hi, ho'⟩)⟩

theorem guard_reguard (h : t ≠ empty) (g : List Bool) : (t.reguard g).guard = g := by
  cases t with
  | empty => exact absurd rfl h
  | entry => rfl
  | table => rfl

@[simp] theorem reguard_reguard_guard (t : PageTree) (g : List Bool) :
    (t.reguard g).reguard t.guard = t := by
  cases t <;> rfl

end PageTree

/-! ### Representation -/

/-- The tables below slot `p` of the state are the tree. -/
def Rep (s : Shadow) : PageTree → ShadowPtr → Prop
  | .empty, p => s.read p = Cap.void
  | .entry g, p => (s.read p).GuardOk ∧ (s.read p).guardList = g
  | .table g o w child, p =>
    ((s.read p).type = .cappage ∧ (s.read p).oid = o ∧ (s.read p).addrTrans.subpage = 0 ∧
        (s.read p).addrTrans.subpagesLog2.val = 8 - w ∧ (s.read p).GuardOk ∧
        (s.read p).guardList = g) ∧
      (o ≠ 0 ∧ o < s.next ∧ 0 < w ∧ w ≤ 8) ∧ ∀ i < 2 ^ w, Rep s (child i) (.slot o i)

namespace Rep

variable {s s' : Shadow} {t : PageTree} {p : ShadowPtr}

/-- **Frame**: the representation only depends on the slot and the tables of the tree. -/
theorem frame (h : Rep s t p) (hp : s'.read p = s.read p)
    (htab : ∀ o ∈ t.oids, ∀ i, s'.caps o i = s.caps o i) (hnext : s.next ≤ s'.next) :
    Rep s' t p := by
  induction t generalizing p with
  | empty => exact hp.trans h
  | entry g =>
    rw [Rep, hp]
    exact h
  | table g o w child ih =>
    obtain ⟨hcap, ⟨ho, hlt, hw⟩, hchild⟩ := h
    refine ⟨by rwa [hp], ⟨ho, hlt.trans_le hnext, hw⟩, fun i hi => ?_⟩
    refine ih i (hchild i hi) ?_ fun o' ho' => htab o' ?_
    · exact htab o (PageTree.mem_oids_table.2 (.inl rfl)) i
    · exact PageTree.mem_oids_table.2 (.inr ⟨i, hi, ho'⟩)

/-- Tables are older than the next one to be allocated. -/
theorem oids_lt (h : Rep s t p) (ho : o ∈ t.oids) : o < s.next := by
  induction t generalizing p with
  | empty => exact ho.elim
  | entry g => exact ho.elim
  | table g o' w child ih =>
    rcases PageTree.mem_oids_table.1 ho with rfl | ⟨i, hi, ho⟩
    · exact h.2.1.2.1
    · exact ih i (h.2.2 i hi) ho

/-- The guard of the slot is the tree's. -/
theorem guardList_eq (h : Rep s t p) : (s.read p).guardList = t.guard := by
  cases t with
  | empty =>
    have hvoid : s.read p = Cap.void := h
    rw [hvoid]
    rfl
  | entry g => exact h.2
  | table g o w child => exact h.1.2.2.2.2.2

theorem guardOk (h : Rep s t p) : (s.read p).GuardOk := by
  cases t with
  | empty =>
    have hvoid : s.read p = Cap.void := h
    rw [hvoid]
    exact Cap.guardOk_void
  | entry g => exact h.1
  | table g o w child => exact h.1.2.2.2.2.1

end Rep

end Viengoos
