import Viengoos.Lookup

/-!
# The shadow address space

The user-space library keeps a copy of its own capability graph, the shadow page tables, and walks
them with the same code as the kernel. A shadow capability names its object by a pointer, which is
the field `oid` here with 0 for `NULL`; dereferencing it has no side effect.
-/

namespace Viengoos

open BitString

/-- The shadow page tables: the root capability, the slots of every object, and the number of the
next object the page-table allocator hands out. -/
structure Shadow where
  root : Cap
  caps : ℕ → ℕ → Cap
  next : ℕ

/-- A pointer to a shadow slot. `fake c` is a local variable that holds `c`: `as_build` copies
the capability of a folio's object there. -/
inductive ShadowPtr
  | root
  | slot (object index : ℕ)
  | fake (c : Cap)
deriving DecidableEq, Repr

namespace Shadow

/-- The capability in a slot. -/
def read (s : Shadow) : ShadowPtr → Cap
  | .root => s.root
  | .slot o i => s.caps o i
  | .fake c => c

/-- Overwrite a slot. What is written to a local variable is lost when the function returns. -/
def write (s : Shadow) : ShadowPtr → Cap → Shadow
  | .root, c => { s with root := c }
  | .slot o i, c => { s with caps := Function.update s.caps o (Function.update (s.caps o) i c) }
  | .fake _, _ => s

theorem read_write_self (s : Shadow) {p : ShadowPtr} (c : Cap) (hp : ∀ d, p ≠ .fake d) :
    (s.write p c).read p = c := by
  cases p with
  | root => rfl
  | slot o i => simp [read, write]
  | fake d => exact absurd rfl (hp d)

theorem read_write_of_ne (s : Shadow) {p q : ShadowPtr} (c : Cap) (h : q ≠ p) :
    (s.write p c).read q = s.read q := by
  cases p with
  | root =>
    cases q with
    | root => exact absurd rfl h
    | slot => rfl
    | fake => rfl
  | slot o i =>
    cases q with
    | root => rfl
    | slot o' i' =>
      by_cases ho : o' = o
      · subst ho
        have hi : i' ≠ i := fun hi => h (hi ▸ rfl)
        simp [read, write, hi]
      · simp [read, write, ho]
    | fake => rfl
  | fake d => rfl

/-- Writing back what is there changes nothing. -/
theorem write_read (s : Shadow) (p : ShadowPtr) : s.write p (s.read p) = s := by
  cases p <;> simp [read, write]

theorem write_write (s : Shadow) (p : ShadowPtr) (c d : Cap) :
    (s.write p c).write p d = s.write p d := by
  cases p <;> simp [write]

@[simp] theorem next_write (s : Shadow) (p : ShadowPtr) (c : Cap) :
    (s.write p c).next = s.next := by
  cases p <;> rfl

/-- The walker's view of the shadow page tables. -/
def memory : Memory Shadow ShadowPtr where
  cap := read
  capToObject s p := .ok (s, if (s.read p).oid = 0 then none else some (s.read p).oid)
  slot := .slot
  folioSlot _ := .slot
  isFake _ := false

/-- A hop through the object of a slot: the address spells the guard there, and then the index. -/
theorem steps_of_bits {s : Shadow} {p : ShadowPtr} {key u w i : ℕ} {b : List Bool}
    (hguard : (s.read p).addrTrans.guard < 2 ^ (s.read p).addrTrans.guardBits)
    (hwidth : indexWidth (s.read p) = some w) (hw : 0 < w) (ho : (s.read p).oid ≠ 0)
    (hi : i < 2 ^ w) (hbits : bits u key =
      bits (s.read p).addrTrans.guardBits (s.read p).addrTrans.guard ++ (bits w i ++ b)) :
    Steps memory key s p u ⟨s.read p, (s.read p).oid, w, i⟩ s
      (.slot (s.read p).oid (indexBase (s.read p) + i)) b.length := by
  set c := s.read p with hc
  have hlen : u = c.addrTrans.guardBits + (w + b.length) := by
    simpa using congrArg List.length hbits
  obtain ⟨hfield, hrest⟩ := field_eq_of_bits hguard hbits
  obtain ⟨hindex, -⟩ := field_eq_of_bits hi hrest
  exact
    { cap := rfl
      guard := by
        refine .inr ⟨show c.addrTrans.guardBits ≤ u by omega, ?_⟩
        simp only [hfield]
        exact Nat.mod_eq_of_lt (c.addrTrans.guard_lt.trans (by decide))
      width := hwidth
      bits := by simp only; omega
      pos := by simp only; omega
      index := by simpa using hindex.symm
      object := by
        simp only [memory, ← hc]
        rw [if_neg ho]
      target := by
        by_cases hfolio : c.type = .folio
        · simp [Memory.target, memory, indexBase, hfolio]
        · simp [Memory.target, memory, hfolio] }

/-- Walking the shadow page tables leaves them as they are. -/
theorem walks_state {addr u u' : ℕ} {s s' : Shadow} {p p' : ShadowPtr} {hs : List Hop}
    (h : Walks memory addr s p u hs s' p' u') : s' = s := by
  induction h with
  | nil => rfl
  | cons hstep _ ih =>
    have hobj := (Prod.mk.inj (Except.ok.inj hstep.object)).1
    rw [ih, ← hobj]

end Shadow

end Viengoos
