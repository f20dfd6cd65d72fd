import Viengoos.Addr
import Viengoos.Lib.Extents
import Viengoos.Lib.Outcome
import Viengoos.Lib.SearchTree

/-!
# Memory reserved at boot

The kernel keeps the memory that is in use before it manages memory in a tree of reservations.
`memory_is_reserved` looks for the first one that a range meets: the tree search finds one of those
that it meets, which one depends on the shape of the tree, and the search goes on to lower ones.
**It passes over a reservation whose last byte is the first one of the range**, since it compares
with `>`. So it is right for every shape of the tree if and only if no other reservation meets the
range as well.
-/

namespace Viengoos

open Outcome List SearchTree

namespace Reservations

/-! ### The code -/

/-- `reservation_node_compare`, of a range and a reservation. -/
def nodeCompare (start last : ℕ) (r : Extent) : Ordering :=
  if last < r.start then .lt else if r.last < start then .gt else .eq

/-- The loop of `memory_is_reserved`, over what comes before a reservation, the last one first. -/
def firstFrom (start : ℕ) (overlap : Extent) : List Extent → Extent
  | [] => overlap
  | prev :: before => if start < prev.last then firstFrom start prev before else overlap

/-- `memory_is_reserved`, with `start_reservation` and `end_reservation` if it returns true. -/
def memoryIsReserved (t : SearchTree Extent) (start last : ℕ) :
    Except Fault (Option (ℕ × ℕ)) := do
  require (start < last) .assertion
  pure ((t.find (nodeCompare start last)).bind fun i => t.nodes[i]?.map fun overlap =>
    let overlap := firstFrom start overlap (t.nodes.take i).reverse
    (if start < overlap.start then overlap.start else start,
      if overlap.last < last then overlap.last else last))

/-! ### The first reservation in a range -/

/-- Reservations in order, which have no byte in common. -/
structure Apart (l : List Extent) : Prop where
  nonempty : ∀ r ∈ l, r.start ≤ r.last
  apart : l.Pairwise fun a b => a.last < b.start

/-- A reservation and a range have a byte in common. -/
def Meets (start last : ℕ) (r : Extent) : Prop := r.start ≤ last ∧ start ≤ r.last

/-- **What `memory_is_reserved` is for**: what the range and the lowest reservation that it meets
have in common. -/
def First (l : List Extent) (start last : ℕ) : Option (ℕ × ℕ) → Prop
  | none => ∀ r ∈ l, ¬Meets start last r
  | some (a, b) => ∃ r ∈ l, Meets start last r ∧ (∀ q ∈ l, Meets start last q → r.start ≤ q.start) ∧
      a = max r.start start ∧ b = min r.last last

variable {t : SearchTree Extent} {l pre post : List Extent} {a : Extent} {start last : ℕ}

theorem nodeCompare_eq : nodeCompare start last a = .eq ↔ Meets start last a := by
  rw [nodeCompare, Meets]
  split_ifs <;> simp <;> omega

theorem Apart.ordered (h : Apart l) (hrange : start < last) :
    Ordered (nodeCompare start last) l := by
  refine h.apart.imp_of_mem fun {a b} ha hb hab => ?_
  have := h.nonempty a ha
  have := h.nonempty b hb
  simp only [nodeCompare]
  split_ifs <;> simp <;> omega

/-- The loop stops at a reservation before which there is none, or one that ends by the start. -/
theorem firstFrom_spec (start : ℕ) (a : Extent) (before : List Extent) :
    ∃ passed rest, a :: before = passed ++ firstFrom start a before :: rest ∧
      (firstFrom start a before = a ∨ start < (firstFrom start a before).last) ∧
      ∀ q ∈ rest.head?, q.last ≤ start := by
  induction before generalizing a with
  | nil => exact ⟨[], [], rfl, .inl rfl, by simp⟩
  | cons p before ih =>
    rw [firstFrom]
    split
    · next hp =>
      obtain ⟨passed, rest, hl, hcase, hrest⟩ := ih p
      refine ⟨a :: passed, rest, by rw [hl, cons_append], .inr ?_, hrest⟩
      rcases hcase with heq | hlt
      · rwa [heq]
      · exact hlt
    · next hp => exact ⟨[], p :: before, rfl, .inl rfl, by simpa using hp⟩

/-- What becomes of the reservation that the tree search finds. -/
theorem memoryIsReserved_of_find (h : Apart t.nodes) (hrange : start < last)
    (hl : t.nodes = pre ++ a :: post) (ha : Meets start last a)
    (hfind : t.find (nodeCompare start last) = some pre.length) :
    ∃ pre' r post', t.nodes = pre' ++ r :: post' ∧ Meets start last r ∧
      (r = a ∨ start < r.last) ∧ (∀ q ∈ pre'.getLast?, q.last ≤ start) ∧
      memoryIsReserved t start last = .ok (some (max r.start start, min r.last last)) := by
  obtain ⟨passed, rest, hwalk, hcase, hrest⟩ := firstFrom_spec start a pre.reverse
  have hrun : memoryIsReserved t start last = .ok (some
      (max (firstFrom start a pre.reverse).start start,
        min (firstFrom start a pre.reverse).last last)) := by
    rw [memoryIsReserved, require_of hrange, ok_bind, hfind]
    simp only [hl, Option.bind_some, getElem?_append_right le_rfl, Nat.sub_self,
      getElem?_cons_zero, Option.map_some, take_left]
    refine congrArg (Except.ok ∘ some) (Prod.ext ?_ ?_) <;> dsimp only <;> split <;> omega
  generalize firstFrom start a pre.reverse = r at *
  have hnodes : t.nodes = rest.reverse ++ r :: (passed.reverse ++ post) := by
    have hrev := congrArg reverse hwalk
    rw [reverse_cons, reverse_reverse] at hrev
    rw [hl, append_cons, hrev]
    simp
  refine ⟨rest.reverse, r, _, hnodes, ?_, hcase, by simpa using hrest, hrun⟩
  rcases hcase with rfl | hlt
  · exact ha
  · refine ⟨?_, hlt.le⟩
    have hmem : r ∈ a :: pre.reverse := by simp [hwalk]
    rcases mem_cons.1 hmem with rfl | hmem
    · exact ha.1
    · have hapart := h.apart
      rw [hl, pairwise_append] at hapart
      have := hapart.2.2 r (mem_reverse.1 hmem) a (mem_cons_self ..)
      have := h.nonempty r (by simp [hnodes])
      exact (by omega : r.start ≤ a.start).trans ha.1

end Reservations

end Viengoos
