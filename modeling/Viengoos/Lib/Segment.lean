import Mathlib

/-!
# Linked segments

Nodes of type `N` with two link fields of an arbitrary type `P` of pointers, into which nodes embed
by `node`. `Linked` says that the links of a list of nodes run through it in both directions,
between given pointers at its two ends; what these ends are is left to the data structure, which may
close the list in any way it likes. A segment is cut and joined by `linked_append`, and the two
fields at its ends are the only ones that have to be written for that.
-/

namespace Segment

open List Function

/-- The link fields of all nodes. -/
structure Links (N P : Type*) where
  next : N → P
  prev : N → P

variable {N P : Type*} {node : N → P}

section Defs

variable (node : N → P)

/-- The pointer to the first node, or to what comes behind. -/
def first (l : List N) (right : P) : P := (l.head?.map node).getD right

/-- The pointer to the last node, or to what comes before. -/
def last (l : List N) (left : P) : P := (l.getLast?.map node).getD left

/-- **The links run through the nodes**, from `left` to `right`. -/
def Linked (s : Links N P) (left : P) : List N → P → Prop
  | [], _ => True
  | x :: l, right => s.prev x = left ∧ s.next x = first node l right ∧ Linked s (node x) l right

end Defs

variable {s s' : Links N P} {left right p : P} {l l₁ l₂ : List N} {x y : N}

@[simp] theorem first_nil : first node [] right = right := rfl

@[simp] theorem first_cons : first node (x :: l) right = node x := rfl

@[simp] theorem last_nil : last node [] left = left := rfl

@[simp] theorem last_concat : last node (l ++ [x]) left = node x := by simp [last]

theorem first_append : first node (l₁ ++ l₂) right = first node l₁ (first node l₂ right) := by
  cases l₁ <;> rfl

theorem last_cons : last node (x :: l) left = last node l (node x) := by
  rw [last, last, getLast?_cons]
  cases l.getLast? <;> rfl

theorem linked_cons : Linked node s left (x :: l) right ↔
    s.prev x = left ∧ s.next x = first node l right ∧ Linked node s (node x) l right := Iff.rfl

theorem linked_singleton :
    Linked node s left [x] right ↔ s.prev x = left ∧ s.next x = right := by
  simp [Linked]

/-- **Cut and join.** -/
theorem linked_append : Linked node s left (l₁ ++ l₂) right ↔
    Linked node s left l₁ (first node l₂ right) ∧ Linked node s (last node l₁ left) l₂ right := by
  induction l₁ generalizing left with
  | nil => simp [Linked]
  | cons x l₁ ih =>
    rw [cons_append, linked_cons, linked_cons, ih, last_cons, first_append]
    simp only [and_assoc]

/-- A segment reads the links of its own nodes only. -/
theorem Linked.congr (h : Linked node s left l right)
    (hsame : ∀ x ∈ l, s'.next x = s.next x ∧ s'.prev x = s.prev x) :
    Linked node s' left l right := by
  induction l generalizing left with
  | nil => trivial
  | cons x l ih =>
    obtain ⟨hprev, hnext, hrest⟩ := h
    obtain ⟨hn, hp⟩ := hsame x (mem_cons_self ..)
    exact ⟨hp.trans hprev, hn.trans hnext, ih hrest fun y hy => hsame y (mem_cons_of_mem x hy)⟩

/-- The links of a node inside. -/
theorem Linked.links (h : Linked node s left (l₁ ++ x :: l₂) right) :
    s.prev x = last node l₁ left ∧ s.next x = first node l₂ right := by
  obtain ⟨-, hprev, hnext, -⟩ := linked_append.1 h
  exact ⟨hprev, hnext⟩

section Writes

variable [DecidableEq N]

def Links.setNext (s : Links N P) (x : N) (p : P) : Links N P :=
  { s with next := Function.update s.next x p }

def Links.setPrev (s : Links N P) (x : N) (p : P) : Links N P :=
  { s with prev := Function.update s.prev x p }

@[simp] theorem setNext_prev : (s.setNext x p).prev = s.prev := rfl

@[simp] theorem setPrev_next : (s.setPrev x p).next = s.next := rfl

@[simp] theorem setNext_next_self : (s.setNext x p).next x = p := update_self ..

@[simp] theorem setPrev_prev_self : (s.setPrev x p).prev x = p := update_self ..

theorem setNext_next_of_ne (h : y ≠ x) : (s.setNext x p).next y = s.next y :=
  update_of_ne h ..

theorem setPrev_prev_of_ne (h : y ≠ x) : (s.setPrev x p).prev y = s.prev y :=
  update_of_ne h ..

section

variable (h : Linked node s left l right)

include h

/-- Writes to other nodes do not matter. -/
theorem Linked.setNext_of_notMem (hx : x ∉ l) : Linked node (s.setNext x p) left l right :=
  h.congr fun _ hy => ⟨setNext_next_of_ne fun e => hx (e ▸ hy), rfl⟩

theorem Linked.setPrev_of_notMem (hx : x ∉ l) : Linked node (s.setPrev x p) left l right :=
  h.congr fun _ hy => ⟨rfl, setPrev_prev_of_ne fun e => hx (e ▸ hy)⟩

/-- The backward link of the first node decides where the segment begins. -/
theorem Linked.setPrev_head (hl : l.Nodup) (hx : x ∈ l.head?) :
    Linked node (s.setPrev x p) p l right := by
  obtain ⟨l, rfl⟩ := head?_eq_some_iff.1 hx
  obtain ⟨-, hnext, hrest⟩ := h
  exact ⟨setPrev_prev_self, hnext, hrest.setPrev_of_notMem (nodup_cons.1 hl).1⟩

/-- The forward link of the last node decides where it ends. -/
theorem Linked.setNext_last (hl : l.Nodup) (hx : x ∈ l.getLast?) :
    Linked node (s.setNext x p) left l p := by
  obtain ⟨l, rfl⟩ := getLast?_eq_some_iff.1 hx
  obtain ⟨hinit, hprev, -⟩ := linked_append.1 h
  have hout : x ∉ l := fun hmem => (nodup_append.1 hl).2.2 x hmem x (by simp) rfl
  exact linked_append.2 ⟨hinit.setNext_of_notMem hout, hprev, setNext_next_self, trivial⟩

end

end Writes

end Segment
