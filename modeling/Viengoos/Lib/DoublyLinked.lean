import Mathlib

/-!
# Doubly linked lists

Null-terminated doubly linked lists with a head pointer outside of the nodes. `IsList L head l` says
that the links represent the list `l`: each node points to the one after it and to the one before
it, and the ends point nowhere. Each edit of the links has one rule for the list it represents, and
says which nodes it touches; lists over other nodes are kept by `Seg.congr`.
-/

namespace DoublyLinked

open Function List Option

universe u

/-- The link fields of all nodes. -/
structure Links (α : Type u) where
  next : α → Option α
  prev : α → Option α

variable {α : Type u}

/-- The nodes `l` are linked both ways, `head` points to the first of them, the first one's `prev`
is `left` and the last one's `next` is `right`. -/
def Seg (L : Links α) : Option α → Option α → List α → Option α → Prop
  | _, head, [], right => head = right
  | left, head, x :: l, right => head = some x ∧ L.prev x = left ∧ Seg L (some x) (L.next x) l right

/-- The links represent the list `l`. -/
def IsList (L : Links α) (head : Option α) (l : List α) : Prop := Seg L none head l none

variable {L : Links α} {left head right : Option α} {l l₁ l₂ : List α} {x y : α}

theorem Seg.congr {L' : Links α} (h : Seg L left head l right)
    (hsame : ∀ x ∈ l, L'.next x = L.next x ∧ L'.prev x = L.prev x) :
    Seg L' left head l right := by
  induction l generalizing left head with
  | nil => exact h
  | cons x l ih =>
    obtain ⟨hhead, hprev, hrest⟩ := h
    obtain ⟨hn, hp⟩ := hsame x (mem_cons_self ..)
    refine ⟨hhead, hp.trans hprev, ?_⟩
    rw [hn]
    exact ih hrest fun y hy => hsame y (mem_cons_of_mem x hy)

theorem seg_append :
    Seg L left head (l₁ ++ l₂) right ↔
      ∃ mid, Seg L left head l₁ mid ∧ Seg L (l₁.getLast?.or left) mid l₂ right := by
  induction l₁ generalizing left head with
  | nil => simp [Seg]
  | cons x l₁ ih =>
    have hlast : (x :: l₁).getLast?.or left = l₁.getLast?.or (some x) := by
      rw [getLast?_cons]
      cases l₁.getLast? <;> rfl
    simp only [cons_append, Seg, ih, hlast, and_assoc]
    constructor
    · rintro ⟨hhead, hprev, mid, h₁, h₂⟩
      exact ⟨mid, hhead, hprev, h₁, h₂⟩
    · rintro ⟨mid, hhead, hprev, h₁, h₂⟩
      exact ⟨hhead, hprev, mid, h₁, h₂⟩

theorem Seg.head_eq (h : Seg L left head l right) : head = l.head?.or right := by
  cases l with
  | nil => exact h
  | cons x l => exact h.1

theorem IsList.head_eq (h : IsList L head l) :
    head = l.head? := by
  rw [Seg.head_eq h, or_none]

/-- The links represent one list only. -/
theorem Seg.unique {left' : Option α} {l' : List α} (h : Seg L left head l none)
    (h' : Seg L left' head l' none) : l = l' := by
  induction l generalizing left left' head l' with
  | nil =>
    obtain rfl : head = none := h
    cases l' with
    | nil => rfl
    | cons x l' => cases h'.1
  | cons x l ih =>
    obtain ⟨rfl, _, hrest⟩ := h
    cases l' with
    | nil => cases h'
    | cons y l' =>
      obtain ⟨hy, _, hrest'⟩ := h'
      obtain rfl := Option.some.inj hy
      rw [ih hrest hrest']

/-- The two parts of a list meet at the head of the second. -/
theorem IsList.split (h : IsList L head (l₁ ++ l₂)) :
    Seg L none head l₁ l₂.head? ∧ Seg L l₁.getLast? l₂.head? l₂ none := by
  obtain ⟨mid, h₁, h₂⟩ := seg_append.1 h
  rw [or_none] at h₂
  have hmid := h₂.head_eq
  rw [or_none] at hmid
  rw [hmid] at h₁ h₂
  exact ⟨h₁, h₂⟩

theorem IsList.join (h₁ : Seg L none head l₁ l₂.head?) (h₂ : Seg L l₁.getLast? l₂.head? l₂ none) :
    IsList L head (l₁ ++ l₂) :=
  seg_append.2 ⟨l₂.head?, h₁, by rwa [or_none]⟩

/-- The links of a node in a list. -/
theorem IsList.links (h : IsList L head (l₁ ++ x :: l₂)) :
    L.prev x = l₁.getLast? ∧ L.next x = l₂.head? := by
  obtain ⟨_, _, hprev, hrest⟩ := h.split
  refine ⟨hprev, ?_⟩
  rw [Seg.head_eq hrest, or_none]

theorem IsList.next_mem (h : IsList L head l) (hx : x ∈ l) (hy : L.next x = some y) : y ∈ l := by
  obtain ⟨l₁, l₂, rfl⟩ := append_of_mem hx
  rw [h.links.2] at hy
  exact mem_append_right _ (mem_cons_of_mem x (mem_of_head? hy))

theorem IsList.prev_mem (h : IsList L head l) (hx : x ∈ l) (hy : L.prev x = some y) : y ∈ l := by
  obtain ⟨l₁, l₂, rfl⟩ := append_of_mem hx
  rw [h.links.1] at hy
  exact mem_append_left _ (mem_of_getLast? hy)

theorem getLast?_ne_of_notMem (h : y ∉ l) : l.getLast? ≠ some y :=
  fun hy => h (mem_of_getLast? hy)

theorem head?_ne_of_notMem (h : y ∉ l) : l.head? ≠ some y :=
  fun hy => h (mem_of_head? hy)

/-! ### Edits -/

variable {L : Links α} {l : List α} {x : α}

section Edit

variable [DecidableEq α]

/-- `x->next = y`. -/
def Links.setNext (L : Links α) (x : α) (y : Option α) : Links α :=
  { L with next := update L.next x y }

/-- `x->prev = y`. -/
def Links.setPrev (L : Links α) (x : α) (y : Option α) : Links α :=
  { L with prev := update L.prev x y }

/-- `if (p) p->next = y; else head = y;` -/
def Links.redirect (L : Links α) (head p y : Option α) : Links α × Option α :=
  match p with
  | some p => (L.setNext p y, head)
  | none => (L, y)

/-- `if (n) n->prev = y;` -/
def Links.setPrevOf (L : Links α) (n y : Option α) : Links α :=
  match n with
  | some n => L.setPrev n y
  | none => L

@[simp] theorem setPrevOf_next (L : Links α) (n y : Option α) :
    (L.setPrevOf n y).next = L.next := by
  cases n <;> rfl

@[simp] theorem redirect_prev (L : Links α) (head p y : Option α) :
    (L.redirect head p y).1.prev = L.prev := by
  cases p <;> rfl

theorem setPrevOf_prev_of_ne {n y : Option α} (h : n ≠ some x) :
    (L.setPrevOf n y).prev x = L.prev x := by
  cases n with
  | none => rfl
  | some n => exact update_of_ne (fun hx => h (by rw [hx])) ..

theorem redirect_next_of_ne {head p y : Option α} (h : p ≠ some x) :
    (L.redirect head p y).1.next x = L.next x := by
  cases p with
  | none => rfl
  | some p => exact update_of_ne (fun hx => h (by rw [hx])) ..

/-- Redirecting what points behind the first part of a list. -/
theorem Seg.redirect {head mid : Option α} (h : Seg L none head l mid)
    (hnodup : l.Nodup) (y : Option α) :
    Seg (L.redirect head l.getLast? y).1 none (L.redirect head l.getLast? y).2 l y := by
  rcases eq_nil_or_concat' l with rfl | ⟨l, p, rfl⟩
  · rfl
  · rw [getLast?_append_of_ne_nil _ (by simp), getLast?_singleton]
    obtain ⟨m, h₁, h₂⟩ := seg_append.1 h
    have hp : p ∉ l := fun hp => (nodup_append.1 hnodup).2.2 p hp p (by simp) rfl
    refine seg_append.2 ⟨m, h₁.congr fun x hx => ?_, h₂.1, h₂.2.1, ?_⟩
    · exact ⟨redirect_next_of_ne fun hx' => hp (Option.some.inj hx' ▸ hx), rfl⟩
    · exact update_self ..

/-- Changing what the first node of the second part of a list points back to. -/
theorem Seg.setPrevOf {left : Option α}
    (h : Seg L left l.head? l none) (hnodup : l.Nodup) (y : Option α) :
    Seg (L.setPrevOf l.head? y) y l.head? l none := by
  cases l with
  | nil => rfl
  | cons n l =>
    refine ⟨rfl, update_self .., ?_⟩
    refine h.2.2.congr fun x hx => ⟨by rw [setPrevOf_next], setPrevOf_prev_of_ne fun hx' => ?_⟩
    exact (nodup_cons.1 hnodup).1 (Option.some.inj hx' ▸ hx)

/-- Take node `x` out of its list. -/
def Links.remove (L : Links α) (head : Option α) (x : α) : Links α × Option α :=
  let (L, head) := L.redirect head (L.prev x) (L.next x)
  (L.setPrevOf (L.next x) (L.prev x), head)

/-- Put node `x` between `left` and `right`. -/
def Links.insert (L : Links α) (head left right : Option α) (x : α) : Links α × Option α :=
  let L := (L.setNext x right).setPrevOf right (some x)
  (L.setPrev x left).redirect head left (some x)

variable {L : Links α} {head : Option α} {l₁ l₂ : List α} {x : α}

/-- **Removal.** -/
theorem IsList.remove (h : IsList L head (l₁ ++ x :: l₂)) (hnodup : (l₁ ++ x :: l₂).Nodup) :
    IsList (L.remove head x).1 (L.remove head x).2 (l₁ ++ l₂) ∧
      ∀ y ∉ l₁ ++ x :: l₂, (L.remove head x).1.next y = L.next y ∧
        (L.remove head x).1.prev y = L.prev y := by
  obtain ⟨hprev, hnext⟩ := h.links
  obtain ⟨h₁, h₂⟩ := h.split
  obtain ⟨hnd₁, hnd₂, hdisj⟩ := nodup_append.1 hnodup
  obtain ⟨hx₂, hnd₂⟩ := nodup_cons.1 hnd₂
  have hx₁ : x ∉ l₁ := fun hx => hdisj x hx x (mem_cons_self ..) rfl
  have hkeep : (L.redirect head (L.prev x) (L.next x)).1.next x = L.next x :=
    redirect_next_of_ne (hprev ▸ getLast?_ne_of_notMem hx₁)
  simp only [Links.remove, redirect_prev, hkeep]
  rw [hprev, hnext]
  refine ⟨IsList.join ?_ ?_, fun y hy => ⟨?_, ?_⟩⟩
  · refine (h₁.redirect hnd₁ l₂.head?).congr fun y hy => ⟨by rw [setPrevOf_next], ?_⟩
    exact setPrevOf_prev_of_ne (head?_ne_of_notMem fun hy₂ => hdisj y hy y (.tail x hy₂) rfl)
  · have hrest := h₂.2.2
    rw [hnext] at hrest
    refine Seg.setPrevOf (hrest.congr fun y hy => ⟨?_, by rw [redirect_prev]⟩) hnd₂ _
    exact redirect_next_of_ne (getLast?_ne_of_notMem fun hy₁ => hdisj y hy₁ y (.tail x hy) rfl)
  · rw [setPrevOf_next]
    exact redirect_next_of_ne (getLast?_ne_of_notMem fun hy₁ => hy (by simp [hy₁]))
  · rw [setPrevOf_prev_of_ne (head?_ne_of_notMem fun hy₂ => hy (by simp [hy₂])), redirect_prev]

/-- **Insertion.** -/
theorem IsList.insert (h : IsList L head (l₁ ++ l₂)) (hnodup : (l₁ ++ l₂).Nodup)
    (hx : x ∉ l₁ ++ l₂) :
    IsList (L.insert head l₁.getLast? l₂.head? x).1 (L.insert head l₁.getLast? l₂.head? x).2
        (l₁ ++ x :: l₂) ∧
      ∀ y ∉ l₁ ++ x :: l₂, (L.insert head l₁.getLast? l₂.head? x).1.next y = L.next y ∧
        (L.insert head l₁.getLast? l₂.head? x).1.prev y = L.prev y := by
  obtain ⟨h₁, h₂⟩ := h.split
  obtain ⟨hnd₁, hnd₂, hdisj⟩ := nodup_append.1 hnodup
  have hx₁ : x ∉ l₁ := fun hx' => hx (mem_append_left _ hx')
  have hx₂ : x ∉ l₂ := fun hx' => hx (mem_append_right _ hx')
  set M := ((L.setNext x l₂.head?).setPrevOf l₂.head? (some x)).setPrev x l₁.getLast? with hM
  have hMnext : ∀ y, y ≠ x → M.next y = L.next y := by
    intro y hy
    change ((L.setNext x l₂.head?).setPrevOf l₂.head? (some x)).next y = _
    rw [setPrevOf_next]
    exact update_of_ne hy ..
  have hMprev : ∀ y, y ≠ x → y ∉ l₂ → M.prev y = L.prev y := by
    intro y hy hy₂
    refine (update_of_ne hy ..).trans ?_
    exact setPrevOf_prev_of_ne (head?_ne_of_notMem hy₂)
  refine ⟨IsList.join ?_ ⟨rfl, ?_, ?_⟩, fun y hy => ⟨?_, ?_⟩⟩
  · have hfirst : Seg M none head l₁ l₂.head? := h₁.congr fun y hy => by
      have hyx : y ≠ x := fun hyx => hx₁ (hyx ▸ hy)
      exact ⟨hMnext y hyx, hMprev y hyx fun hy₂ => hdisj y hy y hy₂ rfl⟩
    exact hfirst.redirect hnd₁ (some x)
  · change (M.redirect head l₁.getLast? (some x)).1.prev x = _
    rw [redirect_prev]
    exact update_self ..
  · have hnext : (M.redirect head l₁.getLast? (some x)).1.next x = l₂.head? := by
      rw [redirect_next_of_ne (getLast?_ne_of_notMem hx₁)]
      change ((L.setNext x l₂.head?).setPrevOf l₂.head? (some x)).next x = _
      rw [setPrevOf_next]
      exact update_self ..
    change Seg (M.redirect head l₁.getLast? (some x)).1 _
      ((M.redirect head l₁.getLast? (some x)).1.next x) _ _
    rw [hnext]
    have hsecond : Seg (L.setNext x l₂.head?) l₁.getLast? l₂.head? l₂ none :=
      h₂.congr fun y hy => by
        have hyx : y ≠ x := fun hyx => hx₂ (hyx ▸ hy)
        exact ⟨update_of_ne hyx .., rfl⟩
    refine (hsecond.setPrevOf hnd₂ (some x)).congr fun y hy => ?_
    have hyx : y ≠ x := fun hyx => hx₂ (hyx ▸ hy)
    refine ⟨redirect_next_of_ne (getLast?_ne_of_notMem fun hy₁ => hdisj y hy₁ y hy rfl), ?_⟩
    rw [redirect_prev]
    exact update_of_ne hyx ..
  · have hyx : y ≠ x := fun hyx => hy (by simp [hyx])
    refine (redirect_next_of_ne (getLast?_ne_of_notMem fun hy₁ => hy (by simp [hy₁]))).trans ?_
    exact hMnext y hyx
  · have hyx : y ≠ x := fun hyx => hy (by simp [hyx])
    change (M.redirect head l₁.getLast? (some x)).1.prev y = _
    rw [redirect_prev]
    exact hMprev y hyx fun hy₂ => hy (by simp [hy₂])

end Edit

end DoublyLinked
