import Mathlib

/-!
# Rings of flagged links

A list stored as a ring: every node has a forward and a backward link, and two flags that say
whether it is the first and the last of its list. The backward link of the first node is the last
node; the forward link of the last node is the root the list hangs from, which itself has no
links. `Ring s root l` says that the links `s` store the list `l` of nodes under `root`.

The four fields of a node are four functions of the node, so that writes to different fields never
alias even where the first node is also the last. Each edit is given as the writes it makes, and
its rule says which list the ring stores afterwards.
-/

namespace Ring

open Function List

variable {α : Type*}

/-- The link fields of all nodes. -/
structure Links (α : Type*) where
  next : α → α
  prev : α → α
  head : α → Bool
  tail : α → Bool

/-- `a` and `b` are linked both ways, and neither end of a list lies between them. -/
structure Adjacent (s : Links α) (a b : α) : Prop where
  next : s.next a = b
  prev : s.prev b = a
  tail : s.tail a = false
  head : s.head b = false

/-- The links store the list `l` under `root`. -/
structure Stores (s : Links α) (root : α) (l : List α) : Prop where
  chain : l.IsChain (Adjacent s)
  first : ∀ a ∈ l.head?, s.head a = true ∧ ∀ b ∈ l.getLast?, s.prev a = b
  last : ∀ b ∈ l.getLast?, s.tail b = true ∧ s.next b = root

/-- Two sets of links agree on a node. -/
structure Agree (s s' : Links α) (a : α) : Prop where
  next : s'.next a = s.next a
  prev : s'.prev a = s.prev a
  head : s'.head a = s.head a
  tail : s'.tail a = s.tail a

variable {s s' : Links α} {root m a b : α} {l pre post : List α}

theorem stores_nil : Stores s root [] :=
  ⟨List.IsChain.nil, by simp, by simp⟩

/-- A ring reads the links of its own nodes only. -/
theorem Stores.congr (h : Stores s root l) (hag : ∀ a ∈ l, Agree s s' a) : Stores s' root l where
  chain := by
    refine h.chain.imp_of_mem_imp fun a b ha hb hab => ?_
    exact ⟨(hag a ha).next.trans hab.next, (hag b hb).prev.trans hab.prev,
      (hag a ha).tail.trans hab.tail, (hag b hb).head.trans hab.head⟩
  first := by
    intro a ha
    have hagree := hag a (mem_of_mem_head? ha)
    rw [hagree.head, hagree.prev]
    exact h.first a ha
  last := by
    intro b hb
    have hagree := hag b (mem_of_mem_getLast? hb)
    rw [hagree.tail, hagree.next]
    exact h.last b hb

/-! ### What the links of a node say -/

theorem Stores.adjacent (h : Stores s root (pre ++ a :: b :: post)) : Adjacent s a b := by
  have hchain := (isChain_append.1 h.chain).2.1
  exact (isChain_cons_cons.1 hchain).1

theorem Stores.adjacent_cons (h : Stores s root (a :: b :: post)) : Adjacent s a b :=
  (isChain_cons_cons.1 h.chain).1

theorem Stores.head_cons (h : Stores s root (a :: post)) : s.head a = true :=
  (h.first a (by simp)).1

theorem Stores.prev_cons (h : Stores s root (a :: post)) :
    s.prev a = (a :: post).getLast (cons_ne_nil a post) :=
  (h.first a (by simp)).2 _ (getLast?_eq_getLast_of_ne_nil _)

theorem Stores.tail_concat (h : Stores s root (pre ++ [a])) : s.tail a = true :=
  (h.last a (by simp)).1

theorem Stores.next_concat (h : Stores s root (pre ++ [a])) : s.next a = root :=
  (h.last a (by simp)).2

/-- The backward link of a node is in the list: the node before it, or the last one. -/
theorem Stores.prev_mem (h : Stores s root l) (ha : a ∈ l) : s.prev a ∈ l := by
  obtain ⟨pre, post, rfl⟩ := append_of_mem ha
  rcases eq_nil_or_concat pre with rfl | ⟨pre', c, rfl⟩
  · rw [nil_append] at h ⊢
    rw [h.prev_cons]
    exact getLast_mem _
  · have hadj : Adjacent s c a := by
      rw [concat_eq_append, append_assoc] at h
      exact h.adjacent
    rw [hadj.prev]
    simp

/-! ### Edits -/

section Edits

variable [DecidableEq α]

/-- `m` becomes the only node of its list. -/
def Links.linkOnly (s : Links α) (root m : α) : Links α where
  next := update s.next m root
  prev := update s.prev m m
  head := update s.head m true
  tail := update s.tail m true

/-- `m` goes in before the first node `a`. -/
def Links.linkFirst (s : Links α) (m a : α) : Links α where
  next := update s.next m a
  prev := update (update s.prev m (s.prev a)) a m
  head := update (update s.head a false) m true
  tail := update s.tail m false

/-- `m` goes in behind the last node `b`, where `a` is the first one. -/
def Links.linkLast (s : Links α) (root m a b : α) : Links α where
  next := update (update s.next b m) m root
  prev := update (update s.prev a m) m b
  head := update s.head m false
  tail := update (update s.tail b false) m true

/-- The last node `m` goes, where `a` is the first one. -/
def Links.unlinkLast (s : Links α) (m a : α) : Links α where
  next := update s.next (s.prev m) (s.next m)
  prev := update s.prev a (s.prev m)
  head := s.head
  tail := update s.tail (s.prev m) true

/-- The first node `m` goes. -/
def Links.unlinkFirst (s : Links α) (m : α) : Links α where
  next := s.next
  prev := update s.prev (s.next m) (s.prev m)
  head := update s.head (s.next m) true
  tail := s.tail

/-- The node `m` goes, which is neither the first nor the last one. -/
def Links.unlinkMiddle (s : Links α) (m : α) : Links α where
  next := update s.next (s.prev m) (s.next m)
  prev := update s.prev (s.next m) (s.prev m)
  head := s.head
  tail := s.tail

theorem agree_linkOnly (h : a ≠ m) : Agree s (s.linkOnly root m) a := by
  constructor <;> simp [Links.linkOnly, h]

theorem agree_linkFirst (h : a ≠ m) (hb : a ≠ b) : Agree s (s.linkFirst m b) a := by
  constructor <;> simp [Links.linkFirst, h, hb]

theorem agree_linkLast {c : α} (h : a ≠ m) (hb : a ≠ b) (hc : a ≠ c) :
    Agree s (s.linkLast root m b c) a := by
  constructor <;> simp [Links.linkLast, h, hb, hc]

theorem agree_unlinkLast (hb : a ≠ b) (hprev : a ≠ s.prev m) : Agree s (s.unlinkLast m b) a := by
  constructor <;> simp [Links.unlinkLast, hb, hprev]

theorem agree_unlinkFirst (hnext : a ≠ s.next m) : Agree s (s.unlinkFirst m) a := by
  constructor <;> simp [Links.unlinkFirst, hnext]

theorem agree_unlinkMiddle (hprev : a ≠ s.prev m) (hnext : a ≠ s.next m) :
    Agree s (s.unlinkMiddle m) a := by
  constructor <;> simp [Links.unlinkMiddle, hprev, hnext]

theorem stores_linkOnly : Stores (s.linkOnly root m) root [m] where
  chain := List.IsChain.singleton m
  first := by simp [Links.linkOnly]
  last := by simp [Links.linkOnly]

theorem Stores.linkFirst (h : Stores s root (a :: l)) (hm : m ∉ a :: l) :
    Stores (s.linkFirst m a) root (m :: a :: l) := by
  obtain ⟨hma, hml⟩ : m ≠ a ∧ m ∉ l := by simpa using hm
  refine ⟨isChain_cons_cons.2 ⟨?_, ?_⟩, ?_, ?_⟩
  · constructor <;> simp [Links.linkFirst, hma.symm]
  · refine h.chain.imp_of_mem_tail_imp fun x y hx hy hxy => ?_
    have hxm : x ≠ m := fun e => hm (e ▸ hx)
    have hym : y ≠ m := fun e => hml (e ▸ hy)
    -- The second of two neighbours is never the first node, whose flag is set.
    have hya : y ≠ a := fun e => by simpa [e, h.head_cons] using hxy.head
    constructor <;> simp [Links.linkFirst, hxm, hym, hya, hxy.next, hxy.prev, hxy.tail, hxy.head]
  · have hprev := h.prev_cons
    simp [Links.linkFirst, hma, hprev, getLast?_eq_getLast_of_ne_nil]
  · intro b hb
    have hbm : b ≠ m := fun e => hm (e ▸ mem_of_mem_getLast? hb)
    simpa [Links.linkFirst, hbm] using h.last b hb

theorem Stores.linkLast (h : Stores s root l) (ha : l.head? = some a) (hb : l.getLast? = some b)
    (hm : m ∉ l) : Stores (s.linkLast root m a b) root (l ++ [m]) := by
  have ham : a ≠ m := fun e => hm (e ▸ mem_of_mem_head? ha)
  have hbm : b ≠ m := fun e => hm (e ▸ mem_of_mem_getLast? hb)
  refine ⟨isChain_append.2 ⟨?_, List.IsChain.singleton m, ?_⟩, ?_, ?_⟩
  · refine h.chain.imp_of_mem_imp fun x y hx hy hxy => ?_
    have hxm : x ≠ m := fun e => hm (e ▸ hx)
    have hym : y ≠ m := fun e => hm (e ▸ hy)
    -- Two neighbours are told from the ends of the list by their flags.
    have hxb : x ≠ b := fun e => by simpa [e, (h.last b hb).1] using hxy.tail
    have hya : y ≠ a := fun e => by simpa [e, (h.first a ha).1] using hxy.head
    constructor <;>
      simp [Links.linkLast, hxm, hym, hxb, hya, hxy.next, hxy.prev, hxy.tail, hxy.head]
  · intro x hx y hy
    obtain rfl : x = b := by simpa [hb] using hx.symm
    obtain rfl : y = m := by simpa using hy.symm
    constructor <;> simp [Links.linkLast, hbm]
  · intro x hx
    obtain rfl : x = a := by simpa [head?_append, ha] using hx.symm
    simpa [Links.linkLast, ham] using (h.first x ha).1
  · simp [Links.linkLast]

theorem Stores.unlinkLast (h : Stores s root (l ++ [b, m])) (ha : (l ++ [b]).head? = some a)
    (hm : m ∉ l ++ [b]) : Stores (s.unlinkLast m a) root (l ++ [b]) := by
  have hbm : Adjacent s b m := h.adjacent
  have hfirst : s.head a = true := by
    refine (h.first a ?_).1
    cases l <;> simpa using ha
  have hlast : s.next m = root := by
    rw [show l ++ [b, m] = (l ++ [b]) ++ [m] by simp] at h
    exact h.next_concat
  refine ⟨?_, ?_, ?_⟩
  · rw [show l ++ [b, m] = (l ++ [b]) ++ [m] by simp] at h
    refine (isChain_append.1 h.chain).1.imp_of_mem_imp fun x y _ hy hxy => ?_
    -- `m` comes after `b`, so nothing of the rest does.
    have hxb : x ≠ b := by
      rintro rfl
      exact hm (hbm.next.symm.trans hxy.next ▸ hy)
    have hya : y ≠ a := fun e => by simpa [e, hfirst] using hxy.head
    constructor <;>
      simp [Links.unlinkLast, hbm.prev, hxb, hya, hxy.next, hxy.prev, hxy.tail, hxy.head]
  · intro x hx
    obtain rfl : x = a := by simpa [ha] using hx.symm
    simp [Links.unlinkLast, hfirst, hbm.prev]
  · simp [Links.unlinkLast, hbm.prev, hlast]

theorem Stores.unlinkFirst (h : Stores s root (m :: a :: l)) (hm : m ∉ a :: l) :
    Stores (s.unlinkFirst m) root (a :: l) := by
  have hma : Adjacent s m a := h.adjacent_cons
  refine ⟨?_, ?_, ?_⟩
  · refine (isChain_cons_cons.1 h.chain).2.imp_of_mem_imp fun x y hx _ hxy => ?_
    -- `m` comes before `a`, so nothing of the rest does.
    have hya : y ≠ a := by
      rintro rfl
      exact hm (hma.prev.symm.trans hxy.prev ▸ hx)
    constructor <;>
      simp [Links.unlinkFirst, hma.next, hya, hxy.next, hxy.prev, hxy.tail, hxy.head]
  · have hprev := h.prev_cons
    simp [Links.unlinkFirst, hma.next, hprev, getLast?_eq_getLast_of_ne_nil]
  · intro b hb
    have hlast := h.last b (by rwa [getLast?_cons_cons])
    simpa [Links.unlinkFirst] using hlast

theorem Stores.unlinkMiddle (h : Stores s root (pre ++ a :: m :: b :: post))
    (hm : m ∉ pre ++ [a] ∧ m ∉ b :: post) :
    Stores (s.unlinkMiddle m) root (pre ++ a :: b :: post) := by
  have ham : Adjacent s a m := h.adjacent
  have hmb : Adjacent s m b := by
    rw [show pre ++ a :: m :: b :: post = (pre ++ [a]) ++ m :: b :: post by simp] at h
    exact h.adjacent
  -- A pair of neighbours that leaves `m` out keeps its links.
  have hkeep : ∀ x y, x ≠ m → y ≠ m → Adjacent s x y → Adjacent (s.unlinkMiddle m) x y := by
    intro x y hx hy hxy
    have hxa : x ≠ a := fun e => hy (by rw [← ham.next, ← e, hxy.next])
    have hyb : y ≠ b := fun e => hx (by rw [← hmb.prev, ← e, hxy.prev])
    constructor <;>
      simp [Links.unlinkMiddle, ham.prev, hmb.next, hxa, hyb, hxy.next, hxy.prev, hxy.tail,
        hxy.head]
  have hsplit := h.chain
  rw [show pre ++ a :: m :: b :: post = (pre ++ [a]) ++ m :: b :: post by simp,
    isChain_append] at hsplit
  obtain ⟨hpre, hpost, -⟩ := hsplit
  refine ⟨?_, ?_, ?_⟩
  · rw [show pre ++ a :: b :: post = (pre ++ [a]) ++ b :: post by simp, isChain_append]
    refine ⟨hpre.imp_of_mem_imp fun x y hx hy => hkeep x y ?_ ?_,
      (isChain_cons_cons.1 hpost).2.imp_of_mem_imp fun x y hx hy => hkeep x y ?_ ?_, ?_⟩
    · exact fun e => hm.1 (e ▸ hx)
    · exact fun e => hm.1 (e ▸ hy)
    · exact fun e => hm.2 (e ▸ hx)
    · exact fun e => hm.2 (e ▸ hy)
    · intro x hx y hy
      obtain rfl : x = a := by simpa using hx.symm
      obtain rfl : y = b := by simpa using hy.symm
      constructor <;> simp [Links.unlinkMiddle, ham.prev, hmb.next, ham.tail, hmb.head]
  · intro x hx
    have hfirst := h.first x (by cases pre <;> simpa using hx)
    have hxb : x ≠ b := fun e => by simpa [e, hmb.head] using hfirst.1
    simpa [Links.unlinkMiddle, hmb.next, hxb, getLast?_append, getLast?_cons] using hfirst
  · intro x hx
    have hlast := h.last x (by simpa [getLast?_append, getLast?_cons] using hx)
    have hxa : x ≠ a := fun e => by simpa [e, ham.tail] using hlast.1
    simpa [Links.unlinkMiddle, ham.prev, hxa] using hlast

end Edits

end Ring
