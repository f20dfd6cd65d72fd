import Viengoos.Addr
import Viengoos.Lib.Outcome
import Viengoos.Lib.Segment

/-!
# Intrusive lists

The lists of `viengoos/list.h`. A list has a pointer to its first node and a count; a node has two
links. The links at the ends are sentinels, told from other pointers by their lowest bit: the first
node's backward link leads to the last node, and the last node's forward link to the list itself.
Lists and nodes are any two types, since one header serves several kinds of both.

What is compiled depends on the build: `NDEBUG` drops the assertions, and with them the two stores
by which `list_dequeue` clears the links of the node it takes off; `NCHECK` drops the checks that
walk through a list. Every build keeps the lists in agreement with sequences of nodes. But the test
whether a node is on a list reads what removing it has left in it.
-/

namespace Viengoos

open Outcome Segment List

variable {K N : Type} [DecidableEq K] [DecidableEq N]

/-- What a link field may hold. The last two are the sentinels. -/
inductive ListPtr (K N : Type)
  | null
  | node (n : N)
  | endNode (n : N)
  | endList (k : K)
deriving DecidableEq, Repr

namespace ListPtr

/-- `LIST_SENTINEL_P`. -/
def sentinel : ListPtr K N → Bool
  | endNode _ | endList _ => true
  | null | node _ => false

/-- `LIST_PTR`, where the code goes on to use a node. Anything else is a wild pointer. -/
def ptr : ListPtr K N → Except Fault N
  | node n | endNode n => pure n
  | null | endList _ => throw .assertion

end ListPtr

/-- What the preprocessor is told. -/
structure ListBuild where
  ndebug : Bool
  ncheck : Bool
deriving DecidableEq, Repr

/-- All lists and nodes: `head` and `count` of a list, `next` and `prev` of a node. -/
structure Lists (K N : Type) where
  head : K → Option N
  count : K → ℤ
  links : Links N (ListPtr K N)

/-- `assert`. -/
def ListBuild.assert (b : ListBuild) (p : Prop) [Decidable p] : Except Fault Unit :=
  if b.ndebug then pure () else require p .assertion

namespace Lists

/-- Zeroed memory. -/
def init : Lists K N := ⟨fun _ => none, fun _ => 0, ⟨fun _ => .null, fun _ => .null⟩⟩

def setHead (s : Lists K N) (k : K) (n : Option N) : Lists K N :=
  { s with head := Function.update s.head k n }

def setCount (s : Lists K N) (k : K) (c : ℤ) : Lists K N :=
  { s with count := Function.update s.count k c }

def setNext (s : Lists K N) (n : N) (p : ListPtr K N) : Lists K N :=
  { s with links := s.links.setNext n p }

def setPrev (s : Lists K N) (n : N) (p : ListPtr K N) : Lists K N :=
  { s with links := s.links.setPrev n p }

/-! ### Looking -/

/-- `list_node_attached`. -/
def listNodeAttached (s : Lists K N) (n : N) : Bool := s.links.next n != .null

/-- `list_head`. -/
def listHead (s : Lists K N) (k : K) : Option N := s.head k

variable (b : ListBuild)

/-- The assertions on the tail: it is the node a sentinel leads to, and its forward link leads
to the list. -/
def tailOf (s : Lists K N) (k : K) (head : N) : Except Fault N := do
  b.assert ((s.links.prev head).sentinel = true)
  let tail ← (s.links.prev head).ptr
  b.assert (s.links.next tail = .endList k)
  pure tail

/-- `list_tail`. -/
def listTail (s : Lists K N) (k : K) : Except Fault (Option N) :=
  match s.head k with
  | none => pure none
  | some head => do
    let tail ← s.tailOf b k head
    pure (some tail)

/-- `list_next`. -/
def listNext (s : Lists K N) (n : N) : Option N :=
  match s.links.next n with
  | .node m => some m
  | .null | .endNode _ | .endList _ => none

/-- `list_prev`. -/
def listPrev (s : Lists K N) (n : N) : Option N :=
  match s.links.prev n with
  | .node m => some m
  | .null | .endNode _ | .endList _ => none

/-- The loop of `list_count`. -/
def countFrom (s : Lists K N) : ℕ → Option N → Except Fault ℤ
  | _, none => pure 0
  | 0, some _ => throw .outOfFuel
  | fuel + 1, some n => do
    let c ← countFrom s fuel (s.listNext n)
    pure (c + 1)

/-- `list_count`. -/
def listCount (fuel : ℕ) (s : Lists K N) (k : K) : Except Fault ℤ :=
  if b.ncheck then pure (s.count k)
  else do
    let count ← s.countFrom fuel (s.listHead k)
    b.assert (count = s.count k)
    pure (s.count k)

/-- The walk of `list_unlink` to the end: the list the node is on. -/
def listOf (s : Lists K N) : ℕ → N → Except Fault K
  | 0, _ => throw .outOfFuel
  | fuel + 1, n =>
    match s.links.next n with
    | .endList k => pure k
    | .node m => listOf s fuel m
    | .null | .endNode _ => throw .assertion

/-! ### Changing -/

/-- A node that is to be added must have null links. -/
def assertClear (s : Lists K N) (item : N) : Except Fault Unit := do
  b.assert (s.links.next item = .null)
  b.assert (s.links.prev item = .null)

/-- `list_push`. -/
def listPush (s : Lists K N) (k : K) (item : N) : Except Fault (Lists K N) := do
  s.assertClear b item
  match s.head k with
  | some head => do
    let tail ← s.tailOf b k head
    let s := ((s.setNext item (.node head)).setPrev item (.endNode tail)).setPrev head (.node item)
    pure ((s.setHead k (some item)).setCount k (s.count k + 1))
  | none => do
    b.assert (s.count k = 0)
    let s := (s.setNext item (.endList k)).setPrev item (.endNode item)
    pure ((s.setHead k (some item)).setCount k (s.count k + 1))

/-- `list_enqueue`. -/
def listEnqueue (s : Lists K N) (k : K) (item : N) : Except Fault (Lists K N) := do
  s.assertClear b item
  match s.head k with
  | some head => do
    let tail ← s.tailOf b k head
    let s := (s.setNext item (.endList k)).setPrev item (.node tail)
    let s := (s.setPrev head (.endNode item)).setNext tail (.node item)
    pure (s.setCount k (s.count k + 1))
  | none => do
    b.assert (s.count k = 0)
    let s := (s.setNext item (.endList k)).setPrev item (.endNode item)
    pure ((s.setHead k (some item)).setCount k (s.count k + 1))

/-- The links of the node that was taken off are cleared, unless for `NDEBUG`. -/
def clearUnless (s : Lists K N) (item : N) : Lists K N :=
  if b.ndebug then s else (s.setNext item .null).setPrev item .null

/-- The assertion of `list_dequeue` on the tail. -/
def tailLeads (s : Lists K N) (k : K) (item : N) : Bool :=
  match (s.links.prev item).ptr with
  | .ok tail => s.links.next tail == .endList k
  | .error _ => false

/-- `list_dequeue`. -/
def listDequeue (s : Lists K N) (k : K) : Except Fault (Lists K N × Option N) :=
  match s.head k with
  | none => do
    b.assert (s.count k = 0)
    pure (s, none)
  | some item => do
    b.assert ((s.links.prev item).sentinel = true)
    let head := s.listNext item
    b.assert (s.tailLeads k item = true)
    match head with
    | none => do
      b.assert (s.links.next item = .endList k)
      b.assert (s.links.prev item = .endNode item)
      b.assert (s.count k = 1)
      pure (((s.setHead k none).setCount k (s.count k - 1)).clearUnless b item, some item)
    | some head =>
      let s := (s.setHead k (some head)).setPrev head (s.links.prev item)
      pure ((s.setCount k (s.count k - 1)).clearUnless b item, some item)

/-- `list_insert_after`. -/
def listInsertAfter (s : Lists K N) (k : K) (item : N) (node : Option N) :
    Except Fault (Lists K N) := do
  s.assertClear b item
  match node with
  | none => s.listPush b k item
  | some node =>
    let next := s.links.next node
    let s := ((s.setNext item next).setNext node (.node item)).setPrev item (.node node)
    if next.sentinel then
      match s.head k with
      | none => throw .assertion
      | some head => do
        b.assert (s.links.prev head = .endNode node)
        let s := s.setPrev head (.endNode item)
        pure (s.setCount k (s.count k + 1))
    else do
      let s := s.setPrev (← next.ptr) (.node item)
      pure (s.setCount k (s.count k + 1))

/-- The middle of `list_unlink`: the four cases of where the node is. -/
def detach (s : Lists K N) (k : K) (item : N) : Except Fault (Lists K N) :=
  let next := s.links.next item
  let prev := s.links.prev item
  if next.sentinel ∧ prev.sentinel then do
    b.assert (s.count k = 1)
    b.assert (s.head k = some item)
    b.assert (next = .endList k)
    pure (s.setHead k none)
  else if prev.sentinel then do
    let tail ← prev.ptr
    b.assert (s.links.next tail = .endList k)
    let head ← next.ptr
    pure ((s.setHead k (some head)).setPrev head prev)
  else if next.sentinel then do
    b.assert (next = .endList k)
    let before ← prev.ptr
    match s.head k with
    | none => throw .assertion
    | some head => pure ((s.setPrev head (.endNode before)).setNext before next)
  else do
    let after ← next.ptr
    let before ← prev.ptr
    pure ((s.setPrev after prev).setNext before next)

/-- The check of `list_unlink` that the node is on the list. -/
def assertOn (fuel : ℕ) (s : Lists K N) (k : K) (item : N) : Except Fault Unit :=
  if b.ncheck || b.ndebug then pure ()
  else do
    let on ← s.listOf fuel item
    require (on = k) .assertion

/-- `list_unlink`. -/
def listUnlink (fuel : ℕ) (s : Lists K N) (k : K) (item : N) : Except Fault (Lists K N) := do
  b.assert (s.links.next item ≠ .null)
  b.assert (s.links.prev item ≠ .null)
  s.assertOn b fuel k item
  let s ← s.detach b k item
  let s := (s.setNext item .null).setPrev item .null
  pure (s.setCount k (s.count k - 1))

/-- `list_move`. -/
def listMove (s : Lists K N) (target source : K) : Except Fault (Lists K N) := do
  b.assert (s.head target = none)
  b.assert (s.count target = 0)
  let s := (s.setHead target (s.head source)).setCount target (s.count source)
  match s.head target with
  | none => pure ((s.setHead source none).setCount source 0)
  | some head => do
    let tail ← (s.links.prev head).ptr
    let s := s.setNext tail (.endList target)
    pure ((s.setHead source none).setCount source 0)

/-- `list_join`. -/
def listJoin (s : Lists K N) (target source : K) : Except Fault (Lists K N) :=
  match s.head source, s.head target with
  | none, _ => pure s
  | some _, none => s.listMove b target source
  | some shead, some thead => do
    let ttail ← (s.links.prev thead).ptr
    let s := s.setNext ttail (.node shead)
    let stail ← (s.links.prev shead).ptr
    let s := s.setNext stail (.endList target)
    let s := s.setPrev shead (.node ttail)
    let s := s.setPrev thead (.endNode stail)
    let s := s.setHead source none
    pure ((s.setCount target (s.count target + s.count source)).setCount source 0)

/-! ### The sequences lists stand for -/

/-- The backward link of the first node. -/
def backEnd (l : List N) : ListPtr K N := (l.getLast?.map .endNode).getD .null

/-- **Each list stands for a sequence of nodes.** -/
structure Represents (s : Lists K N) (L : K → List N) : Prop where
  head : ∀ k, s.head k = (L k).head?
  count : ∀ k, s.count k = (L k).length
  linked : ∀ k, Linked .node s.links (backEnd (L k)) (L k) (.endList k)
  nodup : ∀ k, (L k).Nodup
  disjoint : ∀ k k' n, n ∈ L k → n ∈ L k' → k = k'

/-- Nodes on no list have null links. -/
def Clear (s : Lists K N) (L : K → List N) : Prop :=
  ∀ n, (∀ k, n ∉ L k) → s.links.next n = .null ∧ s.links.prev n = .null

section Looking

variable {b : ListBuild} {s s' : Lists K N} {L : K → List N} {k : K} {n : N} {l pre post : List N}

@[simp] theorem assert_of {p : Prop} [Decidable p] (h : p) : b.assert p = .ok () := by
  unfold ListBuild.assert
  split
  · rfl
  · exact require_of h

omit [DecidableEq K] [DecidableEq N] in
theorem backEnd_concat : backEnd (K := K) (l ++ [n]) = .endNode n := by simp [backEnd]

omit [DecidableEq K] [DecidableEq N] in
theorem backEnd_of_mem {m : N} (h : m ∈ l.getLast?) : backEnd (K := K) l = .endNode m := by
  simp [backEnd, Option.mem_def.1 h]

omit [DecidableEq N] in
/-- A list that is not empty has a first and a last node. -/
theorem exists_ends (h : l ≠ []) : ∃ hd m, hd ∈ l.head? ∧ m ∈ l.getLast? :=
  ⟨l.head h, l.getLast h, head?_eq_some_head h, getLast?_eq_getLast_of_ne_nil h⟩

section

variable (h : Represents s L)

include h

omit [DecidableEq K] [DecidableEq N] in
/-- The links of a node on a list. -/
theorem Represents.links (hl : L k = pre ++ n :: post) :
    s.links.prev n = last .node pre (backEnd (L k)) ∧
      s.links.next n = first .node post (.endList k) := by
  have hlinked := h.linked k
  rw [hl] at hlinked ⊢
  exact hlinked.links

omit [DecidableEq K] [DecidableEq N] in
theorem Represents.next_ne_null (hn : n ∈ L k) :
    s.links.next n ≠ .null ∧ s.links.prev n ≠ .null := by
  obtain ⟨-, m, -, hm⟩ := exists_ends (ne_nil_of_mem hn)
  obtain ⟨pre, post, hl⟩ := append_of_mem hn
  obtain ⟨hprev, hnext⟩ := h.links hl
  rw [hprev, hnext, backEnd_of_mem hm]
  constructor
  · cases post <;> simp
  · rcases eq_nil_or_concat' pre with rfl | ⟨pre, x, rfl⟩ <;> simp

omit [DecidableEq K] [DecidableEq N] in
/-- The first node leads to the last one, and the last one to the list. -/
theorem Represents.ends {hd m : N} (hhd : hd ∈ (L k).head?) (hm : m ∈ (L k).getLast?) :
    s.links.prev hd = .endNode m ∧ s.links.next m = .endList k := by
  obtain ⟨post, hpost⟩ := head?_eq_some_iff.1 hhd
  obtain ⟨pre, hpre⟩ := getLast?_eq_some_iff.1 hm
  constructor
  · rw [(h.links (show L k = [] ++ hd :: post from hpost)).1, last_nil, backEnd_of_mem hm]
  · rw [(h.links hpre).2, first_nil]

theorem Represents.tailOf_eq {hd m : N} (hhd : hd ∈ (L k).head?) (hm : m ∈ (L k).getLast?) :
    s.tailOf b k hd = .ok m := by
  obtain ⟨hprev, hnext⟩ := h.ends hhd hm
  unfold tailOf
  rw [hprev]
  simp only [ListPtr.sentinel, assert_of, ListPtr.ptr, ok_bind]
  change (b.assert _ >>= _) = _
  rw [assert_of hnext]
  rfl

omit [DecidableEq K] [DecidableEq N] in
/-- **What the functions that look see** is the sequence. -/
theorem Represents.listHead_eq (k : K) : s.listHead k = (L k).head? := h.head k

theorem Represents.listTail_eq (k : K) : s.listTail b k = .ok (L k).getLast? := by
  unfold listTail
  rw [h.head k]
  by_cases hl : L k = []
  · rw [hl]
    rfl
  · obtain ⟨hd, m, hhd, hm⟩ := exists_ends hl
    rw [Option.mem_def.1 hhd, Option.mem_def.1 hm]
    dsimp only
    rw [h.tailOf_eq hhd hm, ok_bind]
    rfl

omit [DecidableEq K] [DecidableEq N] in
theorem Represents.listNext_eq (hl : L k = pre ++ n :: post) : s.listNext n = post.head? := by
  rw [listNext, (h.links hl).2]
  cases post <;> rfl

omit [DecidableEq K] [DecidableEq N] in
theorem Represents.listPrev_eq (hl : L k = pre ++ n :: post) : s.listPrev n = pre.getLast? := by
  rw [listPrev, (h.links hl).1]
  obtain ⟨-, m, -, hm⟩ := exists_ends (l := L k) (by simp [hl])
  rw [backEnd_of_mem hm]
  rcases eq_nil_or_concat' pre with rfl | ⟨pre, x, rfl⟩ <;> simp

omit [DecidableEq K] [DecidableEq N] in
theorem Represents.countFrom_eq {fuel : ℕ} (hl : L k = pre ++ post) (hfuel : post.length ≤ fuel) :
    s.countFrom fuel post.head? = .ok post.length := by
  induction post generalizing pre fuel with
  | nil => cases fuel <;> rfl
  | cons n post ih =>
    obtain ⟨fuel, rfl⟩ : ∃ f, fuel = f + 1 := ⟨fuel - 1, by simp at hfuel; omega⟩
    have hl' : L k = (pre ++ [n]) ++ post := by simp [hl]
    rw [head?_cons, countFrom, h.listNext_eq hl, ih hl' (by simpa using hfuel), ok_bind]
    simp [pure, Except.pure]

omit [DecidableEq K] [DecidableEq N] in
theorem Represents.listCount_eq {fuel : ℕ} (hfuel : (L k).length ≤ fuel) :
    s.listCount b fuel k = .ok (L k).length := by
  unfold listCount
  split
  · rw [h.count k]
    rfl
  · rw [h.listHead_eq, h.countFrom_eq (nil_append _).symm hfuel, ok_bind,
      assert_of (h.count k).symm, ok_bind, h.count k]
    rfl

omit [DecidableEq K] [DecidableEq N] in
theorem Represents.listOf_eq {fuel : ℕ} (hl : L k = pre ++ n :: post) (hfuel : post.length < fuel) :
    s.listOf fuel n = .ok k := by
  induction post generalizing pre n fuel with
  | nil =>
    obtain ⟨fuel, rfl⟩ : ∃ f, fuel = f + 1 := ⟨fuel - 1, by omega⟩
    rw [listOf, (h.links hl).2]
    rfl
  | cons m post ih =>
    obtain ⟨fuel, rfl⟩ : ∃ f, fuel = f + 1 := ⟨fuel - 1, by omega⟩
    have hl' : L k = (pre ++ [n]) ++ m :: post := by simp [hl]
    rw [listOf, (h.links hl).2]
    exact ih hl' (by simpa using hfuel)

/-- The test whether a node is on a list is right where nodes on no list have null links. -/
theorem Represents.attached_iff (hclear : Clear s L) :
    s.listNodeAttached n = true ↔ ∃ k, n ∈ L k := by
  rw [listNodeAttached, bne_iff_ne]
  constructor
  · intro hne
    by_contra hno
    push Not at hno
    exact hne (hclear n hno).1
  · rintro ⟨k, hk⟩
    exact (h.next_ne_null hk).1

end

end Looking

end Lists

end Viengoos
