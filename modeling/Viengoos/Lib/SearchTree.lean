import Mathlib

/-!
# Search trees by their nodes in order

A search tree is represented by the list of its nodes, in their order, together with what its shape
is at each of the operations to come: which node of a range of consecutive nodes is the root of
their subtree. Trees are rebalanced at every operation, so that all shapes are possible.

Where several nodes compare equal to a key, the shape decides which one is found. Where none does,
there is one place for the key.
-/

namespace Viengoos

open List

/-- **A search tree**: its nodes in order, and its shapes. The root of the subtree of the nodes from
`lo` to `lo + len` is `lo + shapes n lo len`, up to a multiple of their number, at the `n`th
operation to come. -/
structure SearchTree (α : Type*) where
  nodes : List α
  shapes : ℕ → ℕ → ℕ → ℕ

namespace SearchTree

variable {α : Type*}

/-- Descend among `len` nodes from the `lo`th one, by how a key compares with a node: to a node that
is equal, or to the place of the key. -/
def locate (root : ℕ → ℕ → ℕ) (sign : ℕ → Ordering) : ℕ → ℕ → ℕ → ℕ ⊕ ℕ
  | _, lo, 0 => .inr lo
  | 0, lo, _ => .inr lo
  | fuel + 1, lo, len + 1 =>
    let m := root lo len % (len + 1)
    match sign (lo + m) with
    | .eq => .inl (lo + m)
    | .lt => locate root sign fuel lo m
    | .gt => locate root sign fuel (lo + m + 1) (len - m)

/-- How a key compares with the `i`th node. -/
def signAt (l : List α) (sign : α → Ordering) (i : ℕ) : Ordering := (l[i]?.map sign).getD .lt

/-- Search for a key. -/
def search (t : SearchTree α) (sign : α → Ordering) : ℕ ⊕ ℕ :=
  locate (t.shapes 0) (signAt t.nodes sign) t.nodes.length 0 t.nodes.length

/-- The tree after an operation, with the nodes it has then. -/
def after (t : SearchTree α) (nodes : List α) : SearchTree α := ⟨nodes, fun n => t.shapes (n + 1)⟩

/-- The index of a node that is equal to a key. -/
def find (t : SearchTree α) (sign : α → Ordering) : Option ℕ :=
  match t.search sign with
  | .inl i => some i
  | .inr _ => none

/-- Insert a node unless there is one that is equal to its key. Returns the index of that node, or
of the new one. -/
def insert (t : SearchTree α) (sign : α → Ordering) (a : α) : (ℕ ⊕ ℕ) × SearchTree α :=
  match t.search sign with
  | .inl i => (.inl i, t.after t.nodes)
  | .inr p => (.inr p, t.after (t.nodes.take p ++ a :: t.nodes.drop p))

/-- **The order of the nodes**: those that are greater than the key come last, those that are less
come first. -/
def Ordered (sign : α → Ordering) (l : List α) : Prop :=
  l.Pairwise fun a b => (sign a = .lt → sign b = .lt) ∧ (sign b = .gt → sign a = .gt)

variable {sign : α → Ordering} {l : List α}

theorem signAt_of_getElem? {i : ℕ} {a : α} (h : l[i]? = some a) : signAt l sign i = sign a := by
  simp [signAt, h]

theorem Ordered.signAt_lt (h : Ordered sign l) {i j : ℕ} (hij : i ≤ j)
    (hi : signAt l sign i = .lt) : signAt l sign j = .lt := by
  rcases hij.eq_or_lt with rfl | hlt
  · exact hi
  · cases hj : l[j]? with
    | none => simp [signAt, hj]
    | some b =>
      obtain ⟨hjl, rfl⟩ := List.getElem?_eq_some_iff.1 hj
      have hab := pairwise_iff_getElem.1 h i j (hlt.trans hjl) hjl hlt
      rw [signAt_of_getElem? hj]
      rw [signAt_of_getElem? (getElem?_eq_getElem (hlt.trans hjl))] at hi
      exact hab.1 hi

theorem Ordered.signAt_gt (h : Ordered sign l) {i j : ℕ} (hij : i ≤ j)
    (hj : signAt l sign j = .gt) : signAt l sign i = .gt := by
  rcases hij.eq_or_lt with rfl | hlt
  · exact hj
  · cases hb : l[j]? with
    | none => simp [signAt, hb] at hj
    | some b =>
      obtain ⟨hjl, rfl⟩ := List.getElem?_eq_some_iff.1 hb
      have hab := pairwise_iff_getElem.1 h i j (hlt.trans hjl) hjl hlt
      rw [signAt_of_getElem? hb] at hj
      rw [signAt_of_getElem? (getElem?_eq_getElem (hlt.trans hjl))]
      exact hab.2 hj

/-- A descent that ends at a node ends at one that is equal to the key, in any order. -/
theorem locate_eq_inl {root : ℕ → ℕ → ℕ} {sign : ℕ → Ordering} {fuel lo len i : ℕ}
    (h : locate root sign fuel lo len = .inl i) : sign i = .eq := by
  induction fuel generalizing lo len with
  | zero => cases len <;> simp [locate] at h
  | succ fuel ih =>
    cases len with
    | zero => simp [locate] at h
    | succ len =>
      rw [locate] at h
      split at h
      · next heq =>
        obtain rfl := Sum.inl.inj h
        exact heq
      · exact ih h
      · exact ih h

/-- Where the descent ends: at a node that is equal to the key, or between the nodes that are less
and those that are greater. -/
theorem locate_spec (h : Ordered sign l) (root : ℕ → ℕ → ℕ) {fuel lo len : ℕ} (hfuel : len ≤ fuel)
    (hlo : ∀ i < lo, signAt l sign i = .gt) (hhi : ∀ i, lo + len ≤ i → signAt l sign i = .lt) :
    match locate root (signAt l sign) fuel lo len with
    | .inl i => signAt l sign i = .eq
    | .inr p => lo ≤ p ∧ p ≤ lo + len ∧ (∀ i < p, signAt l sign i = .gt) ∧
        ∀ i, p ≤ i → signAt l sign i = .lt := by
  induction fuel generalizing lo len with
  | zero =>
    obtain rfl : len = 0 := by omega
    exact ⟨le_rfl, le_rfl, hlo, hhi⟩
  | succ fuel ih =>
    cases len with
    | zero =>
      exact ⟨le_rfl, le_rfl, hlo, hhi⟩
    | succ len =>
      have hm : root lo len % (len + 1) < len + 1 := Nat.mod_lt _ (by omega)
      simp only [locate]
      generalize root lo len % (len + 1) = m at hm
      cases hsign : signAt l sign (lo + m) with
      | eq => exact hsign
      | lt =>
        have hbeyond : ∀ i, lo + m ≤ i → signAt l sign i = .lt := fun i hi => h.signAt_lt hi hsign
        have hleft := ih (by omega) hlo hbeyond
        revert hleft
        cases locate root (signAt l sign) fuel lo m with
        | inl i => exact id
        | inr p => exact fun ⟨h₁, h₂, h₃⟩ => ⟨h₁, by omega, h₃⟩
      | gt =>
        have hbefore : ∀ i < lo + m + 1, signAt l sign i = .gt := fun i hi =>
          h.signAt_gt (by omega) hsign
        have hbeyond : ∀ i, lo + m + 1 + (len - m) ≤ i → signAt l sign i = .lt := fun i hi =>
          hhi i (by omega)
        have hright := ih (by omega) hbefore hbeyond
        revert hright
        cases locate root (signAt l sign) fuel (lo + m + 1) (len - m) with
        | inl i => exact id
        | inr p => exact fun ⟨h₁, h₂, h₃⟩ => ⟨by omega, by omega, h₃⟩

variable {t : SearchTree α}

/-- **A search** ends at a node that is equal to the key, or splits the nodes. -/
theorem search_spec (h : Ordered sign t.nodes) :
    (∃ pre a post, t.nodes = pre ++ a :: post ∧ t.search sign = .inl pre.length ∧ sign a = .eq) ∨
      ∃ pre post, t.nodes = pre ++ post ∧ t.search sign = .inr pre.length ∧
        (∀ a ∈ pre, sign a = .gt) ∧ ∀ a ∈ post, sign a = .lt := by
  have hbeyond : ∀ i, 0 + t.nodes.length ≤ i → signAt t.nodes sign i = .lt := fun i hi => by
    rw [signAt, getElem?_eq_none (by omega), Option.map_none, Option.getD_none]
  have hspec := locate_spec h (t.shapes 0) le_rfl (by simp) hbeyond
  rw [← search] at hspec
  cases hs : t.search sign with
  | inl i =>
    rw [hs] at hspec
    cases ha : t.nodes[i]? with
    | none => simp [signAt, ha] at hspec
    | some a =>
      obtain ⟨hi, rfl⟩ := List.getElem?_eq_some_iff.1 ha
      refine .inl ⟨t.nodes.take i, t.nodes[i], t.nodes.drop (i + 1), ?_, ?_, ?_⟩
      · rw [getElem_cons_drop, take_append_drop]
      · rw [length_take, Nat.min_eq_left hi.le]
      · exact (signAt_of_getElem? ha).symm.trans hspec
  | inr p =>
    rw [hs] at hspec
    obtain ⟨-, hp, hpre, hpost⟩ := hspec
    refine .inr ⟨t.nodes.take p, t.nodes.drop p, (take_append_drop p _).symm, ?_,
      fun a ha => ?_, fun a ha => ?_⟩
    · rw [length_take, Nat.min_eq_left (by omega)]
    · obtain ⟨i, hi, rfl⟩ := mem_take_iff_getElem.1 ha
      rw [← hpre i (by omega), signAt_of_getElem? (getElem?_eq_getElem (by omega))]
    · obtain ⟨i, hi, rfl⟩ := mem_drop_iff_getElem.1 ha
      rw [← hpost (p + i) (by omega), signAt_of_getElem? (getElem?_eq_getElem (by omega))]

/-- Insertion adds no other node. -/
theorem mem_of_mem_insert {a b : α} (h : b ∈ (t.insert sign a).2.nodes) : b = a ∨ b ∈ t.nodes := by
  rw [insert] at h
  split at h
  · exact .inr h
  · rcases mem_append.1 h with h | h
    · exact .inr (mem_of_mem_take h)
    · exact (mem_cons.1 h).imp_right mem_of_mem_drop

/-- A node that is found is equal to the key, in any order. -/
theorem exists_of_find {i : ℕ} (h : t.find sign = some i) :
    ∃ a, t.nodes[i]? = some a ∧ sign a = .eq := by
  rw [find] at h
  split at h
  · next j hj =>
    obtain rfl := Option.some.inj h
    have heq := locate_eq_inl hj
    cases ha : t.nodes[j]? with
    | none => simp [signAt, ha] at heq
    | some a => exact ⟨a, rfl, by rwa [signAt_of_getElem? ha] at heq⟩
  · simp at h

/-- What is found is equal to the key, and nothing is only found if nothing is. -/
theorem find_spec (h : Ordered sign t.nodes) :
    (∃ pre a post, t.nodes = pre ++ a :: post ∧ t.find sign = some pre.length ∧ sign a = .eq) ∨
      t.find sign = none ∧ ∀ a ∈ t.nodes, sign a ≠ .eq := by
  rcases search_spec h with ⟨pre, a, post, hl, hs, ha⟩ | ⟨pre, post, hl, hs, hpre, hpost⟩
  · exact .inl ⟨pre, a, post, hl, by rw [find, hs], ha⟩
  · refine .inr ⟨by rw [find, hs], fun a ha => ?_⟩
    rw [hl, mem_append] at ha
    rcases ha with ha | ha
    · simp [hpre a ha]
    · simp [hpost a ha]

/-- **An insertion** meets a node that is equal to the key, or puts the new one at its place. -/
theorem insert_spec (h : Ordered sign t.nodes) (a : α) :
    (∃ pre b post, t.nodes = pre ++ b :: post ∧
        t.insert sign a = (.inl pre.length, t.after t.nodes) ∧ sign b = .eq) ∨
      ∃ pre post, t.nodes = pre ++ post ∧
        t.insert sign a = (.inr pre.length, t.after (pre ++ a :: post)) ∧
        (∀ b ∈ pre, sign b = .gt) ∧ ∀ b ∈ post, sign b = .lt := by
  rcases search_spec h with ⟨pre, b, post, hl, hs, hb⟩ | ⟨pre, post, hl, hs, hpre, hpost⟩
  · exact .inl ⟨pre, b, post, hl, by rw [insert, hs], hb⟩
  · refine .inr ⟨pre, post, hl, ?_, hpre, hpost⟩
    simp [insert, hs, hl]

/-- An insertion between nodes that are less and nodes that are greater. -/
theorem insert_between {pre post : List α} (hl : t.nodes = pre ++ post)
    (hpre : ∀ b ∈ pre, sign b = .gt) (hpost : ∀ b ∈ post, sign b = .lt) (a : α) :
    t.insert sign a = (.inr pre.length, t.after (pre ++ a :: post)) := by
  have hordered : Ordered sign t.nodes := by
    rw [hl, Ordered, pairwise_append]
    refine ⟨.imp_of_mem (fun ha hb _ => ?_) (pairwise_of_forall fun _ _ => trivial),
      .imp_of_mem (fun ha hb _ => ?_) (pairwise_of_forall fun _ _ => trivial),
      fun a ha b hb => ?_⟩
    · simp [hpre _ ha, hpre _ hb]
    · simp [hpost _ ha, hpost _ hb]
    · simp [hpre a ha, hpost b hb]
  rcases insert_spec hordered a with ⟨pre', b, post', hl', -, hb⟩ | ⟨pre', post', hl', hok, hpre',
    hpost'⟩
  · have hmem : b ∈ pre ++ post := hl ▸ hl' ▸ by simp
    rcases mem_append.1 hmem with hmem | hmem
    · simp [hpre b hmem] at hb
    · simp [hpost b hmem] at hb
  · -- the nodes are split in one way
    obtain ⟨rfl, rfl⟩ : pre' = pre ∧ post' = post := by
      rcases append_eq_append_iff.1 (hl.symm.trans hl') with ⟨c, rfl, rfl⟩ | ⟨c, rfl, rfl⟩
      · obtain rfl : c = [] := eq_nil_iff_forall_not_mem.2 fun b hb => by
          simpa [hpost b (by simp [hb])] using hpre' b (by simp [hb])
        simp
      · obtain rfl : c = [] := eq_nil_iff_forall_not_mem.2 fun b hb => by
          simpa [hpre b (by simp [hb])] using hpost' b (by simp [hb])
        simp
    exact hok

/-- Each node that is equal to the key is found in a tree of some shape. -/
theorem find_root (pre post : List α) {a : α} (h : sign a = .eq) :
    find ⟨pre ++ a :: post, fun _ _ _ => pre.length⟩ sign = some pre.length := by
  have hlen : (pre ++ a :: post).length = pre.length + post.length + 1 := by
    rw [length_append, length_cons, Nat.add_assoc]
  have hmod : pre.length % (pre.length + post.length + 1) = pre.length :=
    Nat.mod_eq_of_lt (by omega)
  have hsign : signAt (pre ++ a :: post) sign pre.length = .eq := by simp [signAt, h]
  simp only [find, search, hlen, locate, hmod, hsign, Nat.zero_add]

end SearchTree

end Viengoos
