import Viengoos.IntrusiveList.Model

/-!
# Changes of intrusive lists

What each operation of `viengoos/list.h` does to the sequences that the lists stand for. A node is
added or taken off by writing the links at the ends of the segments next to it; where the list ends
there, the sentinel of its first node is written too. The rules for one list (`Represents.insert`,
`Represents.remove`) and for two (`Represents.merge`) say what the writes have to achieve.
-/

namespace Viengoos

open Outcome Segment Function List Option

variable {K N : Type} [DecidableEq K] [DecidableEq N]

namespace Lists

/-! ### One change -/

variable {links : Links N (ListPtr K N)} {m : N}

section Changing

variable {b : ListBuild} {s s' : Lists K N} {L : K → List N} {k : K} {n item : N}
  {l pre post : List N}

section Writes

omit [DecidableEq N]

@[simp] theorem setHead_links (n : Option N) : (s.setHead k n).links = s.links := rfl
@[simp] theorem setHead_count (n : Option N) : (s.setHead k n).count = s.count := rfl
@[simp] theorem setHead_head (n : Option N) :
    (s.setHead k n).head = update s.head k n := rfl
@[simp] theorem setCount_links (c : ℤ) : (s.setCount k c).links = s.links := rfl
@[simp] theorem setCount_head (c : ℤ) : (s.setCount k c).head = s.head := rfl
@[simp] theorem setCount_count (c : ℤ) :
    (s.setCount k c).count = update s.count k c := rfl

end Writes

section Writes

omit [DecidableEq K]

@[simp] theorem setNext_head (p : ListPtr K N) : (s.setNext n p).head = s.head := rfl
@[simp] theorem setNext_count (p : ListPtr K N) : (s.setNext n p).count = s.count := rfl
@[simp] theorem setNext_links (p : ListPtr K N) :
    (s.setNext n p).links = s.links.setNext n p := rfl
@[simp] theorem setPrev_head (p : ListPtr K N) : (s.setPrev n p).head = s.head := rfl
@[simp] theorem setPrev_count (p : ListPtr K N) : (s.setPrev n p).count = s.count := rfl
@[simp] theorem setPrev_links (p : ListPtr K N) :
    (s.setPrev n p).links = s.links.setPrev n p := rfl

end Writes

/-- The links of a node are the same in both states. -/
def SameLinks (s s' : Lists K N) (n : N) : Prop :=
  s'.links.next n = s.links.next n ∧ s'.links.prev n = s.links.prev n

omit [DecidableEq N] in
/-- **A change of one list** that keeps to its nodes and to new ones leaves the others alone. -/
theorem Represents.edit (h : Represents s L) (hhead : s'.head = update s.head k l.head?)
    (hcount : s'.count = update s.count k l.length)
    (hlinked : Linked .node s'.links (backEnd l) l (.endList k))
    (hsame : ∀ n, n ∉ L k → n ∉ l → SameLinks s s' n) (hnodup : l.Nodup)
    (hfresh : ∀ n ∈ l, n ∈ L k ∨ ∀ k', n ∉ L k') : Represents s' (update L k l) := by
  have hother : ∀ k', k' ≠ k → ∀ n ∈ L k', n ∉ L k ∧ n ∉ l := by
    intro k' hk' n hn
    have hnk : n ∉ L k := fun hnk => hk' (h.disjoint k' k n hn hnk)
    exact ⟨hnk, fun hnl => (hfresh n hnl).elim hnk fun hno => hno k' hn⟩
  refine ⟨fun k' => ?_, fun k' => ?_, fun k' => ?_, fun k' => ?_, fun k₁ k₂ n h₁ h₂ => ?_⟩
  · rw [hhead]
    rcases eq_or_ne k' k with rfl | hk' <;> simp [*, h.head]
  · rw [hcount]
    rcases eq_or_ne k' k with rfl | hk' <;> simp [*, h.count]
  · rcases eq_or_ne k' k with rfl | hk'
    · rwa [update_self]
    · rw [update_of_ne hk']
      exact (h.linked k').congr fun n hn => hsame n (hother k' hk' n hn).1 (hother k' hk' n hn).2
  · rcases eq_or_ne k' k with rfl | hk'
    · rwa [update_self]
    · rw [update_of_ne hk']
      exact h.nodup k'
  · rcases eq_or_ne k₁ k with rfl | hk₁
    · rw [update_self] at h₁
      by_contra hk₂
      rw [update_of_ne (Ne.symm hk₂)] at h₂
      exact (hother k₂ (Ne.symm hk₂) n h₂).2 h₁
    · rw [update_of_ne hk₁] at h₁
      rcases eq_or_ne k₂ k with rfl | hk₂
      · rw [update_self] at h₂
        exact absurd h₂ (hother k₁ hk₁ n h₁).2
      · rw [update_of_ne hk₂] at h₂
        exact h.disjoint k₁ k₂ n h₁ h₂

omit [DecidableEq N] in
/-- A change behind the first node leaves the head. -/
theorem Represents.head_eq (h : Represents s L) (hl : l.head? = (L k).head?) :
    s.head = update s.head k l.head? := by
  rw [hl, ← h.head k, update_eq_self]

/-- A change of one list that clears the nodes it takes off. -/
theorem Clear.edit (h : Clear s L) (hsame : ∀ n, n ∉ L k → n ∉ l → SameLinks s s' n)
    (hgone : ∀ n ∈ L k, n ∉ l → s'.links.next n = .null ∧ s'.links.prev n = .null) :
    Clear s' (update L k l) := by
  intro n hn
  have hnl : n ∉ l := by simpa using hn k
  by_cases hnk : n ∈ L k
  · exact hgone n hnk hnl
  · have hno : ∀ k', n ∉ L k' := by
      intro k'
      rcases eq_or_ne k' k with rfl | hk'
      · exact hnk
      · simpa [hk'] using hn k'
    obtain ⟨hnext, hprev⟩ := hsame n hnk hnl
    rw [hnext, hprev]
    exact h n hno

/-- The lists stand for the new sequences, and nodes on no list have null links if they had
before. -/
def Changed (s s' : Lists K N) (L L' : K → List N) : Prop :=
  Represents s' L' ∧ (Clear s L → Clear s' L')

/-- **The change was made**: the call returns, the lists stand for the new sequences, and nodes on
no list have null links if they had before. -/
def Makes (run : Except Fault (Lists K N)) (s : Lists K N) (L L' : K → List N) : Prop :=
  ∃ s', run = .ok s' ∧ Represents s' L' ∧ (Clear s L → Clear s' L')

theorem assertClear_eq (hitem : ∀ k, item ∉ L k) (hclear : b.ndebug = false → Clear s L) :
    s.assertClear b item = .ok () := by
  unfold assertClear ListBuild.assert
  cases hb : b.ndebug with
  | true => rfl
  | false =>
    obtain ⟨hnext, hprev⟩ := hclear hb item hitem
    simp [require_of, hnext, hprev]

section

variable (h : Represents s L) (hitem : ∀ k, item ∉ L k)

include h hitem

/-- A new node makes its list longer by one. -/
theorem Represents.insert (hl : L k = pre ++ post)
    (hhead : s'.head = update s.head k (pre ++ item :: post).head?)
    (hcount : s'.count = update s.count k (s.count k + 1))
    (hlinked : Linked .node s'.links (backEnd (pre ++ item :: post)) (pre ++ item :: post)
      (.endList k))
    (hsame : ∀ n, n ∉ L k → n ≠ item → SameLinks s s' n) :
    Changed s s' L (update L k (pre ++ item :: post)) := by
  have hsame' : ∀ n, n ∉ L k → n ∉ pre ++ item :: post → SameLinks s s' n := fun n hn hn' =>
    hsame n hn fun e => hn' (by simp [e])
  refine ⟨h.edit hhead ?_ hlinked hsame' ?_ ?_, fun hclear => hclear.edit hsame' ?_⟩
  · rw [hcount, h.count k, hl]
    simp [add_assoc]
  · have hnodup := h.nodup k
    have hout := hitem k
    rw [hl] at hnodup hout
    exact nodup_middle.2 (nodup_cons.2 ⟨hout, hnodup⟩)
  · intro n hn
    rw [hl]
    rcases eq_or_ne n item with rfl | hne
    · exact .inr hitem
    · left
      simpa [hne] using hn
  · intro n hn hn'
    rw [hl] at hn
    exact absurd (by simp at hn ⊢; tauto) hn'

/-! ### The operations that add a node -/

/-- The first node of an empty list. -/
theorem Represents.insert_only (hl : L k = []) :
    Changed s (((s.setNext item (.endList k)).setPrev item (.endNode item)).setHead k
      (some item) |>.setCount k (s.count k + 1)) L (update L k [item]) := by
  refine h.insert hitem (show L k = [] ++ [] from hl) rfl rfl ?_ fun n _ hn => ?_
  · exact linked_singleton.2 ⟨by simp [backEnd], by simp⟩
  · exact ⟨setNext_next_of_ne hn, setPrev_prev_of_ne hn⟩

theorem Represents.push (hclear : b.ndebug = false → Clear s L) :
    Makes (s.listPush b k item) s L (update L k (item :: L k)) := by
  unfold listPush
  rw [assertClear_eq hitem hclear, ok_bind, h.head k]
  by_cases hl : L k = []
  · have hcount : s.count k = 0 := by simp [h.count k, hl]
    rw [hl, head?_nil]
    rw [assert_of hcount, ok_bind]
    exact ⟨_, rfl, h.insert_only hitem hl⟩
  · obtain ⟨hd, m, hhd, hm⟩ := exists_ends hl
    have hout := hitem k
    have hhi : hd ≠ item := fun e => hout (e ▸ mem_of_mem_head? hhd)
    rw [mem_def.1 hhd]
    dsimp only
    rw [h.tailOf_eq hhd hm, ok_bind]
    refine ⟨_, rfl, h.insert hitem (nil_append (L k)).symm rfl rfl ?_
      fun x hx hxi => ?_⟩
    · refine ⟨?_, ?_, ?_⟩
      · have hm' : m ∈ (item :: L k).getLast? := by simp [getLast?_cons, mem_def.1 hm]
        simp [setPrev_prev_of_ne hhi.symm, backEnd_of_mem hm']
      · simp [first, mem_def.1 hhd]
      · exact (((h.linked k).setNext_of_notMem hout).setPrev_of_notMem hout).setPrev_head
          (h.nodup k) hhd
    · have hxn : x ≠ hd := fun e => hx (e ▸ mem_of_mem_head? hhd)
      exact ⟨setNext_next_of_ne hxi, by simp [setPrev_prev_of_ne hxn, setPrev_prev_of_ne hxi]⟩

/-- A node behind the last one. -/
theorem Represents.insert_last {hd : N} (hhd : hd ∈ (L k).head?) (hm : m ∈ (L k).getLast?)
    (hlinks : links = (((s.links.setNext item (.endList k)).setNext m (.node item)).setPrev item
      (.node m)).setPrev hd (.endNode item)) :
    Changed s ⟨s.head, update s.count k (s.count k + 1), links⟩ L
      (update L k (L k ++ [item])) := by
  subst hlinks
  have hout : item ∉ L k := hitem k
  have hmi : m ≠ item := fun e => hout (e ▸ mem_of_mem_getLast? hm)
  have hhi : hd ≠ item := fun e => hout (e ▸ mem_of_mem_head? hhd)
  refine h.insert hitem (append_nil (L k)).symm (h.head_eq ?_) rfl ?_ fun x hx hxi => ?_
  · rw [head?_append, mem_def.1 hhd]
    rfl
  · rw [backEnd_concat]
    refine linked_append.2 ⟨?_, linked_singleton.2 ⟨?_, ?_⟩⟩
    · have hold := (h.linked k).setNext_of_notMem (p := .endList k) hout
      exact ((hold.setNext_last (h.nodup k) hm).setPrev_of_notMem hout).setPrev_head
        (h.nodup k) hhd
    · simp [setPrev_prev_of_ne hhi.symm, last, mem_def.1 hm]
    · simp [setNext_next_of_ne hmi.symm]
  · have hxm : x ≠ m := fun e => hx (e ▸ mem_of_mem_getLast? hm)
    have hxh : x ≠ hd := fun e => hx (e ▸ mem_of_mem_head? hhd)
    exact ⟨by simp [setNext_next_of_ne hxm, setNext_next_of_ne hxi],
      by simp [setPrev_prev_of_ne hxh, setPrev_prev_of_ne hxi]⟩

theorem Represents.enqueue (hclear : b.ndebug = false → Clear s L) :
    Makes (s.listEnqueue b k item) s L (update L k (L k ++ [item])) := by
  unfold listEnqueue
  rw [assertClear_eq hitem hclear, ok_bind, h.head k]
  by_cases hl : L k = []
  · have hcount : s.count k = 0 := by simp [h.count k, hl]
    rw [hl, head?_nil]
    rw [assert_of hcount, ok_bind]
    exact ⟨_, rfl, h.insert_only hitem hl⟩
  · obtain ⟨hd, m, hhd, hm⟩ := exists_ends hl
    rw [mem_def.1 hhd]
    dsimp only
    rw [h.tailOf_eq hhd hm, ok_bind]
    exact ⟨_, rfl, h.insert_last hitem hhd hm rfl⟩

theorem Represents.insertAfter (hclear : b.ndebug = false → Clear s L)
    (hl : L k = pre ++ n :: post) :
    Makes (s.listInsertAfter b k item (some n)) s L
      (update L k (pre ++ n :: item :: post)) := by
  unfold listInsertAfter
  rw [assertClear_eq hitem hclear, ok_bind]
  have hout := hitem k
  have hni : n ≠ item := by
    rintro rfl
    exact hout (by simp [hl])
  obtain ⟨-, hnext⟩ := h.links hl
  cases post with
  | nil =>
    obtain ⟨hd, m, hhd, hm⟩ := exists_ends (l := L k) (by simp [hl])
    obtain rfl : n = m := by simpa [hl] using hm
    have hhi : hd ≠ item := fun e => hout (e ▸ mem_of_mem_head? hhd)
    have hprev : s.links.prev hd = .endNode n := (h.ends hhd hm).1
    simp only [hnext, first_nil, ListPtr.sentinel, if_true, setPrev_head, setNext_head,
      h.head k, mem_def.1 hhd, setPrev_links, setNext_links, setNext_prev,
      setPrev_prev_of_ne hhi, hprev, assert_of, ok_bind]
    have hlist : pre ++ [n, item] = L k ++ [item] := by simp [hl]
    rw [hlist]
    exact ⟨_, rfl, h.insert_last hitem hhd hm rfl⟩
  | cons m post =>
    have hmi : m ≠ item := by
      rintro rfl
      exact hout (by simp [hl])
    simp only [hnext, first_cons, ListPtr.sentinel, Bool.false_eq_true, if_false, ListPtr.ptr]
    have hlist : pre ++ n :: item :: m :: post = (pre ++ [n]) ++ item :: (m :: post) := by simp
    have hl' : L k = (pre ++ [n]) ++ m :: post := by simp [hl]
    have hnodup := h.nodup k
    have hlinked := h.linked k
    rw [hl'] at hlinked hnodup hout
    obtain ⟨hnodupl, hnodupr, hdisj⟩ := nodup_append'.1 hnodup
    obtain ⟨hleft, hright⟩ := linked_append.1 hlinked
    rw [mem_append, not_or] at hout
    have hnr : n ∉ m :: post := hdisj (by simp)
    have hml : m ∉ pre ++ [n] := fun hmem => hdisj hmem (by simp)
    rw [hlist]
    refine ⟨_, rfl, h.insert hitem hl' ?_ rfl ?_ fun x hx hxi => ?_⟩
    · exact h.head_eq (by rw [hl']; cases pre <;> rfl)
    · refine linked_append.2 ⟨?_, ?_, ?_, ?_⟩
      · have hback : backEnd (K := K) (pre ++ [n] ++ item :: m :: post) =
            backEnd (pre ++ [n] ++ m :: post) := by
          simp [backEnd, getLast?_append]
        rw [hback]
        exact (((hleft.setNext_of_notMem hout.1).setNext_last hnodupl (by simp)).setPrev_of_notMem
          hout.1).setPrev_of_notMem hml
      · simp [setPrev_prev_of_ne hmi.symm]
      · simp [setNext_next_of_ne hni.symm]
      · exact (((hright.setNext_of_notMem hout.2).setNext_of_notMem hnr).setPrev_of_notMem
          hout.2).setPrev_head hnodupr rfl
    · have hxn : x ≠ n := fun e => hx (by simp [hl, e])
      have hxm : x ≠ m := fun e => hx (by simp [hl, e])
      exact ⟨by simp [setNext_next_of_ne hxn, setNext_next_of_ne hxi],
        by simp [setPrev_prev_of_ne hxm, setPrev_prev_of_ne hxi]⟩

end

/-! ### The operations that take a node off -/

variable (s') in
/-- A list loses a node: `links` run past it. The node's own links may then be cleared, and have to
be for the nodes on no list to have null links. -/
theorem Represents.remove (h : Represents s L) (hl : L k = pre ++ item :: post)
    (hlinked : Linked .node links (backEnd (pre ++ post)) (pre ++ post) (.endList k))
    (hsame : ∀ n, n ∉ L k → links.next n = s.links.next n ∧ links.prev n = s.links.prev n)
    (hhead : s'.head = update s.head k (pre ++ post).head?)
    (hcount : s'.count = update s.count k (s.count k - 1))
    (hlinks : s'.links = links ∨ s'.links = (links.setNext item .null).setPrev item .null) :
    Represents s' (update L k (pre ++ post)) ∧
      (s'.links = (links.setNext item .null).setPrev item .null → Clear s L →
        Clear s' (update L k (pre ++ post))) := by
  have hnodup := h.nodup k
  rw [hl] at hnodup
  obtain ⟨hout, hnodup⟩ := nodup_cons.1 (nodup_middle.1 hnodup)
  have hsame' : ∀ n, n ∉ L k → SameLinks s s' n := by
    intro n hn
    have hne : n ≠ item := fun e => hn (by simp [hl, e])
    rcases hlinks with hlinks | hlinks
    · rw [SameLinks, hlinks]
      exact hsame n hn
    · rw [SameLinks, hlinks]
      exact ⟨(setNext_next_of_ne hne).trans (hsame n hn).1,
        (setPrev_prev_of_ne hne).trans (hsame n hn).2⟩
  refine ⟨h.edit hhead ?_ ?_ (fun n hn _ => hsame' n hn) hnodup ?_, fun hnull hclear =>
    hclear.edit (fun n hn _ => hsame' n hn) ?_⟩
  · rw [hcount, h.count k, hl]
    have : ((pre ++ item :: post).length : ℤ) - 1 = (pre ++ post).length := by
      simp
      omega
    rw [this]
  · rcases hlinks with hlinks | hlinks
    · rwa [hlinks]
    · rw [hlinks]
      exact (hlinked.setNext_of_notMem hout).setPrev_of_notMem hout
  · intro n hn
    left
    rw [hl]
    simp at hn ⊢
    tauto
  · intro n hn hn'
    rw [hl] at hn
    obtain rfl : n = item := by
      simp at hn hn'
      tauto
    rw [hnull]
    simp

omit [DecidableEq K] in
/-- The first node goes: the next one takes over the backward link it had. -/
theorem Represents.tail (h : Represents s L) (hl : L k = item :: m :: l) :
    s.links.prev item = backEnd (m :: l) ∧
      Linked .node (s.links.setPrev m (backEnd (m :: l))) (backEnd (m :: l)) (m :: l)
        (.endList k) := by
  have hback : backEnd (K := K) (item :: m :: l) = backEnd (m :: l) := by
    simp [backEnd, getLast?_cons]
  have hnodup := h.nodup k
  have hlinked := h.linked k
  rw [hl, hback] at hlinked
  rw [hl] at hnodup
  exact ⟨hlinked.1, (linked_cons.1 hlinked).2.2.setPrev_head (nodup_cons.1 hnodup).2 rfl⟩

theorem Represents.dequeue_nil (h : Represents s L) (hl : L k = []) :
    s.listDequeue b k = .ok (s, none) := by
  have hcount : s.count k = 0 := by simp [h.count k, hl]
  unfold listDequeue
  rw [h.head k, hl, head?_nil]
  rw [assert_of hcount]
  rfl

omit [DecidableEq K] in
@[simp] theorem clearUnless_head : (s.clearUnless b item).head = s.head := by
  unfold clearUnless
  split <;> rfl

omit [DecidableEq K] in
@[simp] theorem clearUnless_count : (s.clearUnless b item).count = s.count := by
  unfold clearUnless
  split <;> rfl

omit [DecidableEq K] in
theorem clearUnless_links : (s.clearUnless b item).links =
    if b.ndebug then s.links else (s.links.setNext item .null).setPrev item .null := by
  unfold clearUnless
  split <;> rfl

/-- The end of `list_dequeue`, where the links run past the first node. -/
theorem Represents.dequeued {s₁ : Lists K N} (h : Represents s L) (hl : L k = item :: l)
    (hlinked : Linked .node s₁.links (backEnd l) l (.endList k))
    (hsame : ∀ n, n ∉ L k → SameLinks s s₁ n) (hhead : s₁.head = update s.head k l.head?)
    (hcount : s₁.count = update s.count k (s.count k - 1))
    (hnext : s₁.links.next item = s.links.next item) :
    Represents (s₁.clearUnless b item) (update L k l) ∧
      (b.ndebug = false → Clear s L → Clear (s₁.clearUnless b item) (update L k l)) ∧
      (b.ndebug = true → (s₁.clearUnless b item).links.next item = s.links.next item) := by
  have hlinks : (s₁.clearUnless b item).links = _ := clearUnless_links
  obtain ⟨hrep, hclear⟩ := h.remove (s₁.clearUnless b item)
    (show L k = [] ++ item :: l from hl) hlinked hsame (by simpa using hhead)
    (by simpa using hcount) (by rw [hlinks]; split <;> simp)
  refine ⟨hrep, fun hb => hclear (by simp [hlinks, hb]), fun hb => ?_⟩
  rw [hlinks, if_pos hb]
  exact hnext

/-- **The first node is taken off.** Its links are cleared unless for `NDEBUG`. -/
theorem Represents.dequeue (h : Represents s L) (hl : L k = item :: l) :
    ∃ s', s.listDequeue b k = .ok (s', some item) ∧ Represents s' (update L k l) ∧
      (b.ndebug = false → Clear s L → Clear s' (update L k l)) ∧
      (b.ndebug = true → s'.links.next item = s.links.next item) := by
  have hhd : item ∈ (L k).head? := by simp [hl]
  obtain ⟨-, last, -, hlast⟩ := exists_ends (l := L k) (by simp [hl])
  obtain ⟨hprev, hnext⟩ := h.ends hhd hlast
  have hleads : s.tailLeads k item = true := by
    simp [tailLeads, hprev, ListPtr.ptr, hnext, pure, Except.pure]
  unfold listDequeue
  rw [h.head k, mem_def.1 hhd]
  dsimp only
  rw [assert_of (by simp [hprev, ListPtr.sentinel]), ok_bind, assert_of hleads, ok_bind,
    h.listNext_eq (show L k = [] ++ item :: l from hl)]
  cases l with
  | nil =>
    obtain rfl : item = last := by simpa [hl] using hlast
    have hcount : s.count k = 1 := by simp [h.count k, hl]
    simp only [head?_nil, hnext, hprev, hcount, assert_of, ok_bind]
    exact ⟨_, rfl, hnext ▸ h.dequeued hl trivial (fun _ _ => ⟨rfl, rfl⟩) rfl (by simp [hcount]) rfl⟩
  | cons m l =>
    obtain ⟨hback, hlinked⟩ := h.tail hl
    rw [head?_cons, hback]
    exact ⟨_, rfl, h.dequeued hl hlinked
      (fun x hx => ⟨rfl, setPrev_prev_of_ne fun e => hx (by simp [hl, e])⟩) rfl rfl rfl⟩

/-- The middle of `list_unlink` takes the node off, and leaves its own links. -/
theorem Represents.detach (h : Represents s L) (hl : L k = pre ++ item :: post) :
    ∃ s', s.detach b k item = .ok s' ∧ s'.count = s.count ∧
      s'.head = update s.head k (pre ++ post).head? ∧
      Linked .node s'.links (backEnd (pre ++ post)) (pre ++ post) (.endList k) ∧
      ∀ n, n ∉ L k → SameLinks s s' n := by
  obtain ⟨hprev, hnext⟩ := h.links hl
  obtain ⟨hd, tail, hhd, htail⟩ := exists_ends (l := L k) (by simp [hl])
  obtain ⟨-, hends⟩ := h.ends hhd htail
  have hnodup := h.nodup k
  have hlinked := h.linked k
  rw [hl] at hnodup hlinked
  have hin : ∀ {x y}, x ∉ L k → y ∈ pre ++ item :: post → x ≠ y := fun hx hy e => hx (e ▸ hl ▸ hy)
  rw [backEnd_of_mem htail] at hprev
  unfold Lists.detach
  rcases eq_nil_or_concat' pre with rfl | ⟨pre, x, rfl⟩
  · cases post with
    | nil =>
      -- The only node.
      have hcount : s.count k = 1 := by simp [h.count k, hl]
      have hhead : s.head k = some item := by simp [h.head k, hl]
      simp only [hprev, hnext, last_nil, first_nil, ListPtr.sentinel, and_self, if_true, hcount,
        hhead, assert_of, ok_bind]
      exact ⟨_, rfl, rfl, rfl, trivial, fun _ _ => ⟨rfl, rfl⟩⟩
    | cons m post =>
      -- The first one.
      simp only [hprev, hnext, last_nil, first_cons, ListPtr.sentinel, Bool.false_eq_true,
        false_and, if_false, if_true, ListPtr.ptr]
      obtain ⟨hback, hrest⟩ := h.tail hl
      rw [hprev, last_nil] at hback
      change ∃ s', (b.assert _ >>= _) = _ ∧ _
      rw [assert_of hends, ok_bind, hback]
      exact ⟨_, rfl, rfl, rfl, hrest, fun y hy => ⟨rfl, setPrev_prev_of_ne (hin hy (by simp))⟩⟩
  · obtain ⟨hnodupl, hnodupr, hdisj⟩ := nodup_append'.1 hnodup
    obtain ⟨hleft, hright⟩ := linked_append.1 hlinked
    have hhead : (pre ++ [x]).head? = (L k).head? := by
      rw [hl]
      cases pre <;> rfl
    cases post with
    | nil =>
      -- The last one.
      simp only [hprev, hnext, last_concat, first_nil, ListPtr.sentinel, Bool.false_eq_true,
        and_false, if_false, if_true, assert_of, ok_bind, ListPtr.ptr]
      have hhd' : hd ∈ (pre ++ [x]).head? := hhead ▸ hhd
      simp only [pure_bind, (h.head k).trans hhd]
      refine ⟨_, rfl, rfl, ?_, ?_, fun y hy => ⟨?_, ?_⟩⟩
      · rw [append_nil]
        exact h.head_eq hhead
      · rw [append_nil, backEnd_concat]
        exact (hleft.setPrev_head hnodupl hhd').setNext_last hnodupl (by simp)
      · exact setNext_next_of_ne (hin hy (by simp))
      · exact setPrev_prev_of_ne (hin hy (mem_append_left _ (mem_of_mem_head? hhd')))
    | cons m post =>
      simp only [hprev, hnext, last_concat, first_cons, ListPtr.sentinel, Bool.false_eq_true,
        and_self, if_false, ListPtr.ptr]
      have hback : backEnd (K := K) (pre ++ [x] ++ m :: post) =
          backEnd (pre ++ [x] ++ item :: m :: post) := by
        simp [backEnd, getLast?_append]
      obtain ⟨hmr, hnodupm⟩ := nodup_cons.1 hnodupr
      have hxm : x ∉ m :: post := fun hmem => hdisj (by simp) (mem_cons_of_mem item hmem)
      have hml : m ∉ pre ++ [x] := fun hmem => hdisj hmem (by simp)
      refine ⟨_, rfl, rfl, ?_, ?_, fun y hy => ⟨?_, ?_⟩⟩
      · exact h.head_eq (by rw [← hhead]; cases pre <;> rfl)
      · rw [hback]
        refine linked_append.2 ⟨?_, ?_⟩
        · exact (hleft.setPrev_of_notMem hml).setNext_last hnodupl (by simp)
        · rw [last_concat]
          exact ((linked_cons.1 hright).2.2.setPrev_head hnodupm rfl).setNext_of_notMem hxm
      · exact setNext_next_of_ne (hin hy (by simp))
      · exact setPrev_prev_of_ne (hin hy (by simp))

/-- **A node is taken off.** Its links are cleared in every build. -/
theorem Represents.unlink (h : Represents s L) (hl : L k = pre ++ item :: post) {fuel : ℕ}
    (hfuel : (L k).length ≤ fuel) :
    Makes (s.listUnlink b fuel k item) s L (update L k (pre ++ post)) := by
  have hmem : item ∈ L k := by simp [hl]
  obtain ⟨hnext, hprev⟩ := h.next_ne_null hmem
  obtain ⟨s₁, hdetach, hcount, hhead, hlinked, hsame⟩ := h.detach (b := b) hl
  have hcheck : s.assertOn b fuel k item = .ok () := by
    unfold assertOn
    split
    · rfl
    · have hlt : post.length < fuel := by
        rw [hl] at hfuel
        simp at hfuel
        omega
      rw [h.listOf_eq hl hlt, ok_bind, require_of rfl]
  unfold listUnlink
  rw [assert_of hnext, ok_bind, assert_of hprev, ok_bind, hcheck, ok_bind, hdetach, ok_bind]
  obtain ⟨hrep, hclear⟩ := h.remove (((s₁.setNext item .null).setPrev item .null).setCount k
    (s₁.count k - 1)) hl hlinked hsame hhead (by simp [hcount]) (.inr rfl)
  exact ⟨_, rfl, hrep, hclear rfl⟩

/-! ### The operations on two lists -/

/-- The sequences after all nodes of one list went to the end of another. -/
def joined (L : K → List N) (target source : K) : K → List N :=
  update (update L target (L target ++ L source)) source []

variable {target source : K}

omit [DecidableEq N] in
theorem joined_target (hne : target ≠ source) :
    joined L target source target = L target ++ L source := by
  simp [joined, hne]

omit [DecidableEq N] in
theorem joined_source : joined L target source source = [] := by simp [joined]

omit [DecidableEq N] in
theorem joined_other (ht : k ≠ target) (hs : k ≠ source) : joined L target source k = L k := by
  simp [joined, ht, hs]

omit [DecidableEq N] in
/-- The nodes of one list go to another. -/
theorem Represents.merge (h : Represents s L) (hne : target ≠ source) (hhead : s'.head =
      update (update s.head target (L target ++ L source).head?) source none)
    (hcount : s'.count =
      update (update s.count target (L target ++ L source).length) source 0)
    (hlinked : Linked .node s'.links (backEnd (L target ++ L source)) (L target ++ L source)
      (.endList target))
    (hsame : ∀ n, n ∉ L target → n ∉ L source → SameLinks s s' n) :
    Changed s s' L (joined L target source) := by
  -- The second list is emptied first; its nodes are then on no list, and go to the first one.
  have hempty : Represents ⟨update s.head source none, update s.count source 0,
      s.links⟩ (update L source []) :=
    h.edit rfl rfl trivial (fun _ _ _ => ⟨rfl, rfl⟩) .nil (by simp)
  have hjoined : joined L target source =
      update (update L source []) target (L target ++ L source) :=
    update_comm hne ..
  refine ⟨?_, fun hclear x hx => ?_⟩
  · rw [hjoined]
    refine hempty.edit ?_ ?_ hlinked (fun n _ hn => ?_) ?_ fun n hn => ?_
    · exact hhead.trans (update_comm hne ..)
    · exact hcount.trans (update_comm hne ..)
    · rw [mem_append, not_or] at hn
      exact hsame n hn.1 hn.2
    · exact nodup_append'.2
        ⟨h.nodup _, h.nodup _, fun x hx hx' => hne (h.disjoint _ _ x hx hx')⟩
    · rw [update_of_ne hne]
      refine (mem_append.1 hn).imp_right fun hn k => ?_
      rcases eq_or_ne k source with rfl | hs
      · simp
      · rw [update_of_ne hs]
        exact fun hk => hs (h.disjoint _ _ n hk hn)
  · have hout : x ∉ L target ∧ x ∉ L source := by
      have := hx target
      rwa [joined_target hne, mem_append, not_or] at this
    have hno : ∀ k, x ∉ L k := by
      intro k
      rcases eq_or_ne k source with rfl | hs
      · exact hout.2
      · rcases eq_or_ne k target with rfl | ht
        · exact hout.1
        · have hk := hx k
          rwa [joined_other ht hs] at hk
    rw [(hsame x hout.1 hout.2).1, (hsame x hout.1 hout.2).2]
    exact hclear x hno

theorem Represents.move (h : Represents s L) (hempty : L target = []) :
    Makes (s.listMove b target source) s L (joined L target source) := by
  have hhead : s.head target = none := by simp [h.head, hempty]
  have hcount : s.count target = 0 := by simp [h.count, hempty]
  unfold listMove
  rw [assert_of hhead, ok_bind, assert_of hcount, ok_bind]
  simp only [setCount_head, setHead_head, update_self]
  rcases eq_or_ne target source with rfl | hne
  · -- An empty list moves to itself.
    rw [hhead]
    have hsame : joined L target target = L := by
      funext k
      rcases eq_or_ne k target with rfl | hk
      · rw [joined_source, hempty]
      · exact joined_other hk hk
    have hstate : (((s.setHead target none).setCount target (s.count target)).setHead target
        none).setCount target 0 = s := by
      simp [setHead, setCount, ← hhead, ← hcount]
    rw [hsame]
    refine ⟨s, ?_, h, id⟩
    change Except.ok _ = _
    rw [hstate]
  · have hwhole : L target ++ L source = L source := by rw [hempty, nil_append]
    have hlist : ∀ links : Links N (ListPtr K N),
        Linked .node links (backEnd (L source)) (L source) (.endList target) →
        (∀ x, x ∉ L target → x ∉ L source → links.next x = s.links.next x ∧
          links.prev x = s.links.prev x) →
        Changed s ⟨update (update s.head target (s.head source)) source none,
          update (update s.count target (s.count source)) source 0, links⟩ L
          (joined L target source) := by
      intro links hlinked hsame
      refine h.merge hne ?_ ?_ ?_ hsame
      · rw [hwhole, h.head source]
      · rw [hwhole, h.count source]
      · rwa [hwhole]
    rcases hl : s.head source with _ | hd
    · have hnil : L source = [] := by rw [h.head] at hl; exact head?_eq_none_iff.1 hl
      have hmoved := hlist s.links (by rw [hnil]; trivial) fun _ _ _ => ⟨rfl, rfl⟩
      rw [hl] at hmoved
      exact ⟨_, rfl, hmoved⟩
    · have hhd : hd ∈ (L source).head? := by rw [← h.head]; exact hl
      obtain ⟨-, tail, -, htail⟩ := exists_ends (ne_nil_of_mem (mem_of_mem_head? hhd))
      have hprev := (h.ends hhd htail).1
      have hmoved := hlist (s.links.setNext tail (.endList target))
        ((h.linked source).setNext_last (h.nodup source) htail) fun x _ hx =>
          ⟨setNext_next_of_ne fun e => hx (e ▸ mem_of_mem_getLast? htail), rfl⟩
      rw [hl] at hmoved
      simp only [setCount_links, setHead_links, hprev, ListPtr.ptr]
      exact ⟨_, rfl, hmoved⟩

theorem Represents.join (h : Represents s L) (hne : target ≠ source) :
    Makes (s.listJoin b target source) s L (joined L target source) := by
  unfold listJoin
  rw [h.head source, h.head target]
  by_cases hsource : L source = []
  · have hsame : joined L target source = L := by
      funext k
      rcases eq_or_ne k source with rfl | hs
      · rw [joined_source, hsource]
      · rcases eq_or_ne k target with rfl | ht
        · rw [joined_target hne, hsource, append_nil]
        · exact joined_other ht hs
    rw [hsource, head?_nil, hsame]
    exact ⟨s, rfl, h, id⟩
  · obtain ⟨shead, stail, hshead, hstail⟩ := exists_ends hsource
    rw [mem_def.1 hshead]
    by_cases htarget : L target = []
    · rw [htarget, head?_nil]
      exact h.move htarget
    · obtain ⟨thead, ttail, hthead, httail⟩ := exists_ends htarget
      rw [mem_def.1 hthead]
      have htprev := (h.ends hthead httail).1
      have hsprev := (h.ends hshead hstail).1
      have hdisj : ∀ {x}, x ∈ L target → x ∉ L source := fun hx hx' => hne (h.disjoint _ _ _ hx hx')
      have hst : shead ∉ L target := fun hx => hdisj hx (mem_of_mem_head? hshead)
      have hstt : stail ∉ L target := fun hx => hdisj hx (mem_of_mem_getLast? hstail)
      have hts : thead ∉ L source := hdisj (mem_of_mem_head? hthead)
      have htts : ttail ∉ L source := hdisj (mem_of_mem_getLast? httail)
      simp only [htprev, ListPtr.ptr, pure_bind, setNext_links, setNext_prev, hsprev]
      refine ⟨_, rfl, h.merge hne ?_ ?_ ?_ fun x hx hx' => ⟨?_, ?_⟩⟩
      · rw [← h.head_eq (by rw [head?_append, mem_def.1 hthead]; rfl)]
        rfl
      · simp [h.count]
      · have hback : backEnd (K := K) (L target ++ L source) = .endNode stail :=
          backEnd_of_mem (by simp [getLast?_append, mem_def.1 hstail])
        rw [hback]
        refine linked_append.2 ⟨?_, ?_⟩
        · have hfirst : first .node (L source) (.endList target : ListPtr K N) = .node shead := by
            simp [first, mem_def.1 hshead]
          rw [hfirst]
          exact ((((h.linked target).setNext_last (h.nodup target) httail).setNext_of_notMem
            hstt).setPrev_of_notMem hst).setPrev_head (h.nodup target) hthead
        · have hlast : last .node (L target) (.endNode stail : ListPtr K N) = .node ttail := by
            simp [last, mem_def.1 httail]
          rw [hlast]
          exact ((((h.linked source).setNext_of_notMem htts).setNext_last (h.nodup source)
            hstail).setPrev_head (h.nodup source) hshead).setPrev_of_notMem hts
      · have hxs : x ≠ stail := fun e => hx' (e ▸ mem_of_mem_getLast? hstail)
        have hxt : x ≠ ttail := fun e => hx (e ▸ mem_of_mem_getLast? httail)
        exact (setNext_next_of_ne hxs).trans (setNext_next_of_ne hxt)
      · have hxs : x ≠ shead := fun e => hx' (e ▸ mem_of_mem_head? hshead)
        have hxt : x ≠ thead := fun e => hx (e ▸ mem_of_mem_head? hthead)
        exact (setPrev_prev_of_ne hxt).trans (setPrev_prev_of_ne hxs)

end Changing

end Lists

end Viengoos
