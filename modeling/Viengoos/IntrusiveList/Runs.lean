import Viengoos.IntrusiveList.Changes

/-!
# Intrusive lists refine sequences

Whole runs of list operations, from zeroed memory on. In every build the lists agree with the
sequences that the operations describe (`lists_refine_sequences`). The test whether a node is on a
list is right in all states of a run exactly if the build is without `NDEBUG`, or no node is
dequeued.
-/

namespace Viengoos

open Outcome Function List

variable {K N : Type} [DecidableEq K] [DecidableEq N]

/-- The operations on lists. -/
inductive ListOp (K N : Type)
  | insertAfter (k : K) (item : N) (node : Option N)
  | push (k : K) (item : N)
  | enqueue (k : K) (item : N)
  | dequeue (k : K)
  | unlink (k : K) (item : N)
  | join (target source : K)
  | move (target source : K)
deriving DecidableEq, Repr

/-- A new element behind an element of a sequence. -/
def insertBehind (n item : N) : List N → List N
  | [] => []
  | x :: l => if x = n then x :: item :: l else x :: insertBehind n item l

theorem insertBehind_append {n item : N} {pre post : List N} (h : n ∉ pre) :
    insertBehind n item (pre ++ n :: post) = pre ++ n :: item :: post := by
  induction pre with
  | nil => simp [insertBehind]
  | cons x pre ih =>
    obtain ⟨hx, hpre⟩ : n ≠ x ∧ n ∉ pre := by simpa using h
    simp [insertBehind, hx.symm, ih hpre]

theorem length_insertBehind_le (n item : N) (l : List N) :
    (insertBehind n item l).length ≤ l.length + 1 := by
  induction l with
  | nil => simp [insertBehind]
  | cons x l ih =>
    rw [insertBehind]
    split
    · simp
    · simpa using ih

namespace ListOp

/-- **What an operation does to the sequences.** -/
def onLists (L : K → List N) : ListOp K N → K → List N
  | insertAfter k item none | push k item => update L k (item :: L k)
  | insertAfter k item (some n) => update L k (insertBehind n item (L k))
  | enqueue k item => update L k (L k ++ [item])
  | dequeue k => update L k (L k).tail
  | unlink k item => update L k ((L k).erase item)
  | join target source | move target source => Lists.joined L target source

/-- What it returns: the node dequeued. -/
def result (L : K → List N) : ListOp K N → Option N
  | dequeue k => (L k).head?
  | insertAfter .. | push .. | enqueue .. | unlink .. | join .. | move .. => none

/-- What the operations require: a node that is added is on no list, one that is named is on the
list, two different lists are joined, and a list moves to an empty one. -/
def Allowed (L : K → List N) : ListOp K N → Prop
  | insertAfter k item node => (∀ k', item ∉ L k') ∧ ∀ n ∈ node, n ∈ L k
  | push _ item | enqueue _ item => ∀ k', item ∉ L k'
  | dequeue _ => True
  | unlink k item => item ∈ L k
  | join target source => target ≠ source
  | move target _ => L target = []

/-- The sequences after some operations. -/
def after (L : K → List N) (ops : List (ListOp K N)) : K → List N := ops.foldl onLists L

/-- What they return. -/
def results : (K → List N) → List (ListOp K N) → List (Option N)
  | _, [] => []
  | L, op :: ops => op.result L :: results (op.onLists L) ops

/-- Each of them is allowed when it comes. -/
def AllAllowed : (K → List N) → List (ListOp K N) → Prop
  | _, [] => True
  | L, op :: ops => op.Allowed L ∧ AllAllowed (op.onLists L) ops

/-- The build is without `NDEBUG`, or no node is dequeued. -/
def Tidy (b : ListBuild) (L : K → List N) (ops : List (ListOp K N)) : Prop :=
  b.ndebug = false ∨ ∀ pre k, pre ++ [dequeue k] <+: ops → after L pre k = []

@[simp] theorem after_nil (L : K → List N) : after L [] = L := rfl

@[simp] theorem after_cons (L : K → List N) (op : ListOp K N) (ops : List (ListOp K N)) :
    after L (op :: ops) = after (op.onLists L) ops := rfl

/-- Lists do not get longer than twice the longest and one. -/
theorem length_onLists_le {L : K → List N} {m : ℕ} (h : ∀ k, (L k).length ≤ m) (op : ListOp K N)
    (k : K) : (op.onLists L k).length ≤ 2 * m + 1 := by
  have hk := h k
  have hupdate : ∀ (k' : K) (l : List N), l.length ≤ 2 * m + 1 →
      (update L k' l k).length ≤ 2 * m + 1 := by
    intro k' l hl
    rcases eq_or_ne k k' with rfl | hne
    · rwa [update_self]
    · rw [update_of_ne hne]
      omega
  have hjoined : ∀ target source, (Lists.joined L target source k).length ≤ 2 * m + 1 := by
    intro target source
    rw [Lists.joined]
    rcases eq_or_ne k source with rfl | hs
    · simp
    · rw [update_of_ne hs]
      refine hupdate target _ ?_
      have ht := h target
      have hs := h source
      rw [length_append]
      omega
  cases op with
  | insertAfter k' item node =>
    have hk' := h k'
    cases node with
    | none => exact hupdate k' _ (by simp; omega)
    | some n => exact hupdate k' _ ((length_insertBehind_le n item _).trans (by omega))
  | push k' item =>
    have hk' := h k'
    exact hupdate k' _ (by simp; omega)
  | enqueue k' item =>
    have hk' := h k'
    exact hupdate k' _ (by simp; omega)
  | dequeue k' =>
    have hk' := h k'
    exact hupdate k' _ (by simp; omega)
  | unlink k' item =>
    have hk' := h k'
    exact hupdate k' _ ((length_erase_le ..).trans (by omega))
  | join target source | move target source => exact hjoined target source

/-- There is a bound for the lists of a whole run. -/
theorem exists_bound {L : K → List N} {m : ℕ} (h : ∀ k, (L k).length ≤ m)
    (ops : List (ListOp K N)) :
    ∃ n, ∀ pre, pre <+: ops → ∀ k, (after L pre k).length ≤ n := by
  induction ops generalizing L m with
  | nil =>
    refine ⟨m, fun pre hpre k => ?_⟩
    rw [prefix_nil.1 hpre]
    exact h k
  | cons op ops ih =>
    obtain ⟨n, hn⟩ := ih (length_onLists_le h op)
    refine ⟨max m n, fun pre hpre k => ?_⟩
    rcases prefix_cons_iff.1 hpre with rfl | ⟨pre, rfl, hpre'⟩
    · exact (h k).trans (le_max_left m n)
    · exact (hn pre hpre' k).trans (le_max_right m n)

theorem Tidy.first {b : ListBuild} {L : K → List N} {op : ListOp K N} {ops : List (ListOp K N)}
    (h : Tidy b L (op :: ops)) : Tidy b L [op] :=
  h.imp_right fun h pre k hpre => h pre k (hpre.trans (by simp))

theorem Tidy.rest {b : ListBuild} {L : K → List N} {op : ListOp K N} {ops : List (ListOp K N)}
    (h : Tidy b L (op :: ops)) : Tidy b (op.onLists L) ops :=
  h.imp_right fun h pre k hpre => h (op :: pre) k (by simpa using hpre)

theorem AllAllowed.left {L : K → List N} {pre post : List (ListOp K N)}
    (h : AllAllowed L (pre ++ post)) : AllAllowed L pre := by
  induction pre generalizing L with
  | nil => trivial
  | cons op pre ih => exact ⟨h.1, ih h.2⟩

theorem after_append (L : K → List N) (pre post : List (ListOp K N)) :
    after L (pre ++ post) = after (after L pre) post := foldl_append

end ListOp

namespace Lists

open ListOp

variable {b : ListBuild} {s : Lists K N} {L : K → List N} {fuel : ℕ}

/-- An operation of the code, with what it returns. -/
def exec (b : ListBuild) (fuel : ℕ) (s : Lists K N) :
    ListOp K N → Except Fault (Lists K N × Option N)
  | .insertAfter k item node => (s.listInsertAfter b k item node).map (·, none)
  | .push k item => (s.listPush b k item).map (·, none)
  | .enqueue k item => (s.listEnqueue b k item).map (·, none)
  | .dequeue k => s.listDequeue b k
  | .unlink k item => (s.listUnlink b fuel k item).map (·, none)
  | .join target source => (s.listJoin b target source).map (·, none)
  | .move target source => (s.listMove b target source).map (·, none)

/-- Some operations in a row. -/
def run (b : ListBuild) (fuel : ℕ) :
    Lists K N → List (ListOp K N) → Except Fault (Lists K N × List (Option N))
  | s, [] => pure (s, [])
  | s, op :: ops => do
    let (s, r) ← s.exec b fuel op
    let (s, rs) ← run b fuel s ops
    pure (s, r :: rs)

/-- The functions that look at lists see the sequences. -/
structure Observes (b : ListBuild) (fuel : ℕ) (s : Lists K N) (L : K → List N) : Prop where
  head : ∀ k, s.listHead k = (L k).head?
  tail : ∀ k, s.listTail b k = .ok (L k).getLast?
  next : ∀ k pre n post, L k = pre ++ n :: post → s.listNext n = post.head?
  prev : ∀ k pre n post, L k = pre ++ n :: post → s.listPrev n = pre.getLast?
  count : ∀ k, s.listCount b fuel k = .ok (L k).length

/-- The test whether a node is on a list is right. -/
def AttachedRight (s : Lists K N) (L : K → List N) : Prop :=
  ∀ n, s.listNodeAttached n = true ↔ ∃ k, n ∈ L k

theorem Represents.observes (h : Represents s L) (hfuel : ∀ k, (L k).length ≤ fuel) :
    Observes b fuel s L where
  head := h.listHead_eq
  tail := h.listTail_eq
  next _ _ _ _ hl := h.listNext_eq hl
  prev _ _ _ _ hl := h.listPrev_eq hl
  count k := h.listCount_eq (hfuel k)

omit [DecidableEq K] [DecidableEq N] in
/-- The outcome of an operation that returns nothing. -/
theorem Makes.exec {run : Except Fault (Lists K N)} {L' : K → List N} (h : Makes run s L L') :
    ∃ s', run.map (·, (none : Option N)) = .ok (s', none) ∧ Represents s' L' ∧
      (Clear s L → Clear s' L') := by
  obtain ⟨s', rfl, hs'⟩ := h
  exact ⟨s', rfl, hs'⟩

/-- **One operation.** -/
theorem Represents.exec (h : Represents s L) (hclear : b.ndebug = false → Clear s L)
    (hfuel : ∀ k, (L k).length ≤ fuel) {op : ListOp K N} (hallowed : op.Allowed L) :
    ∃ s', s.exec b fuel op = .ok (s', op.result L) ∧ Represents s' (op.onLists L) ∧
      (Tidy b L [op] → Clear s L → Clear s' (op.onLists L)) := by
  have hadds : ∀ {run : Except Fault (Lists K N)} {L' : K → List N}, Makes run s L L' →
      ∃ s', run.map (·, (none : Option N)) = .ok (s', none) ∧ Represents s' L' ∧
        (Tidy b L [op] → Clear s L → Clear s' L') := by
    intro run L' hmakes
    obtain ⟨s', hrun, hrep, hkeep⟩ := hmakes.exec
    exact ⟨s', hrun, hrep, fun _ => hkeep⟩
  cases op with
  | insertAfter k item node =>
    cases node with
    | none =>
      have hsame : s.listInsertAfter b k item none = s.listPush b k item := by
        rw [listInsertAfter, assertClear_eq hallowed.1 hclear, ok_bind]
      simp only [Lists.exec, hsame]
      exact hadds (h.push hallowed.1 hclear)
    | some n =>
      obtain ⟨pre, post, hl⟩ := append_of_mem (hallowed.2 n rfl)
      have hpre : n ∉ pre := by
        have hnodup := h.nodup k
        rw [hl] at hnodup
        exact fun hmem => (nodup_append.1 hnodup).2.2 n hmem n (by simp) rfl
      have hmakes := h.insertAfter hallowed.1 hclear hl
      rw [← insertBehind_append hpre, ← hl] at hmakes
      exact hadds hmakes
  | push k item => exact hadds (h.push hallowed hclear)
  | enqueue k item => exact hadds (h.enqueue hallowed hclear)
  | dequeue k =>
    rw [Lists.exec, ListOp.result, onLists]
    cases hl : L k with
    | nil =>
      have hsame : update L k (List.tail []) = L := by
        rw [tail_nil, ← hl, update_eq_self]
      rw [hsame]
      exact ⟨s, h.dequeue_nil hl, h, fun _ => id⟩
    | cons item l =>
      obtain ⟨s', hrun, hrep, hkeep, -⟩ := h.dequeue (b := b) hl
      refine ⟨s', hrun, hrep, ?_⟩
      rintro (hb | htidy) hs
      · exact hkeep hb hs
      · have hnil := htidy [] k (by simp)
        simp [hl] at hnil
  | unlink k item =>
    obtain ⟨pre, post, hl⟩ := append_of_mem hallowed
    have hpre : item ∉ pre := by
      have hnodup := h.nodup k
      rw [hl] at hnodup
      exact fun hmem => (nodup_append.1 hnodup).2.2 item hmem item (by simp) rfl
    have hmakes := h.unlink (b := b) hl (hfuel k)
    have herase : pre ++ post = (L k).erase item := by
      rw [hl, erase_append_right _ hpre, erase_cons_head]
    rw [herase] at hmakes
    exact hadds hmakes
  | join target source => exact hadds (h.join hallowed)
  | move target source => exact hadds (h.move hallowed)

/-- **Operations in a row.** -/
theorem Represents.run {ops : List (ListOp K N)} (h : Represents s L)
    (hclear : b.ndebug = false → Clear s L)
    (hfuel : ∀ pre, pre <+: ops → ∀ k, (after L pre k).length ≤ fuel)
    (hallowed : AllAllowed L ops) :
    ∃ s', s.run b fuel ops = .ok (s', results L ops) ∧ Represents s' (after L ops) ∧
      (Tidy b L ops → Clear s L → Clear s' (after L ops)) := by
  induction ops generalizing s L with
  | nil => exact ⟨s, rfl, h, fun _ => id⟩
  | cons op ops ih =>
    obtain ⟨s₁, hexec, hrep, hkeep⟩ := h.exec hclear (hfuel [] nil_prefix) hallowed.1
    have hclear₁ : b.ndebug = false → Clear s₁ (op.onLists L) := fun hb =>
      hkeep (.inl hb) (hclear hb)
    obtain ⟨s₂, hrun, hrep₂, hkeep₂⟩ := ih hrep hclear₁
      (fun pre hpre => hfuel (op :: pre) (by simpa using hpre)) hallowed.2
    refine ⟨s₂, ?_, hrep₂, fun htidy hs => hkeep₂ htidy.rest (hkeep htidy.first hs)⟩
    rw [Lists.run, hexec, ok_bind]
    dsimp only
    rw [hrun, ok_bind]
    rfl

theorem run_append {pre post : List (ListOp K N)} {s₁ : Lists K N} {rs : List (Option N)}
    (h : s.run b fuel pre = .ok (s₁, rs)) :
    s.run b fuel (pre ++ post) =
      (s₁.run b fuel post).map fun x => (x.1, rs ++ x.2) := by
  induction pre generalizing s rs with
  | nil =>
    obtain ⟨rfl, rfl⟩ := Prod.mk.inj (pure_eq_ok.1 h)
    simp [Except.map]
    cases Lists.run b fuel s post <;> rfl
  | cons op pre ih =>
    obtain ⟨⟨s₂, r⟩, hexec, h⟩ := bind_eq_ok.1 h
    obtain ⟨⟨s₃, rs'⟩, hrun, ⟨⟩⟩ := bind_pure_eq_ok.1 h
    rw [cons_append, Lists.run, hexec, ok_bind]
    dsimp only
    rw [ih hrun]
    cases Lists.run b fuel s₃ post <;> rfl

omit [DecidableEq K] [DecidableEq N] in
/-- Zeroed memory has empty lists. -/
theorem init_represents : Represents (init : Lists K N) fun _ => [] where
  head _ := rfl
  count _ := rfl
  linked _ := trivial
  nodup _ := nodup_nil
  disjoint _ _ _ h := by simp at h

omit [DecidableEq K] [DecidableEq N] in
theorem init_clear : Clear (init : Lists K N) fun _ => [] := fun _ _ => ⟨rfl, rfl⟩

/-- With `NDEBUG` a node that was dequeued passes for one on a list. -/
theorem not_attachedRight_dequeue (h : Represents s L) (hb : b.ndebug = true) {k : K}
    (hl : L k ≠ []) {s' : Lists K N} {r : Option N}
    (hexec : s.exec b fuel (.dequeue k) = .ok (s', r)) :
    ¬ AttachedRight s' ((ListOp.dequeue k).onLists L) := by
  obtain ⟨item, l, hl⟩ := exists_cons_of_ne_nil hl
  obtain ⟨s₁, hrun, hrep, -, hnext⟩ := h.dequeue (b := b) hl
  obtain ⟨⟩ := Except.ok.inj (hrun.symm.trans hexec)
  intro hright
  have hne := (h.next_ne_null (k := k) (n := item) (by simp [hl])).1
  obtain ⟨k', hk'⟩ := (hright item).1 (by rw [listNodeAttached, hnext hb]; simpa using hne)
  rw [onLists, hl, tail_cons] at hk'
  have hnodup := h.nodup k
  rw [hl] at hnodup
  rcases eq_or_ne k' k with rfl | hkk
  · rw [update_self] at hk'
    exact (nodup_cons.1 hnodup).1 hk'
  · rw [update_of_ne hkk] at hk'
    exact hkk (h.disjoint k' k item hk' (by simp [hl]))

end Lists

open Viengoos.Lists ListOp in
/-- **Intrusive lists refine sequences.** Take any operations in a row, each of them allowed when it
comes. In every build, and with fuel enough for the checks that walk through lists, all of them
return, with the results the sequences have, and after each of them the functions that look at lists
see the sequences. The test whether a node is on a list is right after each of them exactly if the
build is without `NDEBUG` or no node is dequeued. -/
theorem lists_refine_sequences (b : ListBuild) (ops : List (ListOp K N))
    (hallowed : AllAllowed (fun _ => []) ops) :
    ∃ n, ∀ fuel ≥ n,
      (∀ pre, pre <+: ops → ∃ s, init.run b fuel pre = .ok (s, results (fun _ => []) pre) ∧
        Observes b fuel s (after (fun _ => []) pre)) ∧
      ((∀ pre, pre <+: ops → ∀ s r, init.run b fuel pre = .ok (s, r) →
        AttachedRight s (after (fun _ => []) pre)) ↔ Tidy b (fun _ => []) ops) := by
  obtain ⟨n, hn⟩ := exists_bound (L := fun _ : K => ([] : List N)) (m := 0) (by simp) ops
  refine ⟨n, fun fuel hfuel => ?_⟩
  have hrun : ∀ pre, pre <+: ops → ∃ s,
      init.run b fuel pre = .ok (s, results (fun _ => []) pre) ∧
        Lists.Represents s (after (fun _ => []) pre) ∧
        (Tidy b (fun _ => []) pre → Clear s (after (fun _ => []) pre)) := by
    rintro pre ⟨post, rfl⟩
    obtain ⟨s, hrun, hrep, hclear⟩ := init_represents.run (b := b) (fun _ => init_clear)
      (fun pre' hpre' k => (hn pre' (hpre'.trans (prefix_append ..)) k).trans hfuel)
      hallowed.left
    exact ⟨s, hrun, hrep, fun htidy => hclear htidy init_clear⟩
  refine ⟨fun pre hpre => ?_, fun hright => ?_, fun htidy pre hpre s r hs => ?_⟩
  · obtain ⟨s, hs, hrep, -⟩ := hrun pre hpre
    exact ⟨s, hs, hrep.observes fun k => (hn pre hpre k).trans hfuel⟩
  · rcases hb : b.ndebug with _ | _
    · exact .inl hb
    · refine .inr fun pre k hpre => ?_
      by_contra hne
      obtain ⟨s, hs, hrep, -⟩ := hrun pre ((prefix_append ..).trans hpre)
      obtain ⟨s', hs', -⟩ := hrun _ hpre
      have hstep := hs'
      rw [run_append hs] at hstep
      cases hexec : s.exec b fuel (.dequeue k) with
      | error e => simp [Lists.run, hexec, Except.map, bind, Except.bind] at hstep
      | ok x =>
        obtain ⟨s₁, r⟩ := x
        have hsame : s₁ = s' := by
          simpa [Lists.run, hexec, Except.map, bind, Except.bind, pure, Except.pure] using
            congrArg (Except.map Prod.fst) hstep
        have hattached := hright _ hpre s' _ hs'
        rw [after_append] at hattached
        exact not_attachedRight_dequeue hrep hb hne hexec (hsame ▸ hattached)
  · obtain ⟨s', hs', hrep, hclear⟩ := hrun pre hpre
    obtain ⟨⟩ := Except.ok.inj (hs'.symm.trans hs)
    have htidy' : Tidy b (fun _ => []) pre :=
      htidy.imp_right fun h pre' k hpre' => h pre' k (hpre'.trans hpre)
    exact fun m => hrep.attached_iff (hclear htidy')

open Viengoos.Lists ListOp in
/-- Two lists, four nodes and every operation, in a build with all checks. Two nodes are left, on
the list that was empty. -/
theorem lists_refine_sequences_two : ∃ fuel s,
    init.run ⟨false, false⟩ fuel [push true 7, enqueue true 8, insertAfter true 9 (some 7),
      enqueue false 5, join true false, unlink true 9, dequeue true, move false true] =
        .ok (s, [none, none, none, none, none, none, some 7, none]) ∧
      Observes ⟨false, false⟩ fuel s (fun k => if k then [] else [8, 5]) ∧
      AttachedRight s fun k => if k then [] else [8, 5] := by
  obtain ⟨n, hn⟩ := lists_refine_sequences ⟨false, false⟩ [push true 7, enqueue true 8,
    insertAfter true 9 (some 7), enqueue false 5, join true false, unlink true 9, dequeue true,
    move false true] (by simp [AllAllowed, Allowed, onLists, insertBehind, joined, update])
  obtain ⟨hruns, hright⟩ := hn n le_rfl
  obtain ⟨s, hs, hobserves⟩ := hruns _ prefix_rfl
  have hattached := hright.2 (.inl rfl) _ prefix_rfl s _ hs
  have hafter : after (fun _ => []) [push true 7, enqueue true 8, insertAfter true 9 (some 7),
      enqueue false 5, join true false, unlink true 9, dequeue true, move false true] =
      fun k => if k then [] else [8, 5] := by decide
  rw [hafter] at hobserves hattached
  exact ⟨n, s, hs, hobserves, hattached⟩

open Viengoos.Lists ListOp in
/-- With `NDEBUG` the node passes for one on a list when it is gone. -/
theorem dequeued_attached : ∃ s r,
    init.run ⟨true, true⟩ 0 [push () 7, dequeue ()] = .ok (s, r) ∧
      s.listNodeAttached 7 = true ∧
      ∀ k, 7 ∉ after (fun _ : Unit => ([] : List ℕ)) [push () 7, dequeue ()] k :=
  ⟨_, _, rfl, rfl, by decide⟩

end Viengoos
