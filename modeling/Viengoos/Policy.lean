import Mathlib

/-!
# Activity policies

The request `VG_activity_policy` and the update that it makes. An activity's policy says how memory
is divided among its siblings, between the activity and its children, and how many folios it may
have. A parent keeps its children in a list with the largest sibling priority first, and a new
priority moves the activity to its new place in the list.

The new policy is assembled from the request and, for the fields that the request does not set, from
the policy of the *caller's* activity. So the request does what it says exactly if the caller's
activity and the invoked one agree on these fields (`activityPolicy_exact_iff`). The lists stay in
order in any case.
-/

namespace Viengoos

/-! ### Policies -/

/-- `struct vg_activity_memory_policy`. -/
structure MemoryPolicy where
  priority : ℕ
  weight : ℕ
deriving DecidableEq, Repr

/-- `struct vg_activity_policy`. -/
structure ActivityPolicy where
  siblingRel : MemoryPolicy
  childRel : MemoryPolicy
  folios : ℕ
deriving DecidableEq, Repr

namespace PolicyFlag

/-- `VG_ACTIVITY_POLICY_CHILD_REL_PRIORITY_SET`. -/
def childRelPrioritySet : ℕ := 1

/-- `VG_ACTIVITY_POLICY_CHILD_REL_WEIGHT_SET`. -/
def childRelWeightSet : ℕ := 2

/-- `VG_ACTIVITY_POLICY_SIBLING_REL_PRIORITY_SET`. -/
def siblingRelPrioritySet : ℕ := 4

/-- `VG_ACTIVITY_POLICY_SIBLING_REL_WEIGHT_SET`. -/
def siblingRelWeightSet : ℕ := 8

/-- `VG_ACTIVITY_POLICY_STORAGE_SET`. -/
def storageSet : ℕ := 16

/-- `VG_ACTIVITY_POLICY_SIBLING_REL_SET`. -/
def siblingRelSet : ℕ := siblingRelPrioritySet ||| siblingRelWeightSet

/-- All flags that ask for a change. -/
def anySet : ℕ := childRelPrioritySet ||| childRelWeightSet ||| siblingRelPrioritySet |||
  siblingRelWeightSet ||| storageSet

end PolicyFlag

open PolicyFlag Function List

/-- The fields of `input` that the flags select, over `base`. -/
def ActivityPolicy.assemble (base : ActivityPolicy) (flags : ℕ) (input : ActivityPolicy) :
    ActivityPolicy where
  childRel :=
    { priority := if flags &&& childRelPrioritySet ≠ 0 then input.childRel.priority
        else base.childRel.priority
      weight := if flags &&& childRelWeightSet ≠ 0 then input.childRel.weight
        else base.childRel.weight }
  siblingRel :=
    { priority := if flags &&& siblingRelPrioritySet ≠ 0 then input.siblingRel.priority
        else base.siblingRel.priority
      weight := if flags &&& siblingRelWeightSet ≠ 0 then input.siblingRel.weight
        else base.siblingRel.weight }
  folios := if flags &&& storageSet ≠ 0 then input.folios else base.folios

/-! ### Activities -/

/-- The activities in memory: their policies and their places among each other. -/
structure Activities where
  policy : ℕ → ActivityPolicy
  parent : ℕ → Option ℕ
  children : ℕ → List ℕ

namespace Activities

def priority (t : Activities) (a : ℕ) : ℕ := (t.policy a).siblingRel.priority

def setPolicy (t : Activities) (a : ℕ) (policy : ActivityPolicy) : Activities :=
  { t with policy := update t.policy a policy }

/-- `activity->policy.sibling_rel.priority = priority`. -/
def setPriority (t : Activities) (a priority : ℕ) : Activities :=
  t.setPolicy a { t.policy a with siblingRel := { (t.policy a).siblingRel with priority } }

/-- `activity_children_list_insert_after`. -/
def insertAfter (x : ℕ) : Option ℕ → List ℕ → List ℕ
  | none, l => x :: l
  | some _, [] => []
  | some p, y :: l => if y = p then y :: x :: l else y :: insertAfter x (some p) l

/-- The siblings before an activity, the nearest first, as `activity_children_list_prev` visits
them. -/
def before (t : Activities) (a : ℕ) : List ℕ :=
  match t.parent a with
  | none => []
  | some p => ((t.children p).takeWhile (· ≠ a)).reverse

/-- The siblings after an activity, the nearest first, as `activity_children_list_next` visits
them. -/
def after (t : Activities) (a : ℕ) : List ℕ :=
  match t.parent a with
  | none => []
  | some p => ((t.children p).dropWhile (· ≠ a)).tail

/-- Unlink an activity and insert it after a sibling, or at the head. -/
def move (t : Activities) (a : ℕ) (after : Option ℕ) : Activities :=
  match t.parent a with
  | none => t
  | some p => { t with
      children := update t.children p (insertAfter a after ((t.children p).erase a)) }

/-- The loop that looks for the last of the following siblings with a larger priority. -/
def lastAbove (t : Activities) (priority : ℕ) : ℕ → List ℕ → ℕ
  | next, [] => next
  | next, nextNext :: rest =>
    if priority < t.priority nextNext then lastAbove t priority nextNext rest else next

/-- The place of an activity in its parent's list after its priority has changed. -/
def reorder (t : Activities) (a priority : ℕ) : Activities :=
  if priority = t.priority a then t
  else if t.priority a < priority then
    let t := t.setPriority a priority
    let prev := (t.before a).find? fun b => ¬ t.priority b < priority
    if prev ≠ (t.before a).head? then t.move a prev else t
  else
    let t := t.setPriority a priority
    let next := t.lastAbove priority a (t.after a)
    if next ≠ a then t.move a (some next) else t

/-- `activity_policy_update`. -/
def activityPolicyUpdate (t : Activities) (a : ℕ) (policy : ActivityPolicy) : Activities :=
  (t.reorder a policy.siblingRel.priority).setPolicy a policy

/-- The request is refused: it comes through a weak capability and asks for more than the policy
towards the children. -/
def Refused (writable : Bool) (flags : ℕ) : Prop :=
  writable = false ∧ flags &&& (storageSet ||| siblingRelSet) ≠ 0

instance (writable : Bool) (flags : ℕ) : Decidable (Refused writable flags) :=
  inferInstanceAs (Decidable (_ ∧ _))

/-- The server's handler of `VG_activity_policy`: the reply is the old policy, or `EPERM`. -/
def vgActivityPolicy (t : Activities) (principal activity : ℕ) (writable : Bool) (flags : ℕ)
    (input : ActivityPolicy) : Activities × Option ActivityPolicy :=
  if Refused writable flags then (t, none)
  else if flags &&& anySet ≠ 0 then
    (t.activityPolicyUpdate activity ((t.policy principal).assemble flags input),
      some (t.policy activity))
  else (t, some (t.policy activity))

/-! ### The children's lists -/

/-- The lists of children are in order, and list just the children. -/
structure Ordered (t : Activities) : Prop where
  nodup : ∀ p, (t.children p).Nodup
  sorted : ∀ p, (t.children p).Pairwise fun x y => t.priority y ≤ t.priority x
  parent_iff : ∀ a p, t.parent a = some p ↔ a ∈ t.children p

variable {t : Activities} {a p : ℕ}

variable {b q x flags : ℕ} {l : List ℕ}

variable {input policy : ActivityPolicy} {y : ℕ}

theorem setPolicy_priority_of_ne (h : b ≠ a) :
    (t.setPolicy a policy).priority b = t.priority b :=
  congrArg (fun π : ActivityPolicy => π.siblingRel.priority) (update_of_ne h ..)

theorem setPolicy_priority_self :
    (t.setPolicy a policy).priority a = policy.siblingRel.priority :=
  congrArg (fun π : ActivityPolicy => π.siblingRel.priority) (update_self ..)

theorem setPriority_priority_of_ne (h : b ≠ a) :
    (t.setPriority a q).priority b = t.priority b :=
  setPolicy_priority_of_ne h

theorem insertAfter_none (x : ℕ) (l : List ℕ) : insertAfter x none l = x :: l := by cases l <;> rfl

theorem insertAfter_append {l₁ l₂ : List ℕ} (h : (l₁ ++ b :: l₂).Nodup) :
    insertAfter x (some b) (l₁ ++ b :: l₂) = l₁ ++ b :: x :: l₂ := by
  induction l₁ with
  | nil => simp [insertAfter]
  | cons y l₁ ih =>
    obtain ⟨hy, h⟩ := nodup_cons.1 h
    rw [cons_append, insertAfter, if_neg (by rintro rfl; simp at hy), ih h]
    rfl

/-- The parts of a list around one of its elements. -/
theorem split_at (hnodup : l.Nodup) (ha : a ∈ l) :
    ∃ pre post, l = pre ++ a :: post ∧ l.takeWhile (· ≠ a) = pre ∧
      (l.dropWhile (· ≠ a)).tail = post ∧ l.erase a = pre ++ post := by
  obtain ⟨pre, post, rfl⟩ := append_of_mem ha
  have hpre : a ∉ pre := fun hmem =>
    (nodup_append.1 hnodup).2.2 a hmem a (mem_cons_self ..) rfl
  have hall : ∀ x ∈ pre, decide (x ≠ a) = true := fun x hx =>
    decide_eq_true fun hxa => hpre (hxa ▸ hx)
  refine ⟨pre, post, rfl, ?_, ?_, ?_⟩
  · rw [takeWhile_append_of_pos hall, takeWhile_cons_of_neg (by simp), append_nil]
  · rw [dropWhile_append_of_pos hall, dropWhile_cons_of_neg (by simp), tail_cons]
  · rw [erase_append_right _ hpre, erase_cons_head]

/-- An element put where its new priority belongs keeps the order. -/
theorem pairwise_insert {f : ℕ → ℕ} {l₁ l₂ : List ℕ}
    (h : (l₁ ++ l₂).Pairwise fun x y => f y ≤ f x) (h₁ : ∀ x ∈ l₁, f a ≤ f x)
    (h₂ : ∀ x ∈ l₂, f x ≤ f a) : (l₁ ++ a :: l₂).Pairwise fun x y => f y ≤ f x := by
  obtain ⟨hp₁, hp₂, hcross⟩ := pairwise_append.1 h
  refine pairwise_append.2 ⟨hp₁, pairwise_cons.2 ⟨h₂, hp₂⟩, fun x hx y hy => ?_⟩
  rcases mem_cons.1 hy with rfl | hy
  · exact h₁ x hx
  · exact hcross x hx y hy

/-- The search forwards ends at the last sibling with a larger priority, and what is inserted there
stands before the others. -/
theorem insertAfter_lastAbove {pre : List ℕ} (hnodup : (pre ++ b :: l).Nodup) :
    insertAfter x (some (t.lastAbove q b l)) (pre ++ b :: l) =
      pre ++ b :: (l.takeWhile (fun c => q < t.priority c) ++
        x :: l.dropWhile fun c => q < t.priority c) := by
  induction l generalizing pre b with
  | nil => simp [lastAbove, insertAfter_append hnodup]
  | cons c l ih =>
    rw [lastAbove]
    split
    next hc =>
      rw [append_cons] at hnodup ⊢
      rw [ih hnodup, takeWhile_cons_of_pos (by simpa using hc),
        dropWhile_cons_of_pos (by simpa using hc)]
      simp
    next hc =>
      rw [insertAfter_append hnodup, takeWhile_cons_of_neg (by simpa using hc),
        dropWhile_cons_of_neg (by simpa using hc), nil_append]

theorem lastAbove_mem (t : Activities) (q next : ℕ) (l : List ℕ) :
    t.lastAbove q next l ∈ next :: l := by
  induction l generalizing next with
  | nil => exact mem_cons_self ..
  | cons c l ih =>
    rw [lastAbove]
    split
    · exact mem_cons_of_mem next (ih c)
    · exact mem_cons_self ..

/-- In a list in order, no priority is above `q` once one is not. -/
theorem le_of_mem_dropWhile (h : l.Pairwise fun x y => t.priority y ≤ t.priority x) :
    ∀ x ∈ l.dropWhile fun c => q < t.priority c, t.priority x ≤ q := by
  induction l with
  | nil => simp
  | cons c l ih =>
    obtain ⟨hc, hl⟩ := pairwise_cons.1 h
    by_cases hq : q < t.priority c
    · rw [dropWhile_cons_of_pos (by simpa using hq)]
      exact ih hl
    · rw [dropWhile_cons_of_neg (by simpa using hq), forall_mem_cons]
      exact ⟨not_lt.1 hq, fun x hx => (hc x hx).trans (not_lt.1 hq)⟩

/-- The list of `a` and its siblings has `a` in the place for priority `q`. -/
def Placed (t : Activities) (a q : ℕ) (old new : List ℕ) : Prop :=
  ∃ l₁ l₂, old.erase a = l₁ ++ l₂ ∧ new = l₁ ++ a :: l₂ ∧ (∀ x ∈ l₁, q ≤ t.priority x) ∧
    ∀ x ∈ l₂, t.priority x ≤ q

/-- Searching backwards from `a` for the place of a larger priority. -/
theorem placed_increase (h : t.Ordered) (hp : t.parent a = some p) (hq : t.priority a < q) :
    Placed t a q (t.children p)
      (if (t.before a).find? (fun b => ¬ t.priority b < q) ≠ (t.before a).head? then
        insertAfter a ((t.before a).find? fun b => ¬ t.priority b < q) ((t.children p).erase a)
      else t.children p) := by
  have hmem := (h.parent_iff a p).1 hp
  obtain ⟨pre, post, hl, htake, _, herase⟩ := split_at (h.nodup p) hmem
  have hbefore : t.before a = pre.reverse := by rw [before, hp, ← htake]
  have hsorted := h.sorted p
  rw [hl] at hsorted
  obtain ⟨hpre, hpost, hcross⟩ := pairwise_append.1 hsorted
  have hlow : ∀ x ∈ post, t.priority x ≤ q := fun x hx =>
    ((pairwise_cons.1 hpost).1 x hx).trans hq.le
  rw [hbefore, herase]
  cases hfind : pre.reverse.find? (fun b => ¬ t.priority b < q) with
  | none =>
    -- All siblings before have a smaller priority.
    have hall : ∀ x ∈ pre, t.priority x < q := fun x hx => by
      simpa using find?_eq_none.1 hfind x (mem_reverse.2 hx)
    split
    · refine ⟨[], pre ++ post, by rw [herase]; rfl, insertAfter_none .., by simp, fun x hx => ?_⟩
      rcases mem_append.1 hx with hx | hx
      · exact (hall x hx).le
      · exact hlow x hx
    next hend =>
      have hnil : pre = [] := getLast?_eq_none_iff.1 (by simpa using (not_not.1 hend).symm)
      subst hnil
      exact ⟨[], post, herase, hl, by simp, hlow⟩
  | some b =>
    obtain ⟨hb, as, bs, hrev, hsmall⟩ := find?_eq_some_iff_append.1 hfind
    have hbq : q ≤ t.priority b := by simpa using hb
    have hpre' : pre = bs.reverse ++ b :: as.reverse := by
      rw [← reverse_reverse pre, hrev]
      simp
    have hnodup := herase ▸ (h.nodup p).erase a
    rw [hpre'] at hpre
    rw [hpre', append_assoc, cons_append] at hnodup
    have hhigh : ∀ x ∈ bs.reverse ++ [b], q ≤ t.priority x := by
      intro x hx
      rcases mem_append.1 hx with hx | hx
      · exact hbq.trans ((pairwise_append.1 hpre).2.2 x hx b (mem_cons_self ..))
      · rwa [mem_singleton.1 hx]
    have hsmall' : ∀ x ∈ as.reverse ++ post, t.priority x ≤ q := by
      intro x hx
      rcases mem_append.1 hx with hx | hx
      · have : t.priority x < q := by simpa using hsmall x (mem_reverse.1 hx)
        exact this.le
      · exact hlow x hx
    have hrest : pre ++ post = bs.reverse ++ [b] ++ (as.reverse ++ post) := by
      rw [hpre']
      simp
    split
    · refine ⟨bs.reverse ++ [b], as.reverse ++ post, herase.trans hrest, ?_, hhigh, hsmall'⟩
      rw [hpre', append_assoc, cons_append, insertAfter_append hnodup]
      simp
    next hend =>
      have hnil : as = [] := by
        have hhead : pre.reverse.head? = some b := (not_not.1 hend).symm
        rw [hrev] at hhead
        cases as with
        | nil => rfl
        | cons x as =>
          have hxb : x = b := by simpa using hhead
          have := hsmall x (mem_cons_self ..)
          rw [hxb] at this
          exact absurd hb (by simpa using this)
      subst hnil
      refine ⟨bs.reverse ++ [b], post, herase.trans (by rw [hrest]; simp), ?_, hhigh, hlow⟩
      rw [hl, hpre']
      simp

/-- Searching forwards from `a` for the place of a smaller priority. -/
theorem placed_decrease (h : t.Ordered) (hp : t.parent a = some p) (hq : q < t.priority a) :
    Placed t a q (t.children p)
      (if t.lastAbove q a (t.after a) ≠ a then
        insertAfter a (some (t.lastAbove q a (t.after a))) ((t.children p).erase a)
      else t.children p) := by
  have hmem := (h.parent_iff a p).1 hp
  obtain ⟨pre, post, hl, _, hdrop, herase⟩ := split_at (h.nodup p) hmem
  have hafter : t.after a = post := by rw [after, hp, ← hdrop]
  have hsorted := h.sorted p
  have hnodup := h.nodup p
  rw [hl] at hsorted hnodup
  obtain ⟨hpre, hpost, hcross⟩ := pairwise_append.1 hsorted
  have hhigh : ∀ x ∈ pre, q ≤ t.priority x := fun x hx =>
    hq.le.trans (hcross x hx a (mem_cons_self ..))
  have hpost := (pairwise_cons.1 hpost).2
  rw [hafter, herase]
  cases post with
  | nil => exact ⟨pre, [], herase, by simp [hl, lastAbove], hhigh, by simp⟩
  | cons c post =>
    rw [lastAbove]
    split
    next hc =>
      have hnodup' : (pre ++ c :: post).Nodup := herase ▸ (h.nodup p).erase a
      have hne : t.lastAbove q c post ≠ a := fun e =>
        (nodup_cons.1 (nodup_append.1 hnodup).2.1).1 (e ▸ lastAbove_mem ..)
      rw [if_pos hne, insertAfter_lastAbove hnodup']
      refine ⟨pre ++ c :: post.takeWhile fun b => q < t.priority b,
        post.dropWhile fun b => q < t.priority b, by simp [herase], by simp, ?_,
        le_of_mem_dropWhile (pairwise_cons.1 hpost).2⟩
      intro x hx
      rcases mem_append.1 hx with hx | hx
      · exact hhigh x hx
      rcases mem_cons.1 hx with rfl | hx
      · exact hc.le
      · have habove : q < t.priority x := by simpa using mem_takeWhile_imp hx
        exact habove.le
    next hc =>
      rw [if_neg (not_not.2 rfl)]
      refine ⟨pre, c :: post, herase, hl, hhigh, forall_mem_cons.2 ⟨not_lt.1 hc, ?_⟩⟩
      exact fun x hx => ((pairwise_cons.1 hpost).1 x hx).trans (not_lt.1 hc)

theorem ne_of_mem_before (hb : b ∈ t.before a) : b ≠ a := by
  unfold before at hb
  split at hb
  · cases hb
  · simpa using mem_takeWhile_imp (mem_reverse.1 hb)

theorem ne_of_mem_after (h : t.Ordered) (hb : b ∈ t.after a) : b ≠ a := by
  unfold after at hb
  split at hb
  · cases hb
  next p hp =>
    obtain ⟨pre, post, hl, _, hdrop, _⟩ := split_at (h.nodup p) ((h.parent_iff a p).1 hp)
    rw [hdrop] at hb
    have hnodup := h.nodup p
    rw [hl] at hnodup
    exact fun hba => (nodup_cons.1 (nodup_append.1 hnodup).2.1).1 (hba ▸ hb)

theorem find_before_setPriority (t : Activities) (a q : ℕ) :
    (t.before a).find? (fun b => ¬ (t.setPriority a q).priority b < q) =
      (t.before a).find? fun b => ¬ t.priority b < q := by
  refine find?_congr fun b hb => ?_
  rw [setPriority_priority_of_ne (ne_of_mem_before hb)]

theorem lastAbove_setPriority {next : ℕ} (h : ∀ b ∈ l, b ≠ a) :
    (t.setPriority a q).lastAbove q next l = t.lastAbove q next l := by
  induction l generalizing next with
  | nil => rfl
  | cons b l ih =>
    rw [lastAbove, lastAbove, setPriority_priority_of_ne (h b (mem_cons_self ..)),
      ih fun c hc => h c (mem_cons_of_mem b hc)]

theorem placed_same (h : t.Ordered) (hp : t.parent a = some p) :
    Placed t a (t.priority a) (t.children p) (t.children p) := by
  obtain ⟨pre, post, hl, _, _, herase⟩ := split_at (h.nodup p) ((h.parent_iff a p).1 hp)
  have hsorted := h.sorted p
  rw [hl] at hsorted
  obtain ⟨_, hpost, hcross⟩ := pairwise_append.1 hsorted
  exact ⟨pre, post, herase, hl, fun x hx => hcross x hx a (mem_cons_self ..),
    (pairwise_cons.1 hpost).1⟩

theorem move_children (t : Activities) (a : ℕ) (dest : Option ℕ) (p : ℕ) :
    (t.move a dest).children p = if t.parent a = some p then
      insertAfter a dest ((t.children p).erase a) else t.children p := by
  unfold move
  split
  next hp => simp [hp]
  next p' hp =>
    by_cases hpp : p' = p
    · subst hpp
      simp [hp]
    · simp [hp, hpp, update_of_ne (Ne.symm hpp)]

theorem move_policy (t : Activities) (a : ℕ) (dest : Option ℕ) :
    (t.move a dest).policy = t.policy := by
  unfold move
  split <;> rfl

theorem move_parent (t : Activities) (a : ℕ) (dest : Option ℕ) :
    (t.move a dest).parent = t.parent := by
  unfold move
  split <;> rfl

/-- Setting the priority of an activity, and moving it if it has to move. -/
theorem placed_move {dest : Option ℕ} (c : Prop) [Decidable c]
    (h : ∀ p, t.parent a = some p → Placed t a q (t.children p)
      (if c then insertAfter a dest ((t.children p).erase a) else t.children p)) :
    let t' := if c then (t.setPriority a q).move a dest else t.setPriority a q
    t'.parent = t.parent ∧ (∀ π, update t'.policy a π = update t.policy a π) ∧
      ∀ p, (t.parent a = some p → Placed t a q (t.children p) (t'.children p)) ∧
        (t.parent a ≠ some p → t'.children p = t.children p) := by
  have hchildren : ∀ p, ((t.setPriority a q).move a dest).children p = if t.parent a = some p then
      insertAfter a dest ((t.children p).erase a) else t.children p := move_children _ a dest
  split
  next hc =>
    refine ⟨move_parent .., fun π => ?_, fun p => ⟨fun hp => ?_, fun hp => ?_⟩⟩
    · rw [move_policy]
      exact update_idem ..
    · have hplaced := h p hp
      rw [if_pos hc] at hplaced
      rwa [hchildren, if_pos hp]
    · rw [hchildren, if_neg hp]
  next hc =>
    refine ⟨rfl, fun π => update_idem .., fun p => ⟨fun hp => ?_, fun _ => rfl⟩⟩
    have hplaced := h p hp
    rw [if_neg hc] at hplaced
    exact hplaced

/-- **Reordering** leaves everything as it is but the place of the activity among its siblings (and
its own policy, which the caller stores). -/
theorem reorder_spec (h : t.Ordered) (a q : ℕ) :
    (t.reorder a q).parent = t.parent ∧
    (∀ π, update (t.reorder a q).policy a π = update t.policy a π) ∧
    ∀ p, (t.parent a = some p → Placed t a q (t.children p) ((t.reorder a q).children p)) ∧
      (t.parent a ≠ some p → (t.reorder a q).children p = t.children p) := by
  unfold reorder
  split
  next hsame =>
    refine ⟨rfl, fun _ => rfl, fun p => ⟨fun hp => ?_, fun _ => rfl⟩⟩
    rw [hsame]
    exact placed_same h hp
  next hsame =>
    split
    next hlt =>
      dsimp only
      have hbefore : (t.setPriority a q).before a = t.before a := rfl
      rw [hbefore, find_before_setPriority]
      exact placed_move _ fun p hp => placed_increase h hp hlt
    next hge =>
      dsimp only
      have hafter : (t.setPriority a q).after a = t.after a := rfl
      rw [hafter, lastAbove_setPriority fun b hb => ne_of_mem_after h hb]
      exact placed_move _ fun p hp => placed_decrease h hp (lt_of_le_of_ne (not_lt.1 hge) hsame)

theorem Placed.perm {old new : List ℕ} (h : Placed t a q old new) (ha : a ∈ old) :
    new.Perm old := by
  obtain ⟨l₁, l₂, herase, rfl, _, _⟩ := h
  refine perm_middle.trans ?_
  rw [← herase]
  exact (perm_cons_erase ha).symm

/-- **A policy update** changes the policy of the activity and its place among its siblings, where
the new priority belongs. -/
theorem activityPolicyUpdate_spec (h : t.Ordered) (a : ℕ) (policy : ActivityPolicy) :
    (t.activityPolicyUpdate a policy).policy = update t.policy a policy ∧
    (t.activityPolicyUpdate a policy).parent = t.parent ∧
    (∀ p, ((t.activityPolicyUpdate a policy).children p).Perm (t.children p)) ∧
    (∀ p, t.parent a ≠ some p → (t.activityPolicyUpdate a policy).children p = t.children p) ∧
    (t.activityPolicyUpdate a policy).Ordered := by
  obtain ⟨hparent, hpolicy, hchildren⟩ := reorder_spec h a policy.siblingRel.priority
  have hupdate : (t.activityPolicyUpdate a policy).policy = update t.policy a policy :=
    hpolicy policy
  have hself : (t.activityPolicyUpdate a policy).priority a = policy.siblingRel.priority :=
    setPolicy_priority_self
  have hother : ∀ b, b ≠ a → (t.activityPolicyUpdate a policy).priority b = t.priority b := by
    intro b hb
    rw [priority, hupdate, update_of_ne hb, priority]
  have hperm : ∀ p, ((t.activityPolicyUpdate a policy).children p).Perm (t.children p) := by
    intro p
    by_cases hp : t.parent a = some p
    · exact ((hchildren p).1 hp).perm ((h.parent_iff a p).1 hp)
    · exact .of_eq ((hchildren p).2 hp)
  -- The other siblings are in the same order as before.
  have hrest : ∀ p, ((t.children p).erase a).Pairwise fun x y =>
      (t.activityPolicyUpdate a policy).priority y ≤
        (t.activityPolicyUpdate a policy).priority x := fun p => by
    refine ((h.sorted p).sublist erase_sublist).imp_of_mem fun {x y} hx hy hxy => ?_
    rw [(h.nodup p).mem_erase_iff] at hx hy
    rwa [hother x hx.1, hother y hy.1]
  refine ⟨hupdate, hparent, hperm, fun p hp => (hchildren p).2 hp,
    fun p => (hperm p).nodup_iff.2 (h.nodup p), fun p => ?_, fun b p => ?_⟩
  · have hrest := hrest p
    by_cases hp : t.parent a = some p
    · obtain ⟨l₁, l₂, herase, hnew, hhigh, hlow⟩ := (hchildren p).1 hp
      have hne : ∀ x ∈ l₁ ++ l₂, x ≠ a := fun x hx hxa =>
        (h.nodup p).not_mem_erase (a := a) (herase ▸ hxa ▸ hx)
      rw [herase] at hrest
      change ((t.reorder a policy.siblingRel.priority).children p).Pairwise _
      rw [hnew]
      refine pairwise_insert hrest (fun x hx => ?_) fun x hx => ?_
      · rw [hself, hother x (hne x (mem_append_left _ hx))]
        exact hhigh x hx
      · rw [hself, hother x (hne x (mem_append_right _ hx))]
        exact hlow x hx
    · have hsame : (t.activityPolicyUpdate a policy).children p = t.children p := (hchildren p).2 hp
      rwa [hsame, ← erase_of_not_mem fun ha => hp ((h.parent_iff a p).2 ha)]
  · rw [(hperm p).mem_iff, ← h.parent_iff b p]
    exact (congrFun hparent b).congr_left

/-! ### What a request changes -/

/-- Two policies agree on the fields that the flags do not set. -/
def AgreeOnUnset (flags : ℕ) (π π' : ActivityPolicy) : Prop :=
  (flags &&& childRelPrioritySet = 0 → π.childRel.priority = π'.childRel.priority) ∧
  (flags &&& childRelWeightSet = 0 → π.childRel.weight = π'.childRel.weight) ∧
  (flags &&& siblingRelPrioritySet = 0 → π.siblingRel.priority = π'.siblingRel.priority) ∧
  (flags &&& siblingRelWeightSet = 0 → π.siblingRel.weight = π'.siblingRel.weight) ∧
  (flags &&& storageSet = 0 → π.folios = π'.folios)

instance (flags : ℕ) (π π' : ActivityPolicy) : Decidable (AgreeOnUnset flags π π') :=
  inferInstanceAs (Decidable (_ ∧ _))

/-- One field of the assembled policy depends on the base iff its flag is not set. -/
theorem ite_flag_eq_iff {flag z : ℕ} :
    ((if flag ≠ 0 then x else y) = if flag ≠ 0 then x else z) ↔ (flag = 0 → y = z) := by
  by_cases h : flag = 0 <;> simp [h]

theorem assemble_eq_iff {π π' : ActivityPolicy} :
    π.assemble flags input = π'.assemble flags input ↔ AgreeOnUnset flags π π' := by
  simp only [ActivityPolicy.assemble, ActivityPolicy.mk.injEq, MemoryPolicy.mk.injEq,
    ite_flag_eq_iff, AgreeOnUnset]
  tauto

theorem and_eq_zero_of_or (h : flags &&& (x ||| y) = 0) :
    flags &&& x = 0 ∧ flags &&& y = 0 := by
  rw [Nat.and_or_distrib_left] at h
  exact Nat.or_eq_zero_iff.1 h

theorem assemble_of_none (h : flags &&& anySet = 0) (π input : ActivityPolicy) :
    π.assemble flags input = π := by
  obtain ⟨h, hstorage⟩ := and_eq_zero_of_or h
  obtain ⟨h, hsiblingWeight⟩ := and_eq_zero_of_or h
  obtain ⟨h, hsiblingPriority⟩ := and_eq_zero_of_or h
  obtain ⟨hchildPriority, hchildWeight⟩ := and_eq_zero_of_or h
  simp [ActivityPolicy.assemble, hstorage, hsiblingWeight, hsiblingPriority, hchildPriority,
    hchildWeight]

/-- The policy that a request asks for: the fields that it sets, over the activity's own policy. -/
def requested (t : Activities) (activity : ℕ) (writable : Bool) (flags : ℕ)
    (input : ActivityPolicy) : ActivityPolicy :=
  if Refused writable flags then t.policy activity else (t.policy activity).assemble flags input

/-- A weak capability is good for the policy towards the children only. -/
theorem requested_of_weak {activity : ℕ} :
    (t.requested activity false flags input).siblingRel = (t.policy activity).siblingRel ∧
      (t.requested activity false flags input).folios = (t.policy activity).folios := by
  unfold requested
  split
  · exact ⟨rfl, rfl⟩
  next hrefused =>
    have hnone : flags &&& (storageSet ||| siblingRelSet) = 0 := by
      by_contra hne
      exact hrefused ⟨rfl, hne⟩
    obtain ⟨hstorage, hsibling⟩ := and_eq_zero_of_or hnone
    obtain ⟨hpriority, hweight⟩ := and_eq_zero_of_or hsibling
    simp [ActivityPolicy.assemble, hstorage, hpriority, hweight]

/-- A request does just what it asks for: it changes the fields of the activity's policy that it
sets, no other policy and, through a weak capability, only the policy towards the children; and the
activity is where its priority belongs in a list that is still in order. -/
structure Exact (t : Activities) (activity : ℕ) (writable : Bool) (flags : ℕ)
    (input : ActivityPolicy) (t' : Activities) : Prop where
  policy : t'.policy = update t.policy activity (t.requested activity writable flags input)
  weak : writable = false → (t'.policy activity).siblingRel = (t.policy activity).siblingRel ∧
    (t'.policy activity).folios = (t.policy activity).folios
  parent : t'.parent = t.parent
  perm : ∀ p, (t'.children p).Perm (t.children p)
  others : ∀ p, t.parent activity ≠ some p → t'.children p = t.children p
  ordered : t'.Ordered

/-- **When a request is exact**: when it is refused, when it sets nothing, and otherwise iff the
caller's activity agrees with the invoked one on the fields that are not set. -/
theorem activityPolicy_exact_iff (h : t.Ordered) (principal activity : ℕ) (writable : Bool)
    (flags : ℕ) (input : ActivityPolicy) :
    Exact t activity writable flags input
        (t.vgActivityPolicy principal activity writable flags input).1 ↔
      Refused writable flags ∨ flags &&& anySet = 0 ∨
        AgreeOnUnset flags (t.policy principal) (t.policy activity) := by
  have hunchanged : t.requested activity writable flags input = t.policy activity →
      Exact t activity writable flags input t := fun hsame =>
    ⟨by rw [hsame, update_eq_self], fun _ => ⟨rfl, rfl⟩, rfl, fun _ => .refl _,
      fun _ _ => rfl, h⟩
  unfold vgActivityPolicy
  by_cases hrefused : Refused writable flags
  · rw [if_pos hrefused]
    exact iff_of_true (hunchanged (if_pos hrefused)) (.inl hrefused)
  rw [if_neg hrefused]
  have hrequested : t.requested activity writable flags input =
      (t.policy activity).assemble flags input := if_neg hrefused
  by_cases hnone : flags &&& anySet = 0
  · rw [if_neg (not_not.2 hnone)]
    refine iff_of_true (hunchanged ?_) (.inr (.inl hnone))
    rw [hrequested, assemble_of_none hnone]
  rw [if_pos hnone]
  obtain ⟨hpolicy, hparent, hperm, hothers, hordered⟩ :=
    activityPolicyUpdate_spec h activity ((t.policy principal).assemble flags input)
  constructor
  · intro hexact
    have hself := congrFun (hpolicy.symm.trans hexact.policy) activity
    rw [update_self, update_self, hrequested] at hself
    exact .inr (.inr (assemble_eq_iff.1 hself))
  · rintro (hc | hc | hagree)
    · exact absurd hc hrefused
    · exact absurd hc hnone
    · have hself : (t.policy principal).assemble flags input =
          t.requested activity writable flags input := by
        rw [hrequested]
        exact assemble_eq_iff.2 hagree
      refine ⟨by rw [hpolicy, hself], fun hweak => ?_, hparent, hperm, hothers, hordered⟩
      rw [hpolicy, update_self, hself, hweak]
      exact requested_of_weak

/-- Activity 1 is the only child of activity 0. -/
def twoActivities (root child : ActivityPolicy) : Activities where
  policy a := if a = 0 then root else child
  parent a := if a = 1 then some 0 else none
  children p := if p = 0 then [1] else []

theorem twoActivities_ordered (root child : ActivityPolicy) :
    (twoActivities root child).Ordered := by
  refine ⟨fun p => ?_, fun p => ?_, fun a p => ?_⟩ <;> simp only [twoActivities] <;>
    by_cases hp : p = 0 <;> simp [hp, eq_comm]

/-- The root asks for a new weight of the child, whose policy is like its own. -/
theorem activityPolicy_exact_twins :
    Exact (twoActivities ⟨⟨1, 2⟩, ⟨3, 4⟩, 10⟩ ⟨⟨1, 2⟩, ⟨3, 4⟩, 10⟩) 1 true siblingRelWeightSet
      ⟨⟨0, 7⟩, ⟨0, 0⟩, 0⟩
      ((twoActivities ⟨⟨1, 2⟩, ⟨3, 4⟩, 10⟩ ⟨⟨1, 2⟩, ⟨3, 4⟩, 10⟩).vgActivityPolicy 0 1 true
        siblingRelWeightSet ⟨⟨0, 7⟩, ⟨0, 0⟩, 0⟩).1 :=
  (activityPolicy_exact_iff (twoActivities_ordered _ _) 0 1 true siblingRelWeightSet
    ⟨⟨0, 7⟩, ⟨0, 0⟩, 0⟩).2 (.inr (.inr (by decide)))

/-- A caller and a child whose policies differ in everything. -/
def strangers : Activities := twoActivities ⟨⟨5, 6⟩, ⟨7, 8⟩, 100⟩ ⟨⟨1, 2⟩, ⟨3, 4⟩, 10⟩

/-- Through a weak capability to the child, and with nothing but a new weight towards its children,
the caller gives the child its own sibling policy and its own quota of folios. -/
theorem activityPolicy_copies_caller :
    (strangers.vgActivityPolicy 0 1 false childRelWeightSet ⟨⟨0, 0⟩, ⟨0, 9⟩, 0⟩).1.policy 1 =
        ⟨⟨5, 6⟩, ⟨7, 9⟩, 100⟩ ∧
      ¬Exact strangers 1 false childRelWeightSet ⟨⟨0, 0⟩, ⟨0, 9⟩, 0⟩
        (strangers.vgActivityPolicy 0 1 false childRelWeightSet ⟨⟨0, 0⟩, ⟨0, 9⟩, 0⟩).1 := by
  refine ⟨by decide, fun hexact => ?_⟩
  exact absurd (hexact.weak rfl).2 (by decide)

end Activities

end Viengoos
