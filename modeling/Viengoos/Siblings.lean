import Viengoos.Addr
import Viengoos.Lib.Runs
import Viengoos.Policy

/-!
# Siblings

The life of an activity in its parent's list: `activity_prepare` puts it there when it comes into
memory, a policy update may move it, and `activity_deprepare` takes it out again. The destruction of
an activity takes along those that lie in its folios and its children, each of them destroyed in the
same way; to the lists, it is a sequence of these steps with the activity itself at the end.
-/

namespace Viengoos

open Outcome Function List

namespace Activities

/-- The sibling after which `activity_prepare` inserts an activity; there is none at the head. -/
def prepareAfter (t : Activities) (a : ℕ) : List ℕ → Option ℕ
  | [] => none
  | head :: rest =>
    if t.priority head ≤ t.priority a then none else some (t.lastAbove (t.priority a) head rest)

/-- An activity is in memory. The root activity has no parent. -/
def InMemory (root : ℕ) (t : Activities) (a : ℕ) : Prop := a = root ∨ (t.parent a).isSome = true

instance (root : ℕ) (t : Activities) (a : ℕ) : Decidable (t.InMemory root a) :=
  inferInstanceAs (Decidable (_ ∨ _))

/-- `activity_prepare`, where the parent that the activity names is `p`. -/
def activityPrepare (root : ℕ) (t : Activities) (a p : ℕ) : Except Fault Activities := do
  require (t.InMemory root p) .assertion
  let children := update t.children p
    (insertAfter a (t.prepareAfter a (t.children p)) (t.children p))
  .ok { t with
    parent := update t.parent a (some p)
    children := update children a [] }

/-- `activity_deprepare`. -/
def activityDeprepare (t : Activities) (a : ℕ) : Except Fault Activities := do
  require (t.children a = []) .assertion
  match t.parent a with
  | none => .error .assertion
  | some p => .ok { t with
      parent := update t.parent a none
      children := update t.children p ((t.children p).erase a) }

/-- `activity_destroy` of these activities, one after the other: of each after all that it takes
along. -/
inductive Destroys : Activities → List ℕ → Activities → Prop
  | nil (t : Activities) : Destroys t [] t
  | cons {t t₁ t₂ t' : Activities} {a : ℕ} {others rest : List ℕ} : Destroys t others t₁ →
      t₁.activityDeprepare a = .ok t₂ → Destroys t₂ rest t' → Destroys t (a :: rest) t'

/-- What happens to activities. A page that becomes an activity holds some policy. -/
inductive ActivityOp
  | create (a p : ℕ) (policy : ActivityPolicy)
  | prepare (a p : ℕ) (policy : ActivityPolicy)
  | policyUpdate (a : ℕ) (policy : ActivityPolicy)
  | destroy (a : ℕ)

/-- An activity that is live is destroyed before it is created anew, and one is prepared when it is
not in memory. -/
def Step (root : ℕ) (t : Activities) : ActivityOp → Activities → Prop
  | .create a p policy, t' => a ≠ root ∧ ∃ t₁,
      Destroys t (if (t.parent a).isSome then [a] else []) t₁ ∧
      (t₁.setPolicy a policy).activityPrepare root a p = .ok t'
  | .prepare a p policy, t' => a ≠ root ∧ t.parent a = none ∧
      (t.setPolicy a policy).activityPrepare root a p = .ok t'
  | .policyUpdate a policy, t' => t' = t.activityPolicyUpdate a policy
  | .destroy a, t' => Destroys t [a] t'

/-- The root activity alone. -/
def Alone (t : Activities) : Prop := t.parent = (fun _ => none) ∧ t.children = fun _ => []

/-- The activities after any sequence of operations. -/
def Reached (root : ℕ) : Activities → Prop :=
  Runs.Reached Alone (Step root) fun _ _ => True

/-- **The invariant**: the lists are in order, and an activity in memory has its parent there. -/
structure Sound (root : ℕ) (t : Activities) : Prop where
  ordered : t.Ordered
  parents : ∀ a p, t.parent a = some p → t.InMemory root p

variable {root : ℕ} {t t' : Activities} {a p : ℕ}

/-! ### Steps -/

/-- A new sibling is inserted where its priority belongs. -/
theorem prepareAfter_spec (h : t.Ordered) (a p : ℕ) :
    ∃ l₁ l₂, t.children p = l₁ ++ l₂ ∧
      insertAfter a (t.prepareAfter a (t.children p)) (t.children p) = l₁ ++ a :: l₂ ∧
      (∀ x ∈ l₁, t.priority a ≤ t.priority x) ∧ ∀ x ∈ l₂, t.priority x ≤ t.priority a := by
  have hnodup := h.nodup p
  have hsorted := h.sorted p
  cases hl : t.children p with
  | nil => exact ⟨[], [], rfl, rfl, by simp, by simp⟩
  | cons head rest =>
    rw [hl] at hnodup hsorted
    obtain ⟨hhead, hrest⟩ := pairwise_cons.1 hsorted
    rw [prepareAfter]
    split
    next hle =>
      refine ⟨[], head :: rest, rfl, insertAfter_none .., by simp, ?_⟩
      exact forall_mem_cons.2 ⟨hle, fun x hx => (hhead x hx).trans hle⟩
    next hlt =>
      have hplaced : insertAfter a (some (t.lastAbove (t.priority a) head rest))
          ([] ++ head :: rest) = _ := insertAfter_lastAbove hnodup
      refine ⟨head :: rest.takeWhile fun c => t.priority a < t.priority c,
        rest.dropWhile fun c => t.priority a < t.priority c, by simp, hplaced, ?_,
        le_of_mem_dropWhile hrest⟩
      refine forall_mem_cons.2 ⟨(not_le.1 hlt).le, fun x hx => ?_⟩
      have habove : t.priority a < t.priority x := by simpa using mem_takeWhile_imp hx
      exact habove.le

/-- Nothing is a child of an activity that is not in memory. -/
theorem Sound.children_eq_nil (h : Sound root t) (ha : ¬ t.InMemory root a) : t.children a = [] :=
  eq_nil_iff_forall_not_mem.2 fun b hb => ha (h.parents b a ((h.ordered.parent_iff b a).2 hb))

/-- Nobody's child can be given any policy. -/
theorem Ordered.setPolicy (h : t.Ordered) (ha : t.parent a = none) (policy : ActivityPolicy) :
    (t.setPolicy a policy).Ordered := by
  have hne : ∀ p, ∀ x ∈ t.children p, x ≠ a := fun p x hx e => by
    have hx' := (h.parent_iff x p).2 hx
    rw [e, ha] at hx'
    exact absurd hx' (by simp)
  refine ⟨h.nodup, fun p => (h.sorted p).imp_of_mem fun {x y} hx hy hxy => ?_, h.parent_iff⟩
  rwa [setPolicy_priority_of_ne (hne p x hx), setPolicy_priority_of_ne (hne p y hy)]

/-- An activity joins or leaves the list of `p`, which is in order before and after. -/
theorem Ordered.relist {list : List ℕ} {parent : Option ℕ} (h : t.Ordered)
    (hold : ∀ q, t.parent a = some q → q = p) (hnew : ∀ q, parent = some q → q = p)
    (hnodup : list.Nodup) (hsorted : list.Pairwise fun x y => t.priority y ≤ t.priority x)
    (hself : parent = some p ↔ a ∈ list) (hother : ∀ b ≠ a, b ∈ list ↔ b ∈ t.children p) :
    Ordered { t with
      parent := update t.parent a parent
      children := update t.children p list } := by
  refine ⟨fun q => ?_, fun q => ?_, fun b q => ?_⟩
  · rcases eq_or_ne q p with rfl | hq
    · simpa using hnodup
    · simpa [hq] using h.nodup q
  · rcases eq_or_ne q p with rfl | hq
    · simp only [update_self]
      exact hsorted
    · simp only [update_of_ne hq]
      exact h.sorted q
  · have hiff := h.parent_iff b q
    rcases eq_or_ne b a with rfl | hb
    · rcases eq_or_ne q p with rfl | hq
      · simpa using hself
      · have hout : b ∉ t.children q := fun hmem => hq (hold q (hiff.2 hmem))
        simpa [hq, hout] using fun hp => hq (hnew q hp)
    · rcases eq_or_ne q p with rfl | hq
      · simpa [hb, hother b hb] using hiff
      · simpa [hb, hq] using hiff

/-- **An activity comes into memory.** -/
theorem Sound.activityPrepare (h : Sound root t) (hroot : a ≠ root) (ha : t.parent a = none)
    (hrun : t.activityPrepare root a p = .ok t') : Sound root t' := by
  obtain ⟨_, hp, hrun⟩ := bind_eq_ok.1 hrun
  have hp : t.InMemory root p := require_eq_ok.1 hp
  obtain rfl := pure_eq_ok.1 hrun
  have hout : ¬ t.InMemory root a := by simp [InMemory, hroot, ha]
  have hpa : p ≠ a := fun e => hout (e ▸ hp)
  obtain ⟨l₁, l₂, hl, hins, hhigh, hlow⟩ := prepareAfter_spec h.ordered a p
  have hfresh : a ∉ t.children p := fun hmem => by
    rw [← h.ordered.parent_iff a p, ha] at hmem
    exact absurd hmem (by simp)
  have hperm : (l₁ ++ a :: l₂).Perm (a :: t.children p) := hl ▸ perm_middle
  -- the list of the activity itself is empty already
  have hchildren : update (update t.children p (l₁ ++ a :: l₂)) a [] =
      update t.children p (l₁ ++ a :: l₂) := by
    rw [update_comm hpa, ← h.children_eq_nil hout, update_eq_self]
  simp only [hins, hchildren]
  refine ⟨h.ordered.relist (by simp [ha]) (by simp) ?_ ?_ ?_ fun b hb => ?_, fun b q hb => ?_⟩
  · rw [hperm.nodup_iff]
    exact nodup_cons.2 ⟨hfresh, h.ordered.nodup p⟩
  · exact pairwise_insert (hl ▸ h.ordered.sorted p) hhigh hlow
  · simp
  · simp [hperm.mem_iff, hb]
  · have hin : t.InMemory root q := by
      rcases eq_or_ne b a with rfl | hb'
      · obtain rfl : p = q := by simpa using hb
        exact hp
      · exact h.parents b q (by simpa [hb'] using hb)
    refine hin.imp_right fun hq => ?_
    rcases eq_or_ne q a with rfl | hqa
    · simp
    · simpa [hqa] using hq

/-- **An activity leaves memory**, with none of its children there. -/
theorem Sound.activityDeprepare (h : Sound root t) (hrun : t.activityDeprepare a = .ok t') :
    Sound root t' := by
  obtain ⟨_, hnil, hrun⟩ := bind_eq_ok.1 hrun
  have hnil := require_eq_ok.1 hnil
  cases hp : t.parent a with
  | none => simp [hp] at hrun
  | some p =>
    rw [hp] at hrun
    obtain rfl := pure_eq_ok.1 hrun
    have hnodup := h.ordered.nodup p
    refine ⟨h.ordered.relist (by simp [hp]) (by simp) (hnodup.erase a)
      ((h.ordered.sorted p).sublist erase_sublist) ?_ fun b hb => ?_, fun b q hb => ?_⟩
    · simp [hnodup.mem_erase_iff]
    · simp [hnodup.mem_erase_iff, hb]
    · have hba : b ≠ a := fun e => by simp [e] at hb
      have hbq : t.parent b = some q := by simpa [hba] using hb
      refine (h.parents b q hbq).imp_right fun hq => ?_
      have hqa : q ≠ a := fun e => by
        have hmem := (h.ordered.parent_iff b q).1 hbq
        rw [e, hnil] at hmem
        exact absurd hmem (by simp)
      simpa [hqa] using hq

theorem Sound.destroys {l : List ℕ} (h : Sound root t) (hd : Destroys t l t') : Sound root t' := by
  induction hd with
  | nil => exact h
  | cons _ hrun _ ih₁ ih₂ => exact ih₂ ((ih₁ h).activityDeprepare hrun)

/-- What was destroyed last has no parent. -/
theorem Destroys.parent_eq_none (h : Destroys t [a] t') : t'.parent a = none := by
  cases h with
  | cons _ hrun hrest =>
    cases hrest
    obtain ⟨_, -, hrun⟩ := bind_eq_ok.1 hrun
    split at hrun
    · simp at hrun
    · obtain rfl := pure_eq_ok.1 hrun
      exact update_self ..

theorem Sound.step {op : ActivityOp} (h : Sound root t) (hs : Step root t op t') :
    Sound root t' := by
  have hattach : ∀ {t₁ : Activities} {a p policy}, Sound root t₁ → a ≠ root → t₁.parent a = none →
      (t₁.setPolicy a policy).activityPrepare root a p = .ok t' → Sound root t' :=
    fun h₁ hroot ha hrun =>
      Sound.activityPrepare (t := _) ⟨h₁.ordered.setPolicy ha _, h₁.parents⟩ hroot ha hrun
  cases op with
  | create a p policy =>
    obtain ⟨hroot, t₁, hd, hrun⟩ := hs
    refine hattach (h.destroys hd) hroot ?_ hrun
    cases ha : t.parent a with
    | none =>
      rw [ha] at hd
      cases hd
      exact ha
    | some q =>
      rw [ha] at hd
      exact hd.parent_eq_none
  | prepare a p policy => exact hattach h hs.1 hs.2.1 hs.2.2
  | policyUpdate a policy =>
    obtain rfl := hs
    obtain ⟨-, hparent, -, -, hordered⟩ := activityPolicyUpdate_spec h.ordered a policy
    refine ⟨hordered, fun b p hb => ?_⟩
    rw [hparent] at hb
    simpa [InMemory, hparent] using h.parents b p hb
  | destroy a => exact h.destroys hs

/-- **Siblings are in order**: after any sequence of creations, preparations, policy updates and
destructions, every list of children is sorted with the largest priority first, and has each child
in memory exactly once. -/
theorem siblings_ordered (h : Reached root t) : t.Ordered := by
  have hsound : Sound root t := by
    refine Runs.Reached.invariant h (fun t ht => ?_) fun _ hs hI => hI.step hs
    obtain ⟨hparent, hchildren⟩ := ht
    refine ⟨⟨fun p => ?_, fun p => ?_, fun a p => ?_⟩, fun a p hp => ?_⟩
    · simp [hchildren]
    · simp [hchildren]
    · simp [hchildren, hparent]
    · simp [hparent] at hp
  exact hsound.ordered

/-- Two children of the root activity, the second one of a larger priority. -/
theorem siblings_ordered_pair :
    ∃ t : Activities, Reached 0 t ∧ t.children 0 = [2, 1] ∧ t.Ordered := by
  let policy (priority : ℕ) : ActivityPolicy := ⟨⟨priority, 1⟩, ⟨0, 1⟩, 0⟩
  let alone : Activities := ⟨fun _ => policy 0, fun _ => none, fun _ => []⟩
  have h₀ : Reached 0 alone := .init ⟨rfl, rfl⟩
  have h₁ : Reached 0 _ := .step h₀ trivial
    (show Step 0 alone (.create 1 0 (policy 1)) _ from ⟨by decide, _, .nil _, rfl⟩)
  have h₂ : Reached 0 _ := .step h₁ trivial
    (show Step 0 _ (.create 2 0 (policy 5)) _ from ⟨by decide, _, .nil _, rfl⟩)
  exact ⟨_, h₂, rfl, siblings_ordered h₂⟩

end Activities

end Viengoos
