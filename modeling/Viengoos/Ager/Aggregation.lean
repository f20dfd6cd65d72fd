import Viengoos.Ager.Stats

/-!
# What a period adds up to

What an activity publishes at the end of a period is meant to be the sum of its own samples and of
what its children publish. The loop adds the activity's own counters instead, once for each child,
and so **doubles** them every time: the sum is right only where that gives the same number.
-/

namespace Viengoos.Ager

open List

/-- The statistics that a parent is meant to add up. -/
inductive Statistic where
  | clean
  | dirty
  | active
  | becameActive
  | becameInactive
  | evicted
deriving DecidableEq, Repr

def Counters.value (s : Counters) : Statistic → BitVec 32
  | .clean => s.clean
  | .dirty => s.dirty
  | .active => s.active
  | .becameActive => s.becameActive
  | .becameInactive => s.becameInactive
  | .evicted => s.evicted

namespace Activity

/-- What an activity contributes itself, by its counters at the start. -/
def own (a : Activity) : Statistic → BitVec 32
  | .clean => a.current.clean / BitVec.ofNat 32 freq
  | .dirty => a.current.dirty / BitVec.ofNat 32 freq
  | .active => a.current.activeLocal / BitVec.ofNat 32 freq
  | .becameActive => a.current.becameActive
  | .becameInactive => a.current.becameInactive
  | .evicted => a.current.evicted

@[simp] theorem current_setCurrent (a : Activity) (s : Counters) :
    (a.setCurrent s).current = s := Function.update_self ..

/-- The slot that has just been completed is the last one after the rotation. -/
@[simp] theorem last_rotate (a : Activity) : a.rotate.last = a.current := by
  have hne : a.currentPeriod + 1 - 1 ≠ a.currentPeriod + 1 := by
    generalize a.currentPeriod = i
    revert i
    decide
  rw [last, current]
  simp only [rotate, ne_eq, hne, not_false_eq_true, Function.update_of_ne]
  rw [add_sub_cancel_right]

/-- What the loop leaves alone, and the statistics after `n` children. -/
structure Doubled (n : ℕ) (a b : Activity) : Prop where
  policy : b.policy = a.policy
  framesLocal : b.framesLocal = a.framesLocal
  available : b.current.available = a.current.available
  value : ∀ k, b.current.value k = a.current.value k * 2 ^ n

namespace Doubled

variable {a b c : Activity} {m n : ℕ}

theorem refl (a : Activity) : Doubled 0 a a := ⟨rfl, rfl, rfl, by simp⟩

theorem trans (h : Doubled m a b) (h' : Doubled n b c) : Doubled (m + n) a c := by
  refine ⟨h'.policy.trans h.policy, h'.framesLocal.trans h.framesLocal,
    h'.available.trans h.available, fun k => ?_⟩
  rw [h'.value, h.value, pow_add, mul_assoc]

theorem accumulate (a : Activity) : Doubled 1 a a.accumulate := by
  refine ⟨rfl, rfl, by simp [Activity.accumulate], fun k => ?_⟩
  rw [pow_one, mul_two]
  cases k <;> simp [Activity.accumulate, Counters.value]

theorem iterate (a : Activity) : ∀ n, Doubled n a (Activity.accumulate^[n] a)
  | 0 => refl a
  | n + 1 => by
    rw [Function.iterate_succ_apply']
    exact (iterate a n).trans (accumulate _)

theorem takeLocal (a : Activity) (g : Group) : Doubled 0 a (a.takeLocal g).value := by
  simp only [Activity.takeLocal, Checked.value_bind]
  split_ifs
  all_goals exact ⟨rfl, rfl, by simp, fun k => by cases k <;> simp [Counters.value]⟩

theorem round (a : Activity) (frames priority : ℕ) (run : List Activity) :
    Doubled run.length a (a.round frames priority run).value.1 := by
  simp only [Activity.round, Checked.value_bind, Checked.value_pure]
  have hself : Doubled 0 a (if a.policy.childRel.priority = priority then
      a.takeLocal (a.group frames priority run) else pure a).value := by
    split_ifs
    · exact takeLocal a _
    · exact refl a
  simpa only [zero_add] using hself.trans (iterate _ run.length)

/-- A round for the first of the remaining children is a round for one child at least. -/
theorem fuel_drop {fuel : ℕ} {haveSelf also : Bool} {child : Activity} {tail : List Activity}
    (hfuel : (child :: tail).length + (if haveSelf then 0 else 1) ≤ fuel + 1) :
    ((child :: tail).dropWhile fun p => p.priority = child.priority).length +
      (if haveSelf || also then 0 else 1) ≤ fuel := by
  have hdrop := (dropWhile_suffix (l := tail) fun p => p.priority = child.priority).length_le
  cases haveSelf <;> cases also <;> simp at hfuel ⊢ <;> omega

/-- The whole loop doubles the statistics once for each child. -/
theorem loop (fuel : ℕ) (haveSelf : Bool) (frames : ℕ) (a : Activity) (rest : List Activity)
    (hfuel : rest.length + (if haveSelf then 0 else 1) ≤ fuel) :
    Doubled rest.length a (Activity.loop fuel haveSelf frames a rest).value.1 ∧
      (Activity.loop fuel haveSelf frames a rest).value.2.length = rest.length := by
  fun_induction Activity.loop fuel haveSelf frames a rest
  case case1 rest =>
    obtain rfl : rest = [] := length_eq_zero_iff.1 (by omega)
    exact ⟨refl _, rfl⟩
  case case2 fuel haveSelf frames a rest own hself g ih =>
    rw [hself.1] at hfuel
    obtain ⟨hloop, hlength⟩ := ih (a.round frames own []).value (by simpa using hfuel)
    exact ⟨by simpa using (round a frames own []).trans hloop, hlength⟩
  case case3 => exact ⟨refl _, rfl⟩
  case case4 fuel haveSelf frames a own child tail run g hself ih =>
    obtain ⟨hloop, hlength⟩ := ih (a.round frames child.priority run).value (fuel_drop hfuel)
    have hsum : run.length + ((child :: tail).dropWhile fun p =>
        p.priority = child.priority).length = (child :: tail).length := by
      rw [← length_append, takeWhile_append_dropWhile]
    refine ⟨hsum ▸ (round a frames child.priority run).trans hloop, ?_⟩
    simp only [Checked.value_bind, Checked.value_pure, length_append, hlength, ← hsum]
    simp [Activity.round]

end Doubled

/-- What `stats` publishes for one activity. -/
theorem divide_spec (period : ℕ) (a : Activity) (frames : ℕ) (children : List Activity) :
    (∀ k, (a.divide period frames children).value.1.last.value k =
      a.own k * 2 ^ children.length) ∧
    (a.divide period frames children).value.1.last.available =
      ((a.average period).entitle frames).value := by
  simp only [divide, Checked.value_bind]
  split_ifs with hnil
  · subst hnil
    refine ⟨fun k => ?_, by simp⟩
    cases k <;> simp [average, Counters.value, own]
  · have hloop := fun f b => (Doubled.loop (children.length + 1) false f b children.reverse
      (by simp)).1
    refine ⟨fun k => ?_, by simp [(hloop _ _).available]⟩
    simp only [Checked.value_bind, Checked.value_pure, last_rotate, (hloop _ _).value]
    cases k <;> simp [average, Counters.value, own]

end Activity

/-! ### The whole tree -/

mutual

/-- In every activity of the tree after the pass, each statistic of the completed period is what
the activity contributed itself and what its children publish. -/
def Aggregated : Tree → Tree → Prop
  | .node a cs, .node a' cs' =>
    (∀ k, a'.last.value k = a.own k + (cs'.map fun c => c.activity.last.value k).sum) ∧
      AggregatedAll cs cs'

def AggregatedAll : List Tree → List Tree → Prop
  | c :: cs, c' :: cs' => Aggregated c c' ∧ AggregatedAll cs cs'
  | _, _ => True

end

mutual

/-- In every activity of the tree, what the activity contributes itself, doubled once for each of
its children, is the sum that was meant. -/
def Lucky : Tree → Prop
  | .node a cs =>
    (∀ k, a.own k * 2 ^ cs.length =
      a.own k + (cs.map fun c => c.activity.own k * 2 ^ c.children.length).sum) ∧ LuckyAll cs

def LuckyAll : List Tree → Prop
  | [] => True
  | c :: cs => Lucky c ∧ LuckyAll cs

end

theorem stats_value (period : ℕ) (t : Tree) (frames : ℕ) (k : Statistic) :
    (stats period t frames).value.activity.last.value k =
      t.activity.own k * 2 ^ t.children.length := by
  obtain ⟨a, cs⟩ := t
  simp only [stats, Checked.value_bind, Checked.value_pure, Tree.activity, Tree.children]
  rw [(a.divide_spec ..).1, length_map]

theorem statsAll_value (period : ℕ) (k : Statistic) : ∀ (cs : List Tree) (avails : List ℕ),
    ((statsAll period cs avails).value.map fun c => c.activity.last.value k) =
      cs.map fun c => c.activity.own k * 2 ^ c.children.length
  | [], _ => rfl
  | c :: cs, avails => by
    simp only [statsAll, Checked.value_bind, Checked.value_pure, map_cons, stats_value,
      statsAll_value]

mutual

theorem aggregated_stats (period : ℕ) : ∀ (t : Tree) (frames : ℕ),
    Aggregated t (stats period t frames).value ↔ Lucky t
  | .node a cs, frames => by
    simp only [stats, Checked.value_bind, Checked.value_pure, Aggregated, Lucky]
    refine and_congr (forall_congr' fun k => ?_) (aggregated_statsAll period cs _)
    rw [(a.divide_spec ..).1, length_map, statsAll_value]

theorem aggregated_statsAll (period : ℕ) : ∀ (cs : List Tree) (avails : List ℕ),
    AggregatedAll cs (statsAll period cs avails).value ↔ LuckyAll cs
  | [], _ => by simp [AggregatedAll, LuckyAll]
  | c :: cs, avails => by
    simp only [statsAll, Checked.value_bind, Checked.value_pure, AggregatedAll, LuckyAll]
    exact and_congr (aggregated_stats period c _) (aggregated_statsAll period cs _)

end

/-- **Aggregation**: after `update_stats` each statistic of each activity is the sum that was meant
if and only if doubling gave the right number in every activity. -/
theorem updateStats_aggregates (period memoryTotal : ℕ) (root : Tree) :
    Aggregated root (updateStats period memoryTotal root).value ↔ Lucky root :=
  aggregated_stats period root _

/-- A root activity without samples of its own, and a child with eight samples of a clean frame. -/
def sampled : Tree :=
  .node ⟨⟨⟨0, 0⟩, ⟨0, 0⟩, 0⟩, 0, 1, 0, 0, fun _ => {}⟩
    [.node ⟨⟨⟨0, 0⟩, ⟨0, 0⟩, 0⟩, 1, 1, 0, 0, fun i => if i = 0 then { clean := 8 } else {}⟩ []]

/-- The clean frame of the child does not show in what the root activity publishes. -/
theorem updateStats_drops_child :
    ((updateStats 8 1024 sampled).value.activity.last.value .clean,
      (updateStats 8 1024 sampled).value.children.map fun c => c.activity.last.value .clean) =
      (0, [1]) ∧
    ¬Aggregated sampled (updateStats 8 1024 sampled).value := by
  refine ⟨by decide, fun h => ?_⟩
  have hroot := h.1 .clean
  exact absurd hroot (by decide)

end Viengoos.Ager
