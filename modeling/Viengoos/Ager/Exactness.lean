import Viengoos.Ager.Aggregation

/-!
# The arithmetic of availability

`comp_avail` takes the payment for the trend off without a guard, unless nobody in the group has any
weight. Every other subtraction is exact, so the pass is exact **if and only if** in each priority
group that it forms every payment is covered. It is as long as the others of the group have claimed
no more frames in the period than they have disowned and still have: of what they have claimed, the
part above the frames of the group is among what the member can steal, and its share covers its part
of the rest. Frames that the pager evicts are not counted as disowned, so the others may have
claimed more, and then a member that pays for it can **wrap**.
-/

namespace Viengoos.Ager

open List

namespace Group

variable {g : Group} {m : Member}

theorem share_le_alloced_excess (hm : m ∈ g.members) : m.alloced - g.share m ≤ g.excess :=
  le_sum_of_mem (mem_map_of_mem hm)

theorem share_le_unused (hm : m ∈ g.members) : g.share m - m.alloced ≤ g.unused :=
  le_sum_of_mem (mem_map_of_mem hm)

/-- The shares do not add up to more than the frames. -/
theorem sum_share_le (g : Group) : (g.members.map g.share).sum ≤ g.frames := by
  rcases Nat.eq_zero_or_pos g.weight with hzero | hpos
  · have hshare : g.share = fun _ => 0 := funext fun m => if_pos hzero
    simp [hshare]
  · refine Nat.le_of_mul_le_mul_right ?_ hpos
    have hle : ∀ m ∈ g.members, g.share m * g.weight ≤ g.frames * m.weight := fun m _ => by
      rw [share, if_neg hpos.ne']
      exact Nat.div_mul_le_self ..
    calc (g.members.map g.share).sum * g.weight
        = (g.members.map fun m => g.share m * g.weight).sum := (sum_map_mul_right ..).symm
      _ ≤ (g.members.map fun m => g.frames * m.weight).sum := sum_le_sum hle
      _ = g.frames * g.weight := sum_map_mul_left ..

/-- What the members have allocated above the frames of the group is part of the excess. -/
theorem alloced_le (g : Group) : g.alloced ≤ g.frames + g.excess := by
  have hle : g.alloced ≤ (g.members.map fun m => g.share m + (m.alloced - g.share m)).sum :=
    sum_le_sum fun m _ => by omega
  rw [sum_map_add] at hle
  exact hle.trans (Nat.add_le_add_right g.sum_share_le _)

/-- The others of the group have claimed no more than they have disowned and allocated, for every
member that pays. -/
def Counted (g : Group) : Prop :=
  ∀ m ∈ g.members, g.share m ≤ m.alloced → g.delta m ≤ g.alloced - m.alloced

/-- Every payment for the trend is **covered**: a member that has its share pays no more than it
has, can steal from the others and can use of what they do not want. -/
def Covered (g : Group) : Prop :=
  ∀ m ∈ g.members, g.share m ≤ m.alloced → 0 < g.weight →
    (g.delta m).toNat * m.weight / g.weight ≤
      m.alloced + (g.excess - (m.alloced - g.share m)) + (g.unused - (m.alloced - g.share m))

/-- What a member pays is covered by its share and by what it can steal. -/
theorem Counted.covered (h : g.Counted) : g.Covered := by
  intro m hm habove hweight
  have hle : (g.delta m).toNat ≤ g.frames + (g.excess - (m.alloced - g.share m)) := by
    have := h m hm habove
    have := g.alloced_le
    omega
  have hmember : m.weight ≤ g.weight := le_sum_of_mem (mem_map_of_mem hm)
  have hpay : (g.delta m).toNat * m.weight / g.weight ≤
      g.share m + (g.excess - (m.alloced - g.share m)) :=
    calc (g.delta m).toNat * m.weight / g.weight
        ≤ (g.frames * m.weight + (g.excess - (m.alloced - g.share m)) * g.weight) / g.weight := by
          refine Nat.div_le_div_right ((Nat.mul_le_mul_right _ hle).trans ?_)
          rw [Nat.add_mul]
          exact Nat.add_le_add_left (Nat.mul_le_mul_left _ hmember) _
      _ = g.share m + (g.excess - (m.alloced - g.share m)) := by
          rw [Nat.add_mul_div_right _ _ hweight, share, if_neg hweight.ne']
  omega

theorem couldSteal_exact (hm : m ∈ g.members) : (g.couldSteal m).exact = true := by
  rw [couldSteal]
  split_ifs
  · rfl
  · exact Checked.exact_sub.2 (share_le_alloced_excess hm)
  · rfl

theorem couldUse_exact (hm : m ∈ g.members) : (g.couldUse m).exact = true := by
  rw [couldUse]
  split_ifs
  · exact Checked.exact_sub.2 (share_le_unused hm)
  · rfl
  · rfl

theorem value_couldSteal (hm : m ∈ g.members) (hweight : 0 < g.weight) :
    (g.couldSteal m).value = g.excess - (m.alloced - g.share m) := by
  rw [couldSteal, if_neg hweight.ne']
  split_ifs with hlt
  · exact Checked.value_sub (share_le_alloced_excess hm)
  · rw [Nat.sub_eq_zero_of_le (not_lt.1 hlt), Nat.sub_zero]
    rfl

theorem value_couldUse (hm : m ∈ g.members) (habove : g.share m ≤ m.alloced) :
    (g.couldUse m).value = g.unused - (m.alloced - g.share m) := by
  rw [couldUse]
  split_ifs with hbelow hlt
  · rw [Checked.value_sub (share_le_unused hm)]
    omega
  · rfl
  · exact (Nat.sub_eq_zero_of_le (not_lt.1 hlt)).symm

/-- **The payment** is the only subtraction of `comp_avail` that need not be exact. -/
theorem compAvail_exact_iff (hm : m ∈ g.members) :
    (g.compAvail m).exact = true ↔ (g.share m ≤ m.alloced → 0 < g.weight →
      (g.delta m).toNat * m.weight / g.weight ≤
        m.alloced + (g.excess - (m.alloced - g.share m)) +
          (g.unused - (m.alloced - g.share m))) := by
  simp only [compAvail, Checked.exact_bind, couldSteal_exact hm, couldUse_exact hm, Bool.true_and]
  generalize havail : (if g.share m < m.alloced + (g.couldSteal m).value then
    m.alloced + (g.couldSteal m).value else g.share m) = avail
  rw [adjust]
  split_ifs with htrend hweight
  · simp only [htrend.1, hweight, true_implies, Checked.exact_sub]
    rw [value_couldSteal hm hweight] at havail
    rw [value_couldUse hm htrend.1]
    split_ifs at havail <;> omega
  · simp [hweight]
  · simp [hweight]
  · refine iff_of_true rfl fun habove _ => ?_
    have hnot : ¬0 < g.delta m := fun hpos => htrend ⟨habove, hpos⟩
    simp [Int.toNat_of_nonpos (not_lt.1 hnot)]

theorem covered_iff : g.Covered ↔ ∀ m ∈ g.members, (g.compAvail m).exact = true :=
  forall₂_congr fun _ hm => (compAvail_exact_iff hm).symm

end Group

namespace Activity

variable {a b : Activity} {rest run : List Activity} {frames priority : ℕ}

/-- The priority groups that the loop forms, and the frames that are left for each. -/
def groups : ℕ → Bool → ℕ → Activity → List Activity → List Group
  | 0, _, _, _, _ => []
  | fuel + 1, haveSelf, frames, a, rest =>
    let own := a.policy.childRel.priority
    if haveSelf = false ∧ ∀ child ∈ rest.head?, child.priority < own then
      let g := a.group frames own []
      g :: groups fuel true (frames - g.alloced) a rest
    else match rest with
      | [] => []
      | child :: tail =>
        let g := a.group frames child.priority
          ((child :: tail).takeWhile fun p => p.priority = child.priority)
        g :: groups fuel (haveSelf || own = child.priority) (frames - g.alloced) a
          ((child :: tail).dropWhile fun p => p.priority = child.priority)

/-- A group depends on the policy of the activity and on the frames it holds itself. -/
theorem group_congr (hpolicy : a.policy = b.policy) (hlocal : a.framesLocal = b.framesLocal) :
    a.group frames priority run = b.group frames priority run := by
  rw [group, group, self, self, hpolicy, hlocal]

theorem round_exact_iff (a : Activity) (frames priority : ℕ) (run : List Activity) :
    (a.round frames priority run).exact = true ↔ (a.group frames priority run).Covered := by
  have hlocal : ∀ g : Group, (a.takeLocal g).exact = (g.compAvail a.self).exact := fun g => by
    simp only [takeLocal, Checked.exact_bind]
    split_ifs <;> simp
  simp only [round, Checked.exact_bind, Checked.exact_all, Checked.exact_pure, Bool.and_true,
    Bool.and_eq_true, all_map, all_eq_true, Group.covered_iff]
  generalize hg : a.group frames priority run = g
  rw [Activity.group] at hg
  split_ifs at hg ⊢ with hself
  · simp [← hg, hlocal]
  · simp [← hg]

/-- The loop is exact if and only if the payments in all its groups are covered. -/
theorem loop_exact_iff (fuel : ℕ) (haveSelf : Bool) (frames : ℕ) (a : Activity)
    (rest : List Activity) (hpolicy : a.policy = b.policy)
    (hlocal : a.framesLocal = b.framesLocal) :
    (loop fuel haveSelf frames a rest).exact = true ↔
      ∀ g ∈ groups fuel haveSelf frames b rest, g.Covered := by
  fun_induction loop fuel haveSelf frames a rest
  case case1 => simp [groups]
  case case2 fuel haveSelf frames a rest own hself g ih =>
    have hround := Doubled.round a frames own []
    have hlater := ih (a.round frames own []).value (hround.policy.trans hpolicy)
      (hround.framesLocal.trans hlocal)
    simp only [own, g, group_congr hpolicy hlocal, hpolicy] at hself hlater ⊢
    rw [groups.eq_def]
    simp only [if_pos hself, forall_mem_cons, Checked.exact_bind, Bool.and_eq_true]
    rw [← hlater, ← group_congr hpolicy hlocal, round_exact_iff]
  case case3 fuel haveSelf frames a own hself =>
    simp only [own, hpolicy] at hself
    rw [groups, if_neg hself]
    simp
  case case4 fuel haveSelf frames a own child tail run g hself ih =>
    have hround := Doubled.round a frames child.priority run
    have hlater := ih (a.round frames child.priority run).value (hround.policy.trans hpolicy)
      (hround.framesLocal.trans hlocal)
    simp only [own, g, run, group_congr hpolicy hlocal, hpolicy] at hself hlater ⊢
    rw [groups, if_neg hself, forall_mem_cons, ← hlater, ← group_congr hpolicy hlocal,
      ← round_exact_iff]
    simp

theorem entitle_exact (a : Activity) (frames : ℕ) : (a.entitle frames).exact = true := by
  rw [entitle]
  split_ifs
  · exact Checked.exact_sub.2 ((Nat.div_le_self ..).trans (Nat.div_le_self ..))
  · rfl

/-- The priority groups that `stats` forms for one activity. -/
def divideGroups (period : ℕ) (a : Activity) (frames : ℕ) (children : List Activity) : List Group :=
  if children = [] then []
  else groups (children.length + 1) false ((a.average period).entitle frames).value
    (a.average period) children.reverse

theorem divide_exact_iff (period : ℕ) (a : Activity) (frames : ℕ) (children : List Activity) :
    (a.divide period frames children).exact = true ↔
      ∀ g ∈ a.divideGroups period frames children, g.Covered := by
  simp only [divide, divideGroups, Checked.exact_bind, entitle_exact, Bool.true_and]
  split_ifs
  · simp
  · rw [Checked.exact_bind, Checked.exact_pure, Bool.and_true, loop_exact_iff] <;> rfl

end Activity

mutual

/-- **The priority groups of the whole pass**, with the frames that the pass leaves for each. -/
def groups (period : ℕ) : Tree → ℕ → List Group
  | .node a cs, frames =>
    let children := cs.map Tree.activity
    a.divideGroups period frames children ++
      groupsAll period cs (a.divide period frames children).value.2

def groupsAll (period : ℕ) : List Tree → List ℕ → List Group
  | [], _ => []
  | c :: cs, avails => groups period c (avails.headD 0) ++ groupsAll period cs avails.tail

end

mutual

theorem stats_exact_iff (period : ℕ) : ∀ (t : Tree) (frames : ℕ),
    (stats period t frames).exact = true ↔ ∀ g ∈ groups period t frames, g.Covered
  | .node a cs, frames => by
    simp only [stats, groups, Checked.exact_bind, Checked.exact_pure, Bool.and_true,
      Bool.and_eq_true, a.divide_exact_iff, statsAll_exact_iff period cs, forall_mem_append]

theorem statsAll_exact_iff (period : ℕ) : ∀ (cs : List Tree) (avails : List ℕ),
    (statsAll period cs avails).exact = true ↔ ∀ g ∈ groupsAll period cs avails, g.Covered
  | [], _ => by simp [statsAll, groupsAll]
  | c :: cs, avails => by
    simp only [statsAll, groupsAll, Checked.exact_bind, Checked.exact_pure, Bool.and_true,
      Bool.and_eq_true, stats_exact_iff period c, statsAll_exact_iff period cs, forall_mem_append]

end

/-- A machine of 1024 frames. Two activities of equal weight have half each of what is available;
the second one has claimed some frames in the period. -/
def claiming (claimed : ℕ) : Tree :=
  .node ⟨⟨⟨0, 0⟩, ⟨0, 0⟩, 0⟩, 0, 696, 0, 0, fun _ => {}⟩
    [.node ⟨⟨⟨1, 1⟩, ⟨0, 0⟩, 0⟩, 348, 348, 0, 0, fun _ => {}⟩ [],
      .node ⟨⟨⟨1, 1⟩, ⟨0, 0⟩, 0⟩, 348, 348, 0, 0, fun _ => { claimed := claimed }⟩ []]

end Viengoos.Ager
