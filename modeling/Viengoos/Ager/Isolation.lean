import Viengoos.Ager.Aggregation
import Viengoos.Ager.Exactness

/-!
# Priorities and the frames of siblings

A child should not get fewer frames because siblings of lower priority use many. The list of
children has the highest priority first and the loop starts at its tail, so the **lowest** priority
is served first, and what its members use is not left for the others. A child is independent of the
siblings below it only if there are none, or if nobody in its priority group has any weight.
-/

namespace Viengoos.Ager

namespace Activity

/-- What the children below a priority use. -/
def below (children : List Activity) (priority : ℕ) : ℕ :=
  ((children.filter fun p => p.priority < priority).map framesTotal).sum

/-- The priority group of a child, where `own` rounds for the activity itself came before it. -/
def groupOf (a : Activity) (frames own : ℕ) (children : List Activity) (p : Activity) : Group :=
  a.group (frames - (own * a.framesLocal + below children p.priority)) p.priority
    (children.filter fun q => q.priority = p.priority)

variable {a b p child : Activity} {rest run tail : List Activity} {n frames : ℕ}

theorem Doubled.group (h : Doubled n a b) (frames priority : ℕ) (run : List Activity) :
    b.group frames priority run = a.group frames priority run := by
  simp only [Activity.group, self, h.policy, h.framesLocal]

theorem alloced_group (a : Activity) (frames priority : ℕ) (run : List Activity) :
    (a.group frames priority run).alloced =
      (if a.policy.childRel.priority = priority then 1 else 0) * a.framesLocal +
        (run.map framesTotal).sum := by
  rw [Group.alloced, group]
  split_ifs <;> simp [self, member, Function.comp_def]

/-- In the order of the loop, what follows the run of a priority has a higher one. -/
theorem lt_of_mem_dropWhile {priority : ℕ} : ∀ {rest : List Activity},
    (rest.Pairwise fun p q => p.priority ≤ q.priority) → (∀ p ∈ rest, priority ≤ p.priority) →
      ∀ p ∈ rest.dropWhile fun p => p.priority = priority, priority < p.priority
  | [], _, _ => by simp
  | q :: rest, hsorted, hle => by
    rw [List.dropWhile_cons]
    split_ifs with hq
    · exact lt_of_mem_dropWhile hsorted.of_cons fun p hp => hle p (List.mem_cons_of_mem _ hp)
    · have hlt : priority < q.priority :=
        lt_of_le_of_ne (hle q List.mem_cons_self) (Ne.symm (by simpa using hq))
      rintro p (_ | ⟨_, hp⟩)
      · exact hlt
      · exact hlt.trans_le (List.rel_of_pairwise_cons hsorted hp)

theorem below_append (xs ys : List Activity) (priority : ℕ) :
    below (xs ++ ys) priority = below xs priority + below ys priority := by
  simp [below]

theorem below_eq_zero {xs : List Activity} {priority : ℕ} (h : ∀ p ∈ xs, priority ≤ p.priority) :
    below xs priority = 0 := by
  rw [below, List.filter_eq_nil_iff.2 (by simpa using h)]
  rfl

/-- **Each child is served from what is left by the siblings of lower priority.** -/
theorem loop_serves (fuel : ℕ) (haveSelf : Bool) (frames : ℕ) (a : Activity)
    (rest : List Activity) (hfuel : rest.length + (if haveSelf then 0 else 1) ≤ fuel)
    (hsorted : rest.Pairwise fun p q => p.priority ≤ q.priority) :
    ∃ own : ℕ → ℕ, (loop fuel haveSelf frames a rest).value.2 =
      rest.map fun p => ((a.groupOf frames (own p.priority) rest p).compAvail p.member).value := by
  fun_induction loop fuel haveSelf frames a rest
  case case1 rest =>
    obtain rfl : rest = [] := List.length_eq_zero_iff.1 (by omega)
    exact ⟨0, rfl⟩
  case case2 fuel haveSelf frames a rest own hself g ih =>
    rw [hself.1] at hfuel
    obtain ⟨rounds, hloop⟩ := ih (a.round frames own []).value (by simpa using hfuel) hsorted
    have hround := Doubled.round a frames own []
    refine ⟨fun priority => rounds priority + 1, hloop.trans (List.map_congr_left fun p _ => ?_)⟩
    simp only [groupOf, hround.group, hround.framesLocal, g, own, alloced_group]
    rw [Nat.sub_sub, Nat.add_one_mul]
    congr 3
    simp
    omega
  case case3 => exact ⟨0, rfl⟩
  case case4 fuel haveSelf frames a own child tail run g hself ih =>
    set later := (child :: tail).dropWhile fun q => q.priority = child.priority with hlater
    have happend : child :: tail = run ++ later := (List.takeWhile_append_dropWhile).symm
    have hrun : ∀ p ∈ run, p.priority = child.priority := fun p hp => by
      simpa using List.mem_takeWhile_imp hp
    have habove : ∀ p ∈ later, child.priority < p.priority :=
      lt_of_mem_dropWhile hsorted (by simpa using fun p => List.rel_of_pairwise_cons hsorted)
    obtain ⟨rounds, hloop⟩ := ih (a.round frames child.priority run).value
      (Doubled.fuel_drop hfuel) (hsorted.sublist (List.dropWhile_sublist _))
    have hround := Doubled.round a frames child.priority run
    refine ⟨fun priority => if priority = child.priority then 0 else
      rounds priority + if own = child.priority then 1 else 0, ?_⟩
    simp only [Checked.value_bind, Checked.value_pure, happend, List.map_append, hloop]
    congr 1
    · simp only [round, Checked.value_bind, Checked.value_pure, Checked.value_all, List.map_map]
      refine List.map_congr_left fun p hp => ?_
      have hbelow : below (run ++ later) child.priority = 0 := below_eq_zero fun q hq => by
        rcases List.mem_append.1 hq with hq | hq
        · exact (hrun q hq).ge
        · exact (habove q hq).le
      have hfilter : (run ++ later).filter (fun q => q.priority = child.priority) = run := by
        rw [List.filter_append, List.filter_eq_self.2 (by simpa using hrun),
          List.filter_eq_nil_iff.2 fun q hq => by simpa using (habove q hq).ne', List.append_nil]
      simp only [Function.comp_apply, groupOf, hrun p hp, hbelow, hfilter, if_pos, zero_mul,
        Nat.add_zero, Nat.sub_zero]
    · refine List.map_congr_left fun p hp => ?_
      have hbelow : below run p.priority = (run.map framesTotal).sum := by
        rw [below, List.filter_eq_self.2 fun q hq => by simpa [hrun q hq] using habove p hp]
      have hfilter : run.filter (fun q => q.priority = p.priority) = [] :=
        List.filter_eq_nil_iff.2 fun q hq => by simpa [hrun q hq] using (habove p hp).ne
      simp only [groupOf, hround.group, hround.framesLocal, below_append, hbelow,
        List.filter_append, hfilter, List.nil_append, if_neg (habove p hp).ne', g, own,
        alloced_group, Nat.sub_sub, Nat.add_mul]
      congr 4
      ac_rfl

/-- The frames that `stats` hands to the children of an activity. -/
theorem divide_serves (period : ℕ) (a : Activity) (frames : ℕ) (children : List Activity)
    (hsorted : children.Pairwise fun p q => q.priority ≤ p.priority) :
    ∃ own : ℕ → ℕ, (a.divide period frames children).value.2 = children.map fun p =>
      ((a.groupOf ((a.average period).entitle frames).value (own p.priority) children.reverse
        p).compAvail p.member).value := by
  simp only [divide, Checked.value_bind]
  split_ifs with hnil
  · exact ⟨0, by rw [hnil]; rfl⟩
  · set b := a.average period
    obtain ⟨own, hloop⟩ := loop_serves (children.length + 1) false (b.entitle frames).value
      (b.setCurrent { b.current with available := (b.entitle frames).value }) children.reverse
      (by simp) (List.pairwise_reverse.2 hsorted)
    refine ⟨own, ?_⟩
    simp only [Checked.value_bind, Checked.value_pure, hloop, List.map_reverse,
      List.reverse_reverse]
    rfl

end Activity

/-! ### Siblings of lower priority -/

/-- What an activity makes available to its children. -/
def available (period : ℕ) (a : Activity) (frames : ℕ) (children : List Tree) : List ℕ :=
  (stats period (.node a children) frames).value.children.map (·.activity.last.available)

/-- Only siblings below a priority have changed, and only in what they use. -/
def ChangedBelow (priority : ℕ) : List Activity → List Activity → Prop :=
  List.Forall₂ fun p p' => p' = p ∨
    p.priority < priority ∧ ∃ l n, p' = { p with framesLocal := l, framesTotal := n }

/-- With these policies of an activity and its children, what the `j`-th child has available does
not depend on what the siblings of lower priority use. -/
def Isolated (policy : ActivityPolicy) (policies : List ActivityPolicy) (j : ℕ) : Prop :=
  ∀ period frames a ts ts', a.policy = policy →
    (ts.map Tree.activity).map Activity.policy = policies →
    (∀ p, (ts.map Tree.activity)[j]? = some p →
      ChangedBelow p.priority (ts.map Tree.activity) (ts'.map Tree.activity)) →
    (available period a frames ts)[j]? = (available period a frames ts')[j]?

/-- The weight of a priority group. -/
def groupWeight (policy : ActivityPolicy) (policies : List ActivityPolicy) (priority : ℕ) : ℕ :=
  (if policy.childRel.priority = priority then policy.childRel.weight else 0) +
    ((policies.filter fun q => q.siblingRel.priority = priority).map (·.siblingRel.weight)).sum

theorem statsAll_available (period : ℕ) (f : Activity → ℕ) : ∀ ts : List Tree,
    ((statsAll period ts ((ts.map Tree.activity).map f)).value.map (·.activity.last.available)) =
      (ts.map Tree.activity).map fun p => ((p.average period).entitle (f p)).value
  | [] => rfl
  | .node a cs :: rest => by
    simp only [statsAll, stats, Checked.value_bind, Checked.value_pure, List.map_cons,
      Tree.activity_node, (a.divide_spec ..).2, List.headD_cons, List.tail_cons]
    rw [← statsAll_available period f rest]

/-- What the children have available, by their priority groups. -/
theorem available_eq (period : ℕ) (a : Activity) (frames : ℕ) {cs : List Activity}
    (hsorted : (cs.map Activity.policy).Pairwise fun q r =>
      r.siblingRel.priority ≤ q.siblingRel.priority) :
    ∃ own : ℕ → ℕ, ∀ ts : List Tree, ts.map Tree.activity = cs →
      available period a frames ts = cs.map fun p => ((p.average period).entitle
        ((a.groupOf ((a.average period).entitle frames).value (own p.priority) cs.reverse
          p).compAvail p.member).value).value := by
  obtain ⟨own, hdivide⟩ := a.divide_serves period frames cs (List.pairwise_map.1 hsorted)
  refine ⟨own, ?_⟩
  rintro ts rfl
  simp only [available, stats, Checked.value_bind, Checked.value_pure, Tree.children_node, hdivide]
  exact statsAll_available period _ ts

namespace ChangedBelow

variable {priority j : ℕ} {cs cs' : List Activity} {p : Activity}

/-- The siblings that have not changed form the same priority group. -/
theorem filter (h : ChangedBelow priority cs cs') :
    (cs'.filter fun p => p.priority = priority) = cs.filter fun p => p.priority = priority := by
  induction h with
  | nil => rfl
  | @cons p _ _ _ hp _ ih =>
    rcases hp with rfl | ⟨hlt, l, n, rfl⟩
    · simp only [List.filter_cons, ih]
    · have hne : p.policy.siblingRel.priority ≠ priority := hlt.ne
      simpa [Activity.priority, hne] using ih

theorem policies (h : ChangedBelow priority cs cs') :
    cs'.map Activity.policy = cs.map Activity.policy := by
  induction h with
  | nil => rfl
  | cons hp _ ih => rcases hp with rfl | ⟨-, l, n, rfl⟩ <;> rw [List.map_cons, List.map_cons, ih]

theorem getElem? (h : ChangedBelow priority cs cs') (hj : cs[j]? = some p)
    (hle : priority ≤ p.priority) : cs'[j]? = some p := by
  induction h generalizing j with
  | nil => exact hj
  | cons hc _ ih =>
    cases j with
    | zero =>
      rw [List.getElem?_cons_zero, Option.some.injEq] at hj ⊢
      subst hj
      exact hc.resolve_right fun hlt => absurd hle (not_le.2 hlt.1)
    | succ j => exact ih hj

theorem eq (h : ChangedBelow priority cs cs') (hle : ∀ p ∈ cs, priority ≤ p.priority) :
    cs' = cs :=
  List.ext_getElem? fun j => by
    rcases hj : cs[j]? with _ | p
    · rw [List.getElem?_eq_none_iff, ← h.length_eq]
      exact List.getElem?_eq_none_iff.1 hj
    · exact h.getElem? hj (hle p (List.mem_of_getElem? hj))

end ChangedBelow

namespace Group

variable {g : Group} {m : Member}

/-- Without any weight, the frames of the group do not matter. -/
theorem compAvail_of_weight (hweight : g.weight = 0) (frames : ℕ) (m : Member) :
    (⟨frames, g.members⟩ : Group).compAvail m = g.compAvail m := by
  have hshare : (⟨frames, g.members⟩ : Group).share = g.share := by
    funext m
    exact (if_pos hweight).trans (if_pos hweight).symm
  simp only [compAvail, couldSteal, couldUse, adjust, excess, unused, hshare]
  rfl

/-- In a group that uses and has claimed nothing, a member may use all shares. -/
theorem compAvail_idle (hm : m ∈ g.members)
    (hidle : ∀ m ∈ g.members, m.alloced = 0 ∧ m.claimed = 0 ∧ m.disowned = 0) :
    (g.compAvail m).value = (g.members.map g.share).sum := by
  have hzero : ∀ f : Member → ℕ, (∀ m ∈ g.members, f m = 0) → (g.members.map f).sum = 0 :=
    fun f hf => List.sum_eq_zero (by simpa using hf)
  have hexcess : g.excess = 0 := hzero _ fun m hm => by simp [(hidle m hm).1]
  have hclaimed : g.claimed = 0 := hzero _ fun m hm => (hidle m hm).2.1
  have hdisowned : g.disowned = 0 := hzero _ fun m hm => (hidle m hm).2.2
  have hunused : g.unused = (g.members.map g.share).sum :=
    congrArg List.sum (List.map_congr_left fun m hm => by rw [(hidle m hm).1, Nat.sub_zero])
  obtain ⟨halloced, hc, hd⟩ := hidle m hm
  have hle : g.share m ≤ (g.members.map g.share).sum :=
    List.le_sum_of_mem (List.mem_map_of_mem hm)
  simp [compAvail, couldSteal, couldUse, adjust, delta, hexcess, hunused, hclaimed, hdisowned,
    halloced, hc, hd, Checked.value_sub hle]
  omega

theorem sum_share_weight (h : g.frames = g.weight) : (g.members.map g.share).sum = g.weight := by
  rcases Nat.eq_zero_or_pos g.weight with hzero | hpos
  · have := g.sum_share_le
    omega
  · refine congrArg List.sum (List.map_congr_left fun m _ => ?_)
    rw [share, if_neg hpos.ne', h, Nat.mul_div_cancel_left _ hpos]

end Group

theorem weight_groupOf (a : Activity) (frames own : ℕ) (cs : List Activity) (p : Activity) :
    (a.groupOf frames own cs.reverse p).weight =
      groupWeight a.policy (cs.map Activity.policy) p.priority := by
  rw [Activity.groupOf, Group.weight, Activity.group, groupWeight, List.filter_reverse]
  split_ifs
  all_goals
    simp [Activity.self, Activity.member, Activity.priority, List.filter_map, Function.comp_def,
      List.sum_reverse]
    rfl

/-- An activity that uses nothing, or `total` frames if it is below a priority. -/
def idle (priority total : ℕ) (policy : ActivityPolicy) : Activity :=
  ⟨policy, 0, if policy.siblingRel.priority < priority then total else 0, 0, 0, fun _ => {}⟩

section Policies

variable {policy q : ActivityPolicy} {policies : List ActivityPolicy} {j : ℕ}
  (hsorted : policies.Pairwise fun q r => r.siblingRel.priority ≤ q.siblingRel.priority)

include hsorted

/-- A group without weight does not depend on the siblings below it. -/
theorem isolated_of_weight (hj : policies[j]? = some q)
    (hweight : groupWeight policy policies q.siblingRel.priority = 0) :
    Isolated policy policies j := by
  intro period frames a ts ts' ha hts hchanged
  generalize hcs : ts.map Tree.activity = cs at hts hchanged
  subst hts
  obtain ⟨p, hp, rfl⟩ : ∃ p, cs[j]? = some p ∧ p.policy = q := by
    simpa [List.getElem?_map] using hj
  have h := hchanged p hp
  obtain ⟨own, havail⟩ := available_eq period a frames hsorted
  obtain ⟨own', havail'⟩ := available_eq period a frames (h.policies ▸ hsorted)
  have hzero := weight_groupOf a ((a.average period).entitle frames).value (own p.priority) cs p
  rw [ha] at hzero
  have hgroup := Group.compAvail_of_weight (hzero.trans hweight)
    (((a.average period).entitle frames).value - (own' p.priority * a.framesLocal +
      Activity.below (ts'.map Tree.activity).reverse p.priority)) p.member
  rw [havail ts hcs, havail' ts' rfl, List.getElem?_map, List.getElem?_map, hp,
    h.getElem? hp le_rfl]
  simp only [Option.map_some, ← hgroup]
  simp only [Activity.groupOf, Activity.group, List.filter_reverse, h.filter]

variable (policy) in
/-- Where nobody in its priority group uses anything, a child has the shares of all of them. -/
theorem available_idle (hj : policies[j]? = some q) (frames total : ℕ) :
    ∃ g : Group, (available 0 (idle 0 0 policy) frames
        (policies.map fun r => .node (idle q.siblingRel.priority total r) []))[j]? =
          some (g.members.map g.share).sum ∧
      g.weight = groupWeight policy policies q.siblingRel.priority ∧
      g.frames = frames - Activity.below (policies.map
        (idle q.siblingRel.priority total)).reverse q.siblingRel.priority := by
  set child := idle q.siblingRel.priority total
  have hpolicies : (policies.map child).map Activity.policy = policies :=
    List.map_map.trans (List.map_id _)
  obtain ⟨own, havail⟩ := available_eq 0 (idle 0 0 policy) frames (hpolicies.symm ▸ hsorted)
  have hentitle : ∀ (r : ActivityPolicy) n, (((idle 0 0 r).average 0).entitle n).value = n :=
    fun r n => by
      simp [Activity.entitle, Activity.average, idle, Activity.setCurrent, Activity.current,
        Activity.last]
  have hq : child q = idle 0 0 q := by simp [child, idle]
  refine ⟨(idle 0 0 policy).groupOf frames (own q.siblingRel.priority)
    (policies.map child).reverse (child q), ?_, ?_, ?_⟩
  · rw [havail _ (by simp [Function.comp_def]), List.getElem?_map, List.getElem?_map, hj]
    simp only [Option.map_some, hq, hentitle]
    congr 1
    refine Group.compAvail_idle (List.mem_append_right _ (List.mem_map_of_mem ?_)) fun m hm => ?_
    · simp only [← hq, List.mem_filter, List.mem_reverse, decide_true, and_true]
      exact List.mem_map_of_mem (List.mem_of_getElem? hj)
    · rcases List.mem_append.1 hm with hself | hchild
      · rw [List.mem_ite_nil_right, List.mem_singleton] at hself
        rw [hself.2]
        exact ⟨rfl, rfl, rfl⟩
      · simp only [List.mem_map, List.mem_filter, List.mem_reverse, decide_eq_true_eq] at hchild
        obtain ⟨-, ⟨⟨r, -, rfl⟩, hr⟩, rfl⟩ := hchild
        exact ⟨if_neg hr.not_lt, rfl, rfl⟩
  · rw [weight_groupOf, hpolicies]
    rfl
  · simp [Activity.groupOf, Activity.group, idle, Activity.priority, child]

/-- A sibling of lower priority can use all frames, and leave nothing for a group with weight. -/
theorem not_isolated {r : ActivityPolicy} (hj : policies[j]? = some q) (hr : r ∈ policies)
    (hlt : r.siblingRel.priority < q.siblingRel.priority)
    (hweight : groupWeight policy policies q.siblingRel.priority ≠ 0) :
    ¬Isolated policy policies j := by
  intro h
  set weight := groupWeight policy policies q.siblingRel.priority
  obtain ⟨g, hg, hgweight, hgframes⟩ := available_idle policy hsorted hj weight 0
  obtain ⟨g', hg', -, hgframes'⟩ := available_idle policy hsorted hj weight weight
  have hsame := h 0 weight (idle 0 0 policy)
    (policies.map fun r => .node (idle q.siblingRel.priority 0 r) [])
    (policies.map fun r => .node (idle q.siblingRel.priority weight r) []) rfl
    (by simp [Function.comp_def, idle]) fun p hp => by
      obtain rfl : idle q.siblingRel.priority 0 q = p := by
        simpa [List.getElem?_map, hj] using hp
      simp only [ChangedBelow, List.forall₂_map_left_iff, List.forall₂_map_right_iff,
        List.forall₂_same, Tree.activity_node]
      intro r _
      by_cases hr : r.siblingRel.priority < q.siblingRel.priority
      · exact .inr ⟨hr, 0, weight, by simp [idle, hr]⟩
      · exact .inl (by simp [idle, hr])
  rw [hg, hg', Option.some.injEq] at hsame
  have hfull : g.frames = g.weight := by
    rw [hgframes, hgweight, Activity.below, List.sum_eq_zero, Nat.sub_zero]
    simp +contextual [idle, eq_comm]
  have hnone : g'.frames = 0 := by
    rw [hgframes']
    refine Nat.sub_eq_zero_of_le (List.le_sum_of_mem (List.mem_map.2
      ⟨idle q.siblingRel.priority weight r, ?_, if_pos hlt⟩))
    rw [List.mem_filter, List.mem_reverse]
    exact ⟨List.mem_map_of_mem hr, decide_eq_true hlt⟩
  have hle := g'.sum_share_le
  rw [← hsame, Group.sum_share_weight hfull, hgweight, hnone] at hle
  exact hweight (Nat.le_zero.1 hle)

/-- **Isolation from siblings of lower priority**: what a child has available is independent of
what they use if and only if there are none, or nobody in its priority group has any weight. -/
theorem isolated_iff (hj : policies[j]? = some q) :
    Isolated policy policies j ↔
      (∀ r ∈ policies, q.siblingRel.priority ≤ r.siblingRel.priority) ∨
        groupWeight policy policies q.siblingRel.priority = 0 := by
  constructor
  · intro h
    by_contra hnot
    simp only [not_or, not_forall, not_le] at hnot
    obtain ⟨⟨r, hr, hlt⟩, hweight⟩ := hnot
    exact not_isolated hsorted hj hr hlt hweight h
  · rintro (hnone | hweight)
    · intro period frames a ts ts' ha hts hchanged
      generalize hcs : ts.map Tree.activity = cs at hts hchanged
      subst hts
      obtain ⟨p, hp, rfl⟩ : ∃ p, cs[j]? = some p ∧ p.policy = q := by
        simpa [List.getElem?_map] using hj
      obtain ⟨own, havail⟩ := available_eq period a frames hsorted
      have hsame := (hchanged p hp).eq fun r hr => hnone _ (List.mem_map_of_mem hr)
      rw [havail ts hcs, havail ts' hsame]
    · exact isolated_of_weight hsorted hj hweight

end Policies

/-- The policies of two siblings, the first with the higher priority. -/
def rivals : List ActivityPolicy := [⟨⟨2, 1⟩, ⟨0, 0⟩, 0⟩, ⟨⟨1, 1⟩, ⟨0, 0⟩, 0⟩]

/-- The second of the two has nobody below it, the first one is not isolated. -/
theorem isolated_rivals :
    Isolated ⟨⟨0, 0⟩, ⟨0, 0⟩, 0⟩ rivals 1 ∧ ¬Isolated ⟨⟨0, 0⟩, ⟨0, 0⟩, 0⟩ rivals 0 := by
  have hsorted : rivals.Pairwise fun q r => r.siblingRel.priority ≤ q.siblingRel.priority := by
    decide
  exact ⟨(isolated_iff hsorted rfl).2 (by decide), mt (isolated_iff hsorted rfl).1 (by decide)⟩

/-- The child of higher priority loses all of its 96 frames to the other one. -/
theorem available_rivals :
    ChangedBelow 2 (rivals.map (idle 2 0)) (rivals.map (idle 2 96)) ∧
      available 0 (idle 0 0 ⟨⟨0, 0⟩, ⟨0, 0⟩, 0⟩) 96 (rivals.map fun r => .node (idle 2 0 r) []) =
        [96, 96] ∧
      available 0 (idle 0 0 ⟨⟨0, 0⟩, ⟨0, 0⟩, 0⟩) 96 (rivals.map fun r => .node (idle 2 96 r) []) =
        [0, 96] :=
  ⟨.cons (.inl rfl) (.cons (.inr ⟨by decide, 0, 96, rfl⟩) .nil), by decide, by decide⟩

end Viengoos.Ager
