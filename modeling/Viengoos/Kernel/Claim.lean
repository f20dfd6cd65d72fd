import Viengoos.Kernel.State

/-!
# Claiming an object

`object_desc_claim`, which makes an activity the owner of an object's memory: the object leaves
the lists of its old owner and joins those of the new one, the frame counters follow, and the
object takes the policy of the capability that was used. The list and counter self-checks that are
compiled without `NDEBUG` only are left out.
-/

namespace Viengoos

/-! ### Places -/

/-- Which list of its owner a frame is on. -/
inductive Place
  | active (priority : BitVec 7)
  | inactive (priority : BitVec 7)
  | clean
  | dirty
deriving DecidableEq, Repr

/-- The place that goes with a descriptor. -/
def Desc.place (d : Desc) : Place :=
  if d.evictionCandidate then if d.precious then .dirty else .clean
  else if d.active then .active d.policy.priority else .inactive d.policy.priority

namespace Frames

/-- The list for a place. -/
def list (g : Frames) : Place → List ℕ
  | .active priority => g.active priority
  | .inactive priority => g.inactive priority
  | .clean => g.evictionClean
  | .dirty => g.evictionDirty

/-- Replace the list for a place. -/
def setList (g : Frames) (x : Place) (l : List ℕ) : Frames :=
  match x with
  | .active priority => { g with active := Function.update g.active priority l }
  | .inactive priority => { g with inactive := Function.update g.inactive priority l }
  | .clean => { g with evictionClean := l }
  | .dirty => { g with evictionDirty := l }

theorem list_setList (g : Frames) (x y : Place) (l : List ℕ) :
    (g.setList x l).list y = if y = x then l else g.list y := by
  cases x <;> cases y <;> simp [setList, list, Function.update_apply]

end Frames

/-! ### The code -/

/-- `activity_list_unlink` on the active or inactive list, whichever the object is on. -/
def Frames.unlink (g : Frames) (o : ℕ) (d : Desc) : Frames :=
  let priority := d.policy.priority
  if d.active then
    { g with active := Function.update g.active priority ((g.active priority).erase o) }
  else
    { g with inactive := Function.update g.inactive priority ((g.inactive priority).erase o) }

/-- `activity_list_push` on the active list of a priority. -/
def Frames.push (g : Frames) (o : ℕ) (priority : BitVec 7) : Frames :=
  { g with active := Function.update g.active priority (o :: g.active priority) }

namespace Kernel

/-- `activity_charge`. -/
def activityCharge (s : Kernel) (a : ℕ) (objects : ℤ) : Kernel :=
  (s.modifyFrames a fun g => { g with framesLocal := g.framesLocal + objects }).forEachAncestor a
    fun g => { g with frames := { g.frames with framesTotal := g.frames.framesTotal + objects } }

/-- `ancestor->frames_excluded -= n` for the activity and its ancestors. -/
def includeFrames (s : Kernel) (a : ℕ) (n : ℤ) : Kernel :=
  s.forEachAncestor a fun g =>
    { g with frames := { g.frames with framesExcluded := g.frames.framesExcluded - n } }

/-- An eviction candidate that holds content leaves the laundry and its owner's `eviction_dirty`
list. -/
def saveDirty (s : Kernel) (o old : ℕ) (moves : Bool) : Kernel :=
  let n : ℤ := if moves then 1 else 0
  let s := { s with laundry := s.laundry.erase o }
  let s := s.modifyFrames old fun g =>
    { g with evictionDirty := g.evictionDirty.erase o, framesLocal := g.framesLocal - n }
  s.forEachAncestor old fun g =>
    { g with frames := { g.frames with
        framesTotal := g.frames.framesTotal - n
        framesPendingEviction := g.frames.framesPendingEviction - 1 } }

/-- Any other eviction candidate leaves the available list and its owner's `eviction_clean`
list. -/
def saveClean (s : Kernel) (o old : ℕ) : Kernel :=
  { s with available := s.available.erase o }.modifyFrames old fun g =>
    { g with evictionClean := g.evictionClean.erase o }

/-- An object that is no eviction candidate leaves its owner's active or inactive list. -/
def unlinkFrame (s : Kernel) (o : ℕ) (d : Desc) (old : ℕ) (moves : Bool) : Kernel :=
  let s := s.modifyFrames old fun g => g.unlink o d
  if moves then s.activityCharge old (-1) else s

/-- The old owner gave a frame up, which brings it nearer to the goal the pager set. -/
def meetGoal (s : Kernel) (old : ℕ) : Kernel :=
  if (s.activity old).frames.freeGoal = 0 then s
  else
    let s := s.modifyFrames old fun g => { g with freeGoal := g.freeGoal - 1 }
    if (s.activity old).frames.freeGoal = 0 then
      (s.includeFrames old (s.activity old).frames.freeInitialAllocation).modifyFrames old
        fun g => { g with freeAllocations := 0 }
    else s

/-- The claim changes which activity pays for the frame, or starts the payment again for a frame
that was up for reuse. -/
def repays (d : Desc) (moves : Bool) : Bool := moves || (d.evictionCandidate && !d.precious)

/-- Disconnect an object from its old owner. -/
def disconnect (s : Kernel) (o : ℕ) (d : Desc) (old : ℕ) (moves : Bool) : Kernel :=
  let s :=
    if d.evictionCandidate then
      if d.precious then s.saveDirty o old moves else s.saveClean o old
    else s.unlinkFrame o d old moves
  if repays d moves then s.meetGoal old else s

/-- The new owner used one of the allocations the pager allows it before it evicts. -/
def useAllocation (s : Kernel) (a : ℕ) : Kernel :=
  if (s.activity a).frames.freeAllocations = 0 then s
  else
    let s := s.modifyFrames a fun g => { g with freeAllocations := g.freeAllocations - 1 }
    if (s.activity a).frames.freeAllocations = 0 then
      let s := s.modifyFrames a fun g =>
        { g with freeBadKarma := if g.freeGoal = 0 then g.freeBadKarma else 8 }
      (s.includeFrames a (s.activity a).frames.freeInitialAllocation).modifyFrames a
        fun g => { g with freeGoal := 0 }
    else s

/-- Assign an object to its new owner: it becomes active at the new priority. -/
def assign (s : Kernel) (o : ℕ) (d : Desc) (a : ℕ) (policy : ObjectPolicy) (moves : Bool) :
    Kernel :=
  let s := s.modifyFrames a fun g => g.push o policy.priority
  let s := if repays d moves then (s.activityCharge a 1).useAllocation a else s
  s.setDesc o (some { d with
    policy := policy
    age := d.referencedAge
    evictionCandidate := false
    activity := some a })

/-- The claim has nothing to do but to note the discardable bit. -/
def keepsOwner (d : Desc) (activity : Option ℕ) (policy : ObjectPolicy) : Bool :=
  d.activity == activity && !d.evictionCandidate && d.policy.priority == policy.priority

/-- `object_desc_claim` with accounting. `activity` is `none` where an object is destroyed. -/
def objectDescClaim (s : Kernel) (activity : Option ℕ) (o : ℕ) (policy : ObjectPolicy) : Kernel :=
  match s.desc o with
  | none => s
  | some d =>
    if keepsOwner d activity policy then
      s.setDesc o (some { d with policy := { d.policy with discardable := policy.discardable } })
    else
      let moves := d.activity != activity
      let s := match d.activity with
        | some old => s.disconnect o d old moves
        | none => s
      match activity with
      | some a => s.assign o d a policy moves
      | none => s

/-! ### What a claim changes -/

variable {f : Frames → Frames} {t : Kernel} {activity : Option ℕ} {a : ℕ}

section

variable (s : Kernel)

include s

theorem activityCharge_accountsOnly (a : ℕ) (n : ℤ) : AccountsOnly s (s.activityCharge a n) :=
  (modifyFrames_accountsOnly s a _).trans (FramesOnly.forEachAncestor (fun _ => rfl) _ a)

theorem includeFrames_accountsOnly (a : ℕ) (n : ℤ) : AccountsOnly s (s.includeFrames a n) :=
  FramesOnly.forEachAncestor (fun _ => rfl) s a

theorem saveDirty_accountsOnly (o old : ℕ) (moves : Bool) :
    AccountsOnly s (s.saveDirty o old moves) := by
  have hlaundry : AccountsOnly s { s with laundry := s.laundry.erase o } := ⟨rfl, fun _ => rfl⟩
  exact (hlaundry.trans (modifyFrames_accountsOnly _ old _)).trans
    (FramesOnly.forEachAncestor (fun _ => rfl) _ old)

theorem saveClean_accountsOnly (o old : ℕ) : AccountsOnly s (s.saveClean o old) := by
  have havail : AccountsOnly s { s with available := s.available.erase o } := ⟨rfl, fun _ => rfl⟩
  exact havail.trans (modifyFrames_accountsOnly _ old _)

theorem unlinkFrame_accountsOnly (o : ℕ) (d : Desc) (old : ℕ) (moves : Bool) :
    AccountsOnly s (s.unlinkFrame o d old moves) := by
  cases moves with
  | false =>
    simp only [unlinkFrame, Bool.false_eq_true, if_false]
    exact modifyFrames_accountsOnly s old _
  | true => exact (modifyFrames_accountsOnly s old _).trans (activityCharge_accountsOnly _ old _)

/-- What the bookkeeping of the pager's goals does. -/
inductive SetsGoals : Kernel → Prop
  | refl : SetsGoals s
  | goals {t : Kernel} {a : ℕ} (karma goal allocations : Frames → ℕ) : SetsGoals t →
      SetsGoals (t.modifyFrames a fun g => { g with
        freeBadKarma := karma g
        freeGoal := goal g
        freeAllocations := allocations g })
  | included {t : Kernel} {a : ℕ} {n : ℤ} : SetsGoals t → SetsGoals (t.includeFrames a n)

theorem meetGoal_setsGoals (old : ℕ) : SetsGoals s (s.meetGoal old) := by
  unfold meetGoal
  split
  · exact .refl
  · dsimp only
    split
    · exact .goals _ _ _ (.included (.goals _ _ _ .refl))
    · exact .goals _ _ _ .refl

theorem useAllocation_setsGoals (a : ℕ) : SetsGoals s (s.useAllocation a) := by
  unfold useAllocation
  split
  · exact .refl
  · dsimp only
    split
    · exact .goals _ _ _ (.included (.goals _ _ _ (.goals _ _ _ .refl)))
    · exact .goals _ _ _ .refl

theorem SetsGoals.accountsOnly (h : SetsGoals s t) : AccountsOnly s t := by
  induction h with
  | refl => exact .refl s
  | goals _ _ _ _ ih => exact ih.trans (modifyFrames_accountsOnly ..)
  | included _ ih => exact ih.trans (includeFrames_accountsOnly ..)

theorem disconnect_accountsOnly (o : ℕ) (d : Desc) (old : ℕ) (moves : Bool) :
    AccountsOnly s (s.disconnect o d old moves) := by
  have hlists : AccountsOnly s
      (if d.evictionCandidate then
        if d.precious then s.saveDirty o old moves else s.saveClean o old
      else s.unlinkFrame o d old moves) := by
    split
    · split
      · exact saveDirty_accountsOnly s o old moves
      · exact saveClean_accountsOnly s o old
    · exact unlinkFrame_accountsOnly s o d old moves
  unfold disconnect
  dsimp only
  split
  · exact hlists.trans (meetGoal_setsGoals _ old).accountsOnly
  · exact hlists

end

/-- The descriptor after a claim by `activity`. -/
def claimedDesc (d : Desc) (activity : Option ℕ) (policy : ObjectPolicy) : Desc :=
  if keepsOwner d activity policy then
    { d with policy := { d.policy with discardable := policy.discardable } }
  else
    match activity with
    | some a =>
      { d with policy, age := d.referencedAge, evictionCandidate := false, activity := some a }
    | none => d

variable {s : Kernel} {o : ℕ} {d : Desc} {policy : ObjectPolicy}

/-- **A claim** changes the object's own descriptor, as `claimedDesc` says, and beyond it frame
accounting only. -/
theorem objectDescClaim_spec (hd : s.desc o = some d) (activity : Option ℕ)
    (policy : ObjectPolicy) :
    ∃ t, AccountsOnly s t ∧
      s.objectDescClaim activity o policy = t.setDesc o (some (claimedDesc d activity policy)) := by
  simp only [objectDescClaim, hd, claimedDesc]
  split
  · exact ⟨s, AccountsOnly.refl s, rfl⟩
  -- the two halves of the claim, of which each may be missing
  set t := (match d.activity with
    | some old => s.disconnect o d old (d.activity != activity)
    | none => s : Kernel) with ht
  have hdisc : AccountsOnly s t := by
    rw [ht]
    split
    · exact disconnect_accountsOnly ..
    · exact AccountsOnly.refl s
  cases activity with
  | none =>
    refine ⟨t, hdisc, ?_⟩
    have hself : t.desc o = some d := by rw [hdisc.desc, hd]
    simp [setDesc, ← hself]
  | some a =>
    refine ⟨_, ?_, rfl⟩
    refine hdisc.trans ?_
    split
    · exact ((modifyFrames_accountsOnly t a _).trans (activityCharge_accountsOnly _ a 1)).trans
        (useAllocation_setsGoals _ a).accountsOnly
    · exact modifyFrames_accountsOnly t a _

/-- Type, version and mapping of the claimed object stay. -/
theorem claimedDesc_fields (d : Desc) (activity : Option ℕ) (policy : ObjectPolicy) :
    (claimedDesc d activity policy).type = d.type ∧
      (claimedDesc d activity policy).version = d.version ∧
      (claimedDesc d activity policy).mapped = d.mapped ∧
      (claimedDesc d activity policy).dirty = d.dirty := by
  unfold claimedDesc
  split
  · exact ⟨rfl, rfl, rfl, rfl⟩
  · split <;> exact ⟨rfl, rfl, rfl, rfl⟩

/-! ### The lists after a claim -/

/-- The lists that frames are on: those of an activity, and the laundry and the list of available
frames, which are common to all. -/
inductive FrameQueue
  | own (activity : ℕ) (x : Place)
  | laundry
  | available
deriving DecidableEq, Repr

/-- A frame at the location `y` belongs on the list. -/
def FrameQueue.takes (y : Option (ℕ × Place)) : FrameQueue → Bool
  | .own a x => some (a, x) = y
  | .laundry => y.map Prod.snd = some .dirty
  | .available => y.map Prod.snd = some .clean

/-- The frames on a list. -/
def queue (s : Kernel) : FrameQueue → List ℕ
  | .own a x => (s.activity a).frames.list x
  | .laundry => s.laundry
  | .available => s.available

theorem modifyFrames_queue (hf : ∀ g, (f g).list = g.list) (s : Kernel)
    (a : ℕ) : (s.modifyFrames a f).queue = s.queue := by
  funext q
  cases q with
  | own b x =>
    rw [queue, modifyFrames_frames]
    split
    · rw [hf, queue]
    · rfl
  | _ => rfl

theorem forEachAncestor_queue {f : Activity → Activity}
    (hf : ∀ g, (f g).frames.list = g.frames.list) (s : Kernel) (a : ℕ) :
    (s.forEachAncestor a f).queue = s.queue := by
  unfold forEachAncestor
  induction s.lineage a generalizing s with
  | nil => rfl
  | cons b l ih =>
    refine (ih (s.modifyActivity b f)).trans (funext fun q => ?_)
    cases q with
    | own c x =>
      by_cases hc : c = b
      · subst hc
        simp [queue, modifyActivity, hf]
      · simp [queue, modifyActivity, hc]
    | _ => rfl

theorem activityCharge_queue (s : Kernel) (a : ℕ) (n : ℤ) :
    (s.activityCharge a n).queue = s.queue :=
  (forEachAncestor_queue (by intro; rfl) _ a).trans (modifyFrames_queue (by intro; rfl) s a)

theorem SetsGoals.queue {s : Kernel} (h : SetsGoals s t) : t.queue = s.queue := by
  induction h with
  | refl => rfl
  | goals _ _ _ _ ih => exact (modifyFrames_queue (by intro; rfl) _ _).trans ih
  | included _ ih => exact (forEachAncestor_queue (by intro; rfl) _ _).trans ih

/-- Replacing one list of an activity. -/
theorem modifyFrames_setList_queue {x : Place} {l : List ℕ}
    (hf : (f (s.activity a).frames).list = ((s.activity a).frames.setList x l).list)
    (q : FrameQueue) :
    (s.modifyFrames a f).queue q = if q = .own a x then l else s.queue q := by
  cases q with
  | own b y =>
    rw [queue, modifyFrames_frames]
    by_cases hb : b = a
    · subst hb
      simp [hf, Frames.list_setList, queue]
    · simp [hb, queue]
  | _ => rfl

theorem unlink_eq (g : Frames) (o : ℕ) (hd : d.evictionCandidate = false) :
    g.unlink o d = g.setList d.place ((g.list d.place).erase o) := by
  by_cases hactive : d.active = true <;>
    simp [Frames.unlink, Desc.place, hd, hactive, Frames.setList, Frames.list]

/-- **Disconnecting** an object takes it off the list of its old owner, and off the common list that
goes with it. -/
theorem disconnect_queue (s : Kernel) (o : ℕ) (d : Desc) (old : ℕ) (moves : Bool)
    (q : FrameQueue) : (s.disconnect o d old moves).queue q =
      if q.takes (some (old, d.place)) then (s.queue q).erase o else s.queue q := by
  have hlists : (if d.evictionCandidate then
        if d.precious then s.saveDirty o old moves else s.saveClean o old
      else s.unlinkFrame o d old moves : Kernel).queue q =
      if q.takes (some (old, d.place)) then (s.queue q).erase o else s.queue q := by
    split
    next hcand =>
      split
      next hprecious =>
        have hplace : d.place = .dirty := by simp [Desc.place, hcand, hprecious]
        rw [saveDirty, forEachAncestor_queue (by intro; rfl),
          modifyFrames_setList_queue (x := .dirty) rfl, hplace]
        cases q <;> simp +contextual [FrameQueue.takes, queue, Frames.list]
      next hprecious =>
        have hplace : d.place = .clean := by simp [Desc.place, hcand, hprecious]
        rw [saveClean, modifyFrames_setList_queue (x := .clean) rfl, hplace]
        cases q <;> simp +contextual [FrameQueue.takes, queue, Frames.list]
    next hcand =>
      have hcand : d.evictionCandidate = false := by simpa using hcand
      have hunlink := modifyFrames_setList_queue (s := s) (f := fun g => g.unlink o d)
        (congrArg Frames.list (unlink_eq (s.activity old).frames o hcand)) q
      have hplace : d.place ≠ .dirty ∧ d.place ≠ .clean := by
        cases hactive : d.active <;> simp [Desc.place, hcand, hactive]
      have hcharge : (s.unlinkFrame o d old moves).queue =
          (s.modifyFrames old fun g => g.unlink o d).queue := by
        cases moves with
        | true => exact activityCharge_queue ..
        | false => rfl
      rw [hcharge, hunlink]
      cases q <;> simp +contextual [FrameQueue.takes, queue, hplace]
  rw [disconnect]
  split
  · rw [(meetGoal_setsGoals _ old).queue, hlists]
  · exact hlists

/-- **Assigning** an object puts it at the head of an active list of its new owner. -/
theorem assign_queue (s : Kernel) (o : ℕ) (d : Desc) (a : ℕ) (policy : ObjectPolicy) (moves : Bool)
    (q : FrameQueue) : (s.assign o d a policy moves).queue q =
      if q = .own a (.active policy.priority) then o :: s.queue q else s.queue q := by
  have hpush : (s.modifyFrames a fun g => g.push o policy.priority).queue q =
      if q = .own a (.active policy.priority) then o :: s.queue q else s.queue q := by
    rw [modifyFrames_setList_queue (x := .active policy.priority) rfl]
    split
    next hq => rw [hq, queue, Frames.list]
    next => rfl
  rw [← hpush]
  show Kernel.queue (if repays d moves then _ else _) q = _
  split
  · rw [(useAllocation_setsGoals _ a).queue, activityCharge_queue]
  · rfl

theorem objectDescClaim_queue_of_keeps (hd : s.desc o = some d)
    (hkeep : keepsOwner d activity policy = true) :
    (s.objectDescClaim activity o policy).queue = s.queue := by
  funext q
  simp only [objectDescClaim, hd, hkeep, if_true]
  cases q <;> rfl

/-- The lists after a claim that does more than note the discardable bit. -/
theorem objectDescClaim_queue (hd : s.desc o = some d)
    (hkeep : keepsOwner d activity policy = false) (q : FrameQueue) :
    (s.objectDescClaim activity o policy).queue q =
      (if q.takes (activity.map fun a => (a, .active policy.priority)) then [o] else []) ++
      if q.takes (d.activity.map fun a => (a, d.place)) then (s.queue q).erase o
      else s.queue q := by
  simp only [objectDescClaim, hd, hkeep, Bool.false_eq_true, if_false]
  set t := (match d.activity with
    | some old => s.disconnect o d old (d.activity != activity)
    | none => s : Kernel) with ht
  have hdisc : t.queue q =
      if q.takes (d.activity.map fun a => (a, d.place)) then (s.queue q).erase o
      else s.queue q := by
    cases hold : d.activity with
    | none => cases q <;> simp [ht, hold, FrameQueue.takes]
    | some old => simp only [ht, hold, disconnect_queue, Option.map_some]
  rw [← hdisc]
  cases activity with
  | none => cases q <;> simp [FrameQueue.takes]
  | some a =>
    cases q with
    | own b x =>
      simp only [assign_queue, FrameQueue.takes, Option.map_some, FrameQueue.own.injEq,
        Option.some.injEq, Prod.mk.injEq, decide_eq_true_eq]
      split <;> rfl
    | _ => simp [assign_queue, FrameQueue.takes]

/-! ### A claim shows -/

/-- The active list of an activity. -/
def activeOf (s : Kernel) (a : ℕ) (priority : BitVec 7) : List ℕ :=
  (s.activity a).frames.active priority

/-- **A claim that does more than note the discardable bit shows**: the object is pushed on the
claimer's active list. -/
theorem objectDescClaim_activeOf (hd : s.desc o = some d)
    (hkeep : keepsOwner d (some a) policy = false) :
    (s.objectDescClaim (some a) o policy).activeOf a policy.priority =
      o :: s.activeOf a policy.priority := by
  have hqueue := objectDescClaim_queue hd hkeep (.own a (.active policy.priority))
  have hold : ¬ some (a, .active policy.priority) = d.activity.map fun b => (b, d.place) := by
    intro heq
    by_cases hcand : d.evictionCandidate = true <;> by_cases hactive : d.active = true <;>
      by_cases hprecious : d.precious = true <;>
      simp_all [Desc.place, keepsOwner]
  simp only [FrameQueue.takes, Option.map_some, hold, decide_true, decide_false, if_true] at hqueue
  exact hqueue

end Kernel

end Viengoos
