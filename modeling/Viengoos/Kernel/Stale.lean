import Viengoos.Kernel.Shootdown

/-!
# Stale capabilities

A capability whose version is not that of the object now in its slot should be inert. The kernel
finds the object **before** it compares versions, and finding an object that is unclaimed,
inactive, floating or up for eviction claims it for whoever holds the capability, under the policy
in the capability; `vg_cap_to_object` also brings the object into memory. Without `NDEBUG`,
`object_find_soft` moreover compares the object with what its folio records, and finds the folio for
that: the folio is claimed, or brought in, on the way.

`stale_inert_iff` gives the exact condition under which a dereference leaves no trace, for every
way there is to dereference, with this comparison compiled in.
-/

namespace Viengoos

open Outcome

namespace Kernel

/-! ### Looking up with the self-check

`noted s oid` says that in the state `s` the descriptor of the object remembers its folio:
`maybe_folio_desc` points to the live descriptor of the folio. It may be any function. -/

section Code

variable (noted : Kernel → ℕ → Bool) (s : Kernel) (activity oid : ℕ) (policy : ObjectPolicy)

/-- `objects_folio`, for the effect. -/
def objectsFolio : Except Fault Kernel :=
  if noted s oid then pure s
  else do
    let (s, found) ← s.folioFind activity (folioOf oid) .default
    require (found = true) .assertion
    pure s

/-- `object_find_soft`. An object in memory that is no folio is compared with what its folio
records. -/
def objectFindSoftChecked : Except Fault (Kernel × Bool) :=
  match s.desc oid with
  | none => pure (s, false)
  | some d =>
    if isFolioOid oid then pure (s.objectFindSoft activity oid policy)
    else do
      let s ← objectsFolio noted s activity oid
      require ((s.entryOf oid).type = d.type) .assertion
      require ((s.entryOf oid).discarded = false) .assertion
      pure (s.objectFindSoft activity oid policy)

/-- `object_find`. What is not in memory is not compared with anything, nor is a folio. -/
def objectFindChecked : Except Fault (Kernel × Bool) := do
  let (s, found) ← objectFindSoftChecked noted s activity oid policy
  if found then pure (s, true) else s.objectFind activity oid policy

variable (p : CapPtr)

/-- `vg_cap_to_object`. -/
def capToObjectChecked : Except Fault (Kernel × Option ℕ) :=
  let c := s.read p
  if c.type = .void then pure (s, none)
  else do
    let (s, found) ← objectFindChecked noted s activity c.oid c.policy
    s.checkVersion p c found

/-- `cap_to_object_soft`. -/
def capToObjectSoftChecked : Except Fault (Kernel × Option ℕ) :=
  let c := s.read p
  if c.type = .void then pure (s, none)
  else do
    let (s, found) ← objectFindSoftChecked noted s activity c.oid c.policy
    s.checkVersion p c found

/-- The visit of a page by the shootdown. -/
def shootdownPageChecked : Except Fault Kernel := do
  let c := s.read p
  let (s, found) ← objectFindSoftChecked noted s activity c.oid c.policy
  pure (s.unmapFound p c found)

/-- The walker's view of the kernel. -/
def memoryChecked : Memory Kernel CapPtr :=
  { memory activity with capToObject := fun s p => capToObjectChecked noted s activity p }

/-- `cap_shootdown`. -/
def capShootdownChecked (fuel : ℕ) (junk : ℕ → ObjectPolicy) : Except Fault Kernel :=
  shootdownWith (fun q t => shootdownPageChecked noted t activity q)
    (fun q t => capToObjectChecked noted t activity q) p junk fuel p vgAddrBits s

end Code

/-! ### Traces -/

/-- Every activity's frame accounting is the same. -/
structure SameFrames (s s' : Kernel) : Prop where
  frames : ∀ a, (s'.activity a).frames = (s.activity a).frames
  laundry : s'.laundry = s.laundry
  available : s'.available = s.available

/-- **No trace**: whether the object is in memory, its owner, its policy, the lists it is on and
all frame accounting are the same. -/
structure Undisturbed (s s' : Kernel) (o : ℕ) : Prop extends SameFrames s s' where
  owner : (s'.desc o).map Desc.activity = (s.desc o).map Desc.activity
  policy : (s'.desc o).map Desc.policy = (s.desc o).map Desc.policy

theorem Undisturbed.refl (s : Kernel) (o : ℕ) : Undisturbed s s o :=
  ⟨⟨fun _ => rfl, rfl, rfl⟩, rfl, rfl⟩

/-- What comes after a step without a trace is judged as if the step had not been. -/
theorem Undisturbed.left_iff {s t u : Kernel} {o : ℕ} (h : Undisturbed s t o) :
    Undisturbed s u o ↔ Undisturbed t u o := by
  constructor
  · rintro ⟨⟨hf, hl, ha⟩, ho, hp⟩
    exact ⟨⟨fun a => (hf a).trans (h.frames a).symm, hl.trans h.laundry.symm,
      ha.trans h.available.symm⟩, ho.trans h.owner.symm, hp.trans h.policy.symm⟩
  · rintro ⟨⟨hf, hl, ha⟩, ho, hp⟩
    exact ⟨⟨fun a => (hf a).trans (h.frames a), hl.trans h.laundry, ha.trans h.available⟩,
      ho.trans h.owner, hp.trans h.policy⟩

theorem SameFrames.queue {s t : Kernel} (h : SameFrames s t) : t.queue = s.queue := by
  funext q
  cases q with
  | own a x => exact congrArg (fun g => g.list x) (h.frames a)
  | laundry => exact h.laundry
  | available => exact h.available

/-- The version of the object now in a slot. What comes into memory has the version its folio
records, and a folio that comes in is zeroed. -/
def currentVersion (s : Kernel) (oid : ℕ) : Fin (2 ^ 20) :=
  match s.desc oid with
  | some d => d.version
  | none =>
    if isFolioOid oid = true ∨ (s.desc (folioOf oid)).isNone = true then 0
    else (s.entryOf oid).version

/-! ### The condition -/

/-- Finding the object does not claim it, or the claim has nothing to do but to note the
discardable bit. -/
def ClaimIdle (d : Desc) (activity : ℕ) (policy : ObjectPolicy) : Prop :=
  claimable d activity = false ∨ keepsOwner d (some activity) policy = true

/-- Finding the object in memory leaves no trace on it. -/
def FindIdle (d : Desc) (activity : ℕ) (policy : ObjectPolicy) : Prop :=
  claimable d activity = false ∨
    keepsOwner d (some activity) policy = true ∧ d.policy.discardable = policy.discardable

/-- The folio of an object is in memory and is found without a trace. -/
def FolioIdle (s : Kernel) (activity oid : ℕ) : Prop :=
  ∃ d, s.desc (folioOf oid) = some d ∧ ClaimIdle d activity .default

/-- The self-check leaves no trace: the object is a folio or remembers its folio, or the folio is
found without one. -/
def CheckIdle (noted : Kernel → ℕ → Bool) (s : Kernel) (activity oid : ℕ) : Prop :=
  isFolioOid oid = true ∨ noted s oid = true ∨ s.FolioIdle activity oid

/-- **`cap_to_object_soft` leaves no trace.** -/
def InertSoft (noted : Kernel → ℕ → Bool) (s : Kernel) (activity : ℕ) (c : Cap) : Prop :=
  c.type = .void ∨ ∀ d, s.desc c.oid = some d →
    CheckIdle noted s activity c.oid ∧ FindIdle d activity c.policy

/-- **`vg_cap_to_object` leaves no trace.** Where there is nothing in memory, it must not find
anything to bring in. -/
def InertHard (noted : Kernel → ℕ → Bool) (s : Kernel) (activity : ℕ) (c : Cap) : Prop :=
  c.type = .void ∨
    match s.desc c.oid with
    | some d => CheckIdle noted s activity c.oid ∧ FindIdle d activity c.policy
    | none =>
      if isFolioOid c.oid then foliosCore ≤ c.oid / (folioObjects + 1)
      else s.FolioIdle activity c.oid ∧ NothingToBring (s.entryOf c.oid)

/-! ### Finding in memory -/

variable {s t s' : Kernel} {oid activity : ℕ} {policy : ObjectPolicy} {p : CapPtr} {r : Option ℕ}
  {noted : Kernel → ℕ → Bool}

/-- What finding an object does to the lists of frames is what a claim does, if it claims. -/
theorem objectFindSoft_queue {d : Desc} (hd : s.desc oid = some d) (activity : ℕ)
    (policy : ObjectPolicy) :
    (s.objectFindSoft activity oid policy).1.queue =
      if claimable d activity = true then (s.objectDescClaim (some activity) oid policy).queue
      else s.queue := by
  funext q
  simp only [objectFindSoft, hd]
  split
  · cases q <;> rfl
  · split <;> cases q <;> rfl

/-- Finding an object does not move others. -/
theorem count_objectFindSoft {x : ℕ} (hx : x ≠ oid) (s : Kernel) (activity : ℕ)
    (policy : ObjectPolicy) (q : FrameQueue) :
    ((s.objectFindSoft activity oid policy).1.queue q).count x = (s.queue q).count x := by
  cases hd : s.desc oid with
  | none => rw [objectFindSoft_of_none hd]
  | some d =>
    rw [objectFindSoft_queue hd]
    split
    · cases hkeep : keepsOwner d (some activity) policy with
      | true => rw [objectDescClaim_queue_of_keeps hd hkeep]
      | false =>
        rw [objectDescClaim_queue hd hkeep, List.count_append, List.count_eq_zero_of_not_mem,
          zero_add]
        · split
          · exact List.count_erase_of_ne hx
          · rfl
        · split
          · simpa using hx
          · simp
    · rfl

/-- A claim that shows: the object is at the head of the claimer's active list. -/
theorem objectFindSoft_queue_of_claims {d : Desc} (hd : s.desc oid = some d)
    (hidle : ¬ ClaimIdle d activity policy) :
    (s.objectFindSoft activity oid policy).1.queue (.own activity (.active policy.priority)) =
      oid :: s.queue (.own activity (.active policy.priority)) := by
  simp only [ClaimIdle, not_or, Bool.not_eq_false, Bool.not_eq_true] at hidle
  rw [objectFindSoft_queue hd, if_pos hidle.1]
  exact objectDescClaim_activeOf hd hidle.2

theorem setDesc_sameFrames (h : SameFrames s t) (o : ℕ) (d : Option Desc) :
    SameFrames s (t.setDesc o d) := ⟨h.frames, h.laundry, h.available⟩

theorem sameFrames_found_iff {d : Desc} (hd : s.desc oid = some d) (activity : ℕ)
    (policy : ObjectPolicy) :
    SameFrames s (s.objectFindSoft activity oid policy).1 ↔ ClaimIdle d activity policy := by
  have hself : SameFrames s s := ⟨fun _ => rfl, rfl, rfl⟩
  constructor
  · intro h
    by_contra hidle
    have hqueue := objectFindSoft_queue_of_claims hd hidle
    rw [h.queue] at hqueue
    exact List.cons_ne_self _ _ hqueue.symm
  · rintro (hclaim | hkeep)
    · simp only [objectFindSoft, hd, hclaim, Bool.false_eq_true, if_false]
      split
      · exact setDesc_sameFrames hself oid _
      · exact hself
    · simp only [objectFindSoft, hd]
      split
      · simp only [objectDescClaim, hd, hkeep, if_true]
        exact setDesc_sameFrames (setDesc_sameFrames hself oid _) oid _
      · split
        · exact setDesc_sameFrames hself oid _
        · exact hself

theorem undisturbed_found_iff {d : Desc} (hd : s.desc oid = some d) (activity : ℕ)
    (policy : ObjectPolicy) :
    Undisturbed s (s.objectFindSoft activity oid policy).1 oid ↔ FindIdle d activity policy := by
  have hframes := sameFrames_found_iff hd activity policy
  obtain ⟨t, -, heq⟩ := objectFindSoft_spec hd activity policy
  have hdesc : (s.objectFindSoft activity oid policy).1.desc oid =
      some (foundDesc d activity policy) := by rw [heq, setDesc_desc_self]
  constructor
  · intro h
    rcases hframes.1 h.toSameFrames with hclaim | hkeep
    · exact .inl hclaim
    · cases hclaim : claimable d activity with
      | false => exact .inl hclaim
      | true =>
        have hpolicy := h.policy
        rw [hdesc, hd] at hpolicy
        simp only [foundDesc, hclaim, if_true, claimedDesc, hkeep, Option.map_some,
          Option.some.injEq] at hpolicy
        exact .inr ⟨hkeep, (congrArg ObjectPolicy.discardable hpolicy).symm⟩
  · intro h
    refine ⟨hframes.2 (h.imp_right And.left), ?_, ?_⟩ <;> rw [hdesc, hd] <;>
    all_goals
      rcases h with hclaim | ⟨hkeep, hdisc⟩
      · simp only [foundDesc, hclaim, Bool.false_eq_true, if_false]
        split <;> rfl
      · simp only [foundDesc, claimedDesc, hkeep, if_true, ← hdisc]
        repeat' split
        all_goals rfl

/-! ### Bringing in -/

/-- Bringing an object in shows in the accounting of the activity it is charged to. -/
theorem memoryObjectAlloc_queue {type : CapType} {version : Fin (2 ^ 20)}
    (hact : (s.desc activity).isSome = true)
    (h : s.memoryObjectAlloc activity type oid version policy = .ok s') :
    s'.queue (.own activity (.active policy.priority)) =
      oid :: s.queue (.own activity (.active policy.priority)) := by
  obtain ⟨-, -, -, hnone, rfl⟩ := memoryObjectAlloc_claims h
  have hne : activity ≠ oid := by
    rintro rfl
    simp [hnone] at hact
  have hkeep : keepsOwner (.fresh type version) (some activity) policy = false := rfl
  have hactive := objectDescClaim_activeOf (setDesc_desc_self ((s.framed oid)) oid
    (some (.fresh type version))) hkeep
  have hbefore : ((s.framed oid).setDesc oid (some (.fresh type version))).activeOf activity
      policy.priority = s.activeOf activity policy.priority := by
    simp [activeOf, framed, zeroObject, setDesc, hne]
  rw [hbefore] at hactive
  exact hactive

/-- An object that comes into memory leaves a trace. -/
theorem not_undisturbed_of_alloc {type : CapType} {version : Fin (2 ^ 20)}
    (hnone : s.desc oid = none)
    (h : t.memoryObjectAlloc activity type oid version policy = .ok s') :
    ¬ Undisturbed s s' oid := by
  intro hsame
  obtain ⟨-, -, -, -, u, -, rfl⟩ := memoryObjectAlloc_spec h
  have howner := hsame.owner
  rw [hnone, setDesc_desc_self] at howner
  exact absurd howner (by simp)

/-! ### The folio -/

section Folio

variable (h : s.folioFind activity (folioOf oid) .default = .ok (t, true))

include h

/-- Finding the folio of an object leaves the object alone. -/
theorem folioFind_desc (hfolio : isFolioOid oid = false) : t.desc oid = s.desc oid := by
  rcases folioFind_cases h with ⟨d, hd, -, rfl⟩ | ⟨-, ⟨-, -, halloc⟩ | ⟨hfalse, -⟩⟩
  · obtain ⟨u, hu, heq⟩ := objectFindSoft_spec hd activity .default
    rw [heq, setDesc_desc_of_ne _ _ (ne_folioOf hfolio), hu.desc]
  · obtain ⟨-, -, -, -, u, hu, rfl⟩ := memoryObjectAlloc_spec halloc
    rw [setDesc_desc_of_ne _ _ (ne_folioOf hfolio), hu.desc]
    rfl
  · exact absurd hfalse (by simp)

/-- What the folio records about the object stays, unless the folio comes in and is zeroed. -/
theorem folioFind_entryOf : (s.desc (folioOf oid)).isSome = true ∧ t.entryOf oid = s.entryOf oid ∨
    s.desc (folioOf oid) = none ∧ NothingToBring (t.entryOf oid) := by
  rcases folioFind_cases h with ⟨d, hd, -, rfl⟩ | ⟨hnone, ⟨-, -, halloc⟩ | ⟨hfalse, -⟩⟩
  · obtain ⟨u, hu, heq⟩ := objectFindSoft_spec hd activity .default
    refine .inl ⟨by simp [hd], ?_⟩
    rw [heq]
    show (u.folio _).entry _ = _
    rw [hu.folio]
    rfl
  · obtain ⟨-, -, -, -, u, hu, rfl⟩ := memoryObjectAlloc_spec halloc
    refine .inr ⟨hnone, .inl ?_⟩
    show ((u.folio _).entry _).type = _
    rw [hu.folio]
    simp [framed, zeroObject, Folio.zero, FolioEntry.zero]
  · exact absurd hfalse (by simp)

theorem folioFind_undisturbed (hfolio : isFolioOid oid = false) (hidle : s.FolioIdle activity oid) :
    Undisturbed s t oid := by
  have hdesc := folioFind_desc h hfolio
  obtain ⟨e, he, hclaim⟩ := hidle
  rcases folioFind_cases h with ⟨d, hd, -, rfl⟩ | ⟨hnone, -⟩
  · obtain rfl : d = e := Option.some.inj (hd.symm.trans he)
    exact ⟨(sameFrames_found_iff hd activity .default).2 hclaim, by rw [hdesc], by rw [hdesc]⟩
  · simp [hnone] at he

/-- A folio that is claimed or comes in is at the head of an active list. -/
theorem folioFind_queue (hact : (s.desc activity).isSome = true)
    (hidle : ¬ s.FolioIdle activity oid) :
    t.queue (.own activity (.active 0)) = folioOf oid :: s.queue (.own activity (.active 0)) := by
  rcases folioFind_cases h with ⟨d, hd, -, rfl⟩ | ⟨-, ⟨-, -, halloc⟩ | ⟨hfalse, -⟩⟩
  · exact objectFindSoft_queue_of_claims hd fun hclaim => hidle ⟨d, hd, hclaim⟩
  · exact memoryObjectAlloc_queue hact halloc
  · exact absurd hfalse (by simp)

end Folio

/-! ### Dereferencing -/

/-- **Inversion of `object_find_soft`** with the self-check, for an object in memory. -/
theorem objectFindSoftChecked_cases {d : Desc} {found : Bool} (hd : s.desc oid = some d)
    (h : objectFindSoftChecked noted s activity oid policy = .ok (s', found)) :
    found = true ∧ ∃ t, s' = (t.objectFindSoft activity oid policy).1 ∧
      ((isFolioOid oid = true ∨ noted s oid = true) ∧ t = s ∨
        isFolioOid oid = false ∧ noted s oid = false ∧
          s.folioFind activity (folioOf oid) .default = .ok (t, true)) := by
  have hret : ∀ {t : Kernel}, t.desc oid = some d →
      pure (t.objectFindSoft activity oid policy) = (.ok (s', found) : Except Fault _) →
      found = true ∧ s' = (t.objectFindSoft activity oid policy).1 := by
    intro t ht hpure
    obtain ⟨u, -, heq⟩ := objectFindSoft_spec ht activity policy
    rw [heq] at hpure ⊢
    obtain ⟨⟩ := pure_eq_ok.1 hpure
    exact ⟨rfl, rfl⟩
  simp only [objectFindSoftChecked, hd] at h
  split at h
  · next hfolio =>
    obtain ⟨hfound, hs'⟩ := hret hd h
    exact ⟨hfound, s, hs', .inl ⟨.inl hfolio, rfl⟩⟩
  next hfolio =>
  obtain ⟨t, hcheck, h⟩ := bind_eq_ok.1 h
  obtain ⟨_, -, h⟩ := bind_eq_ok.1 h
  obtain ⟨_, -, h⟩ := bind_eq_ok.1 h
  rw [objectsFolio] at hcheck
  split at hcheck
  · next hnoted =>
    obtain rfl := pure_eq_ok.1 hcheck
    obtain ⟨hfound, hs'⟩ := hret hd h
    exact ⟨hfound, s, hs', .inl ⟨.inr hnoted, rfl⟩⟩
  · next hnoted =>
    have hfolio : isFolioOid oid = false := by simpa using hfolio
    obtain ⟨⟨u, ffound⟩, hfind, hcheck⟩ := bind_eq_ok.1 hcheck
    obtain ⟨_, hffound, hcheck⟩ := bind_eq_ok.1 hcheck
    obtain rfl : ffound = true := require_eq_ok.1 hffound
    obtain rfl := pure_eq_ok.1 hcheck
    have hdesc : u.desc oid = some d := by
      rw [← hd]
      exact folioFind_desc hfind hfolio
    obtain ⟨hfound, hs'⟩ := hret hdesc h
    exact ⟨hfound, u, hs', .inr ⟨hfolio, by simpa using hnoted, hfind⟩⟩

/-- Finding an object in memory leaves no trace if neither the self-check nor the find does. -/
theorem undisturbed_findSoft_iff {d : Desc} {found : Bool} (hact : (s.desc activity).isSome = true)
    (hd : s.desc oid = some d)
    (h : objectFindSoftChecked noted s activity oid policy = .ok (s', found)) :
    Undisturbed s s' oid ↔ CheckIdle noted s activity oid ∧ FindIdle d activity policy := by
  obtain ⟨-, t, rfl, ⟨hcheck, rfl⟩ | ⟨hfolio, hnoted, hfind⟩⟩ := objectFindSoftChecked_cases hd h
  · rw [undisturbed_found_iff hd]
    exact ⟨fun hidle => ⟨hcheck.imp_right .inl, hidle⟩, And.right⟩
  have hcheck : CheckIdle noted s activity oid ↔ s.FolioIdle activity oid := by
    simp [CheckIdle, hfolio, hnoted]
  rw [hcheck]
  by_cases hidle : s.FolioIdle activity oid
  · rw [(folioFind_undisturbed hfind hfolio hidle).left_iff,
      undisturbed_found_iff ((folioFind_desc hfind hfolio).trans hd)]
    exact ⟨fun h => ⟨hidle, h⟩, And.right⟩
  · -- the find that follows moves the object, and the folio stays where it was put
    refine ⟨fun hsame => ?_, fun h => absurd h.1 hidle⟩
    have hcount := count_objectFindSoft (ne_folioOf hfolio).symm t activity policy
      (.own activity (.active 0))
    rw [hsame.toSameFrames.queue, folioFind_queue hfind hact hidle, List.count_cons_self] at hcount
    omega

/-- Where nothing is in memory, `object_find` brings the object in, or only finds its folio. -/
theorem undisturbed_broughtIn_iff {found : Bool} (hact : (s.desc activity).isSome = true)
    (hnone : s.desc oid = none) (h : s.objectFind activity oid policy = .ok (s', found)) :
    Undisturbed s s' oid ↔
      if isFolioOid oid then foliosCore ≤ oid / (folioObjects + 1)
      else s.FolioIdle activity oid ∧ NothingToBring (s.entryOf oid) := by
  rcases objectFind_cases h with ⟨d, hd, -⟩ | ⟨-, ⟨hfolio, hfind⟩ | ⟨hfolio, t, hfind, hcase⟩⟩
  · simp [hnone] at hd
  · -- a folio is brought in, or is not one of those in core
    simp only [hfolio, if_true]
    rcases folioFind_cases hfind with ⟨d, hd, -⟩ | ⟨-, ⟨-, hcore, halloc⟩ | ⟨-, hcore, rfl⟩⟩
    · simp [hnone] at hd
    · exact ⟨fun hsame => absurd hsame (not_undisturbed_of_alloc hnone halloc),
        fun hle => absurd hcore (not_lt.2 hle)⟩
    · exact ⟨fun _ => hcore, fun _ => .refl _ _⟩
  simp only [hfolio, Bool.false_eq_true, if_false]
  rcases hcase with ⟨hnothing, -, rfl⟩ | ⟨hbring, -, halloc⟩
  · constructor
    · intro hsame
      have hidle : s.FolioIdle activity oid := by
        by_contra hidle
        have hqueue := folioFind_queue hfind hact hidle
        rw [hsame.toSameFrames.queue] at hqueue
        exact List.cons_ne_self _ _ hqueue.symm
      refine ⟨hidle, ?_⟩
      rcases folioFind_entryOf hfind with ⟨-, hentry⟩ | ⟨hfnone, -⟩
      · rwa [← hentry]
      · obtain ⟨d, hd, -⟩ := hidle
        simp [hfnone] at hd
    · exact fun hidle => folioFind_undisturbed hfind hfolio hidle.1
  · refine ⟨fun hsame => absurd hsame (not_undisturbed_of_alloc hnone halloc), fun hidle => ?_⟩
    rcases folioFind_entryOf hfind with ⟨-, hentry⟩ | ⟨-, hnothing⟩
    · exact absurd (hentry ▸ hidle.2) hbring
    · exact absurd hnothing hbring

/-- `object_find` is one or the other. -/
theorem objectFindChecked_cases {found : Bool}
    (h : objectFindChecked noted s activity oid policy = .ok (s', found)) :
    (∃ d, s.desc oid = some d ∧
        objectFindSoftChecked noted s activity oid policy = .ok (s', found)) ∨
      s.desc oid = none ∧ s.objectFind activity oid policy = .ok (s', found) := by
  obtain ⟨⟨t, tfound⟩, hsoft, hrest⟩ := bind_eq_ok.1 h
  cases hd : s.desc oid with
  | some d =>
    obtain ⟨rfl, -⟩ := objectFindSoftChecked_cases hd hsoft
    obtain ⟨⟩ := pure_eq_ok.1 hrest
    exact .inl ⟨d, rfl, hsoft⟩
  | none =>
    rw [objectFindSoftChecked, hd] at hsoft
    obtain ⟨⟩ := pure_eq_ok.1 hsoft
    exact .inr ⟨rfl, hrest⟩

/-- The comparison of versions, and voiding the capability, leave no trace. -/
theorem undisturbed_checkVersion_iff {c : Cap} {found : Bool} {o : ℕ}
    (h : t.checkVersion p c found = .ok (s', r)) :
    Undisturbed s s' o ↔ Undisturbed s t o := by
  have hcases : s' = t ∨ s' = t.voidCap p := by
    unfold checkVersion at h
    split at h
    · split at h
      · exact .inr (Prod.mk.inj (pure_eq_ok.1 h)).1.symm
      · obtain ⟨_, -, hrest⟩ := bind_eq_ok.1 h
        exact .inl (Prod.mk.inj (pure_eq_ok.1 hrest)).1.symm
    · exact .inl (Prod.mk.inj (pure_eq_ok.1 h)).1.symm
  rcases hcases with rfl | rfl
  · exact Iff.rfl
  · constructor
    · rintro ⟨⟨hf, hl, ha⟩, ho, hp⟩
      simp only [voidCap, write_frames, write_laundry, write_available, write_desc]
        at hf hl ha ho hp
      exact ⟨⟨hf, hl, ha⟩, ho, hp⟩
    · rintro ⟨⟨hf, hl, ha⟩, ho, hp⟩
      refine ⟨⟨fun a => ?_, ?_, ?_⟩, ?_, ?_⟩ <;>
        simp only [voidCap, write_frames, write_laundry, write_available, write_desc, hf, hl, ha,
          ho, hp]

theorem undisturbed_capToObject_iff (hact : (s.desc activity).isSome = true)
    (h : capToObjectChecked noted s activity p = .ok (s', r)) :
    Undisturbed s s' (s.read p).oid ↔ InertHard noted s activity (s.read p) := by
  simp only [capToObjectChecked] at h
  split at h
  · next hvoid =>
    obtain ⟨⟩ := pure_eq_ok.1 h
    exact ⟨fun _ => .inl hvoid, fun _ => .refl _ _⟩
  · next hvoid =>
    obtain ⟨⟨t, found⟩, hfind, hrest⟩ := bind_eq_ok.1 h
    rw [undisturbed_checkVersion_iff hrest, InertHard, or_iff_right hvoid]
    rcases objectFindChecked_cases hfind with ⟨d, hd, hsoft⟩ | ⟨hnone, hhard⟩
    · rw [undisturbed_findSoft_iff hact hd hsoft, hd]
    · rw [undisturbed_broughtIn_iff hact hnone hhard, hnone]

/-- Finding in memory, whatever is done then that leaves no trace. -/
theorem undisturbed_soft_iff {found : Bool} (hact : (s.desc activity).isSome = true)
    (hvoid : (s.read p).type ≠ .void)
    (h : objectFindSoftChecked noted s activity (s.read p).oid (s.read p).policy = .ok (t, found)) :
    Undisturbed s t (s.read p).oid ↔ InertSoft noted s activity (s.read p) := by
  rw [InertSoft, or_iff_right hvoid]
  cases hd : s.desc (s.read p).oid with
  | none =>
    rw [objectFindSoftChecked, hd] at h
    obtain ⟨⟩ := pure_eq_ok.1 h
    exact ⟨fun _ => by simp, fun _ => .refl _ _⟩
  | some d => simp [undisturbed_findSoft_iff hact hd h]

theorem undisturbed_capToObjectSoft_iff (hact : (s.desc activity).isSome = true)
    (h : capToObjectSoftChecked noted s activity p = .ok (s', r)) :
    Undisturbed s s' (s.read p).oid ↔ InertSoft noted s activity (s.read p) := by
  simp only [capToObjectSoftChecked] at h
  split at h
  · next hvoid =>
    obtain ⟨⟩ := pure_eq_ok.1 h
    exact ⟨fun _ => .inl hvoid, fun _ => .refl _ _⟩
  · next hvoid =>
    obtain ⟨⟨t, found⟩, hfind, hrest⟩ := bind_eq_ok.1 h
    rw [undisturbed_checkVersion_iff hrest, undisturbed_soft_iff hact hvoid hfind]

/-! ### A stale capability leads nowhere -/

/-- What is found in memory has the version of the object now in the slot. -/
theorem objectFindSoftChecked_version {d : Desc} {found : Bool} (hd : s.desc oid = some d)
    (h : objectFindSoftChecked noted s activity oid policy = .ok (s', found)) :
    ∃ d', s'.desc oid = some d' ∧ d'.version = s.currentVersion oid := by
  obtain ⟨-, t, rfl, hcase⟩ := objectFindSoftChecked_cases hd h
  have htd : t.desc oid = some d := by
    rcases hcase with ⟨-, rfl⟩ | ⟨hfolio, -, hfind⟩
    · exact hd
    · exact (folioFind_desc hfind hfolio).trans hd
  obtain ⟨u, -, heq⟩ := objectFindSoft_spec htd activity policy
  refine ⟨_, by rw [heq, setDesc_desc_self], ?_⟩
  rw [currentVersion, hd]
  exact (foundDesc_fields d activity policy).2.1

/-- So has what is brought in. -/
theorem objectFind_version (hnone : s.desc oid = none)
    (h : s.objectFind activity oid policy = .ok (s', true)) :
    ∃ d, s'.desc oid = some d ∧ d.version = s.currentVersion oid := by
  rcases objectFind_cases h with ⟨d, hd, -⟩ |
    ⟨-, ⟨hfolio, hfind⟩ | ⟨hfolio, t, hfind, ⟨-, hfalse, -⟩ | ⟨hbring, -, halloc⟩⟩⟩
  · simp [hnone] at hd
  · rcases folioFind_cases hfind with ⟨d, hd, -⟩ | ⟨-, ⟨-, -, halloc⟩ | ⟨hfalse, -⟩⟩
    · simp [hnone] at hd
    · obtain ⟨-, -, -, -, u, -, rfl⟩ := memoryObjectAlloc_spec halloc
      refine ⟨_, setDesc_desc_self .., ?_⟩
      simp [currentVersion, hnone, hfolio, pagedDesc, Desc.fresh]
    · exact absurd hfalse (by simp)
  · exact absurd hfalse (by simp)
  · rcases folioFind_entryOf hfind with ⟨hin, hentry⟩ | ⟨-, hnothing⟩
    · have hin : (s.desc (folioOf oid)).isNone = false := by simpa using hin
      obtain ⟨-, -, -, -, u, -, rfl⟩ := memoryObjectAlloc_spec halloc
      refine ⟨_, setDesc_desc_self .., ?_⟩
      simp only [currentVersion, hnone, hfolio, hin, Bool.false_eq_true, or_self, if_false,
        ← hentry]
      rfl
    · exact absurd hnothing hbring

theorem capToObject_of_stale (hstale : (s.read p).version ≠ s.currentVersion (s.read p).oid)
    (h : capToObjectChecked noted s activity p = .ok (s', r)) : r = none := by
  cases r with
  | none => rfl
  | some o =>
    exfalso
    simp only [capToObjectChecked] at h
    split at h
    · exact absurd (Prod.mk.inj (pure_eq_ok.1 h)).2 (by simp)
    obtain ⟨⟨t, found⟩, hfind, hrest⟩ := bind_eq_ok.1 h
    obtain ⟨-, hcheck⟩ := checkVersion_spec (fun _ _ => True) hrest
    obtain ⟨rfl, rfl, d, hd, hversion, -⟩ := hcheck o rfl
    cases found with
    | false => simp [checkVersion] at hrest
    | true =>
      have hfound : ∃ d', s'.desc (s.read p).oid = some d' ∧
          d'.version = s.currentVersion (s.read p).oid := by
        rcases objectFindChecked_cases hfind with ⟨d₀, hd₀, hsoft⟩ | ⟨hnone, hhard⟩
        · exact objectFindSoftChecked_version hd₀ hsoft
        · exact objectFind_version hnone hhard
      obtain ⟨d', hd', hcurrent⟩ := hfound
      obtain rfl : d = d' := Option.some.inj (hd.symm.trans hd')
      exact hstale (hversion.symm.trans hcurrent)

/-! ### The ways to dereference -/

/-- A lookup with `u` bits to go dereferences the capability it has come to: the guard passes, and
the bits behind it suffice to index the object. -/
def Indexes (c : Cap) (addr u : ℕ) (type : Option CapType) : Prop :=
  ¬ Refused type c ∧ GuardPasses addr u c ∧
    ∃ w, indexWidth c = some w ∧ c.addrTrans.guardBits < u ∧ c.addrTrans.guardBits + w ≤ u

/-- A turn that does not index leaves the state alone and is the last. -/
theorem lookupTurn_of_not_indexes {σ P : Type} {m : Memory σ P} {addr : ℕ} {type : Option CapType}
    {mode : LookupMode} {k : Walk σ P} {t : Turn σ P} (h : lookupTurn m addr type mode k = .ok t)
    (hnot : ¬ Indexes (m.cap k.state k.root) addr k.remaining type) :
    t = .fail k.state ∨ ∃ k', t = .done k' ∧ k'.state = k.state := by
  simp only [lookupTurn] at h
  split at h
  · exact .inl (Except.ok.inj h).symm
  next hweak =>
  split at h
  · exact .inl (Except.ok.inj h).symm
  next hguard =>
  split at h
  · exact .inr ⟨_, (Except.ok.inj h).symm, rfl⟩
  next hleft =>
  split at h
  · exact .inl (Except.ok.inj h).symm
  next bits hbits =>
  split at h
  · exact .inl (Except.ok.inj h).symm
  next hroom =>
  exact absurd ⟨hweak, guardPasses_iff.2 hguard, bits, hbits, by omega, by omega⟩ hnot

/-- A turn that indexes dereferences, and ends the lookup if that answers NULL. -/
theorem lookupTurn_of_indexes {σ P : Type} {m : Memory σ P} {addr : ℕ} {type : Option CapType}
    {mode : LookupMode} {k : Walk σ P} {t : Turn σ P} (h : lookupTurn m addr type mode k = .ok t)
    (hindex : Indexes (m.cap k.state k.root) addr k.remaining type) :
    ∃ s r, m.capToObject k.state k.root = .ok (s, r) ∧ (r = none → t = .fail s) := by
  obtain ⟨hweak, hguard, w, hwidth, hpos, hroom⟩ := hindex
  simp only [lookupTurn] at h
  rw [if_neg (show ¬ (_ ∧ _) from hweak), if_neg (guardPasses_iff.1 hguard), if_neg (by omega)]
    at h
  simp only [hwidth] at h
  rw [if_neg (by omega)] at h
  obtain ⟨⟨s, r⟩, hobj, hrest⟩ := bind_eq_ok.1 h
  refine ⟨s, r, hobj, fun hr => ?_⟩
  subst hr
  exact (Except.ok.inj hrest).symm

/-- **The ways to dereference** a capability: `vg_cap_to_object`, `cap_to_object_soft`, a lookup
from it, a lookup that comes to it on its way with `remaining` bits to go, and `cap_shootdown` of
it. -/
inductive Deref
  | hard
  | soft
  | translate (fuel : ℕ) (a : VgAddr) (type : Option CapType) (mode : LookupMode)
  | within (fuel addr remaining : ℕ) (w : Bool) (hops : List Hop) (type : Option CapType)
      (mode : LookupMode)
  | shootdown (fuel : ℕ) (junk : ℕ → ObjectPolicy)

/-- Dereference the capability at `p`, for the effect. -/
def Deref.run (route : Deref) (noted : Kernel → ℕ → Bool) (s : Kernel) (activity : ℕ)
    (p : CapPtr) : Except Fault Kernel :=
  match route with
  | .hard => do
    let (s, _) ← capToObjectChecked noted s activity p
    pure s
  | .soft => do
    let (s, _) ← capToObjectSoftChecked noted s activity p
    pure s
  | .translate fuel a type mode => do
    let (s, _) ← asLookupRel (memoryChecked noted activity) fuel p a type mode s
    pure s
  | .within fuel addr remaining w hops type mode => do
    match ← lookupLoop (memoryChecked noted activity) addr type mode fuel
        ⟨s, p, remaining, w, hops, false⟩ with
    | .inl s => pure s
    | .inr k => pure k.state
  | .shootdown fuel junk => capShootdownChecked noted s activity p fuel junk

/-- **The condition** under which the dereference of a stale capability leaves no trace. -/
def Deref.Inert (route : Deref) (noted : Kernel → ℕ → Bool) (s : Kernel) (activity : ℕ)
    (c : Cap) : Prop :=
  match route with
  | .hard => InertHard noted s activity c
  | .soft => InertSoft noted s activity c
  | .translate _ a type _ => Indexes c a.num a.depth type → InertHard noted s activity c
  | .within _ addr remaining _ _ type _ =>
    Indexes c addr remaining type → InertHard noted s activity c
  | .shootdown _ _ =>
    if c.type = .page ∨ c.type = .rpage then
      c.addrTrans.guardBits + pagesizeLog2 ≤ vgAddrBits → InertSoft noted s activity c
    else
      ∀ w, shootdownWidth c = some w →
        c.addrTrans.guardBits + w + pagesizeLog2 ≤ vgAddrBits → InertHard noted s activity c

section Routes

variable {noted : Kernel → ℕ → Bool} {s s' : Kernel} {activity : ℕ} {p : CapPtr}

/-- The state in which the loop of a lookup ends. -/
def endState : Kernel ⊕ Walk Kernel CapPtr → Kernel
  | .inl s => s
  | .inr k => k.state

/-- A lookup that comes to a stale capability dereferences it once, or not at all. -/
theorem lookupLoop_of_stale {fuel addr : ℕ} {type : Option CapType} {mode : LookupMode}
    {k : Walk Kernel CapPtr} {e : Kernel ⊕ Walk Kernel CapPtr}
    (hstale : (k.state.read k.root).version ≠ k.state.currentVersion (k.state.read k.root).oid)
    (h : lookupLoop (memoryChecked noted activity) addr type mode fuel k = .ok e) :
    Indexes (k.state.read k.root) addr k.remaining type ∧
        capToObjectChecked noted k.state activity k.root = .ok (endState e, none) ∨
      ¬ Indexes (k.state.read k.root) addr k.remaining type ∧ endState e = k.state := by
  cases fuel with
  | zero => simp [lookupLoop] at h
  | succ n =>
    rw [lookupLoop] at h
    split at h
    · next hzero =>
      obtain rfl := Except.ok.inj h
      refine .inr ⟨?_, rfl⟩
      rintro ⟨-, -, w, -, hpos, -⟩
      omega
    obtain ⟨turn, hturn, hrest⟩ := bind_eq_ok.1 h
    by_cases hindex : Indexes (k.state.read k.root) addr k.remaining type
    · obtain ⟨u, o, hobj, hfail⟩ := lookupTurn_of_indexes hturn hindex
      obtain rfl := capToObject_of_stale hstale hobj
      obtain rfl := hfail rfl
      obtain rfl := Except.ok.inj hrest
      exact .inl ⟨hindex, hobj⟩
    · refine .inr ⟨hindex, ?_⟩
      rcases lookupTurn_of_not_indexes hturn hindex with rfl | ⟨k', rfl, hk⟩
      · obtain rfl := Except.ok.inj hrest
        rfl
      · obtain rfl := Except.ok.inj hrest
        exact hk

theorem undisturbed_lookupLoop_iff {fuel addr : ℕ} {type : Option CapType} {mode : LookupMode}
    {k : Walk Kernel CapPtr} {e : Kernel ⊕ Walk Kernel CapPtr}
    (hact : (k.state.desc activity).isSome = true)
    (hstale : (k.state.read k.root).version ≠ k.state.currentVersion (k.state.read k.root).oid)
    (h : lookupLoop (memoryChecked noted activity) addr type mode fuel k = .ok e) :
    Undisturbed k.state (endState e) (k.state.read k.root).oid ↔
      (Indexes (k.state.read k.root) addr k.remaining type →
        InertHard noted k.state activity (k.state.read k.root)) := by
  rcases lookupLoop_of_stale hstale h with ⟨hindex, hobj⟩ | ⟨hindex, heq⟩
  · rw [undisturbed_capToObject_iff hact hobj]
    exact ⟨fun hinert _ => hinert, fun hinert => hinert hindex⟩
  · rw [heq]
    exact ⟨fun _ hindex' => absurd hindex' hindex, fun _ => .refl _ _⟩

/-- The shootdown of a stale capability to a page is a find in memory. -/
theorem undisturbed_shootdownPage_iff (hact : (s.desc activity).isSome = true)
    (hstale : (s.read p).version ≠ s.currentVersion (s.read p).oid)
    (hvoid : (s.read p).type ≠ .void) (h : shootdownPageChecked noted s activity p = .ok s') :
    Undisturbed s s' (s.read p).oid ↔ InertSoft noted s activity (s.read p) := by
  obtain ⟨⟨t, found⟩, hfind, rfl⟩ := bind_pure_eq_ok.1 h
  rw [← undisturbed_soft_iff hact hvoid hfind]
  cases hd : s.desc (s.read p).oid with
  | none =>
    rw [objectFindSoftChecked, hd] at hfind
    obtain ⟨⟩ := pure_eq_ok.1 hfind
    rfl
  | some d =>
    obtain ⟨rfl, -⟩ := objectFindSoftChecked_cases hd hfind
    obtain ⟨d', hd', hversion⟩ := objectFindSoftChecked_version hd hfind
    have hversion : d'.version ≠ (s.read p).version := fun heq => hstale (heq.symm.trans hversion)
    -- so the code takes the branch that voids the capability, as the dereference does
    have hpage : t.checkVersion p (s.read p) true = .ok (t.unmapFound p (s.read p) true, none) := by
      simp only [checkVersion, unmapFound, hd']
      rw [if_pos hversion, if_pos hversion]
      rfl
    exact undisturbed_checkVersion_iff hpage

theorem undisturbed_shootdown_iff {fuel : ℕ} {junk : ℕ → ObjectPolicy}
    (hact : (s.desc activity).isSome = true)
    (hstale : (s.read p).version ≠ s.currentVersion (s.read p).oid)
    (h : capShootdownChecked noted s activity p fuel junk = .ok s') :
    Undisturbed s s' (s.read p).oid ↔
      (Deref.shootdown fuel junk).Inert noted s activity (s.read p) := by
  cases fuel with
  | zero => simp [capShootdownChecked, shootdownWith] at h
  | succ n =>
    simp only [capShootdownChecked, shootdownWith] at h
    simp only [Deref.Inert]
    split at h
    · next hpage =>
      rw [if_pos hpage]
      split at h
      · next hroom =>
        obtain rfl := pure_eq_ok.1 h
        exact ⟨fun _ hle => by omega, fun _ => .refl _ _⟩
      · next hroom =>
        rw [undisturbed_shootdownPage_iff hact hstale (by rcases hpage with h | h <;> simp [h]) h]
        exact ⟨fun hinert _ => hinert, fun hinert => hinert (by omega)⟩
    next hpage =>
    rw [if_neg hpage]
    split at h
    · next hwidth =>
      obtain rfl := pure_eq_ok.1 h
      exact ⟨fun _ w hw => by simp [hwidth] at hw, fun _ => .refl _ _⟩
    next width hwidth =>
    split at h
    · next hroom =>
      obtain rfl := pure_eq_ok.1 h
      refine ⟨fun _ w hw hle => ?_, fun _ => .refl _ _⟩
      obtain rfl : width = w := Option.some.inj (hwidth.symm.trans hw)
      omega
    · next hroom =>
      obtain ⟨⟨u, object⟩, hobj, hrest⟩ := bind_eq_ok.1 h
      obtain rfl := capToObject_of_stale hstale hobj
      obtain rfl := pure_eq_ok.1 hrest
      rw [undisturbed_capToObject_iff hact hobj]
      exact ⟨fun hinert _ _ _ => hinert, fun hinert => hinert width hwidth (by omega)⟩

end Routes

/-- **Stale capabilities are inert** exactly when finding the object is: for every way to
dereference, on behalf of any activity in memory, whichever objects remember their folios. -/
theorem stale_inert_iff {noted : Kernel → ℕ → Bool} {s s' : Kernel} {activity : ℕ} {p : CapPtr}
    (route : Deref)
    (hact : (s.desc activity).isSome = true)
    (hstale : (s.read p).version ≠ s.currentVersion (s.read p).oid)
    (h : route.run noted s activity p = .ok s') :
    Undisturbed s s' (s.read p).oid ↔ route.Inert noted s activity (s.read p) := by
  cases route with
  | hard =>
    obtain ⟨⟨t, r⟩, hobj, rfl⟩ := bind_pure_eq_ok.1 h
    exact undisturbed_capToObject_iff hact hobj
  | soft =>
    obtain ⟨⟨t, r⟩, hobj, rfl⟩ := bind_pure_eq_ok.1 h
    exact undisturbed_capToObjectSoft_iff hact hobj
  | translate fuel a type mode =>
    obtain ⟨⟨t, r⟩, hlook, rfl⟩ := bind_pure_eq_ok.1 h
    obtain ⟨e, hloop, hret⟩ := bind_eq_ok.1 hlook
    have hend : t = endState e := by
      cases e with
      | inl s₁ => exact (Prod.mk.inj (Except.ok.inj hret)).1.symm
      | inr k => exact (Prod.mk.inj (Except.ok.inj hret)).1.symm
    subst hend
    exact undisturbed_lookupLoop_iff hact hstale hloop
  | within fuel addr remaining w hops type mode =>
    obtain ⟨e, hloop, hret⟩ := bind_eq_ok.1 h
    have hend : s' = endState e := by
      cases e with
      | inl s₁ => exact (pure_eq_ok.1 hret).symm
      | inr k => exact (pure_eq_ok.1 hret).symm
    subst hend
    exact undisturbed_lookupLoop_iff hact hstale hloop
  | shootdown fuel junk => exact undisturbed_shootdown_iff hact hstale h

/-- Two activities (objects 1 and 2) and a page (object 3) of the first, reallocated once. -/
def reusedPage : Kernel :=
  (((ofTypes [.activityControl, .activityControl, .page] (fun _ _ => .void) 0).modifyDesc 3
    fun d => { d with version := 1 }).modifyEntry 0 2
      fun e => { e with version := 1 }).modifyActivity 2 fun g => { g with ancestors := [1] }

/-- A capability from before, with a policy its holder chose. -/
def revokedCap : Cap := ⟨0, true, 5, .void, .page, 3⟩

/-- While the page and its folio are active, the second activity's use of the old capability leaves
no trace, even if the page does not remember its folio. -/
theorem stale_inert_reusedPage :
    revokedCap.version ≠ reusedPage.currentVersion 3 ∧
      ∃ s', Deref.hard.run (fun _ _ => false) reusedPage 2 (.stack revokedCap) = .ok s' ∧
        Undisturbed reusedPage s' 3 := by
  have hstale : revokedCap.version ≠ reusedPage.currentVersion 3 := by decide
  have hcheck : CheckIdle (fun _ _ => false) reusedPage 2 3 := .inr (.inr ⟨_, rfl, .inl rfl⟩)
  have hinert : Deref.hard.Inert (fun _ _ => false) reusedPage 2 revokedCap :=
    .inr (show CheckIdle _ _ _ _ ∧ FindIdle _ _ _ from ⟨hcheck, .inl rfl⟩)
  exact ⟨hstale, _, rfl, (stale_inert_iff (p := .stack revokedCap) .hard rfl hstale rfl).2 hinert⟩

/-- The same page when it has not been used for a while and is on the inactive list. -/
def idlePage : Kernel :=
  (reusedPage.modifyDesc 3 fun d => { d with age := 0 }).modifyFrames 1 fun g =>
    { g with
      active := Function.update g.active 0 [0, 1, 2]
      inactive := Function.update g.inactive 0 [3] }

/-- Now the old capability **takes the page over**: its holder becomes the owner, and the page
takes the priority and the discardable bit of the capability. -/
theorem revokedCap_claims :
    revokedCap.version ≠ idlePage.currentVersion 3 ∧
      (idlePage.desc 3).map (fun d => (d.activity, d.policy)) = some (some 1, .default) ∧
      ∃ s', Deref.hard.run (fun _ _ => false) idlePage 2 (.stack revokedCap) = .ok s' ∧
        (s'.desc 3).map (fun d => (d.activity, d.policy)) = some (some 2, ⟨true, 5⟩) ∧
        ¬ Undisturbed idlePage s' 3 := by
  refine ⟨by decide, by rfl, _, rfl, by rfl, fun h => ?_⟩
  exact absurd h.owner (by decide)

end Kernel

end Viengoos
