import Viengoos.Kernel.Claim
import Viengoos.Lib.Outcome

/-!
# Finding objects

`object_find` and `object_find_soft`, which bring an object into memory and claim it, and
`vg_cap_to_object` and `cap_to_object_soft` on top of them. Together they are the kernel's half of
the address-space walker, `Kernel.memory`.

A frame comes from `zalloc` here. When that fails the code reuses the frame of an object of the
available list; here this is a step of its own, between other operations (`reclaim` in
`Kernel.Folio`), and an operation that finds no free frame panics, as the code does when the list is
empty. The comparison of an object with its folio that `object_find_soft` makes without `NDEBUG` is
in `Kernel.Stale`.
-/

namespace Viengoos

open Outcome

namespace Kernel

/-! ### The code -/

/-- `memory_frame_allocate`. -/
def memoryFrameAllocate (s : Kernel) : Except Fault Kernel := do
  require (0 < s.free) .panic
  pure { s with free := s.free - 1 }

/-- `memory_object_alloc` up to the claim, which is all of it before there is a root activity. -/
def memoryObjectPlace (s : Kernel) (type : CapType) (oid : ℕ) (version : Fin (2 ^ 20)) :
    Except Fault Kernel := do
  require (type ≠ .void) .assertion
  require ((type == .folio) = isFolioOid oid) .assertion
  let s ← s.memoryFrameAllocate
  require (s.desc oid = none) .assertion
  let s := (s.zeroObject oid).setDesc oid (some (.fresh type version))
  pure { s with status := Function.update s.status oid ⟨false, false⟩ }

/-- `memory_object_alloc`. -/
def memoryObjectAlloc (s : Kernel) (activity : ℕ) (type : CapType) (oid : ℕ)
    (version : Fin (2 ^ 20)) (policy : ObjectPolicy) : Except Fault Kernel := do
  let s ← s.memoryObjectPlace type oid version
  pure (s.objectDescClaim (some activity) oid policy)

/-- The object is unclaimed, inactive, floating or tagged for eviction: who looks it up claims
it. -/
def claimable (d : Desc) (activity : ℕ) : Bool :=
  d.activity == none || !d.active || (d.activity != some activity && d.floating) ||
    d.evictionCandidate

/-- `object_find_soft`. The second component says whether the object is in memory. -/
def objectFindSoft (s : Kernel) (activity oid : ℕ) (policy : ObjectPolicy) : Kernel × Bool :=
  match s.desc oid with
  | none => (s, false)
  | some d =>
    if claimable d activity then
      ((s.objectDescClaim (some activity) oid policy).modifyDesc oid
        fun d => { d with floating := false }, true)
    else if d.activity ≠ some activity then
      (s.modifyDesc oid fun d => { d with shared := true }, true)
    else (s, true)

/-- `object_find` for the OID of a folio. -/
def folioFind (s : Kernel) (activity oid : ℕ) (policy : ObjectPolicy) :
    Except Fault (Kernel × Bool) := do
  let (s, found) := s.objectFindSoft activity oid policy
  if found then pure (s, true)
  else if oid / (folioObjects + 1) < foliosCore then do
    require (s.allocated (oid / (folioObjects + 1)) = true) .assertion
    let s ← s.memoryObjectAlloc activity .folio oid 0 policy
    pure (s, true)
  else pure (s, false)

/-- What the folio of an object records about it. -/
def entryOf (s : Kernel) (oid : ℕ) : FolioEntry :=
  (s.folio (folioOf oid)).entry (oid % (folioObjects + 1) - 1)

/-- `object_find`. -/
def objectFind (s : Kernel) (activity oid : ℕ) (policy : ObjectPolicy) :
    Except Fault (Kernel × Bool) :=
  if isFolioOid oid then s.folioFind activity oid policy
  else do
    let (s, found) := s.objectFindSoft activity oid policy
    if found then pure (s, true)
    else do
      let (s, found) ← s.folioFind activity (folioOf oid) .default
      require (found = true) .assertion
      let e := s.entryOf oid
      if e.type = .void ∨ e.discarded ∨ e.content then pure (s, false)
      else do
        let s ← s.memoryObjectAlloc activity e.type oid e.version policy
        pure (s, true)

/-- `cap_to_object_internal`, after the object was found or not. -/
def checkVersion (s : Kernel) (p : CapPtr) (c : Cap) (found : Bool) :
    Except Fault (Kernel × Option ℕ) :=
  match found, s.desc c.oid with
  | true, some d =>
    if d.version ≠ c.version then pure (s.voidCap p, none)
    else do
      require (CapType.compatible c.type d.type = true) .assertion
      pure (s, some c.oid)
  | _, _ => pure (s, none)

/-- `vg_cap_to_object`. -/
def capToObject (s : Kernel) (activity : ℕ) (p : CapPtr) : Except Fault (Kernel × Option ℕ) :=
  let c := s.read p
  if c.type = .void then pure (s, none)
  else do
    let (s, found) ← s.objectFind activity c.oid c.policy
    s.checkVersion p c found

/-- `vg_folio_object_cap`. -/
def folioObjectCap (s : Kernel) (folio i : ℕ) : Cap :=
  let e := (s.folio folio).entry i
  { version := e.version, discardable := e.policy.discardable, priority := e.policy.priority,
    addrTrans := .void, type := e.type, oid := folio + 1 + i }

/-- The walker's view of the kernel, on behalf of an activity. -/
def memory (activity : ℕ) : Memory Kernel CapPtr where
  cap := read
  capToObject s p := s.capToObject activity p
  slot := .slot
  folioSlot s f i := .fake (s.folioObjectCap f i)
  isFake p := match p with
    | .fake _ => true
    | _ => false

/-- A descriptor that takes over the status bits of its frame. -/
def noteStatus (d : Desc) (hw : Status) : Desc :=
  { d with
    dirty := d.dirty || hw.written
    userReferenced := d.userReferenced || hw.referenced
    userDirty := d.userDirty || hw.written }

/-- `object_desc_unmap`. -/
def objectDescUnmap (s : Kernel) (o : ℕ) : Kernel :=
  match s.desc o with
  | none => s
  | some d =>
    if d.mapped then
      { s with
        desc := Function.update s.desc o (some { noteStatus d (s.status o) with mapped := false })
        status := Function.update s.status o ⟨false, false⟩ }
    else s

/-! ### What the parts do -/

/-- The descriptor after the object was found in memory. -/
def foundDesc (d : Desc) (activity : ℕ) (policy : ObjectPolicy) : Desc :=
  if claimable d activity then
    { claimedDesc d (some activity) policy with floating := false }
  else if d.activity ≠ some activity then { d with shared := true }
  else d

variable {s s' : Kernel} {oid activity : ℕ} {type : CapType} {policy : ObjectPolicy}

variable {found : Bool} {d : Desc} {version : Fin (2 ^ 20)}

/-- Finding an object in memory changes its descriptor, and beyond it frame accounting only. -/
theorem objectFindSoft_spec (hd : s.desc oid = some d) (activity : ℕ) (policy : ObjectPolicy) :
    ∃ t, AccountsOnly s t ∧ s.objectFindSoft activity oid policy =
      (t.setDesc oid (some (foundDesc d activity policy)), true) := by
  simp only [objectFindSoft, hd, foundDesc]
  split
  · obtain ⟨t, ht, heq⟩ := objectDescClaim_spec hd (some activity) policy
    exact ⟨t, ht, by simp [heq, modifyDesc, setDesc]⟩
  · refine ⟨s, AccountsOnly.refl s, ?_⟩
    split
    · simp [modifyDesc, setDesc, hd]
    · simp [setDesc, ← hd]

theorem objectFindSoft_of_none (hd : s.desc oid = none) (activity : ℕ) (policy : ObjectPolicy) :
    s.objectFindSoft activity oid policy = (s, false) := by
  simp [objectFindSoft, hd]

theorem foundDesc_fields (d : Desc) (activity : ℕ) (policy : ObjectPolicy) :
    (foundDesc d activity policy).type = d.type ∧
      (foundDesc d activity policy).version = d.version ∧
      (foundDesc d activity policy).mapped = d.mapped ∧
      (foundDesc d activity policy).dirty = d.dirty := by
  unfold foundDesc
  split
  · exact claimedDesc_fields d (some activity) policy
  · split <;> exact ⟨rfl, rfl, rfl, rfl⟩

/-- The descriptor of an object that has just been brought into memory. -/
def pagedDesc (type : CapType) (version : Fin (2 ^ 20)) (activity : ℕ) (policy : ObjectPolicy) :
    Desc :=
  { Desc.fresh type version with policy, age := 0x80, activity := some activity }

/-- The state with a zeroed frame for an object, before the object is claimed. -/
def framed (s : Kernel) (oid : ℕ) : Kernel :=
  { s.zeroObject oid with
    free := s.free - 1
    status := Function.update s.status oid ⟨false, false⟩ }

/-- **Inversion of `memory_object_alloc`**: a frame is taken and zeroed, and the object claimed. -/
theorem memoryObjectAlloc_claims
    (h : s.memoryObjectAlloc activity type oid version policy = .ok s') :
    type ≠ .void ∧ (type == .folio) = isFolioOid oid ∧ 0 < s.free ∧ s.desc oid = none ∧
      s' = ((s.framed oid).setDesc oid (some (.fresh type version))).objectDescClaim
        (some activity) oid policy := by
  obtain ⟨s₂, hplace, rfl⟩ := bind_pure_eq_ok.1 h
  obtain ⟨_, htype, h⟩ := bind_eq_ok.1 hplace
  obtain ⟨_, hoid, h⟩ := bind_eq_ok.1 h
  obtain ⟨s₁, hframe, h⟩ := bind_eq_ok.1 h
  obtain ⟨_, hfree, hs₁⟩ := bind_eq_ok.1 hframe
  obtain ⟨_, hnone, h⟩ := bind_eq_ok.1 h
  rw [require_eq_ok] at htype hoid hfree hnone
  obtain rfl := pure_eq_ok.1 hs₁
  obtain rfl := pure_eq_ok.1 h
  exact ⟨htype, hoid, hfree, hnone, rfl⟩

/-- The same, with what the claim does to the descriptor. -/
theorem memoryObjectAlloc_spec (h : s.memoryObjectAlloc activity type oid version policy = .ok s') :
    type ≠ .void ∧ (type == .folio) = isFolioOid oid ∧ 0 < s.free ∧ s.desc oid = none ∧
      ∃ t, AccountsOnly (s.framed oid) t ∧
        s' = t.setDesc oid (some (pagedDesc type version activity policy)) := by
  obtain ⟨htype, hoid, hfree, hnone, rfl⟩ := memoryObjectAlloc_claims h
  refine ⟨htype, hoid, hfree, hnone, ?_⟩
  set u : Kernel := (s.framed oid).setDesc oid (some (.fresh type version)) with hu
  have hdesc : u.desc oid = some (.fresh type version) := setDesc_desc_self ..
  obtain ⟨t, ht, heq⟩ := objectDescClaim_spec hdesc (some activity) policy
  have hclaimed : claimedDesc (.fresh type version) (some activity) policy =
      pagedDesc type version activity policy := by
    simp [claimedDesc, keepsOwner, pagedDesc, Desc.fresh, Desc.referencedAge]
  -- the claim set the descriptor once more, so the first setting does not matter
  refine ⟨{ t with desc := s.desc }, ⟨?_, ht.activity⟩, ?_⟩
  · rw [ht.rest]
    rfl
  · refine heq.trans ?_
    rw [hclaimed, setDesc, setDesc, ht.desc, hu]
    simp [setDesc, framed, zeroObject]

/-- **Inversion of `object_desc_unmap`**: nothing happens to an object that is not mapped. -/
theorem objectDescUnmap_spec (s : Kernel) (o : ℕ) :
    s.objectDescUnmap o = s ∧ (∀ d, s.desc o = some d → d.mapped = false) ∨
      ∃ d hw, s.desc o = some d ∧ s.objectDescUnmap o =
        { s.setDesc o (some { noteStatus d (s.status o) with mapped := false }) with
          status := hw } := by
  cases hd : s.desc o with
  | none => simp [objectDescUnmap, hd]
  | some d =>
    cases hm : d.mapped with
    | true => exact .inr ⟨d, _, rfl, by simp only [objectDescUnmap, hd, hm, if_true]; rfl⟩
    | false => exact .inl (by simp [objectDescUnmap, hd, hm])

/-- There is nothing of an object to bring in. -/
def NothingToBring (e : FolioEntry) : Prop :=
  e.type = .void ∨ e.discarded = true ∨ e.content = true

/-- **Inversion of `object_find` for a folio.** -/
theorem folioFind_cases (h : s.folioFind activity oid policy = .ok (s', found)) :
    (∃ d, s.desc oid = some d ∧ found = true ∧ s' = (s.objectFindSoft activity oid policy).1) ∨
      s.desc oid = none ∧
        (found = true ∧ oid / (folioObjects + 1) < foliosCore ∧
            s.memoryObjectAlloc activity .folio oid 0 policy = .ok s' ∨
          found = false ∧ foliosCore ≤ oid / (folioObjects + 1) ∧ s' = s) := by
  simp only [folioFind] at h
  cases hd : s.desc oid with
  | some d =>
    obtain ⟨t, -, heq⟩ := objectFindSoft_spec hd activity policy
    rw [heq] at h ⊢
    obtain ⟨⟩ := pure_eq_ok.1 h
    exact .inl ⟨d, rfl, rfl, rfl⟩
  | none =>
    rw [objectFindSoft_of_none hd] at h
    simp only [Bool.false_eq_true, if_false] at h
    split at h
    · next hcore =>
      obtain ⟨_, -, hrest⟩ := bind_eq_ok.1 h
      obtain ⟨t, halloc, ⟨⟩⟩ := bind_pure_eq_ok.1 hrest
      exact .inr ⟨rfl, .inl ⟨rfl, hcore, halloc⟩⟩
    · next hcore =>
      obtain ⟨⟩ := pure_eq_ok.1 h
      exact .inr ⟨rfl, .inr ⟨rfl, not_lt.1 hcore, rfl⟩⟩

/-- **Inversion of `object_find`.** -/
theorem objectFind_cases (h : s.objectFind activity oid policy = .ok (s', found)) :
    (∃ d, s.desc oid = some d ∧ found = true ∧ s' = (s.objectFindSoft activity oid policy).1) ∨
      s.desc oid = none ∧
        (isFolioOid oid = true ∧ s.folioFind activity oid policy = .ok (s', found) ∨
          isFolioOid oid = false ∧ ∃ t,
            s.folioFind activity (folioOf oid) .default = .ok (t, true) ∧
            (NothingToBring (t.entryOf oid) ∧ found = false ∧ s' = t ∨
              ¬ NothingToBring (t.entryOf oid) ∧ found = true ∧
                t.memoryObjectAlloc activity (t.entryOf oid).type oid (t.entryOf oid).version
                  policy = .ok s')) := by
  simp only [objectFind] at h
  split at h
  · next hoid =>
    rcases folioFind_cases h with hcase | ⟨hd, -⟩
    · exact .inl hcase
    · exact .inr ⟨hd, .inl ⟨hoid, h⟩⟩
  next hoid =>
  cases hd : s.desc oid with
  | some d =>
    obtain ⟨t, -, heq⟩ := objectFindSoft_spec hd activity policy
    rw [heq] at h ⊢
    obtain ⟨⟩ := pure_eq_ok.1 h
    exact .inl ⟨d, rfl, rfl, rfl⟩
  | none =>
    rw [objectFindSoft_of_none hd] at h
    obtain ⟨⟨t, ffound⟩, hfind, hrest⟩ := bind_eq_ok.1 h
    obtain ⟨_, hfound, hrest⟩ := bind_eq_ok.1 hrest
    obtain rfl : ffound = true := require_eq_ok.1 hfound
    refine .inr ⟨rfl, .inr ⟨by simpa using hoid, t, hfind, ?_⟩⟩
    split at hrest
    · next hnothing =>
      obtain ⟨⟩ := pure_eq_ok.1 hrest
      exact .inl ⟨hnothing, rfl, rfl⟩
    · next hbring =>
      obtain ⟨u, halloc, ⟨⟩⟩ := bind_pure_eq_ok.1 hrest
      exact .inr ⟨hbring, rfl, halloc⟩

theorem objectFind_of_some (hd : s.desc oid = some d) (activity : ℕ) (policy : ObjectPolicy) :
    s.objectFind activity oid policy = .ok ((s.objectFindSoft activity oid policy).1, true) := by
  obtain ⟨t, -, heq⟩ := objectFindSoft_spec hd activity policy
  simp only [objectFind, folioFind, heq, if_true]
  split <;> rfl

theorem isFolioOid_folioOf (oid : ℕ) : isFolioOid (folioOf oid) = true := by
  simp only [isFolioOid, folioOf, folioObjects, beq_iff_eq]
  omega

theorem ne_folioOf (h : isFolioOid oid = false) : oid ≠ folioOf oid := by
  rintro heq
  rw [heq, isFolioOid_folioOf] at h
  exact Bool.noConfusion h

theorem memoryObjectAlloc_ok (htype : type ≠ .void) (hoid : (type == .folio) = isFolioOid oid)
    (hfree : 0 < s.free) (hnone : s.desc oid = none) (activity : ℕ) (version : Fin (2 ^ 20))
    (policy : ObjectPolicy) :
    ∃ t, s.memoryObjectAlloc activity type oid version policy = .ok t := by
  simp only [memoryObjectAlloc, memoryObjectPlace, memoryFrameAllocate, require_of htype,
    require_of hoid, require_of hfree, ok_bind, pure_bind]
  rw [require_of (by exact hnone)]
  exact ⟨_, rfl⟩

/-- An object whose folio is in memory is brought in, if there is a frame for it. -/
theorem objectFind_of_none (hoid : isFolioOid oid = false) (hnone : s.desc oid = none)
    (hin : (s.desc (folioOf oid)).isSome = true) (hvoid : (s.entryOf oid).type ≠ .void)
    (hfolio : (s.entryOf oid).type ≠ .folio) (hdisc : (s.entryOf oid).discarded = false)
    (hcontent : (s.entryOf oid).content = false) (hfree : 0 < s.free) (activity : ℕ)
    (policy : ObjectPolicy) : ∃ t, s.objectFind activity oid policy = .ok (t, true) := by
  obtain ⟨d, hd⟩ := Option.isSome_iff_exists.1 hin
  obtain ⟨t, ht, heq⟩ := objectFindSoft_spec hd activity .default
  have hentry : (t.setDesc (folioOf oid) (some (foundDesc d activity .default))).entryOf oid =
      s.entryOf oid := by
    show (t.folio _).entry _ = _
    rw [ht.folio]
    rfl
  have hfind : s.folioFind activity (folioOf oid) .default =
      .ok (t.setDesc (folioOf oid) (some (foundDesc d activity .default)), true) := by
    simp only [folioFind, heq, if_true]
    rfl
  have hbring : ¬ ((s.entryOf oid).type = .void ∨ (s.entryOf oid).discarded = true ∨
      (s.entryOf oid).content = true) := by
    simp [hvoid, hdisc, hcontent]
  simp only [objectFind, hoid, Bool.false_eq_true, if_false, objectFindSoft_of_none hnone, hfind,
    ok_bind, require_of, hentry, if_neg hbring]
  have hstill : (t.setDesc (folioOf oid) (some (foundDesc d activity .default))).desc oid =
      none := by
    rw [setDesc_desc_of_ne _ _ (ne_folioOf hoid), ht.desc, hnone]
  obtain ⟨u, hu⟩ := memoryObjectAlloc_ok (s := t.setDesc (folioOf oid) _) hvoid
    (by simpa [hoid] using hfolio) (by show 0 < t.free; rw [ht.free]; exact hfree) hstill activity
    (s.entryOf oid).version policy
  exact ⟨u, by rw [hu]; rfl⟩

end Kernel

end Viengoos
