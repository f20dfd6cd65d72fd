import Viengoos.Kernel.Shootdown

/-!
# Allocating storage

`folio_alloc`, `folio_free` and `folio_object_alloc`, with all they pull along: destroying what was
in a slot, waking who waited for it, and creating and destroying activities. Freeing a folio frees
its objects, freeing an activity frees its folios and its children, so the three are recursive
through each other; they are written over the function that destroys an activity, and the knot is
tied with fuel in `activityDestroy`.

Left out are the replies to the messengers that are woken, thread identifiers, the sorted list of
children in memory, and the self-checks that look objects up inside `assert`.
-/

namespace Viengoos

open Outcome Function

namespace Kernel

/-- What the shootdowns need: fuel, and what uninitialised memory holds. -/
structure Env where
  fuel : ℕ
  junk : ℕ → ObjectPolicy

/-! ### Capabilities to objects in memory -/

/-- `object_desc_to_cap`. -/
def objectDescToCap (o : ℕ) (d : Desc) : Cap :=
  { version := d.version, discardable := d.policy.discardable, priority := d.policy.priority,
    addrTrans := .void, type := d.type, oid := o }

/-- `object_to_cap`. -/
def objectToCap (s : Kernel) (o : ℕ) : Cap :=
  match s.desc o with
  | some d => objectDescToCap o d
  | none => .void

/-! ### Destroying -/

/-- `memory_object_destroy`. The frame goes back to the caller. -/
def memoryObjectDestroy (env : Env) (activity o : ℕ) (s : Kernel) : Except Fault Kernel := do
  let s ← s.capShootdown env.fuel activity env.junk (.stack (s.objectToCap o))
  match s.desc o with
  | none => .error .assertion
  | some d =>
    let s := s.objectDescClaim none o d.policy
    require (d.type ≠ .activityControl ∨ (s.activity o).frames.framesTotal = 0) .panic
    pure (s.setDesc o none)

/-- `memory_frame_free`. -/
def memoryFrameFree (s : Kernel) : Kernel := { s with free := s.free + 1 }

/-- Wake the messengers that wait on an object. -/
def wakeWaiters (activity folio idx : ℕ) (s : Kernel) : Except Fault Kernel := do
  let waiters := ((s.folio folio).entry idx).waiters
  let s ← waiters.foldlM (fun s w => do
    let (s, found) ← s.objectFind activity w .default
    require (found = true) .assertion
    pure { s with waitsOn := update s.waitsOn w none }) s
  pure (s.modifyEntry folio idx fun e => { e with waiters := [] })

/-- `messenger_destroy`: a messenger that waits leaves the queue. -/
def messengerDestroy (activity messenger : ℕ) (s : Kernel) : Except Fault Kernel :=
  match s.waitsOn messenger with
  | none => pure s
  | some o => do
    let (s, found) ← s.objectFind activity o .default
    require (found = true) .assertion
    let (s, found) ← s.objectFind activity (folioOf o) .default
    require (found = true) .assertion
    let s := s.modifyEntry (folioOf o) (o % (folioObjects + 1) - 1)
      fun e => { e with waiters := e.waiters.erase messenger }
    pure { s with waitsOn := update s.waitsOn messenger none }

/-! ### Activities -/

/-- `activity_create`, given how an activity is destroyed. -/
def activityCreateWith (destroy : ℕ → Kernel → Except Fault Kernel) (parent child : ℕ)
    (s : Kernel) : Except Fault Kernel := do
  let (s, oldParent) ← s.capToObject parent (.activityParent child)
  let s ← if oldParent.isSome then destroy child s else pure s
  let s := s.write (.activityParent child) (s.objectToCap parent)
  let s := s.write (.activitySiblingNext child) (s.read (.activityChildren parent))
  let s := s.voidCap (.activitySiblingPrev child)
  let s := s.write (.activityChildren parent) (s.objectToCap child)
  let (s, oldHead) ← s.capToObject parent (.activitySiblingNext child)
  let s := match oldHead with
    | some h => s.write (.activitySiblingPrev h) (s.objectToCap child)
    | none => s
  -- `activity_prepare`
  let (s, p) ← s.capToObject parent (.activityParent child)
  require (p.isSome = true) .assertion
  pure (s.modifyActivity child fun g => { g with ancestors := s.lineage parent })

/-- The priorities, lowest first. -/
def priorities : List (BitVec 7) := (List.range 128).map fun n => BitVec.ofNat 7 (n + 64)

/-- `VG_OBJECT_PRIORITY_MIN`. -/
def priorityMin : BitVec 7 := 64

/-- Hand a list of objects to another owner. -/
def handOver (s : Kernel) (f : Desc → Desc) (objects : List ℕ) : Kernel :=
  objects.foldl (fun s o => s.modifyDesc o f) s

/-- What `activity_destroy` asserts of an object on a list of the victim. -/
def assertFrame (s : Kernel) (victim : ℕ) (check : Desc → Bool) (o : ℕ) : Bool :=
  match s.desc o with
  | some d => d.activity == some victim && check d
  | none => false

/-- What `activity_destroy` asserts before the objects are handed over. The nodes of the laundry and
of the available list are one field, so an object on either is attached. The counters are to be
those of the active and inactive objects alone. -/
def assertFrames (s : Kernel) (victim : ℕ) : Bool :=
  let g := (s.activity victim).frames
  let attached (o : ℕ) : Bool := s.laundry.contains o || s.available.contains o
  let count : ℤ := (priorities.flatMap g.active).length + (priorities.flatMap g.inactive).length
  priorities.all (fun i =>
    (g.active i).all (fun o => !attached o && s.assertFrame victim (fun d =>
      !d.evictionCandidate && d.age != 0 && d.policy.priority == i) o) &&
    (g.inactive i).all (fun o => !attached o && s.assertFrame victim (fun d =>
      !d.evictionCandidate && d.age == 0 && d.policy.priority == i) o)) &&
  g.evictionClean.all (fun o => !attached o && s.assertFrame victim (fun d =>
    d.evictionCandidate && (!d.dirty || d.policy.discardable)) o) &&
  g.evictionDirty.all (fun o => attached o && s.assertFrame victim (fun d =>
    d.evictionCandidate && d.dirty && !d.policy.discardable) o) &&
  count == g.framesLocal && count == g.framesTotal

/-- The parent of a dying activity inherits its objects, as the first to be evicted. -/
def inheritObjects (s : Kernel) (victim parent : ℕ) : Kernel :=
  let g := (s.activity victim).frames
  let active := priorities.flatMap g.active
  let inactive := priorities.flatMap g.inactive
  let s := s.handOver (fun d => { d with
    age := 0
    policy := { d.policy with priority := priorityMin }
    activity := some parent }) active
  let s := s.handOver (fun d => { d with
    policy := { d.policy with priority := priorityMin }
    activity := some parent }) inactive
  let s := s.handOver (fun d => { d with activity := some parent })
    (g.evictionClean ++ g.evictionDirty)
  let s := s.modifyFrames victim fun g => { g with
    active := fun _ => []
    inactive := fun _ => []
    evictionClean := []
    evictionDirty := []
    framesLocal := 0
    framesTotal := 0 }
  s.modifyFrames parent fun h => { h with
    inactive := update h.inactive priorityMin
      (h.inactive priorityMin ++ active ++ inactive)
    evictionClean := h.evictionClean ++ g.evictionClean
    evictionDirty := h.evictionDirty ++ g.evictionDirty
    framesLocal := h.framesLocal + (active.length + inactive.length) }

/-- Take a dead activity off its parent's list of children. -/
def unlinkSibling (activity victim parent : ℕ) (s : Kernel) : Except Fault Kernel := do
  let (s, prev) ← s.capToObject activity (.activitySiblingPrev victim)
  let (s, next) ← s.capToObject activity (.activitySiblingNext victim)
  let s := match prev with
    | some p => s.write (.activitySiblingNext p) (s.read (.activitySiblingNext victim))
    | none => s.write (.activityChildren parent) (s.read (.activitySiblingNext victim))
  let s := match next with
    | some n => s.write (.activitySiblingPrev n) (s.read (.activitySiblingPrev victim))
    | none => s
  pure ((s.voidCap (.activitySiblingNext victim)).voidCap (.activitySiblingPrev victim))

/-- `while ((o = vg_cap_to_object (activity, p))) free (o)`. -/
def freeAll (free : ℕ → Kernel → Except Fault Kernel) (activity : ℕ) (p : CapPtr) :
    ℕ → Kernel → Except Fault Kernel
  | 0, _ => .error .outOfFuel
  | n + 1, s => do
    let (s, o) ← s.capToObject activity p
    match o with
    | none => pure s
    | some o => do
      let s ← free o s
      freeAll free activity p n s

/-! ### Objects -/

/-- The OID of the object at an index of a folio. -/
def objectOid (folio idx : ℕ) : ℕ := folio + 1 + idx

/-- Destroy what the old object at a slot has outside its page. The result says whether the object
was brought into memory for it. -/
def tearDown (destroy : ℕ → Kernel → Except Fault Kernel) (activity folio idx : ℕ) (s : Kernel) :
    Except Fault (Kernel × Bool) :=
  let type := ((s.folio folio).entry idx).type
  if type = .activityControl ∨ type = .thread ∨ type = .messenger then do
    let (s, found) ← s.objectFind activity (objectOid folio idx) .default
    require (found = true) .assertion
    require ((s.desc (objectOid folio idx)).map Desc.type = some type) .assertion
    let s ← match type with
      | .activityControl => destroy (objectOid folio idx) s
      | .messenger => s.messengerDestroy activity (objectOid folio idx)
      | _ => pure s
    pure (s, true)
  else pure (s, false)

/-- The descriptor of an object whose frame is used for a new object. -/
def clearedDesc (d : Desc) : Desc :=
  { d with mapped := false, dirty := false, userReferenced := false, userDirty := false }

/-- Reuse the frame of the old object for a new one of another type. -/
def renewObject (env : Env) (activity o : ℕ) (type : CapType) (policy : ObjectPolicy)
    (s : Kernel) : Except Fault Kernel := do
  let s ← s.capShootdown env.fuel activity env.junk (.stack (s.objectToCap o))
  let s := s.zeroObject o
  -- `object_desc_flush`, and the bits it collected are dropped
  let s := { s.modifyDesc o clearedDesc with status := update s.status o ⟨false, false⟩ }
  let s := s.objectDescClaim (some activity) o policy
  pure (s.modifyDesc o fun d => { d with type, shared := false })

/-- Empty a slot's frame or make it fit for an object of the new type, if it has a frame. The
result says whether the new object is in memory. -/
def replaceObject (env : Env) (activity folio idx : ℕ) (type : CapType) (policy : ObjectPolicy)
    (s : Kernel) : Except Fault (Kernel × Bool) :=
  let o := objectOid folio idx
  match s.desc o with
  | none => pure (s, false)
  | some d => do
    require (d.version = ((s.folio folio).entry idx).version) .assertion
    require (d.type = ((s.folio folio).entry idx).type) .assertion
    if type = .void then do
      let s ← s.memoryObjectDestroy env activity o
      pure (s.memoryFrameFree, false)
    else do
      let s ← s.renewObject env activity o type policy
      pure (s, true)

/-- The old object is freed: its version is never used again. -/
def bumpVersion (s : Kernel) (folio idx : ℕ) : Kernel :=
  let version := ((s.folio folio).entry idx).version + 1
  let s := s.modifyEntry folio idx fun e => { e with version }
  s.modifyDesc (objectOid folio idx) fun d => { d with version }

/-- What a folio records about a new object. -/
def recordedEntry (type : CapType) (policy : ObjectPolicy) (e : FolioEntry) : FolioEntry :=
  { e with type, policy, content := false, discarded := false, referenced := false, dirty := false }

/-- Free the old object of a slot, if there is one, and record the new one. -/
def turnSlot (s : Kernel) (folio idx : ℕ) (type : CapType) (policy : ObjectPolicy) : Kernel :=
  let s := if ((s.folio folio).entry idx).type ≠ .void then s.bumpVersion folio idx else s
  let s := s.modifyEntry folio idx (recordedEntry type policy)
  let o := objectOid folio idx
  { s with turnover := update s.turnover o (s.turnover o + 1) }

/-- A new activity is set up at once, in memory. -/
def setUpObject (destroy : ℕ → Kernel → Except Fault Kernel) (activity o : ℕ) (type : CapType)
    (policy : ObjectPolicy) (inMemory : Bool) (s : Kernel) : Except Fault Kernel :=
  if type = .activityControl then do
    let (s, found) ← if inMemory then pure (s, true) else s.objectFind activity o policy
    require (found = true) .assertion
    s.activityCreateWith destroy activity o
  else pure s

/-- `folio_object_alloc`, given how an activity is destroyed. -/
def folioObjectAllocWith (destroy : ℕ → Kernel → Except Fault Kernel) (env : Env)
    (activity folio idx : ℕ) (type : CapType) (policy : ObjectPolicy) (s : Kernel) :
    Except Fault (Kernel × Cap) := do
  require (idx < folioObjects) .assertion
  let type := type.strengthen
  require ((s.desc folio).map Desc.type = some .folio) .assertion
  require (isFolioOid folio = true) .assertion
  let o := objectOid folio idx
  let (s, found) ← s.tearDown destroy activity folio idx
  let s ← s.wakeWaiters activity folio idx
  let s := if found then s else (s.objectFindSoft activity o policy).1
  let (s, inMemory) ← s.replaceObject env activity folio idx type policy
  let s := s.turnSlot folio idx type policy
  let s ← s.setUpObject destroy activity o type policy inMemory
  pure (s, { version := ((s.folio folio).entry idx).version, discardable := policy.discardable,
             priority := policy.priority, addrTrans := .void, type, oid := o })

/-- `folio_object_free`. -/
def folioObjectFreeWith (destroy : ℕ → Kernel → Except Fault Kernel) (env : Env)
    (activity folio idx : ℕ) (s : Kernel) : Except Fault Kernel := do
  let (s, _) ← s.folioObjectAllocWith destroy env activity folio idx .void .default
  pure s

/-- `object_free`. -/
def objectFreeWith (destroy : ℕ → Kernel → Except Fault Kernel) (env : Env) (activity o : ℕ)
    (s : Kernel) : Except Fault Kernel := do
  let (s, found) ← s.objectFind activity (folioOf o) .default
  require (found = true) .assertion
  s.folioObjectFreeWith destroy env activity (folioOf o) (o % (folioObjects + 1) - 1)

/-! ### Folios -/

/-- Take a folio off its owner's list. -/
def unlinkFolio (activity folio owner : ℕ) (s : Kernel) : Except Fault Kernel := do
  let (s, next) ← s.capToObject activity (.folioNext folio)
  let (s, prev) ← s.capToObject activity (.folioPrev folio)
  let s := match prev with
    | some p => s.write (.folioNext p) (s.read (.folioNext folio))
    | none => s.write (.activityFolios owner) (s.read (.folioNext folio))
  let s := match next with
    | some n => s.write (.folioPrev n) (s.read (.folioPrev folio))
    | none => s
  pure ((s.voidCap (.folioNext folio)).voidCap (.folioPrev folio))

/-- The folio is freed: its version is never used again, and its number is free. -/
def releaseFolio (s : Kernel) (folio : ℕ) : Kernel :=
  let version := (s.folio folio).version + 1
  let s := s.modifyDesc folio fun d => { d with version }
  let s := s.modifyFolio folio fun g => { g with version }
  { s with
    turnover := update s.turnover folio (s.turnover folio + 1)
    allocated := update s.allocated (folio / (folioObjects + 1)) false }

/-- `folio_free`, given how an activity is destroyed. -/
def folioFreeWith (destroy : ℕ → Kernel → Except Fault Kernel) (env : Env) (activity folio : ℕ)
    (s : Kernel) : Except Fault Kernel := do
  require ((s.desc folio).map Desc.type = some .folio) .assertion
  require (isFolioOid folio = true) .assertion
  let s ← (List.range folioObjects).foldlM
    (fun s i => s.folioObjectFreeWith destroy env activity folio i) s
  let (s, owner) ← s.capToObject activity (.folioActivity folio)
  match owner with
  | none => .error .assertion
  | some owner => do
    let s := s.forEachAncestor owner fun g => { g with folioCount := g.folioCount - 1 }
    let s := s.voidCap (.folioActivity folio)
    let s ← s.unlinkFolio activity folio owner
    pure (s.releaseFolio folio)

/-! ### Tying the knot -/

/-- `activity_destroy`. -/
def activityDestroy (env : Env) : ℕ → ℕ → ℕ → Kernel → Except Fault Kernel
  | 0, _, _, _ => .error .outOfFuel
  | n + 1, activity, victim, s =>
    match (s.activity victim).ancestors with
    | [] => .error .panic
    | parent :: _ => do
      require ((s.activity victim).dying = false) .assertion
      let s := s.modifyActivity victim fun g => { g with dying := true }
      let destroy := activityDestroy env n activity
      let s ← freeAll (folioFreeWith destroy env activity) activity (.activityFolios victim) n s
      let s ← freeAll (objectFreeWith destroy env activity) activity (.activityChildren victim) n s
      require (s.assertFrames victim = true) .assertion
      (s.inheritObjects victim parent).unlinkSibling activity victim parent

/-- `folio_object_alloc`. -/
def folioObjectAlloc (env : Env) (activity folio idx : ℕ) (type : CapType) (policy : ObjectPolicy)
    (s : Kernel) : Except Fault (Kernel × Cap) :=
  s.folioObjectAllocWith (activityDestroy env env.fuel activity) env activity folio idx type policy

/-- `folio_free`. -/
def folioFree (env : Env) (activity folio : ℕ) (s : Kernel) : Except Fault Kernel :=
  s.folioFreeWith (activityDestroy env env.fuel activity) env activity folio

/-- Charge a folio to an activity and its ancestors, `none` if one of them has used up its
quota. -/
def chargeFolio : List ℕ → Kernel → Option Kernel
  | [], s => some s
  | a :: rest, s =>
    if (s.activity a).quota ≠ 0 ∧ ((s.activity a).quota : ℤ) ≤ (s.activity a).folioCount then none
    else chargeFolio rest (s.modifyActivity a fun g => { g with folioCount := g.folioCount + 1 })

/-- `bit_alloc`: the first of `n` numbers from `f` that is not allocated; what it does to the bytes
of the bit array is in `bitArray_bitAlloc`. -/
def bitAlloc (allocated : ℕ → Bool) : ℕ → ℕ → Option ℕ
  | 0, _ => none
  | n + 1, f => if allocated f then bitAlloc allocated n (f + 1) else some f

/-- `folio_parent`. -/
def folioParent (activity folio : ℕ) (s : Kernel) : Except Fault Kernel := do
  let s := s.write (.folioActivity folio) (s.objectToCap activity)
  let (s, head) ← s.capToObject activity (.activityFolios activity)
  let s ← match head with
    | some h => do
      let (s, prev) ← s.capToObject activity (.folioPrev h)
      require (prev = none) .assertion
      pure (s.write (.folioPrev h) (s.objectToCap folio))
    | none => pure s
  let s := s.write (.folioNext folio) (s.read (.activityFolios activity))
  let s := s.voidCap (.folioPrev folio)
  pure (s.write (.activityFolios activity) (s.objectToCap folio))

/-- `folio_alloc` once the folio is paid for. -/
def takeFolio (activity : ℕ) (policy : FolioPolicy) (s : Kernel) :
    Except Fault (Kernel × Option ℕ) :=
  match bitAlloc s.allocated foliosCore 0 with
  | none => .error .panic
  | some f => do
    let folio := f * (folioObjects + 1)
    let s := { s with allocated := update s.allocated f true }
    let (s, found) ← s.objectFind activity folio .default
    require (found = true) .assertion
    let s ← s.folioParent activity folio
    pure (s.modifyFolio folio fun g => { g with policy }, some folio)

/-- `folio_alloc`: the new folio, or none where a quota is used up. What was charged until then is
given back, so the state is the old one. -/
def folioAlloc (activity : ℕ) (policy : FolioPolicy) (s : Kernel) :
    Except Fault (Kernel × Option ℕ) :=
  match chargeFolio (s.lineage activity) s with
  | none => pure (s, none)
  | some s => s.takeFolio activity policy

/-- The object whose frame is reused when there is no free frame: the first one available that
needs no special treatment. -/
def victimOf (s : Kernel) : Option ℕ :=
  s.available.find? fun o => match s.desc o with
    | some d => d.type ≠ .activityControl ∧ d.type ≠ .thread
    | none => false

/-- The part of `memory_frame_allocate` that makes a frame free. Dirty content is gone then, and
the folio says so. -/
def reclaim (env : Env) (activity : ℕ) (s : Kernel) : Except Fault Kernel :=
  match s.victimOf with
  | none => .error .panic
  | some o =>
    match s.desc o with
    | none => .error .assertion
    | some d => do
      let (s, found) ← s.objectFind activity (folioOf o) .default
      require (found = true) .assertion
      let s ← s.memoryObjectDestroy env activity o
      let s := if d.dirty then
          s.modifyEntry (folioOf o) (o % (folioObjects + 1) - 1)
            fun e => { e with content := false, discarded := true }
        else s
      pure s.memoryFrameFree

end Kernel

end Viengoos
