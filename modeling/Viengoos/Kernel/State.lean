import Viengoos.Lookup

/-!
# The kernel's state

What `viengoos` keeps between two requests: a descriptor for every object in memory, the contents
of objects, the folios, the activities with their frame lists and counters, and the pool of free
frames. Objects are named by their OID throughout; a pointer to an object is its OID and a pointer
to a capability is a `CapPtr`.

Left out: statistics, names, thread identifiers and registers, and `maybe_folio_desc`, which only
caches a lookup. Hardware status bits are part of the state, since `object_desc_unmap` reads them.
-/

namespace Viengoos

open Function

/-- `VG_FOLIO_OBJECTS`. -/
def folioObjects : ℕ := 128

/-- `FOLIOS_CORE`: the folios that live in memory only. -/
def foliosCore : ℕ := 32768

/-- The OID of the folio that holds an object: `oid - page - 1`, and a folio's own OID. -/
def folioOf (oid : ℕ) : ℕ := oid - oid % (folioObjects + 1)

/-- An OID names a folio. -/
def isFolioOid (oid : ℕ) : Bool := oid % (folioObjects + 1) == 0

/-- `struct object_desc`. The object is *live* iff the kernel has a descriptor for it. -/
structure Desc where
  version : Fin (2 ^ 20)
  type : CapType
  dirty : Bool
  userDirty : Bool
  userReferenced : Bool
  evictionCandidate : Bool
  mapped : Bool
  shared : Bool
  floating : Bool
  policy : ObjectPolicy
  age : BitVec 8
  activity : Option ℕ
deriving DecidableEq, Repr

/-- A descriptor after `memset (odesc, 0)`, with the type and version `memory_object_alloc` fills
in. -/
def Desc.fresh (type : CapType) (version : Fin (2 ^ 20)) : Desc :=
  ⟨version, type, false, false, false, false, false, false, false, .default, 0, none⟩

/-- `object_active`. -/
def Desc.active (d : Desc) : Bool := d.age != 0

/-- `desc->dirty && ! desc->policy.discardable`: losing the frame would lose content. -/
def Desc.precious (d : Desc) : Bool := d.dirty && !d.policy.discardable

/-- `object_age (desc, true)`. -/
def Desc.referencedAge (d : Desc) : BitVec 8 := (d.age >>> 1) ||| 0x80

/-- What a folio records about the object at one index. `waiters` is the object's wait queue, as
the sequence of the messengers on it. -/
structure FolioEntry where
  type : CapType
  version : Fin (2 ^ 20)
  content : Bool
  discarded : Bool
  policy : ObjectPolicy
  referenced : Bool
  dirty : Bool
  waiters : List ℕ
deriving DecidableEq, Repr

/-- The entry of a zeroed folio. -/
def FolioEntry.zero : FolioEntry :=
  ⟨.void, 0, false, false, .default, false, false, []⟩

/-- `struct vg_folio_policy`. -/
structure FolioPolicy where
  discardable : Bool
  group : BitVec 15
  priority : BitVec 15
deriving DecidableEq, Repr

/-- `struct vg_folio`. `version` is that of the folio itself, `misc[0]`; `entry i` is the object
at index `i`. -/
structure Folio where
  activity : Cap
  next : Cap
  prev : Cap
  policy : FolioPolicy
  version : Fin (2 ^ 20)
  entry : ℕ → FolioEntry

/-- A zeroed folio. -/
def Folio.zero : Folio := ⟨.void, .void, .void, ⟨false, 0, 0⟩, 0, fun _ => .zero⟩

/-- The part of `struct activity` that accounts for frames: the lists of the objects it owns, by
priority, its eviction lists, the counters, and the `free_*` fields of the pager's protocol. -/
structure Frames where
  active : BitVec 7 → List ℕ
  inactive : BitVec 7 → List ℕ
  evictionClean : List ℕ
  evictionDirty : List ℕ
  framesLocal : ℤ
  framesTotal : ℤ
  framesPendingEviction : ℤ
  freeBadKarma : ℕ
  freeGoal : ℕ
  freeAllocations : ℕ
  freeInitialAllocation : ℤ
  framesExcluded : ℤ

/-- The frame accounting of a zeroed activity. -/
def Frames.zero : Frames := ⟨fun _ => [], fun _ => [], [], [], 0, 0, 0, 0, 0, 0, 0, 0⟩

/-- `struct activity`. `ancestors` is the chain of `parent` pointers, nearest first; it is empty
for the root activity only. `quota` is `policy.folios`, with 0 for no limit. -/
structure Activity where
  parentCap : Cap
  childrenCap : Cap
  siblingNextCap : Cap
  siblingPrevCap : Cap
  folios : Cap
  quota : ℕ
  folioCount : ℤ
  ancestors : List ℕ
  dying : Bool
  frames : Frames

/-- A zeroed activity. -/
def Activity.zero : Activity := ⟨.void, .void, .void, .void, .void, 0, 0, [], false, .zero⟩

/-- The status bits of a frame that the hardware keeps: written and referenced since last read. -/
structure Status where
  written : Bool
  referenced : Bool
deriving DecidableEq, Repr

/-- The kernel. The contents of an object (`caps`, `bytes`, `folio`, `activity`, by its type) are
meaningful while it has a descriptor; `memory_object_alloc` zeroes them. -/
structure Kernel where
  desc : ℕ → Option Desc
  caps : ℕ → ℕ → Cap
  bytes : ℕ → ℕ → BitVec 8
  folio : ℕ → Folio
  activity : ℕ → Activity
  status : ℕ → Status
  /-- The bitmap `folios`. -/
  allocated : ℕ → Bool
  /-- The frames `zalloc` can still hand out. -/
  free : ℕ
  laundry : List ℕ
  available : List ℕ
  /-- The object on whose wait queue a messenger is. -/
  waitsOn : ℕ → Option ℕ
  /-- Ghost, which no code reads: how often `folio_object_alloc` has been through an object's slot
  (freeing is allocating void), and `folio_free` through a folio. -/
  turnover : ℕ → ℕ

/-- A pointer to a capability. `stack c` is a local variable of a request that holds `c` and
`fake c` is the walker's `fake_slot`; what is written to either is lost. -/
inductive CapPtr
  | slot (object index : ℕ)
  | stack (c : Cap)
  | fake (c : Cap)
  | folioActivity (folio : ℕ)
  | folioNext (folio : ℕ)
  | folioPrev (folio : ℕ)
  | activityFolios (activity : ℕ)
  | activityParent (activity : ℕ)
  | activityChildren (activity : ℕ)
  | activitySiblingNext (activity : ℕ)
  | activitySiblingPrev (activity : ℕ)
deriving DecidableEq, Repr

/-- The pointers that lead to storage, as opposed to a variable. -/
def CapPtr.stored : CapPtr → Bool
  | .stack _ | .fake _ => false
  | _ => true

/-- The object whose storage a pointer leads into. -/
def CapPtr.holder : CapPtr → Option ℕ
  | .stack _ | .fake _ => none
  | .slot o _ | .folioActivity o | .folioNext o | .folioPrev o | .activityFolios o
  | .activityParent o | .activityChildren o | .activitySiblingNext o
  | .activitySiblingPrev o => some o

variable {f : Activity → Activity} {p : CapPtr} {o : ℕ}

theorem CapPtr.stored_of_holder (h : p.holder = some o) :
    p.stored = true := by
  cases p <;> simp_all [CapPtr.holder, CapPtr.stored]

namespace Kernel

/-! ### Updates -/

/-- Replace the descriptor of an object, or drop it. -/
def setDesc (s : Kernel) (o : ℕ) (d : Option Desc) : Kernel :=
  { s with desc := update s.desc o d }

/-- Change the descriptor of an object in memory. -/
def modifyDesc (s : Kernel) (o : ℕ) (f : Desc → Desc) : Kernel :=
  s.setDesc o ((s.desc o).map f)

/-- Change an activity. -/
def modifyActivity (s : Kernel) (a : ℕ) (f : Activity → Activity) : Kernel :=
  { s with activity := update s.activity a (f (s.activity a)) }

/-- Change the frame accounting of an activity. -/
def modifyFrames (s : Kernel) (a : ℕ) (f : Frames → Frames) : Kernel :=
  s.modifyActivity a fun g => { g with frames := f g.frames }

/-- Change a folio. -/
def modifyFolio (s : Kernel) (o : ℕ) (f : Folio → Folio) : Kernel :=
  { s with folio := update s.folio o (f (s.folio o)) }

/-- Change what a folio records about one of its objects. -/
def modifyEntry (s : Kernel) (folio i : ℕ) (f : FolioEntry → FolioEntry) : Kernel :=
  s.modifyFolio folio fun g => { g with entry := update g.entry i (f (g.entry i)) }

/-- `memset (object, 0, PAGESIZE)`. -/
def zeroObject (s : Kernel) (o : ℕ) : Kernel :=
  { s with
    caps := update s.caps o fun _ => .void
    bytes := update s.bytes o fun _ => 0
    folio := update s.folio o .zero
    activity := update s.activity o .zero }

/-- The activity and its ancestors, in the order of `activity_for_each_ancestor`. -/
def lineage (s : Kernel) (a : ℕ) : List ℕ := a :: (s.activity a).ancestors

/-- `activity_for_each_ancestor`. -/
def forEachAncestor (s : Kernel) (a : ℕ) (f : Activity → Activity) : Kernel :=
  (s.lineage a).foldl (fun t b => t.modifyActivity b f) s

/-- The capability a pointer leads to. -/
def read (s : Kernel) : CapPtr → Cap
  | .slot o i => s.caps o i
  | .stack c | .fake c => c
  | .folioActivity f => (s.folio f).activity
  | .folioNext f => (s.folio f).next
  | .folioPrev f => (s.folio f).prev
  | .activityFolios a => (s.activity a).folios
  | .activityParent a => (s.activity a).parentCap
  | .activityChildren a => (s.activity a).childrenCap
  | .activitySiblingNext a => (s.activity a).siblingNextCap
  | .activitySiblingPrev a => (s.activity a).siblingPrevCap

/-- Overwrite a capability. -/
def write (s : Kernel) : CapPtr → Cap → Kernel
  | .slot o i, c => { s with caps := update s.caps o (update (s.caps o) i c) }
  | .stack _, _ | .fake _, _ => s
  | .folioActivity f, c => s.modifyFolio f fun g => { g with activity := c }
  | .folioNext f, c => s.modifyFolio f fun g => { g with next := c }
  | .folioPrev f, c => s.modifyFolio f fun g => { g with prev := c }
  | .activityFolios a, c => s.modifyActivity a fun g => { g with folios := c }
  | .activityParent a, c => s.modifyActivity a fun g => { g with parentCap := c }
  | .activityChildren a, c => s.modifyActivity a fun g => { g with childrenCap := c }
  | .activitySiblingNext a, c => s.modifyActivity a fun g => { g with siblingNextCap := c }
  | .activitySiblingPrev a, c => s.modifyActivity a fun g => { g with siblingPrevCap := c }

/-- `cap->type = vg_cap_void`. -/
def voidCap (s : Kernel) (p : CapPtr) : Kernel := s.write p { s.read p with type := .void }

/-! ### Reading back -/

section

variable (s : Kernel)

include s

@[simp] theorem setDesc_desc_self (o : ℕ) (d : Option Desc) : (s.setDesc o d).desc o = d := by
  simp [setDesc]

theorem setDesc_desc_of_ne {o' : ℕ} (d : Option Desc) (h : o' ≠ o) :
    (s.setDesc o d).desc o' = s.desc o' := by
  simp [setDesc, h]

@[simp] theorem setDesc_read (o : ℕ) (d : Option Desc) (p : CapPtr) :
    (s.setDesc o d).read p = s.read p := by
  cases p <;> rfl

/-- What a pointer reads after a write: as before, or what was written. -/
theorem read_write (p q : CapPtr) (c : Cap) :
    (s.write p c).read q = s.read q ∨ (s.write p c).read q = c := by
  cases p <;> cases q <;>
    simp only [read, write, modifyFolio, modifyActivity, update_apply, true_or] <;>
    grind

theorem status_read (hw : ℕ → Status) (p : CapPtr) :
    ({ s with status := hw } : Kernel).read p = s.read p := by
  cases p <;> rfl

theorem read_write_self (hp : p.stored = true) (c : Cap) :
    (s.write p c).read p = c := by
  cases p <;> simp_all [CapPtr.stored, read, write, modifyFolio, modifyActivity]

theorem read_write_of_ne {q : CapPtr} (h : q ≠ p) (c : Cap) :
    (s.write p c).read q = s.read q := by
  cases p <;> cases q <;>
    simp only [read, write, modifyFolio, modifyActivity, update_apply] <;> grind

@[simp] theorem write_desc (p : CapPtr) (c : Cap) : (s.write p c).desc = s.desc := by
  cases p <;> rfl

@[simp] theorem write_allocated (p : CapPtr) (c : Cap) : (s.write p c).allocated = s.allocated := by
  cases p <;> rfl

theorem modifyFolio_entry {f : Folio → Folio} (o o' : ℕ) (hf : ∀ g, (f g).entry = g.entry) :
    ((s.modifyFolio o f).folio o').entry =
      (s.folio o').entry := by
  by_cases h : o' = o
  · subst h
    simp [modifyFolio, hf]
  · simp [modifyFolio, h]

@[simp] theorem write_entry (p : CapPtr) (c : Cap) (o : ℕ) :
    ((s.write p c).folio o).entry = (s.folio o).entry := by
  cases p with
  | folioActivity | folioNext | folioPrev =>
    rw [write]
    exact modifyFolio_entry s _ o fun _ => rfl
  | _ => rfl

end

/-! ### Frame accounting -/

/-- Two states that differ **in frame accounting only**: the lists, the counters, and which
objects the pager may launder or reuse. -/
structure AccountsOnly (s s' : Kernel) : Prop where
  rest : s' = { s with activity := s'.activity, laundry := s'.laundry, available := s'.available }
  activity : ∀ a, s'.activity a = { s.activity a with frames := (s'.activity a).frames }

namespace AccountsOnly

theorem refl (s : Kernel) : AccountsOnly s s := ⟨rfl, fun _ => rfl⟩

theorem trans {s t r : Kernel} (h : AccountsOnly s t) (h' : AccountsOnly t r) :
    AccountsOnly s r := by
  refine ⟨?_, fun a => ?_⟩
  · rw [h'.rest, h.rest]
  · rw [h'.activity a, h.activity a]

variable {s s' : Kernel} (h : AccountsOnly s s')

include h

theorem desc : s'.desc = s.desc := by rw [h.rest]

theorem caps : s'.caps = s.caps := by rw [h.rest]

theorem folio : s'.folio = s.folio := by rw [h.rest]

theorem allocated : s'.allocated = s.allocated := by rw [h.rest]

theorem free : s'.free = s.free := by rw [h.rest]

theorem read (p : CapPtr) : s'.read p = s.read p := by
  cases p <;> simp only [Kernel.read, h.caps, h.folio] <;> rw [h.activity]

end AccountsOnly

/-- A change of activities that only touches their frame accounting. -/
def FramesOnly (f : Activity → Activity) : Prop :=
  ∀ g, f g = { g with frames := (f g).frames }

theorem FramesOnly.modifyActivity (hf : FramesOnly f) (s : Kernel)
    (a : ℕ) : AccountsOnly s (s.modifyActivity a f) := by
  refine ⟨rfl, fun b => ?_⟩
  by_cases hb : b = a
  · subst hb
    simpa [Kernel.modifyActivity] using hf (s.activity b)
  · simp [Kernel.modifyActivity, hb]

theorem modifyFrames_accountsOnly (s : Kernel) (a : ℕ) (f : Frames → Frames) :
    AccountsOnly s (s.modifyFrames a f) :=
  FramesOnly.modifyActivity (fun _ => rfl) s a

theorem FramesOnly.forEachAncestor (hf : FramesOnly f) (s : Kernel)
    (a : ℕ) : AccountsOnly s (s.forEachAncestor a f) := by
  have hfold : ∀ (l : List ℕ) (t : Kernel),
      AccountsOnly t (l.foldl (fun t b => t.modifyActivity b f) t) := by
    intro l
    induction l with
    | nil => exact AccountsOnly.refl
    | cons b l ih => exact fun t => (hf.modifyActivity t b).trans (ih _)
  exact hfold _ s

/-- A change that keeps some part of every activity keeps it for all ancestors. -/
theorem forEachAncestor_proj {β : Type} (π : Activity → β)
    (hf : ∀ g, π (f g) = π g) (s : Kernel) (a b : ℕ) :
    π ((s.forEachAncestor a f).activity b) = π (s.activity b) := by
  have hone : ∀ (t : Kernel) (c : ℕ), π ((t.modifyActivity c f).activity b) = π (t.activity b) := by
    intro t c
    by_cases hb : b = c
    · subst hb
      simp [Kernel.modifyActivity, hf]
    · simp [Kernel.modifyActivity, hb]
  have hfold : ∀ (l : List ℕ) (t : Kernel),
      π ((l.foldl (fun t c => t.modifyActivity c f) t).activity b) = π (t.activity b) := by
    intro l
    induction l with
    | nil => exact fun _ => rfl
    | cons c l ih => exact fun t => (ih _).trans (hone t c)
  exact hfold _ s

theorem modifyFrames_frames (s : Kernel) (a b : ℕ) (f : Frames → Frames) :
    ((s.modifyFrames a f).activity b).frames =
      if b = a then f (s.activity b).frames else (s.activity b).frames := by
  by_cases hb : b = a
  · subst hb
    simp [modifyFrames, modifyActivity]
  · simp [modifyFrames, modifyActivity, hb]

@[simp] theorem write_frames (s : Kernel) (p : CapPtr) (c : Cap) (a : ℕ) :
    ((s.write p c).activity a).frames = (s.activity a).frames := by
  cases p with
  | activityFolios b | activityParent b | activityChildren b | activitySiblingNext b
  | activitySiblingPrev b =>
    by_cases hb : a = b
    · subst hb
      simp [write, modifyActivity]
    · simp [write, modifyActivity, hb]
  | _ => rfl

@[simp] theorem write_laundry (s : Kernel) (p : CapPtr) (c : Cap) :
    (s.write p c).laundry = s.laundry := by
  cases p <;> rfl

@[simp] theorem write_available (s : Kernel) (p : CapPtr) (c : Cap) :
    (s.write p c).available = s.available := by
  cases p <;> rfl

/-! ### A small kernel -/

/-- An object in memory, active, and owned by the activity at OID 1. -/
def ownedDesc (type : CapType) : Desc :=
  { Desc.fresh type 0 with age := 0x80, activity := some 1 }

/-- **A small kernel**: folio 0 is in memory and has objects of the given types, all in memory, the
first of which is the root activity. It serves as the start of concrete runs. -/
def ofTypes (types : List CapType) (caps : ℕ → ℕ → Cap) (free : ℕ) : Kernel where
  desc o := if o = 0 then some (ownedDesc .folio) else (types[o - 1]?).map ownedDesc
  caps := caps
  bytes _ _ := 0
  folio o :=
    if o = 0 then
      { Folio.zero with
        activity := ⟨0, false, 0, .void, .activityControl, 1⟩
        entry := fun i => { FolioEntry.zero with type := types.getD i .void } }
    else .zero
  activity o :=
    if o = 1 then
      { Activity.zero with
        folios := ⟨0, false, 0, .void, .folio, 0⟩
        folioCount := 1
        frames := { Frames.zero with
          active := fun priority => if priority = 0 then List.range (types.length + 1) else []
          framesLocal := types.length + 1
          framesTotal := types.length + 1 } }
    else .zero
  status _ := ⟨false, false⟩
  allocated f := f == 0
  free := free
  laundry := []
  available := []
  waitsOn _ := none
  turnover _ := 0

end Kernel

end Viengoos
