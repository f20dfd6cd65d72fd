import Viengoos.Mm.FreeSpace
import Viengoos.Mm.Unmap

/-!
# Anonymous memory

`anonymous.c`, and `map_fault` (`map.c`) and `mmap` (`mmap.c`) over it. An anonymous pager has a
tree of storage descriptors: a page of the pager has **storage** once it was faulted in. The slot of
a page of the address space designates a storage, with or without the right to write. Storage is
told apart by a number that is never used again, so that a slot that still designates storage that
was freed designates nothing that a pager has.

Left out are the locks, the staging area and the thread-safe pagers (`mmap` asks for neither), and
what a fill function writes: only its result counts.
-/

namespace Viengoos

open Outcome Function

/-- `struct anonymous_pager`, without the storage. -/
structure AnonPager where
  /-- `policy.discardable`. -/
  discardable : Bool
  /-- The result of `fill` for an offset and a number of pages. -/
  fill : Option (ℕ → ℕ → Bool)
  /-- `ANONYMOUS_NO_ALLOC`. -/
  noAlloc : Bool
  /-- `ANONYMOUS_NO_RECURSIVE`. -/
  noRecursive : Bool

/-- The world of the anonymous pagers. -/
structure Anon where
  /-- The free address space. -/
  spaces : FreeSpace.Spaces
  pager : ℕ → AnonPager
  /-- Pagers from this number on are not allocated. -/
  pagers : ℕ
  /-- The storage descriptors of a pager: offsets and storage. -/
  storage : ℕ → List (ℕ × ℕ)
  /-- Storage from this number on is not allocated. -/
  objects : ℕ
  /-- The storage that the kernel discarded. -/
  discarded : ℕ → Bool
  /-- The slot of the page at an address: the storage, and whether it may be written. -/
  slot : ℕ → Option (ℕ × Bool)

/-- `struct vg_activation_fault_info`: whether the access is a write, and whether the page was
discarded. -/
structure FaultInfo where
  write : Bool
  discarded : Bool
deriving DecidableEq, Repr

namespace Anon

/-- The storage of a pager at an offset. -/
def stored (w : Anon) (p o : ℕ) : Option ℕ := (w.storage p).lookup o

/-- `mdestroy`. The storage of the last map of a pager is all that the pager has. -/
def mdestroy (m : Map) (last : Bool) (w : Anon) : Except Fault Anon := do
  let rest := if last then [] else (w.storage m.pager).filter fun d =>
    decide (d.1 < m.offset ∨ m.offset + m.length - 1 < d.1)
  let addr ← VgAddr.make m.start vgAddrBits
  let spaces ← FreeSpace.asFree w.spaces addr m.length
  pure { w with spaces, storage := update w.storage m.pager rest }

/-- `destroy`, once no map references the pager. -/
def destroy (p : ℕ) (w : Anon) : Except Fault Anon := do
  require (w.storage p = []) .assertion
  pure w

/-- What `mprotect` does to the slot of a page: without any access left it is cleared, and else
the right to write goes. -/
def restrict (access : MapAccess) (x : ℕ) (w : Anon) : Except Fault Anon :=
  let d := if access = .none then none else (w.slot x).map fun d => (d.1, false)
  pure { w with slot := update w.slot x d }

/-- Anonymous memory under the map database. -/
def backend : Backend Anon := ⟨mdestroy, destroy, restrict⟩

/-- One page of `fault`. Returns the storage whose discarded bit is to be cleared, too. -/
def faultPage (p : ℕ) (readOnly : Bool) (info : FaultInfo) (offset x : ℕ) (c : Anon × List ℕ)
    (i : ℕ) : Except Fault (Anon × List ℕ) :=
  let o := offset + i * pagesize
  match c.1.stored p o with
  | some st =>
    if info.discarded then do
      require ((c.1.pager p).discardable = true) .assertion
      pure (c.1, c.2 ++ [st])
    else pure c
  | none =>
    let st := c.1.objects
    pure ({ c.1 with
      objects := st + 1
      storage := update c.1.storage p ((o, st) :: c.1.storage p)
      discarded := update c.1.discarded st false
      slot := update c.1.slot ((x + i * pagesize) % 2 ^ 32) (some (st, !readOnly)) }, c.2)

/-- `object_discarded_clear` of the storage on a list. -/
def clearDiscarded (w : Anon) (l : List ℕ) : Anon :=
  { w with discarded := fun st => if st ∈ l then false else w.discarded st }

/-- The pages of `fault`. -/
def faultPages (p : ℕ) (readOnly : Bool) (info : FaultInfo) (offset x count : ℕ) (w : Anon) :
    Except Fault Anon := do
  let (w, l) ← (List.range count).foldlM (faultPage p readOnly info offset x) (w, [])
  pure (w.clearDiscarded l)

/-- The storage part of `fault`: a pager with `ANONYMOUS_NO_ALLOC` leaves it to its fill
function. -/
def provide (p : ℕ) (readOnly : Bool) (info : FaultInfo) (offset x count : ℕ) (w : Anon) :
    Except Fault Anon :=
  if (w.pager p).noAlloc then pure w else w.faultPages p readOnly info offset x count

end Anon

/-- The result of `fault`. The flag `recursive` says that the fill function itself faulted. -/
def AnonPager.filled (pager : AnonPager) (recursive : Bool) (offset count : ℕ) : Bool :=
  match pager.fill with
  | none => true
  | some fill => if recursive && pager.noRecursive then true else fill offset count

/-! ### Faults -/

/-- The bytes before a fault at an offset that are faulted in, too: up to 8 pages. -/
def leftOf (offset : ℕ) : ℕ := if 8 * pagesize > offset then offset else 8 * pagesize

/-- The bytes after the page of a fault that are faulted in, too: up to 16 pages. -/
def rightOf (length offset : ℕ) : ℕ :=
  if 16 * pagesize > length - (pagesize + offset) then length - pagesize - offset
  else 16 * pagesize

/-- What `fault` faults in: an offset, an address and a number of pages. It is likely a real fault,
and not advice, where there is one page and no fill function. -/
def faultWindow (fill : Bool) (length offset x count : ℕ) : ℕ × ℕ × ℕ :=
  if count = 1 ∧ fill = false then
    (offset - leftOf offset, (x + 2 ^ 32 - leftOf offset) % 2 ^ 32,
      (leftOf offset + pagesize + rightOf length offset) / pagesize)
  else (offset, x, count)

/-- An address or an offset, rounded down to a page. -/
def pageOf (x : ℕ) : ℕ := x / pagesize * pagesize

namespace Maps

/-- `fault`. -/
def fault (s : Maps Anon) (p offset count : ℕ) (readOnly : Bool) (x : ℕ) (info : FaultInfo)
    (recursive : Bool) : Except Fault (Maps Anon × Bool) := do
  let pager := s.world.pager p
  require ((pageOf offset + count * pagesize) % 2 ^ 32 ≤ s.length p) .assertion
  let (offset, x, count) :=
    faultWindow pager.fill.isSome (s.length p) (pageOf offset) (pageOf x) count
  require ((offset + count * pagesize) % 2 ^ 32 ≤ s.length p) .assertion
  let world ← s.world.provide p readOnly info offset x count
  pure ({ s with world }, pager.filled recursive offset count)

/-- The check of `map_fault`: the access of a map does not allow a fault. -/
def denied (access : MapAccess) (info : FaultInfo) : Bool :=
  (info.write && !access.write) || access == .none

/-- `map_fault`. -/
def mapFault (s : Maps Anon) (x : ℕ) (info : FaultInfo) (recursive : Bool) :
    Except Fault (Maps Anon × Bool) :=
  match s.mapFind x 1 with
  | none => pure (s.searched, false)
  | some id =>
    let m := s.map id
    if denied m.access info then pure (s.searched, false)
    else s.searched.fault m.pager ((m.offset + (x + 2 ^ 32 - m.start)) % 2 ^ 32) 1
      (!m.access.write) x info recursive

end Maps

/-! ### `mmap` -/

/-- Take the address range for a map at a hint, if there is one. -/
def areaAt (t : FreeSpace.Spaces) (hint count : ℕ) : Except Fault (FreeSpace.Spaces × Bool) :=
  if hint = 0 then pure (t, false)
  else do
    let addr ← VgAddr.make hint vgAddrBits
    let area ← addr.chop 12
    FreeSpace.asAllocAt t area count

/-- Take the address range for a map where there is room. -/
def areaAnywhere (t : FreeSpace.Spaces) (count : ℕ) :
    Except Fault (FreeSpace.Spaces × Option ℕ) := do
  match ← FreeSpace.asAlloc t 12 count true with
  | (t, none) => pure (t, none)
  | (t, some area) =>
    let addr ← area.extend 0 12
    -- `VG_ADDR_TO_PTR`
    require (addr.prefixBits < 2 ^ 32 - 1) .assertion
    require (addr.depth = vgAddrBits) .assertion
    pure (t, some addr.prefixBits)

/-- Take the address range for a map. -/
def mapArea (t : FreeSpace.Spaces) (hint count : ℕ) (fixed : Bool) :
    Except Fault (FreeSpace.Spaces × Option ℕ) := do
  let (t, alloced) ← areaAt t hint count
  if alloced then pure (t, some hint)
  else if hint ≠ 0 ∧ fixed then pure (t, none)
  else areaAnywhere t count

namespace Maps

/-- A new pager without storage, and without maps. -/
def newPager (s : Maps Anon) (length : ℕ) (discardable : Bool) : Maps Anon :=
  let p := s.world.pagers
  { s with
    list := update s.list p []
    length := update s.length p length
    world := { s.world with
      pagers := p + 1
      pager := update s.world.pager p ⟨discardable, none, false, false⟩
      storage := update s.world.storage p [] } }

/-- Create a map of the whole of a pager, and panic where that fails. Returns its address. -/
def mustCreate (s : Maps Anon) (start length : ℕ) (access : MapAccess) (p : ℕ) :
    Except Fault (Maps Anon × Option ℕ) := do
  match ← s.mapCreate start length access p 0 with
  | (s, some _) => pure (s, some start)
  | (_, none) => .error .panic

/-- `anonymous_pager_alloc` without a fill function, and with no flag but `ANONYMOUS_FIXED`. Returns
the address of the map. -/
def anonymousPagerAlloc (s : Maps Anon) (hint length : ℕ) (access : MapAccess)
    (discardable fixed : Bool) : Except Fault (Maps Anon × Option ℕ) := do
  require (hint % pagesize = 0) .assertion
  require (length % pagesize = 0) .assertion
  require (0 < length) .assertion
  let (spaces, area) ← mapArea s.world.spaces hint (length / pagesize) fixed
  let s := { s with world := { s.world with spaces } }
  match area with
  | none => pure (s, none)
  | some start => (s.newPager length discardable).mustCreate start length access s.world.pagers

end Maps

/-- The protection asked for: `PROT_READ`, `PROT_WRITE`, `PROT_EXEC`, and whether there are other
bits. -/
structure Prot where
  read : Bool
  write : Bool
  exec : Bool
  other : Bool
deriving DecidableEq, Repr

/-- The access that `mmap` gives for a protection. The second test is of `PROT_READ`, as the first
one is. -/
def Prot.access (prot : Prot) : MapAccess := ⟨prot.read || prot.exec, prot.read⟩

/-- The flags of `mmap`: `MAP_FIXED`, and whether there is one that is not known. -/
structure MmapFlags where
  fixed : Bool
  other : Bool
deriving DecidableEq, Repr

/-- A length, rounded up to whole pages in 32 bits. -/
def roundUp32 (length : ℕ) : ℕ := (length + pagesize - 1) % 2 ^ 32 / pagesize * pagesize

namespace Maps

/-- The start: there are no maps and no pagers. The address space and the shapes of the tree of maps
are given. -/
def initial (spaces : FreeSpace.Spaces) (shapes : ℕ → ℕ → ℕ → ℕ) : Maps Anon where
  map := fun _ => ⟨false, 0, 0, 0, 0, .none⟩
  tree := ⟨[], shapes⟩
  fresh := 0
  list := fun _ => []
  length := fun _ => 0
  world := ⟨spaces, fun _ => ⟨false, none, false, false⟩, 0, fun _ => [], 0, fun _ => false,
    fun _ => none⟩

/-- What `mmap` does with existing maps: with `MAP_FIXED` those in the range, whose length is not
yet rounded, are removed. -/
def makeRoom (s : Maps Anon) (fixed : Bool) (addr length : ℕ) : Except Fault (Maps Anon) :=
  if fixed then s.munmap Anon.backend addr length else pure s

/-- `mmap`, with `none` for `MAP_FAILED`. -/
def mmap (s : Maps Anon) (addr length : ℕ) (prot : Prot) (flags : MmapFlags) :
    Except Fault (Maps Anon × Option ℕ) :=
  if length = 0 then pure (s, none)
  else if flags.other then .error .panic
  else if prot.exec || prot.other then .error .panic
  else if flags.fixed ∧ addr % pagesize ≠ 0 then pure (s, none)
  else do
    let s ← s.makeRoom flags.fixed addr length
    s.anonymousPagerAlloc (pageOf addr) (roundUp32 length) prot.access false flags.fixed

end Maps

end Viengoos
