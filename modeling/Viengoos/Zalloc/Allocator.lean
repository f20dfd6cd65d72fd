import Viengoos.Addr
import Viengoos.Lib.DoublyLinked
import Viengoos.Lib.Outcome

/-!
# The zone allocator

`zalloc.c`: the allocator of the kernel's own memory. A zone holds free blocks of one size, a power
of two, in a list that is ordered by address; the links of the list are stored at the start of the
blocks themselves. Freeing cuts a piece of memory into blocks of the largest size that its alignment
and its length allow, and joins a block with its buddy as long as the buddy is free too. Allocation
takes a block of the smallest zone that is large enough and has one, and frees what is left over.

Addresses and sizes are 32 bits wide. Walking a list and cutting up a piece of memory are loops that
need not end for arbitrary links and sizes, so they are given a limit.
-/

namespace Viengoos

namespace Zalloc

open Outcome DoublyLinked

/-- `ZONE_SIZE`. -/
@[irreducible] def zoneSize (x : ℕ) : ℕ := 2 ^ (x + 12)

/-- `ZONES`: `sizeof (uintptr_t) * 8 - PAGESIZE_LOG2 - 1`. -/
def zones : ℕ := 19

/-- `vg_lsb`: on a word, whose upper half is zero as a double word, the same as `vg_lsb64`. -/
def vgLsb (x : ℕ) : ℕ := vgLsb64 x

/-- `vg_msb`. -/
def vgMsb (x : ℕ) : ℕ := vgMsb64 x

/-- Subtraction of `uintptr_t`. -/
def wrapSub (a b : ℕ) : ℕ := (2 ^ 32 + a - b) % 2 ^ 32

/-- What must not happen in the allocator. -/
inductive Fault
  | bounds
  | assertion
  | panic
  | limit
deriving DecidableEq, Repr

/-- The state of the allocator: the `struct block` at the start of each free block, the heads of the
zones' lists, and `zalloc_memory`. -/
structure State where
  links : Links ℕ
  zone : ℕ → Option ℕ
  memory : ℕ

/-- More than there are pages. -/
def loopLimit : ℕ := 2 ^ 20

/-- The loop in `add_block` that finds the left and right neighbours of `block`. -/
def findNeighbours (links : Links ℕ) (block : ℕ) :
    ℕ → Option ℕ → Option ℕ → Except Fault (Option ℕ × Option ℕ)
  | 0, _, _ => .error .limit
  | n + 1, left, right =>
    match right with
    | some r => if r < block then findNeighbours links block n (some r) (links.next r)
      else .ok (left, some r)
    | none => .ok (left, none)

/-- A neighbour, if there is one and it is the block's buddy. -/
def buddyOf (neighbour : Option ℕ) (block zoneNr : ℕ) : Option ℕ :=
  neighbour.filter fun x => x ^^^ block = zoneSize zoneNr

/-- Take a block out of its zone. -/
def State.unlink (s : State) (zoneNr x : ℕ) : State :=
  { s with
    links := (s.links.remove (s.zone zoneNr) x).1
    zone := Function.update s.zone zoneNr (s.links.remove (s.zone zoneNr) x).2 }

/-- Put a block between its neighbours. -/
def State.link (s : State) (zoneNr : ℕ) (left right : Option ℕ) (x : ℕ) : State :=
  { s with
    links := (s.links.insert (s.zone zoneNr) left right x).1
    zone := Function.update s.zone zoneNr (s.links.insert (s.zone zoneNr) left right x).2 }

/-- `add_block`. -/
def addBlock (s : State) (block zoneNr : ℕ) : Except Fault State :=
  if zoneNr < zones then do
    let (left, right) ← findNeighbours s.links block loopLimit none (s.zone zoneNr)
    match buddyOf left block zoneNr, buddyOf right block zoneNr with
    | some l, _ => addBlock (s.unlink zoneNr l) l (zoneNr + 1)
    | none, some r => addBlock (s.unlink zoneNr r) block (zoneNr + 1)
    | none, none => pure (s.link zoneNr left right block)
  else
    .error .bounds
termination_by zones - zoneNr

/-- The zone of the first block that is cut from a piece of memory. -/
def cutZone (block size : ℕ) : ℕ :=
  wrapSub (min (wrapSub (vgLsb block) 1) (wrapSub (vgMsb size) 1)) 12

/-- The loop in `zfree`. -/
def zfreeLoop : ℕ → State → ℕ → ℕ → Except Fault State
  | 0, _, _, _ => .error .limit
  | n + 1, s, block, size => do
    let zoneNr := cutZone block size
    let s ← addBlock s block zoneNr
    let block := (block + zoneSize zoneNr) % 2 ^ 32
    let size := wrapSub size (zoneSize zoneNr)
    if 0 < size then zfreeLoop n s block size else pure s

/-- `zfree`. -/
def zfree (s : State) (block size : ℕ) : Except Fault State := do
  require (block ≠ 0) .assertion
  require (size % pagesize = 0) .panic
  require (block % pagesize = 0) .panic
  zfreeLoop loopLimit { s with memory := (s.memory + size / pagesize) % 2 ^ 32 } block size

/-- The loop in `zalloc_internal` that finds a zone with a block. It looks at `zone[ZONES]` before
it compares the index with `ZONES`; whatever is there, the loop ends with that index. -/
def findZone (s : State) (zoneNr : ℕ) : ℕ :=
  if zoneNr < zones then
    if (s.zone zoneNr).isSome then zoneNr else findZone s (zoneNr + 1)
  else
    zoneNr
termination_by zones - zoneNr

/-- `memset (block, 0, size)`, as far as it changes what `struct block`s would be there. -/
def zeroed (links : Links ℕ) (block size : ℕ) : Links ℕ where
  next a := if block ≤ a ∧ a < block + size then none else links.next a
  prev a := if block ≤ a ∧ a < block + size then none else links.prev a

/-- Take the first block of a zone, which has one. -/
def State.popFirst (s : State) (zoneNr block : ℕ) : State :=
  { s with
    links := s.links.setPrevOf (s.links.next block) none
    zone := Function.update s.zone zoneNr (s.links.next block) }

/-- Give back what is left over of a block of a zone. -/
def giveBack (s : State) (zoneNr block size : ℕ) : Except Fault State :=
  if size < zoneSize zoneNr then zfree s (block + size) (zoneSize zoneNr - size) else pure s

/-- `zalloc_internal`. The result is 0 if there is no block that is large enough. -/
def zallocInternal (s : State) (size : ℕ) : Except Fault (State × ℕ) := do
  require (size % pagesize = 0) .panic
  let zoneNr := findZone s (wrapSub (vgMsb (wrapSub size 1)) 12)
  if zones < zoneNr then
    .error .bounds
  else
    match if zoneNr = zones then none else s.zone zoneNr with
    | none => do
      require (size = pagesize → s.memory = 0) .assertion
      pure (s, 0)
    | some block => do
      let s := s.popFirst zoneNr block
      let s := { s with memory := wrapSub s.memory (zoneSize zoneNr / pagesize) }
      let s ← giveBack s zoneNr block size
      pure ({ s with links := zeroed s.links block size }, block)

/-- `zalloc`. -/
def zalloc (s : State) (size : ℕ) : Except Fault (State × ℕ) :=
  if s.memory < size / pagesize then pure (s, 0) else zallocInternal s size

end Zalloc

end Viengoos
