import Viengoos.Addr
import Viengoos.Lib.Outcome
import Viengoos.Lib.SearchTree

/-!
# The map database of `libhurd-mm`

`map.c`, `mmap.c` (`munmap`) and `mprotect.c`. Maps are told apart by a number. The database is a
search tree of the maps that are connected, by region; each pager has the list of the maps that
reference it. Addresses, lengths and offsets are 32-bit words. Locks are left out.

What a map's `destroy` function, its pager's `no_refs` function and the change of a capability in
the address space do is a parameter: they work on a state of their own, the *world*.
-/

namespace Viengoos

open Outcome

/-- `enum map_access`. -/
structure MapAccess where
  read : Bool
  write : Bool
deriving DecidableEq, Repr

namespace MapAccess

/-- `MAP_ACCESS_NONE`. -/
def none : MapAccess := ⟨false, false⟩

/-- Some right is in the first access and not in the second one. -/
def exceeds (a b : MapAccess) : Bool := (a.write && !b.write) || (a.read && !b.read)

end MapAccess

/-- `struct map`. -/
structure Map where
  connected : Bool
  pager : ℕ
  offset : ℕ
  start : ℕ
  length : ℕ
  access : MapAccess
deriving DecidableEq, Repr

/-- `start + length - 1` in 32 bits. -/
def last32 (start length : ℕ) : ℕ := (start + length + (2 ^ 32 - 1)) % 2 ^ 32

/-- The last address of a map. -/
def Map.last (m : Map) : ℕ := last32 m.start m.length

/-- `region_compare` of a region with a map's region. -/
def Map.compare (start length : ℕ) (m : Map) : Ordering :=
  if last32 start length < m.start then .lt else if start > m.last then .gt else .eq

/-- What the map database does to the rest of the world. -/
structure Backend (W : Type) where
  /-- `map->destroy (map)`; the flag says that it is the last reference to its pager. -/
  destroy : Map → Bool → W → Except Fault W
  /-- `pager->no_refs (pager)`. -/
  noRefs : ℕ → W → Except Fault W
  /-- Reduce the rights on the page at an address. -/
  restrict : MapAccess → ℕ → W → Except Fault W

/-- The map database and the rest of the world. -/
structure Maps (W : Type) where
  map : ℕ → Map
  /-- `maps`. -/
  tree : SearchTree ℕ
  /-- Maps from this number on are not allocated. -/
  fresh : ℕ
  /-- `pager->maps`. -/
  list : ℕ → List ℕ
  /-- `pager->length`. -/
  length : ℕ → ℕ
  world : W

namespace Maps

variable {W : Type}

/-! ### `map.c` -/

/-- `map_find`: a map that overlaps with a region. -/
def mapFind (s : Maps W) (start length : ℕ) : Option ℕ :=
  (s.tree.find fun id => (s.map id).compare start length).bind (s.tree.nodes[·]?)

/-- `hurd_btree_map_next`. -/
def next (s : Maps W) (id : ℕ) : Option ℕ := s.tree.nodes[s.tree.nodes.idxOf id + 1]?

/-- `hurd_btree_map_prev`. -/
def prev (s : Maps W) (id : ℕ) : Option ℕ :=
  match s.tree.nodes.idxOf id with
  | 0 => none
  | i + 1 => s.tree.nodes[i]?

/-- The tree was searched. -/
def searched (s : Maps W) : Maps W := { s with tree := s.tree.after s.tree.nodes }

def setMap (s : Maps W) (id : ℕ) (m : Map) : Maps W := { s with map := Function.update s.map id m }

/-- `map_install`. -/
def mapInstall (s : Maps W) (id : ℕ) : Except Fault (Maps W × Bool) := do
  let m := s.map id
  require (0 < m.length) .assertion
  require (m.start % pagesize = 0) .assertion
  require (m.length % pagesize = 0) .assertion
  require (m.offset % pagesize = 0) .assertion
  require ((m.offset + m.length) % 2 ^ 32 ≤ s.length m.pager) .assertion
  match s.tree.insert (fun id => (s.map id).compare m.start m.length) id with
  | (.inl _, tree) => pure ({ s with tree }, false)
  | (.inr _, tree) =>
    let s := { s with tree }.setMap id { m with connected := true }
    pure ({ s with list := Function.update s.list m.pager (id :: s.list m.pager) }, true)

/-- `map_create`. -/
def mapCreate (s : Maps W) (start length : ℕ) (access : MapAccess) (pager offset : ℕ) :
    Except Fault (Maps W × Option ℕ) := do
  let id := s.fresh
  let s := { s with fresh := id + 1 }.setMap id ⟨false, pager, offset, start, length, access⟩
  let (s, installed) ← s.mapInstall id
  pure (s, if installed then some id else none)

/-- `map_disconnect`. -/
def mapDisconnect (s : Maps W) (id : ℕ) : Except Fault (Maps W) := do
  require ((s.map id).connected = true) .assertion
  pure ({ s with tree := s.tree.after (s.tree.nodes.erase id) }.setMap id
    { s.map id with connected := false })

/-- `map_destroy`. -/
def mapDestroy (B : Backend W) (s : Maps W) (id : ℕ) : Except Fault (Maps W) := do
  let m := s.map id
  require (m.connected = false) .assertion
  require (s.list m.pager ≠ []) .assertion
  let last := s.list m.pager == [id]
  let world ← B.destroy m last s.world
  if last then
    let world ← B.noRefs m.pager world
    pure { s with world, list := Function.update s.list m.pager [] }
  else
    -- `list_unlink`
    require (id ∈ s.list m.pager) .assertion
    pure { s with world, list := Function.update s.list m.pager ((s.list m.pager).erase id) }

/-- `map_split`. -/
def mapSplit (s : Maps W) (id offset : ℕ) : Except Fault (Maps W × Option ℕ) := do
  let m := s.map id
  if offset = 0 ∨ offset ≥ m.length then pure (s, none)
  else if offset % pagesize ≠ 0 then pure (s, none)
  else
    let second := s.fresh
    let s := { s with fresh := second + 1 }.setMap second
      { m with start := (m.start + offset) % 2 ^ 32, length := m.length - offset,
               offset := (m.offset + offset) % 2 ^ 32 }
    let s := s.setMap id { m with length := offset }
    let (s, installed) ← s.mapInstall second
    require (installed = true) .assertion
    pure (s, some second)

/-- The end of `map_join`: the second map goes, and the offset of the first one is changed. -/
def joining (B : Backend W) (s : Maps W) (first second : ℕ) : Except Fault (Maps W × Bool) := do
  let length := (s.map second).length
  let s ← s.mapDisconnect second
  let s ← s.mapDestroy B second
  pure (s.setMap first { s.map first with offset := ((s.map first).offset + length) % 2 ^ 32 },
    true)

/-- `map_join`. -/
def mapJoin (B : Backend W) (s : Maps W) (first second : ℕ) : Except Fault (Maps W × Bool) :=
  let m := s.map first
  let m' := s.map second
  if m.pager ≠ m'.pager then pure (s, false)
  else if m.access ≠ m'.access then pure (s, false)
  else if (m.start + m.length) % 2 ^ 32 ≠ m'.start then
    if (m'.start + m'.length) % 2 ^ 32 = m.start then s.joining B second first
    else pure (s, false)
  else s.joining B first second

/-! ### `munmap` and `mprotect` -/

/-- `map_split`, and a panic where it fails. Returns the second map. -/
def mustSplit (s : Maps W) (id offset : ℕ) : Except Fault (Maps W × ℕ) := do
  match ← s.mapSplit id offset with
  | (s, some second) => pure (s, second)
  | (_, none) => .error .panic

/-- The split where a map starts before a range. Returns the rest of the map. -/
def splitBefore (s : Maps W) (start id : ℕ) : Except Fault (Maps W × ℕ) :=
  if (s.map id).start < start then s.mustSplit id (start - (s.map id).start) else pure (s, id)

/-- The splits with which `munmap` and `mprotect` isolate the part of a map that is in a range:
where the map starts before the range, and where it ends after it. Returns the map inside. -/
def isolate (s : Maps W) (start last id : ℕ) : Except Fault (Maps W × ℕ) := do
  let mapStart := (s.map id).start
  let mapEnd := (s.map id).last
  let (s, id) ← s.splitBefore start id
  let mapStart := if mapStart < start then start else mapStart
  if mapEnd > last then
    let (s, _) ← s.mustSplit id ((last + 2 ^ 32 - mapStart + 1) % 2 ^ 32)
    pure (s, id)
  else pure (s, id)

/-- The next map in a direction. -/
def toward (s : Maps W) (backward : Bool) (id : ℕ) : Option ℕ :=
  if backward then s.prev id else s.next id

/-- Whether a loop stops at a map: it is outside the range. -/
def outside (s : Maps W) (start last id : ℕ) : Bool :=
  (s.map id).start > last || (s.map id).last < start

/-- A loop of `munmap`: disconnect the maps in a range, and put them on a list. -/
def munmapLoop (start last : ℕ) (backward : Bool) :
    ℕ → Maps W → List ℕ → Option ℕ → Except Fault (Maps W × List ℕ)
  | _, s, list, none => pure (s, list)
  | 0, _, _, some _ => .error .outOfFuel
  | fuel + 1, s, list, some id =>
    let next := s.toward backward id
    if s.outside start last id then pure (s, list)
    else do
      let (s, id) ← s.isolate start last id
      let s ← s.mapDisconnect id
      munmapLoop start last backward fuel s (id :: list) next

/-- `munmap`, which returns 0. -/
def munmap (B : Backend W) (s : Maps W) (start length : ℕ) : Except Fault (Maps W) :=
  let last := last32 start length
  match s.mapFind start length with
  | none => pure s.searched
  | some id => do
    let s := s.searched
    let prev := s.prev id
    let (s, list) ← munmapLoop start last false (s.tree.nodes.length + 1) s [] (some id)
    let (s, list) ← munmapLoop start last true (s.tree.nodes.length + 1) s list prev
    list.foldlM (mapDestroy B) s

/-- Reduce the rights on the pages of a map. -/
def restrictPages (B : Backend W) (s : Maps W) (m : Map) : Except Fault (Maps W) := do
  let world ← (List.range (m.length / pagesize)).foldlM
    (fun w i => B.restrict m.access (m.start + i * pagesize) w) s.world
  pure { s with world }

/-- Set the access of a map. Where it loses rights, they are reduced on its pages; where it gains
some, faulting will handle that. -/
def setAccess (B : Backend W) (s : Maps W) (id : ℕ) (access : MapAccess) : Except Fault (Maps W) :=
  let m := s.map id
  let s := s.setMap id { m with access }
  if m.access.exceeds access then s.restrictPages B { m with access } else pure s

/-- A loop of `mprotect`. -/
def mprotectLoop (B : Backend W) (start last : ℕ) (access : MapAccess) (backward : Bool) :
    ℕ → Maps W → Option ℕ → Except Fault (Maps W)
  | _, s, none => pure s
  | 0, _, some _ => .error .outOfFuel
  | fuel + 1, s, some id =>
    if s.outside start last id then pure s
    else if (s.map id).access = access then
      mprotectLoop B start last access backward fuel s (s.toward backward id)
    else do
      let (s, id) ← s.isolate start last id
      let s ← s.setAccess B id access
      mprotectLoop B start last access backward fuel s (s.toward backward id)

/-- `mprotect`, which returns 0. -/
def mprotect (B : Backend W) (s : Maps W) (start length : ℕ) (prot : MapAccess) :
    Except Fault (Maps W) :=
  let last := last32 start length
  match s.mapFind start length with
  | none => pure s.searched
  | some id => do
    let s := s.searched
    let prev := s.prev id
    let s ← mprotectLoop B start last prot false (s.tree.nodes.length + 2) s (some id)
    mprotectLoop B start last prot true (s.tree.nodes.length + 2) s prev

end Maps

end Viengoos
