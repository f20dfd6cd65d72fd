import Viengoos.Shadow

/-!
# Building an address space

`as_build` (`libhurd-mm/as-build.c`) makes room for a capability at an address: it descends while
guards match, inserts a page table where a guard is in the way (moving what was there into the new
table, the **pivot**), and finally gives the slot it found the remaining bits as guard.
`as_compute_gbits_cappage` chooses where on the guard the table goes.

Assertions and panics are faults. With `debug` the self checks that `NDEBUG` removes are made too.
The consistency check against the kernel's copy (`AS_CHECK_SHADOW`) and the diagnostics are left
out, and so is the storage address of a page table, which only the kernel call uses.
-/

namespace Viengoos

open BitString Outcome

/-! ### `bits.h` -/

/-- The width of `uintptr_t`. -/
inductive WordSize
  | w32
  | w64
deriving DecidableEq, Repr

/-- The number of bits of a `uintptr_t`. -/
def WordSize.bits : WordSize → ℤ
  | w32 => 32
  | w64 => 64

/-- `extract_bits`, on a `uintptr_t`; the result is an `unsigned int`. -/
def extractBits (W : WordSize) (w : ℕ) (s c : ℤ) : Except Fault ℕ := do
  require (0 ≤ s ∧ s < W.bits) .assertion
  require (0 ≤ c ∧ s + c ≤ W.bits) .assertion
  if c = 32 then
    require (s = 0) .assertion
  pure (w / 2 ^ s.toNat % 2 ^ c.toNat % 2 ^ 32)

/-- `extract_bits_inv`. -/
def extractBitsInv (W : WordSize) (w : ℕ) (e c : ℤ) : Except Fault ℕ :=
  if c = 0 then pure 0 else extractBits W w (e - c + 1) c

/-- `extract_bits64`. For `c = 64` the code returns the word itself, which is the same number. -/
def extractBits64 (w : ℕ) (s c : ℤ) : Except Fault ℕ := do
  require (0 ≤ s ∧ s < 64) .assertion
  require (0 ≤ c ∧ s + c ≤ 64) .assertion
  pure (w / 2 ^ s.toNat % 2 ^ c.toNat)

/-- `extract_bits64_inv`. -/
def extractBits64Inv (w : ℕ) (e c : ℤ) : Except Fault ℕ :=
  if c = 0 then pure 0 else extractBits64 w (e - c + 1) c

/-! ### `as-compute-gbits.h` -/

/-- `as_compute_gbits_cappage`: the guard length and the width of the table, given how many bits
are untranslated, how many there are until the object in the way, and the longest possible
guard. Here `PAGESIZE_LOG2` is 12 and `VG_FOLIO_OBJECTS_LOG2` is 7. -/
def asComputeGbitsCappage (untranslated toTranslate gbits : ℤ) : Except Fault (ℤ × ℤ) := do
  require (0 < untranslated ∧ 0 < toTranslate ∧ 0 ≤ gbits ∧ toTranslate ≤ untranslated ∧
    gbits ≤ untranslated ∧ gbits ≤ toTranslate) .assertion
  let remainder := untranslated - gbits - 7 - 12
  let toRemove := 8 - remainder % 8
  let g :=
    if untranslated ≤ 12 then gbits
    else if untranslated - gbits ≤ 12 then untranslated - 12
    else if untranslated - gbits ≤ 19 then untranslated - 7 - 12
    else if toRemove < gbits then gbits - toRemove
    else 0
  require (0 ≤ g) .assertion
  let width := if untranslated - g = 19 then 7 else 8
  pure (g, if toTranslate < g + width then toTranslate - g else width)

/-! ### `as-build.c` -/

/-- The build and its surroundings: the word size, whether assertions that `NDEBUG` removes are
compiled in, and which page-table allocations succeed. -/
structure BuildEnv where
  word : WordSize
  debug : Bool
  alloc : ℕ → Bool

/-- The value of an `Option`, or a failed assertion. -/
def assertSome {α : Type} : Option α → Except Fault α
  | some a => .ok a
  | none => .error .assertion

@[simp] theorem assertSome_eq_ok {α : Type} {o : Option α} {a : α} :
    assertSome o = .ok a ↔ o = some a := by
  cases o <;> simp [assertSome]

/-- The types whose objects `as_build` descends into. -/
def translates : CapType → Bool
  | .cappage | .rcappage | .folio | .thread | .messenger => true
  | _ => false

/-- `do_index`. A shadow capability without an object is a panic. -/
def doIndex (s : Shadow) (c : Cap) (idx : ℕ) : Except Fault ShadowPtr := do
  require (translates c.type = true ∨ c.type = .rmessenger) .assertion
  require (c.oid ≠ 0) .panic
  match c.type with
  | .cappage | .rcappage => pure (.slot c.oid (c.addrTrans.subpageOffset + idx))
  | .folio => do
    require ((s.caps c.oid idx).type ≠ .void) .panic
    pure (.fake (s.caps c.oid idx))
  | .thread | .messenger => do
    require (idx < 4) .assertion
    pure (.slot c.oid idx)
  | _ => .error .panic

/-- The number of bits with which `as_build` indexes an object. -/
def buildWidth (c : Cap) : Except Fault ℤ :=
  match c.type with
  | .cappage | .rcappage => pure (8 - (c.addrTrans.subpagesLog2.val : ℤ))
  | .folio => pure 7
  | .thread | .messenger => pure 2
  | _ => .error .panic

/-- Index the object designated by the slot to find the next slot. -/
def indexPte (key : ℕ) (s : Shadow) (pte : ShadowPtr) (remaining : ℕ) :
    Except Fault (ShadowPtr × ℕ) := do
  let c := s.read pte
  let width ← buildWidth c
  require (width ≤ remaining) .panic
  let idx ← extractBits64Inv key (remaining - 1) width
  let next ← doIndex s c idx
  pure (next, ((remaining : ℤ) - width).toNat)

/-- Where a page table goes: whether what is in the slot has to move, the length of the guard that
leads to the table, and the number of bits the table translates. -/
structure TablePlan where
  needPivot : Bool
  gbits : ℕ
  width : ℕ
deriving DecidableEq, Repr

/-- The largest guard that can lead to a new table and the bits until the object in the way. -/
def guardRoom (key remaining : ℕ) (c : Cap) : Except Fault (ℤ × ℤ) := do
  let pteGuard := c.addrTrans.guard
  let pteGbits := c.addrTrans.guardBits
  if c.type = .void ∧ pteGbits = 0 then pure ((remaining : ℤ), (remaining : ℤ))
  else do
    -- the size of the common prefix
    let max := if remaining < pteGbits then remaining else pteGbits
    let b ← extractBits64Inv key (remaining - 1) max
    let a := if remaining < pteGbits then pteGuard / 2 ^ (pteGbits - remaining) else pteGuard
    pure ((max : ℤ) - vgMsb64 (a ^^^ b), (pteGbits : ℤ))

/-- The choice of a page table, `none` when the slot is available and the remaining bits fit in
its guard. -/
def planTable (addr : VgAddr) (key remaining : ℕ) (c : Cap) : Except Fault (Option TablePlan) := do
  let needPivot := !(decide (c.type = .void) && decide (c.addrTrans.guardBits = 0))
  -- the remaining bits, `extract_bits64 (prefix, 0, remaining)`
  if needPivot = false ∧ vgMsb64 (key % 2 ^ remaining) ≤ 22 then pure none
  else do
    let (gbits, tilobject) ← guardRoom key remaining c
    let top ← extractBits64Inv key (remaining - 1) gbits
    let firstset := vgMsb64 top
    let gbits := if 22 < firstset then gbits - (firstset - 22) else gbits
    let untranslated : ℤ := remaining + vgAddrBits - addr.depth
    require (0 < untranslated ∧ 0 < tilobject ∧ 0 ≤ gbits ∧ tilobject ≤ untranslated ∧
      gbits ≤ untranslated ∧ gbits ≤ tilobject) .panic
    let (g, width) ← asComputeGbitsCappage untranslated tilobject gbits
    require (g ≤ gbits) .assertion
    require (g + width ≤ tilobject) .assertion
    require (0 < width ∧ width ≤ 8) .panic
    pure (some ⟨needPivot, g.toNat, width.toNat⟩)

/-- `allocate_page_table`: a fresh, zeroed cappage, or nothing. -/
def allocatePageTable (env : BuildEnv) (s : Shadow) : Option (Cap × Shadow) :=
  if env.alloc s.next then
    some ({ Cap.void with type := .cappage, oid := s.next },
      { s with caps := Function.update s.caps s.next fun _ => .void, next := s.next + 1 })
  else none

/-- A self check: the address resolves in slot mode to the slot. -/
def checkSlot (fuel : ℕ) (s : Shadow) (a : VgAddr) (p : ShadowPtr) : Except Fault Unit := do
  let (_, ret) ← asLookupRel Shadow.memory fuel .root a none .wantSlot s
  match ret with
  | some r => require (r.slot = p) .assertion
  | none => .error .assertion

/-- Step 1: make the pivot designate what the slot designates, with the rest of its guard. -/
def movePivot (s : Shadow) (c ptCap : Cap) (pivotIdx pivotGuard pivotGbits : ℕ) :
    Except Fault (ShadowPtr × Shadow) := do
  let pivot ← doIndex s ptCap pivotIdx
  let word ← assertSome (AddrTrans.setGuardSubpage pivotGuard pivotGbits 0 1)
  let new ← assertSome (Cap.copyX (s.read pivot) c 2 ⟨.default, word⟩)
  pure (pivot, s.write pivot new)

/-- Step 2: make the slot designate the new page table, with the common guard. -/
def setPte (s : Shadow) (pte : ShadowPtr) (c ptCap : Cap) (plan : TablePlan) :
    Except Fault Shadow := do
  let guard ← extractBits64Inv c.addrTrans.guard (c.addrTrans.guardBits - 1) plan.gbits
  let word ← assertSome (AddrTrans.setGuardSubpage guard plan.gbits 0 (2 ^ (8 - plan.width)))
  let new ← assertSome (Cap.copyX (s.read pte) ptCap (1 + 2) ⟨.default, word⟩)
  pure (s.write pte new)

/-- Insert a page table at a slot. `none` when there is no memory. -/
def insertTable (env : BuildEnv) (fuel : ℕ) (addr : VgAddr) (s : Shadow) (pte : ShadowPtr)
    (remaining : ℕ) (plan : TablePlan) : Except Fault (Option Shadow) := do
  let c := s.read pte
  let pteGuard := c.addrTrans.guard
  let pteGbits : ℤ := c.addrTrans.guardBits
  let pteAddr ← addr.chop remaining
  let ptAddr ← addr.chop ((remaining : ℤ) - plan.gbits)
  match allocatePageTable env s with
  | none => pure none
  | some (fresh, s) => do
    -- `VG_CAP_SET_SUBPAGE`
    let ptCap :=
      match AddrTrans.setGuardSubpage fresh.addrTrans.guard fresh.addrTrans.guardBits 0
          (2 ^ (8 - plan.width)) with
      | some word => { fresh with addrTrans := word }
      | none => fresh
    let pivotIdx ← extractBitsInv env.word pteGuard (pteGbits - plan.gbits - 1) plan.width
    let pivotAddr ← ptAddr.extend pivotIdx plan.width
    let pivotGbits : ℤ := pteGbits - plan.gbits - plan.width
    let pivotGuard ← extractBits64 pteGuard 0 pivotGbits
    let pivotTarget ← pivotAddr.extend pivotGuard pivotGbits
    let pteTarget ← pteAddr.extend pteGuard pteGbits
    require (pivotTarget = pteTarget) .panic
    if plan.needPivot then do
      let (pivot, s) ← movePivot s c ptCap pivotIdx pivotGuard pivotGbits.toNat
      let s ← setPte s pte c ptCap plan
      if env.debug then checkSlot fuel s pivotAddr pivot
      pure (some s)
    else do
      let s ← setPte s pte c ptCap plan
      pure (some s)

/-- How a turn of the loop ends: `break`, `return NULL`, or at the loop's condition. -/
inductive BuildTurn
  | stop (s : Shadow) (pte : ShadowPtr) (remaining : ℕ)
  | null (s : Shadow)
  | next (s : Shadow) (pte : ShadowPtr) (remaining : ℕ)

/-- The body of the loop. -/
def buildTurn (env : BuildEnv) (fuel : ℕ) (addr : VgAddr) (s : Shadow) (pte : ShadowPtr)
    (remaining : ℕ) : Except Fault BuildTurn := do
  let key := addr.num
  let c := s.read pte
  let pteGuard := c.addrTrans.guard
  let pteGbits := c.addrTrans.guardBits
  -- with too few bits left `addr_guard` is -1, which no guard equals
  let fits := decide (pteGbits ≤ remaining) && decide (field key remaining pteGbits = pteGuard)
  if pteGbits = remaining ∧ fits then pure (.stop s pte remaining)
  else if translates c.type ∧ fits then do
    require (0 < remaining - pteGbits) .assertion
    let (pte', r) ← indexPte key s pte (remaining - pteGbits)
    pure (.next s pte' r)
  else do
    match ← planTable addr key remaining c with
    | none => pure (.stop s pte remaining)
    | some plan =>
      match ← insertTable env fuel addr s pte remaining plan with
      | none => pure (.null s)
      | some s' => do
        let (pte', r) ← indexPte key s' pte (remaining - plan.gbits)
        pure (.next s' pte' r)

/-- The `do … while (remaining > 0)` loop, with `fuel` for the lookups of the self checks: the
state at `return NULL`, or the variables after the loop. -/
def buildLoop (env : BuildEnv) (fuel : ℕ) (addr : VgAddr) :
    ℕ → Shadow → ShadowPtr → ℕ → Except Fault (Shadow ⊕ Shadow × ShadowPtr × ℕ)
  | 0, _, _, _ => .error .outOfFuel
  | n + 1, s, pte, remaining => do
    match ← buildTurn env fuel addr s pte remaining with
    | .stop s pte r => pure (.inr (s, pte, r))
    | .null s => pure (.inl s)
    | .next s pte r =>
      if 0 < r then buildLoop env fuel addr n s pte r else pure (.inr (s, pte, r))

/-- After the loop: refuse a slot in use, or set the guard to the remaining bits. -/
def buildFinish (env : BuildEnv) (fuel : ℕ) (addr : VgAddr) (mayOverwrite : Bool) (s : Shadow)
    (pte : ShadowPtr) (remaining : ℕ) : Except Fault Shadow := do
  let c := s.read pte
  require ((c.type = .void ∧ c.addrTrans.guardBits = 0) ∨ mayOverwrite = true) .panic
  -- kept in an `int`; a guard that gets here has at most 22 significant bits
  let guard ← extractBits64 addr.num 0 remaining
  let s ←
    if remaining ≠ c.addrTrans.guardBits ∨ guard ≠ c.addrTrans.guard then do
      let word ← assertSome (AddrTrans.setGuardSubpage guard remaining 0 1)
      let new ← assertSome (Cap.copyX c c 2 ⟨.default, word⟩)
      pure (s.write pte new)
    else pure s
  if env.debug then checkSlot fuel s addr pte
  pure s

/-- `as_build`: the slot for `addr`, or `none` for `NULL`. -/
def asBuild (env : BuildEnv) (fuel : ℕ) (addr : VgAddr) (mayOverwrite : Bool) (s : Shadow) :
    Except Fault (Option ShadowPtr × Shadow) := do
  require (addr ≠ .void) .assertion
  match ← buildLoop env fuel addr fuel s .root addr.depth with
  | .inl s => pure (none, s)
  | .inr (s, pte, remaining) => do
    let s ← buildFinish env fuel addr mayOverwrite s pte remaining
    pure (some pte, s)

/-- `as_insert`: build the slot, then `vg_cap_copy_simple` the capability into it. -/
def asInsert (env : BuildEnv) (fuel : ℕ) (addr : VgAddr) (source : Cap) (s : Shadow) :
    Except Fault (ShadowPtr × Shadow) := do
  match ← asBuild env fuel addr true s with
  | (none, _) => .error .assertion
  | (some slot, s) => do
    let new ← assertSome (Cap.copySimple (s.read slot) source)
    pure (slot, s.write slot new)

end Viengoos
