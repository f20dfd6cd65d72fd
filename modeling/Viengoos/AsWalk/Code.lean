import Viengoos.Lib.Machine
import Viengoos.Shadow

/-!
# The two walks of the address space

`as_walk` calls a callback for every slot of the address space, depth first. It is written twice.
Once the shadow page tables exist, a recursive function goes down them. Before that the stack is
tiny and there are no shadow page tables: the loop keeps the index of the child it visits at each
level in an array, asks the kernel for one capability after the other, and after each slot starts
over at the root.

Both are modelled over the same tree, the shadow page tables, which mirror the kernel's. The
callback is an arbitrary function of its arguments and its cookie; a `Journal` holds the cookie
together with the calls made so far.
-/

namespace Viengoos

open Outcome

/-- The value of `enum vg_cap_type`. -/
def CapType.code : CapType → ℕ
  | .void => 0
  | .page => 1
  | .rpage => 2
  | .cappage => 3
  | .rcappage => 4
  | .folio => 5
  | .activity => 6
  | .activityControl => 7
  | .thread => 8
  | .messenger => 9
  | .rmessenger => 10

namespace AsWalk

variable {S : Type}

/-- The arguments of a call of the callback, but for the cookie. -/
structure Visit where
  addr : VgAddr
  type : CapType
  properties : CapProperties
  writable : Bool
deriving DecidableEq

/-- What the callback has been called with, and its cookie. -/
structure Journal (S : Type) where
  cookie : S
  calls : List Visit
deriving DecidableEq

/-- The arguments of `as_walk`. -/
structure Request (S : Type) where
  visit : S → Visit → S × ℤ
  types : BitVec 32

/-- `if (((1 << type) & types)) r = visit (…)`, with 0 for a callback that is not called. -/
def Request.consider (req : Request S) (v : Visit) (j : Journal S) : Journal S × ℤ :=
  if req.types.getLsbD v.type.code then
    (⟨(req.visit j.cookie v).1, j.calls ++ [v]⟩, (req.visit j.cookie v).2)
  else (j, 0)

/-- `slots_log2` of an object that a walk goes down into. -/
def tableWidth (type : CapType) (trans : AddrTrans) : Option ℕ :=
  match type with
  | .cappage | .rcappage => some trans.subpageSizeLog2
  | .folio => some 7
  | _ => none

/-! ### The recursive walk -/

/-- `for (i = …; i < (1 << slots_log2); i ++)` over the `k` slots from `i` on, which a non-zero
value leaves. -/
def slotLoop (body : ℕ → Journal S → Except Fault (Journal S × ℤ)) :
    ℕ → ℕ → Journal S → Except Fault (Journal S × ℤ)
  | 0, _, j => .ok (j, 0)
  | k + 1, i, j => do
    let (j, r) ← body i j
    if r ≠ 0 then .ok (j, r) else slotLoop body k (i + 1) j

/-- `do_walk` after the callback: `walk` walks a slot of the object. The slots are taken from the
start of the object, whatever window the capability gives. -/
def walkInto (walk : ℕ → VgAddr → Bool → Journal S → Except Fault (Journal S × ℤ)) (c : Cap)
    (addr : VgAddr) (writable : Bool) (j : Journal S) : Except Fault (Journal S × ℤ) :=
  if vgAddrBits < addr.depth + c.addrTrans.guardBits then .ok (j, 0)
  else do
    let addr ← addr.extend c.addrTrans.guard c.addrTrans.guardBits
    match tableWidth c.type c.addrTrans with
    | none => .ok (j, 0)
    | some w =>
      if vgAddrBits < addr.depth + w then .ok (j, 0)
      else do
        -- `&shadow->caps[i]` of a null pointer
        require (c.oid ≠ 0) .panic
        slotLoop (fun i j => do
          let a ← addr.extend i w
          walk i a (writable && c.type != .rcappage) j) (2 ^ w) 0 j

/-- `do_walk`. -/
def doWalk (s : Shadow) (req : Request S) :
    ℕ → ShadowPtr → VgAddr → Bool → Journal S → Except Fault (Journal S × ℤ)
  | 0, _, _, _, _ => .error .outOfFuel
  | n + 1, p, addr, writable, j =>
    let c := s.read p
    let (j, r) := req.consider ⟨addr, c.type, c.properties, writable⟩ j
    if r = -1 then .ok (j, 0)
    else if r ≠ 0 then .ok (j, r)
    else walkInto (fun i a w j => doWalk s req n (.slot c.oid i) a w j) c addr writable j

/-- `VG_ADDR (0, 0)`. -/
def rootAddr : VgAddr := VgAddr.ofNum 0 0 (by decide) (by decide)

/-- `as_walk` once the shadow page tables are there. -/
def asWalkRecursive (s : Shadow) (req : Request S) (fuel : ℕ) (cookie : S) :
    Except Fault (Journal S × ℤ) :=
  doWalk s req fuel .root rootAddr true ⟨cookie, []⟩

/-! ### The iterative walk -/

/-- `vg_cap_read`, as the kernel answers it: void where the lookup fails, and the type is void also
where there is no object. -/
def capRead (s : Shadow) (look : ℕ) (addr : VgAddr) : Except Fault (CapType × CapProperties) := do
  let (_, ret) ← asLookupRel Shadow.memory look .root addr none .wantCap s
  let c := (ret.map LookupRet.cap).getD Cap.void
  .ok (if c.oid = 0 then .void else c.type, c.properties)

/-- Where the loop stands: at `restart` (`none`), or at the head of `for (;;)` with these values of
`addr` and `writable`. `child` is the array up to `depth`, the last level first. -/
structure IterState (S : Type) where
  here : Option (VgAddr × Bool)
  child : List ℕ
  journal : Journal S

/-- What a turn leads to: another turn, or `return`. -/
abbrev IterTurn (S : Type) := IterState S ⊕ (Journal S × ℤ)

/-- `child[depth - 1] ++; goto restart`. At the root this writes before the array. -/
def nextChild (j : Journal S) : List ℕ → Except Fault (IterTurn S)
  | [] => .error .panic
  | i :: cs => .ok (.inl ⟨none, (i + 1) :: cs, j⟩)

/-- `depth --`, the `return 0` at the root's children, and on to the next child. At the root `depth`
becomes negative: this writes before the array, and then `assert (depth >= 0)` fails. -/
def pop (j : Journal S) : List ℕ → Except Fault (IterTurn S)
  | [] => .error .assertion
  | [_] => .ok (.inr (j, 0))
  | _ :: i :: cs => .ok (.inl ⟨none, (i + 1) :: cs, j⟩)

/-- `slots_log2` in the loop that goes down again from the root. -/
def pathWidth (type : CapType) (trans : AddrTrans) : Except Fault ℕ :=
  match type with
  | .cappage | .rcappage => .ok trans.subpageSizeLog2
  | .folio => .ok 7
  | .thread | .messenger => .ok 2
  | _ => .error .assertion

/-- The loop over `d < depth` after `restart`: the slot that the indices lead to, `none` where the
last one is past the end of its object. -/
def followPath (s : Shadow) (look : ℕ) : List ℕ → Except Fault (Option (VgAddr × Bool))
  | [] => .ok (some (rootAddr, true))
  | i :: cs => do
    match ← followPath s look cs with
    | none => .error .assertion
    | some (addr, writable) =>
      let (type, properties) ← capRead s look addr
      let addr ← addr.extend properties.addrTrans.guard properties.addrTrans.guardBits
      let w ← pathWidth type properties.addrTrans
      require (i ≤ 2 ^ w) .assertion
      if i = 2 ^ w then .ok none
      else do
        let addr ← addr.extend i w
        .ok (some (addr, writable && type != .rcappage))

/-- The rest of a turn of `for (;;)` after the callback. -/
def descend (child : List ℕ) (addr : VgAddr) (writable : Bool) (type : CapType)
    (trans : AddrTrans) (j : Journal S) : Except Fault (IterTurn S) :=
  if vgAddrBits < addr.depth + trans.guardBits then nextChild j child
  else do
    let addr ← addr.extend trans.guard trans.guardBits
    match tableWidth type trans with
    | none => if child = [] then .ok (.inr (j, 0)) else nextChild j child
    | some w =>
      if vgAddrBits < addr.depth + w then nextChild j child
      else do
        let addr ← addr.extend 0 w
        -- `child[1 + VG_ADDR_BITS]`
        require (child.length < 1 + vgAddrBits) .panic
        .ok (.inl ⟨some (addr, writable), 0 :: child, j⟩)

/-- One turn: from `restart` to the head of the loop, or through its body. -/
def iterTurn (s : Shadow) (req : Request S) (look : ℕ) (x : IterState S) :
    Except Fault (IterTurn S) :=
  match x.here with
  | none => do
    match ← followPath s look x.child with
    | none => pop x.journal x.child
    | some here => .ok (.inl { x with here := some here })
  | some (addr, writable) => do
    let (type, properties) ← capRead s look addr
    let (j, r) := req.consider ⟨addr, type, properties, writable⟩ x.journal
    if r = -1 then pop j x.child
    else if r ≠ 0 then .ok (.inr (j, r))
    else descend x.child addr writable type properties.addrTrans j

/-- `as_walk` before there are shadow page tables. `look` bounds the lookups in the kernel. -/
def asWalkIterative (s : Shadow) (req : Request S) (look fuel : ℕ) (cookie : S) :
    Except Fault (Journal S × ℤ) :=
  Machine.run .outOfFuel (iterTurn s req look) fuel ⟨none, [], ⟨cookie, []⟩⟩

end AsWalk

end Viengoos
