import Viengoos.AsBuild.Tree
import Viengoos.AsWalk.Code

/-!
# The loop as a recursion

A **place** is a slot that a walk may get to, with the child indices on the way and its address. The
iterative walk, which only ever has the indices, finds the slot again (`Place.followPath`) because
the kernel resolves the address to it (`Place.capRead`).

The loop is a recursion too (`leaveWalk`), which differs from `do_walk` in two things. A value of -1
makes it leave the object that holds the slot. The first slot of an object, to which it goes down
without a restart, is reported with the writability of the slot above.

The simulation is in continuation-passing style: `resume cs out` is the turn that is left to do when
the slot at `cs` has been walked with outcome `out`. `leaveWalk_simulates` shows that the loop, put
at the head of `for (;;)` with that slot, goes on with it.
-/

namespace Viengoos

open BitString Outcome Cap Shadow

namespace AsWalk

variable {S : Type} {s : Shadow} {req : Request S} {look n : ℕ}

/-! ### Places -/

/-- The callback may let the walk go below a slot with a capability. -/
def Request.Enters (req : Request S) (a : VgAddr) (c : Cap) : Prop :=
  ∃ writable j, (req.consider ⟨a, c.type, c.properties, writable⟩ j).2 = 0

/-- A walk goes down from the slot `p` at address `a`, into an object of `2 ^ w` slots. -/
structure Into (s : Shadow) (req : Request S) (a : VgAddr) (p : ShadowPtr) (w : ℕ) : Prop where
  enters : req.Enters a (s.read p)
  width : tableWidth (s.read p).type (s.read p).addrTrans = some w
  fits : a.depth + (s.read p).addrTrans.guardBits + w ≤ vgAddrBits

/-- The slot `p` at address `a` that the indices `cs` lead to, the last one first, and whether it is
writable. -/
inductive Place (s : Shadow) (req : Request S) : List ℕ → VgAddr → ShadowPtr → Bool → Prop
  | root : Place s req [] rootAddr .root true
  | slot {cs : List ℕ} {a a₁ a₂ : VgAddr} {p : ShadowPtr} {path : Bool} {w i : ℕ} :
      Place s req cs a p path → Into s req a p w →
      a.extend (s.read p).addrTrans.guard (s.read p).addrTrans.guardBits = .ok a₁ →
      i < 2 ^ w → a₁.extend i w = .ok a₂ →
      Place s req (i :: cs) a₂ (.slot (s.read p).oid (indexBase (s.read p) + i))
        (path && (s.read p).type != .rcappage)

/-- A capability tree without dangling capabilities, and with guards and windows such as the
accessors of `addr-trans.h` build. -/
structure WellFormed (s : Shadow) (req : Request S) : Prop where
  guard : ∀ {cs a p path}, Place s req cs a p path → (s.read p).GuardOk
  window : ∀ {cs a p path}, Place s req cs a p path → (s.read p).addrTrans.subpagesLog2.val ≤ 8
  object : ∀ {cs a p path}, Place s req cs a p path → (s.read p).type ≠ .void → (s.read p).oid ≠ 0

/-- Windows that a walk goes into start at the first slot and have more than one, and the object of
the root fits in an address. -/
structure Uniform (s : Shadow) (req : Request S) : Prop where
  window : ∀ {cs a p path w}, Place s req cs a p path → Into s req a p w →
    indexBase (s.read p) = 0 ∧ 0 < w
  root : ∀ w, tableWidth s.root.type s.root.addrTrans = some w →
    s.root.addrTrans.guardBits + w ≤ vgAddrBits

variable {trans : AddrTrans} {type : CapType} {j : Journal S} {res : Journal S × ℤ} {cs : List ℕ}
  {p : ShadowPtr} {a : VgAddr} {i w : ℕ}

section Uniform

variable {cs : List ℕ} {a a₁ : VgAddr} {p : ShadowPtr} {w : ℕ}

/-- A table that the walk goes down into is a cappage, or a folio. -/
theorem tableWidth_cases (h : tableWidth type trans = some w) :
    (type = .cappage ∨ type = .rcappage) ∧ w = trans.subpageSizeLog2 ∨
      type = .folio ∧ w = 7 := by
  cases type <;> simp_all [tableWidth]

theorem pathWidth_eq (h : tableWidth type trans = some w) :
    pathWidth type trans = .ok w := by
  rcases tableWidth_cases h with ⟨rfl | rfl, rfl⟩ | ⟨rfl, rfl⟩ <;> rfl

section

variable {path : Bool} (h : Place s req cs a p path) (hwf : WellFormed s req) (hu : Uniform s req)
  (hlook : vgAddrBits < look)

theorem Into.type_ne_void (hin : Into s req a p w) : (s.read p).type ≠ .void := by
  intro h
  simpa [h, tableWidth] using hin.width

include h hwf

theorem Place.indexWidth_eq (hw : tableWidth (s.read p).type (s.read p).addrTrans = some w) :
    indexWidth (s.read p) = some w := by
  rcases tableWidth_cases hw with ⟨htype | htype, rfl⟩ | ⟨htype, rfl⟩
  · simp [indexWidth, htype, hwf.window h]
  · simp [indexWidth, htype, hwf.window h]
  · simp [indexWidth, htype]

include hu

/-- The kernel walks to every place, whatever follows its address. -/
theorem Place.walks :
    a ≠ .void ∧ cs.length ≤ a.depth ∧ a.depth ≤ vgAddrBits ∧
      ∃ hs : List Hop, hs.length ≤ a.depth ∧ ∀ key b, bits (a.depth + b.length) key = a.bits ++ b →
        Walks memory key s .root (a.depth + b.length) hs s p b.length := by
  induction h with
  | root =>
    refine ⟨VgAddr.ofNum_ne_void _ _, Nat.zero_le _, by simp [rootAddr], [], Nat.zero_le _, ?_⟩
    intro key b _
    rw [rootAddr, VgAddr.depth_ofNum, Nat.zero_add]
    exact .nil
  | @slot cs a a₁ a₂ p path w i hpl hin hg hi hx ih =>
    obtain ⟨hne, hcs, hle, hs, hlen, hwalk⟩ := ih
    have hguard := hwf.guard hpl
    have hpos := (hu.window hpl hin).2
    have hfit := hin.fits
    obtain ⟨hne₁, hbits₁, hdepth₁⟩ := VgAddr.bits_of_extend hne (by omega) hguard hg
    obtain ⟨hne₂, hbits₂, hdepth₂⟩ := VgAddr.bits_of_extend hne₁ (by omega) hi hx
    set c := s.read p
    refine ⟨hne₂, by simp only [List.length_cons]; omega, by omega,
      hs ++ [⟨c, c.oid, w, i⟩], by simp only [List.length_append, List.length_singleton]; omega, ?_⟩
    intro key b hbits
    set rest : List Bool := bits c.addrTrans.guardBits c.addrTrans.guard ++ (bits w i ++ b)
      with hrest
    have hlong : a.depth + rest.length = a₂.depth + b.length := by
      simp only [hrest, List.length_append, length_bits]
      omega
    have hall : bits (a.depth + rest.length) key = a.bits ++ rest := by
      rw [hlong, hbits, hbits₂, hbits₁, hrest]
      simp only [List.append_assoc]
    have hrest' : bits rest.length key = rest :=
      (field_eq_of_bits (VgAddr.num_lt hne) (by rw [hall, VgAddr.bits])).2
    rw [← hlong]
    refine (hwalk key rest hall).snoc ?_
    exact steps_of_bits hguard (hpl.indexWidth_eq hwf hin.width) hpos
      (hwf.object hpl hin.type_ne_void) hi hrest'

include hlook

/-- **The kernel reads the capability of a place at its address.** -/
theorem Place.capRead :
    capRead s look a = .ok ((s.read p).type, (s.read p).properties) := by
  obtain ⟨-, -, hle, hs, hlen, hwalk⟩ := h.walks hwf hu
  have hfind := hwalk a.num [] (by simp [VgAddr.bits])
  let ret : LookupRet ShadowPtr := ⟨p, s.read p, strongPath (hs.map Hop.cap), hs, false⟩
  have hres : Resolves memory s .root a none .wantCap s ret :=
    { walk := ⟨0, hfind, .inl ⟨rfl, rfl, fun hm => by cases hm⟩⟩
      cap := rfl
      admitted := fun c _ hc => by simp [Refused, refusesWeak] at hc
      type_ok := rfl
      slot_ok := fun hm => by cases hm
      writable := by simp [ret, LookupRet.seen] }
  have hlook' : ret.hops.length < look := by simp only [ret]; omega
  rw [AsWalk.capRead, asLookupRel_complete hres hlook', ok_bind]
  simp only [Option.map_some, Option.getD_some, ret]
  by_cases ho : (s.read p).oid = 0
  · have hvoid : (s.read p).type = .void := by
      by_contra hne
      exact hwf.object h hne ho
    rw [if_pos ho, hvoid]
  · rw [if_neg ho]

/-- **The indices lead to the place again.** -/
theorem Place.followPath :
    followPath s look cs = .ok (some (a, path)) := by
  induction h with
  | root => rfl
  | @slot cs a a₁ a₂ p path w i hpl hin hg hi hx ih =>
    rw [AsWalk.followPath, ih, ok_bind]
    simp only [hpl.capRead hwf hu hlook, ok_bind, properties, hg, pathWidth_eq hin.width,
      require_of hi.le, if_neg hi.ne, hx]

/-- Past the last slot of an object there is none. -/
theorem Place.followPath_past (hw : tableWidth (s.read p).type (s.read p).addrTrans = some w)
    (hg : a.extend (s.read p).addrTrans.guard (s.read p).addrTrans.guardBits = .ok a₁) :
    AsWalk.followPath s look (2 ^ w :: cs) = .ok none := by
  rw [AsWalk.followPath, h.followPath hwf hu hlook, ok_bind]
  simp only [h.capRead hwf hu hlook, ok_bind, properties, hg, pathWidth_eq hw,
    require_of le_rfl, if_true]

end

end Uniform

/-! ### The recursion -/

/-- **The loop as a recursion.** `here` is the writability that the loop reports for the slot, and
`path` what it would be after a restart. A value of -1 is handed up, to make the loop over the slots
of the object end. -/
def leaveWalk (s : Shadow) (req : Request S) :
    ℕ → ShadowPtr → VgAddr → Bool → Bool → Journal S → Except Fault (Journal S × ℤ)
  | 0, _, _, _, _, _ => .error .outOfFuel
  | n + 1, p, addr, here, path, j =>
    let c := s.read p
    let (j, r) := req.consider ⟨addr, c.type, c.properties, here⟩ j
    if r ≠ 0 then .ok (j, r)
    else do
      let (j, r) ← walkInto (fun i a path j =>
        leaveWalk s req n (.slot c.oid i) a (if i = 0 then here else path) path j) c addr path j
      .ok (j, if r = -1 then 0 else r)

/-- The loop from this state **ends** with `res`. -/
abbrev Ends (s : Shadow) (req : Request S) (look : ℕ) (x : IterState S) (res : Journal S × ℤ) :
    Prop :=
  Machine.Ends .outOfFuel (iterTurn s req look) x res

/-- The turn that is left to do when the slot at `cs` has been walked with an outcome. -/
def resume (cs : List ℕ) (out : Journal S × ℤ) : Except Fault (IterTurn S) :=
  if out.2 = -1 then pop out.1 cs
  else if out.2 ≠ 0 then .ok (.inr out)
  else match cs with
    | [] => .ok (.inr out)
    | i :: cs => .ok (.inl ⟨none, (i + 1) :: cs, out.1⟩)

/-- The loop goes on with a turn to `res`. -/
abbrev Leads (s : Shadow) (req : Request S) (look : ℕ) (t : Except Fault (IterTurn S))
    (res : Journal S × ℤ) : Prop :=
  Machine.Leads .outOfFuel (iterTurn s req look) t res

theorem ends_iff {x : IterState S} :
    Ends s req look x res ↔ Leads s req look (iterTurn s req look x) res :=
  Machine.ends_iff_leads

@[simp] theorem resume_next : resume (i :: cs) (j, 0) = .ok (.inl ⟨none, (i + 1) :: cs, j⟩) := by
  simp [resume]

theorem resume_of_stop {r : ℤ} (hr : r ≠ 0) (hleave : r ≠ -1) :
    resume cs (j, r) = .ok (.inr (j, r)) := by
  simp [resume, hr, hleave]

/-- To leave an object is to be done with its slot. -/
theorem resume_leave : resume (i :: cs) (j, -1) = resume cs (j, 0) := by
  cases cs <;> simp [resume, pop]

theorem resume_nextChild (hcs : cs ≠ []) : resume cs (j, 0) = nextChild j cs := by
  cases cs with
  | nil => exact absurd rfl hcs
  | cons i cs => simp [resume, nextChild]

section Turns

variable {path : Bool} {a₁ : VgAddr} (h : Place s req cs a p path) (hwf : WellFormed s req)
  (hu : Uniform s req) (hlook : vgAddrBits < look)

include h hwf hu hlook

/-- At `restart`, the loop goes back to its place. -/
theorem Place.ends_restart :
    Ends s req look ⟨none, cs, j⟩ res ↔ Ends s req look ⟨some (a, path), cs, j⟩ res := by
  refine Machine.ends_next ?_
  rw [iterTurn]
  simp only [h.followPath hwf hu hlook, ok_bind]

/-- At `restart` behind the last slot of an object, the loop leaves the object. -/
theorem Place.turn_past (hw : tableWidth (s.read p).type (s.read p).addrTrans = some w)
    (hg : a.extend (s.read p).addrTrans.guard (s.read p).addrTrans.guardBits = .ok a₁) :
    iterTurn s req look ⟨none, 2 ^ w :: cs, j⟩ = resume cs (j, 0) := by
  rw [iterTurn]
  simp only [h.followPath_past hwf hu hlook hw hg, ok_bind]
  cases cs <;> simp [resume, pop]

end Turns

/-- What the recursion and the loop do with one slot, for the slots of one depth. -/
def Simulates (s : Shadow) (req : Request S) (look n : ℕ) : Prop :=
  ∀ {cs a p path}, Place s req cs a p path → vgAddrBits - a.depth < n → ∀ here j, ∃ out,
    leaveWalk s req n p a here path j = .ok out ∧
      ∀ res, Ends s req look ⟨some (a, here), cs, j⟩ res ↔ Leads s req look (resume cs out) res

/-- A root that is a table fits in an address. -/
theorem Place.nonempty_of_deep {path : Bool} (h : Place s req cs a p path) (hu : Uniform s req)
    (hw : tableWidth (s.read p).type (s.read p).addrTrans = some w)
    (hdeep : vgAddrBits < a.depth + (s.read p).addrTrans.guardBits + w) : cs ≠ [] := by
  rintro rfl
  cases h
  have hroot : s.root.addrTrans.guardBits + w ≤ vgAddrBits := hu.root w hw
  simp only [rootAddr, VgAddr.depth_ofNum, Shadow.read] at hdeep
  omega

section Object

variable {path : Bool} {a₁ : VgAddr} (ih : Simulates s req look n) (hwf : WellFormed s req)
  (hu : Uniform s req) (hlook : vgAddrBits < look) (h : Place s req cs a p path)
  (hn : vgAddrBits - a.depth < n + 1)

include ih hwf hu h hn

/-- One slot of an object, and then the others. -/
theorem slot_simulates (hin : Into s req a p w)
    (hg : a.extend (s.read p).addrTrans.guard (s.read p).addrTrans.guardBits = .ok a₁)
    (body : ℕ → Journal S → Except Fault (Journal S × ℤ)) (here : Bool) (hi : i < 2 ^ w)
    (hbody : body i j = do
      let a ← a₁.extend i w
      leaveWalk s req n (.slot (s.read p).oid i) a here (path && (s.read p).type != .rcappage) j)
    {k : ℕ} (hrest : ∀ j, ∃ out, slotLoop body k (i + 1) j = .ok out ∧ ∀ res,
      Ends s req look ⟨none, (i + 1) :: cs, j⟩ res ↔
        Leads s req look (resume cs (out.1, if out.2 = -1 then 0 else out.2)) res) :
    ∃ a₂ out, a₁.extend i w = .ok a₂ ∧ slotLoop body (k + 1) i j = .ok out ∧ ∀ res,
      Ends s req look ⟨some (a₂, here), i :: cs, j⟩ res ↔
        Leads s req look (resume cs (out.1, if out.2 = -1 then 0 else out.2)) res := by
  obtain ⟨hne, -⟩ := h.walks hwf hu
  obtain ⟨hbase, hpos⟩ := hu.window h hin
  have hfit := hin.fits
  obtain ⟨hne₁, -, hdepth₁⟩ := VgAddr.bits_of_extend hne (by omega) (hwf.guard h) hg
  obtain ⟨a₂, hx, -⟩ := VgAddr.exists_extend hne₁ (by omega) hi
  obtain ⟨-, -, hdepth₂⟩ := VgAddr.bits_of_extend hne₁ (by omega) hi hx
  obtain ⟨⟨j', r⟩, hrun, hsim⟩ := ih (Place.slot h hin hg hi hx) (by omega) here j
  rw [hbase, Nat.zero_add] at hrun
  rw [hx, ok_bind, hrun] at hbody
  simp only [slotLoop, hbody, ok_bind]
  by_cases hr : r = 0
  · subst hr
    obtain ⟨out, hloop, hiff⟩ := hrest j'
    refine ⟨a₂, out, hx, by simpa using hloop, fun res => ?_⟩
    rw [hsim, resume_next, ← hiff]
    exact Machine.leads_next
  · refine ⟨a₂, (j', r), hx, by simp [hr], fun res => ?_⟩
    rw [hsim]
    by_cases hleave : r = -1
    · subst hleave
      simp [resume_leave]
    · simp only [if_neg hleave, resume_of_stop hr hleave]

include hlook

/-- **The slots of an object** behind the first one. -/
theorem slots_simulate (hin : Into s req a p w)
    (hg : a.extend (s.read p).addrTrans.guard (s.read p).addrTrans.guardBits = .ok a₁)
    (body : ℕ → Journal S → Except Fault (Journal S × ℤ))
    (hbody : ∀ i j, i ≠ 0 → body i j = do
      let a ← a₁.extend i w
      leaveWalk s req n (.slot (s.read p).oid i) a (path && (s.read p).type != .rcappage)
        (path && (s.read p).type != .rcappage) j) :
    ∀ k i j, i + k = 2 ^ w → i ≠ 0 → ∃ out, slotLoop body k i j = .ok out ∧ ∀ res,
      Ends s req look ⟨none, i :: cs, j⟩ res ↔
        Leads s req look (resume cs (out.1, if out.2 = -1 then 0 else out.2)) res := by
  intro k
  induction k with
  | zero =>
    rintro i j rfl -
    refine ⟨(j, 0), rfl, fun res => ?_⟩
    rw [ends_iff, h.turn_past hwf hu hlook hin.width hg]
    simp
  | succ k ihk =>
    intro i j hik hi0
    have hi : i < 2 ^ w := by omega
    obtain ⟨a₂, out, hx, hloop, hiff⟩ := slot_simulates ih hwf hu h hn hin hg body _ hi
      (hbody i j hi0) fun j => ihk (i + 1) j (by omega) (by omega)
    refine ⟨out, hloop, fun res => ?_⟩
    rw [(Place.slot h hin hg hi hx).ends_restart hwf hu hlook, hiff]

/-- **What is below a slot**, after the callback. -/
theorem walkInto_simulates (henters : req.Enters a (s.read p)) (here : Bool) (j : Journal S) :
    ∃ out, walkInto (fun i a path j =>
        leaveWalk s req n (.slot (s.read p).oid i) a (if i = 0 then here else path) path j)
        (s.read p) a path j = .ok out ∧
      ∀ res, Leads s req look (descend cs a here (s.read p).type (s.read p).addrTrans j) res ↔
        Leads s req look (resume cs (out.1, if out.2 = -1 then 0 else out.2)) res := by
  obtain ⟨hne, hcs, hle, -⟩ := h.walks hwf hu
  simp only [walkInto, descend]
  by_cases hdeep : vgAddrBits < a.depth + (s.read p).addrTrans.guardBits
  · -- a guard has at most 63 bits, so this is not the root
    have hcs' : cs ≠ [] := by
      rintro rfl
      cases h
      simp only [rootAddr, VgAddr.depth_ofNum, Shadow.read, AddrTrans.guardBits, vgAddrBits]
        at hdeep
      omega
    simp only [if_pos hdeep]
    exact ⟨(j, 0), rfl, fun res => by simp [resume_nextChild hcs']⟩
  obtain ⟨a₁, hg, -⟩ := VgAddr.exists_extend hne (by omega) (hwf.guard h)
  obtain ⟨hne₁, -, hdepth₁⟩ := VgAddr.bits_of_extend hne (by omega) (hwf.guard h) hg
  simp only [if_neg hdeep, hg, ok_bind]
  cases hw : tableWidth (s.read p).type (s.read p).addrTrans with
  | none =>
    refine ⟨(j, 0), rfl, fun res => ?_⟩
    cases cs with
    | nil => simp [resume]
    | cons i cs => simp [nextChild]
  | some w =>
    by_cases hwide : vgAddrBits < a₁.depth + w
    · have hcs' : cs ≠ [] := h.nonempty_of_deep hu hw (by omega)
      simp only [if_pos hwide]
      exact ⟨(j, 0), rfl, fun res => by simp [resume_nextChild hcs']⟩
    have hin : Into s req a p w := ⟨henters, hw, by omega⟩
    have hroom : cs.length < 1 + vgAddrBits := by omega
    obtain ⟨k, hk⟩ : ∃ k, 2 ^ w = k + 1 := Nat.exists_eq_succ_of_ne_zero (Nat.two_pow_pos w).ne'
    simp only [if_neg hwide, require_of (hwf.object h hin.type_ne_void), ok_bind, hk]
    -- the loop goes to the first slot without a restart
    let body : ℕ → Journal S → Except Fault (Journal S × ℤ) := fun i j => do
      let a ← a₁.extend i w
      leaveWalk s req n (.slot (s.read p).oid i) a
        (if i = 0 then here else path && (s.read p).type != .rcappage)
        (path && (s.read p).type != .rcappage) j
    have hrest := slots_simulate ih hwf hu hlook h hn hin hg body
      (fun i j hi0 => by simp only [body, if_neg hi0]) k 1
    obtain ⟨a₂, out, hx, hloop, hiff⟩ := slot_simulates ih hwf hu h hn hin hg body here
      (Nat.two_pow_pos w) rfl fun j => hrest j (by omega) (by decide)
    refine ⟨out, hloop, fun res => ?_⟩
    simp only [hx, ok_bind, require_of hroom]
    rw [← hiff]
    exact Machine.leads_next

end Object

/-- **The loop is the recursion.** -/
theorem leaveWalk_simulates (hwf : WellFormed s req) (hu : Uniform s req)
    (hlook : vgAddrBits < look) : ∀ n, Simulates s req look n := by
  intro n
  induction n with
  | zero =>
    intro cs a p path _ hn
    exact absurd hn (Nat.not_lt_zero _)
  | succ n ih =>
    intro cs a p path h hn here j
    rcases hcall : req.consider ⟨a, (s.read p).type, (s.read p).properties, here⟩ j with ⟨j', r⟩
    have hturn : iterTurn s req look ⟨some (a, here), cs, j⟩ =
        if r = -1 then pop j' cs else if r ≠ 0 then .ok (.inr (j', r))
        else descend cs a here (s.read p).type (s.read p).addrTrans j' := by
      rw [iterTurn]
      simp only [h.capRead hwf hu hlook, ok_bind, hcall]
      rfl
    rw [leaveWalk]
    simp only [hcall]
    by_cases hstop : r ≠ 0
    · refine ⟨(j', r), by rw [if_pos hstop], fun res => ?_⟩
      rw [ends_iff, hturn, resume.eq_def, if_pos hstop, if_pos hstop]
    · have henters : req.Enters a (s.read p) := ⟨here, j, by rw [hcall]; exact not_not.1 hstop⟩
      obtain ⟨out, hrun, hiff⟩ := walkInto_simulates ih hwf hu hlook h hn henters here j'
      refine ⟨(out.1, if out.2 = -1 then 0 else out.2), by rw [if_neg hstop, hrun]; rfl,
        fun res => ?_⟩
      have hleave : r ≠ -1 := fun heq => hstop (by rw [heq]; decide)
      rw [ends_iff, hturn, if_neg hleave, if_neg hstop, hiff]

/-- **What the loop returns**: what the recursion does, unless that asks to leave the root, where
the loop fails. -/
theorem asWalkIterative_ends (hwf : WellFormed s req) (hu : Uniform s req) (cookie : S) {n : ℕ}
    (hn : vgAddrBits < n) :
    ∃ out, leaveWalk s req n .root rootAddr true true ⟨cookie, []⟩ = .ok out ∧
      ∀ look, vgAddrBits < look → ∀ res,
        Ends s req look ⟨none, [], ⟨cookie, []⟩⟩ res ↔ out.2 ≠ -1 ∧ out = res := by
  have hroot : vgAddrBits - rootAddr.depth < n := by simpa [rootAddr] using hn
  obtain ⟨out, hrun, -⟩ := leaveWalk_simulates hwf hu (Nat.lt_succ_self vgAddrBits) n .root hroot
    true ⟨cookie, []⟩
  refine ⟨out, hrun, fun look hlook res => ?_⟩
  obtain ⟨out', hrun', hiff⟩ := leaveWalk_simulates hwf hu hlook n .root hroot true ⟨cookie, []⟩
  obtain rfl := Except.ok.inj (hrun.symm.trans hrun')
  rw [Place.root.ends_restart hwf hu hlook, hiff, resume.eq_def]
  by_cases hleave : out.2 = -1
  · simpa [hleave, pop] using Machine.not_leads_error
  · by_cases hzero : out.2 = 0 <;> simpa [hleave, hzero] using Machine.leads_done

end AsWalk

end Viengoos
