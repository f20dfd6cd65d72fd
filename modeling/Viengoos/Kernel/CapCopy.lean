import Viengoos.Kernel.Lookups

/-!
# Copying a capability in the kernel

`vg_cap_copy_x` as the kernel compiles it: the checks and the packing of `Cap.copyX`, with the
shootdown of the target between them. The shootdown looks objects up, so it changes the state even
when the copy is then refused; what it can do to the target itself is to void it, and only if the
object the target named is gone (`HeldOrStale`).

* `vgCapCopyX_attenuates` — a copy carries no more authority than its source, and a refused copy
  leaves the target.
* `slots_inherit` — in a run of requests, capabilities in slots derive from those at its start.
-/

namespace Viengoos

open Outcome Cap

namespace Kernel

/-- The shootdown of `vg_cap_copy_x`, if the translation changes. -/
def shootdownChanged (s : Kernel) (env : Env) (activity : ℕ) (p : CapPtr) (changes : Bool) :
    Except Fault Kernel :=
  if changes then s.capShootdown env.fuel activity env.junk p else pure s

/-- `vg_cap_copy_x`. -/
def vgCapCopyX (s : Kernel) (env : Env) (activity : ℕ) (p : CapPtr) (source : Cap) (flags : ℕ)
    (props : CapProperties) : Except Fault (Kernel × Bool) :=
  match Cap.copySubpage source flags props with
  | none => pure (s, false)
  | some sub => do
    let target := s.read p
    let s ← s.shootdownChanged env activity p (Cap.changesTranslation target source flags props sub)
    match Cap.copyStore target source flags props sub with
    | none => pure (s, false)
    | some c => pure (s.write p c, true)

/-! ### What a shootdown does to the slot it starts at -/

/-- The object a capability named is gone: another one of its OID is in memory. -/
def Gone (c : Cap) (s : Kernel) : Prop := ∃ d, s.desc c.oid = some d ∧ d.version ≠ c.version

/-- A slot of an object in memory holds `c`, or `c` **voided because its object is gone**. -/
def HeldOrStale (q : CapPtr) (o : ℕ) (c : Cap) (s : Kernel) : Prop :=
  (s.desc o).isSome = true ∧ (s.read q = c ∨ s.read q = { c with type := .void } ∧ Gone c s)

theorem Later.gone {s t : Kernel} (h : Later s t) {c : Cap} (hg : Gone c s) : Gone c t := by
  obtain ⟨d, hd, hv⟩ := hg
  obtain ⟨d', hd', -, hv', -⟩ := h.kept hd
  exact ⟨d', hd', hv'.trans_ne hv⟩

theorem Later.isSome {s t : Kernel} (h : Later s t) {o : ℕ} (ho : (s.desc o).isSome = true) :
    (t.desc o).isSome = true := by
  obtain ⟨d, hd⟩ := Option.isSome_iff_exists.1 ho
  obtain ⟨d', hd', -⟩ := h.kept hd
  simp [hd']

namespace HeldOrStale

variable {q : CapPtr} {o : ℕ} {c : Cap} {s t : Kernel}

/-- What leaves the slot alone. -/
theorem later (hlater : Later s t) (hread : t.read q = s.read q) (h : HeldOrStale q o c s) :
    HeldOrStale q o c t := by
  obtain ⟨ho, hslot⟩ := h
  refine ⟨hlater.isSome ho, ?_⟩
  rw [hread]
  exact hslot.imp_right fun ⟨hvoid, hgone⟩ => ⟨hvoid, hlater.gone hgone⟩

theorem key (h : HeldOrStale q o c s) :
    (s.read q).oid = c.oid ∧ (s.read q).version = c.version := by
  rcases h.2 with heq | ⟨heq, -⟩ <;> rw [heq] <;> exact ⟨rfl, rfl⟩

theorem keeps (hq : q.holder = some o) (activity : ℕ) (c : Cap) :
    Keeps activity (HeldOrStale q o c) where
  found {s o' d} policy hd h := by
    obtain ⟨u, hu, heq⟩ := objectFindSoft_spec hd activity policy
    refine h.later (objectFindSoft_touches (H := fun _ _ => True) s activity trivial).later ?_
    rw [heq, setDesc_read, hu.read]
  paged {s s' type oid version policy} hok h := by
    obtain ⟨-, -, -, hnone, u, hu, rfl⟩ := memoryObjectAlloc_spec hok
    have hne : o ≠ oid := by
      rintro rfl
      simpa [hnone] using h.1
    refine h.later (Later.paged hok) ?_
    rw [setDesc_read, hu.read, Later.read_framed_of_holder s hq hne]
  voided {s₀ s d} p h₀ h _ hd hstale := by
    by_cases hpq : q = p
    · -- the slot itself is voided: what it held named an object that is gone
      subst hpq
      obtain ⟨hoid, hversion⟩ := h₀.key
      rw [hoid] at hd
      rw [hversion] at hstale
      have hlater := Later.voidCap s q
      refine ⟨hlater.isSome h.1, .inr ⟨?_, hlater.gone ⟨d, hd, hstale⟩⟩⟩
      rw [voidCap, read_write_self s (CapPtr.stored_of_holder hq)]
      rcases h.2 with heq | ⟨heq, -⟩ <;> rw [heq]
    · exact h.later (Later.voidCap s p) (read_write_of_ne s hpq _)

theorem objectDescUnmap (h : HeldOrStale q o c s) (o' : ℕ) :
    HeldOrStale q o c (s.objectDescUnmap o') := by
  refine h.later (Later.objectDescUnmap s o') ?_
  rcases objectDescUnmap_spec s o' with ⟨heq, -⟩ | ⟨d, hw, hd, heq⟩
  · rw [heq]
  · rw [heq, status_read, setDesc_read]

theorem shootdownChanged {env : Env} {activity : ℕ} {p : CapPtr} {o : ℕ} {changes : Bool}
    {s t : Kernel} (hp : p.holder = some o) (ho : (s.desc o).isSome = true)
    (h : s.shootdownChanged env activity p changes = .ok t) :
    HeldOrStale p o (s.read p) t := by
  have hstart : HeldOrStale p o (s.read p) s := ⟨ho, .inl rfl⟩
  unfold Kernel.shootdownChanged at h
  split at h
  · exact (keeps hp activity (s.read p)).capShootdown (fun o' h => h.objectDescUnmap o') h hstart
  · exact pure_eq_ok.1 h ▸ hstart

end HeldOrStale

/-! ### Attenuation -/

/-- **Attenuation**: what a copy of `source` over `target` may be, for the flags and the properties
the caller gives. -/
structure Attenuates (target source : Cap) (flags : ℕ) (props : CapProperties) (c : Cap) :
    Prop where
  object : c.oid = source.oid ∧ c.version = source.version
  type : c.type = if copyWeaken flags then source.type.weaken else source.type
  window : ∀ i, c.InWindow i → source.InWindow i
  /-- A capability that is not a cappage's is not narrowed either. -/
  whole : source.type ≠ .cappage → source.type ≠ .rcappage → ∀ i, source.InWindow i → c.InWindow i
  guard : (c.addrTrans.guard, c.addrTrans.guardBits) =
    if copyAddrTransGuard flags then (props.addrTrans.guard, props.addrTrans.guardBits)
    else if copySourceGuard flags then (source.addrTrans.guard, source.addrTrans.guardBits)
    else (target.addrTrans.guard, target.addrTrans.guardBits)
  discardable : c.discardable =
    if copyDiscardableSet flags then props.policy.discardable else source.discardable
  priority : c.priority = if copyPrioritySet flags then props.policy.priority else source.priority

theorem attenuates_of_copyStore {target source c : Cap} {flags : ℕ} {props : CapProperties}
    {sub : ℕ × ℕ} (hsub : copySubpage source flags props = some sub)
    (h : copyStore target source flags props sub = some c) :
    Attenuates target source flags props c := by
  obtain ⟨hoid, hversion, htype, hdiscardable, hpriority, hguard, hbits, -⟩ := copyStore_spec h
  exact
    { object := ⟨hoid, hversion⟩
      type := htype
      window := fun _ => copyStore_window hsub h
      whole := fun hcap hrcap _ => copyStore_whole hsub h hcap hrcap
      guard := by rw [hguard, hbits]; rfl
      discardable := hdiscardable
      priority := hpriority }

/-- **Copies never amplify.** Whatever the flags and properties: a copy that succeeds stores an
attenuation of the source, and one that is refused leaves the slot as it was, but for voiding a
capability whose object is gone. -/
theorem vgCapCopyX_attenuates {env : Env} {activity o flags : ℕ} {p : CapPtr} {source : Cap}
    {props : CapProperties} {s t : Kernel} {copied : Bool} (hp : p.holder = some o)
    (ho : (s.desc o).isSome = true)
    (h : s.vgCapCopyX env activity p source flags props = .ok (t, copied)) :
    (copied = true → Attenuates (s.read p) source flags props (t.read p)) ∧
      (copied = false → t.read p = s.read p ∨
        t.read p = { s.read p with type := .void } ∧ Gone (s.read p) t) := by
  unfold vgCapCopyX at h
  split at h
  · obtain ⟨⟩ := pure_eq_ok.1 h
    exact ⟨by simp, fun _ => .inl rfl⟩
  · next sub hsub =>
    obtain ⟨u, hshoot, hrest⟩ := bind_eq_ok.1 h
    split at hrest
    · obtain ⟨⟩ := pure_eq_ok.1 hrest
      exact ⟨by simp, fun _ => (HeldOrStale.shootdownChanged hp ho hshoot).2⟩
    · next c hstore =>
      obtain ⟨⟩ := pure_eq_ok.1 hrest
      refine ⟨fun _ => ?_, by simp⟩
      rw [read_write_self u (CapPtr.stored_of_holder hp)]
      exact attenuates_of_copyStore hsub hstore

/-- A cappage (object 2) whose first slot holds a capability to an earlier version of the page
(object 3). -/
def staleSlot : Kernel :=
  ofTypes [.activityControl, .cappage, .page]
    (fun o i => if o = 2 ∧ i = 0 then ⟨1, false, 0, .void, .page, 3⟩ else .void) 0

/-- A capability to the sixteen slots from 32 of the cappage. -/
def sixteenSlots : Cap := ⟨0, false, 0, ⟨2, 4, 0⟩, .cappage, 2⟩

/-- The capability is copied into the slot with a small guard. With a guard of 21 bits the word
does not have room for the subpage too: the copy is refused, and the stale capability voided. -/
theorem vgCapCopyX_attenuates_staleSlot :
    (∃ t, staleSlot.vgCapCopyX ⟨2, fun _ => .default⟩ 1 (.slot 2 0) sixteenSlots 2
        ⟨.default, ⟨1, 0, 3⟩⟩ = .ok (t, true) ∧
      Attenuates (staleSlot.read (.slot 2 0)) sixteenSlots 2 ⟨.default, ⟨1, 0, 3⟩⟩
        (t.read (.slot 2 0))) ∧
    ∃ t, staleSlot.vgCapCopyX ⟨2, fun _ => .default⟩ 1 (.slot 2 0) sixteenSlots 2
        ⟨.default, ⟨2 ^ 20, 0, 21⟩⟩ = .ok (t, false) ∧
      (t.read (.slot 2 0) = staleSlot.read (.slot 2 0) ∨
        t.read (.slot 2 0) = { staleSlot.read (.slot 2 0) with type := .void } ∧
          Gone (staleSlot.read (.slot 2 0)) t) := by
  have hcopied : ∃ t, staleSlot.vgCapCopyX ⟨2, fun _ => .default⟩ 1 (.slot 2 0) sixteenSlots 2
      ⟨.default, ⟨1, 0, 3⟩⟩ = .ok (t, true) := ⟨_, rfl⟩
  have hrefused : ∃ t, staleSlot.vgCapCopyX ⟨2, fun _ => .default⟩ 1 (.slot 2 0) sixteenSlots 2
      ⟨.default, ⟨2 ^ 20, 0, 21⟩⟩ = .ok (t, false) := ⟨_, rfl⟩
  obtain ⟨t, ht⟩ := hcopied
  obtain ⟨u, hu⟩ := hrefused
  exact ⟨⟨t, ht, (vgCapCopyX_attenuates (o := 2) rfl rfl ht).1 rfl⟩,
    u, hu, (vgCapCopyX_attenuates (o := 2) rfl rfl hu).2 rfl⟩

/-! ### Runs of requests -/

/-- What requests do with slots: they follow the capability in one, as a lookup does at each step,
rub one out (`VG_cap_rubout`), or copy the one at `a`, `i` (`vg_cap_copy_x`). -/
inductive SlotOp
  | follow (p : CapPtr)
  | rubout (p : CapPtr)
  | copy (p : CapPtr) (a i flags : ℕ) (props : CapProperties)

def SlotOp.exec (env : Env) (s : Kernel) (activity : ℕ) : SlotOp → Except Fault Kernel
  | follow p => do
    let r ← s.capToObject activity p
    pure r.1
  | rubout p => do
    let s ← s.capShootdown env.fuel activity env.junk p
    pure (s.write p .void)
  | copy p a i flags props => do
    let r ← s.vgCapCopyX env activity p (s.read (.slot a i)) flags props
    pure r.1

/-- A capability **derives** from another: it is to the same object, with no stronger type, and
reaches no further slot. -/
structure Derives (source c : Cap) : Prop where
  oid : c.oid = source.oid
  version : c.version = source.version
  type : c.type.NoStronger source.type
  window : ∀ i, c.InWindow i → source.InWindow i

theorem Derives.trans {c d e : Cap} (h : Derives c d) (h' : Derives d e) : Derives c e := by
  refine ⟨h'.oid.trans h.oid, h'.version.trans h.version, ?_,
    fun i hi => h.window i (h'.window i hi)⟩
  have htype := h.type
  have htype' := h'.type
  have hweaken : c.type.weaken.weaken = c.type.weaken := by cases c.type <;> rfl
  unfold CapType.NoStronger at *
  grind [CapType.weaken]

theorem Attenuates.derives {target source c : Cap} {flags : ℕ} {props : CapProperties}
    (h : Attenuates target source flags props c) : Derives source c := by
  refine ⟨h.object.1, h.object.2, ?_, h.window⟩
  rw [h.type]
  split
  · exact .inr (.inl rfl)
  · exact .inl rfl

/-- All capabilities in slots derive from such as were in slots before. -/
def Inherits (s t : Kernel) : Prop :=
  ∀ a i, (t.read (.slot a i)).type ≠ .void →
    ∃ b j, Derives (s.read (.slot b j)) (t.read (.slot a i))

namespace Inherits

variable {s t u : Kernel} {p : CapPtr}

theorem write {c : Cap} (h : Inherits s t)
    (hc : c.type ≠ .void → ∃ b j, Derives (s.read (.slot b j)) c) : Inherits s (t.write p c) := by
  intro a i
  rcases read_write t p (.slot a i) c with heq | heq <;> rw [heq]
  · exact h a i
  · exact hc

theorem later (h : Inherits s t) (hlater : Later t u) : Inherits s u := by
  intro a i
  rcases hlater.read (.slot a i) with heq | hvoid
  · exact heq ▸ h a i
  · exact fun hne => absurd hvoid hne

theorem shootdownChanged {env : Env} {activity : ℕ} {changes : Bool} (h : Inherits s t)
    (hok : t.shootdownChanged env activity p changes = .ok u) : Inherits s u := by
  unfold Kernel.shootdownChanged at hok
  split at hok
  · exact h.later (capShootdown_touches (H := fun _ _ => True) (fun _ => trivial)
      (fun _ => trivial) (fun _ _ _ => trivial) (fun _ => trivial) hok).later
  · exact pure_eq_ok.1 hok ▸ h

theorem exec {env : Env} {activity : ℕ} {op : SlotOp} (h : Inherits s t)
    (hok : op.exec env t activity = .ok u) : Inherits s u := by
  cases op with
  | follow p =>
    obtain ⟨_, hfollow, rfl⟩ := bind_pure_eq_ok.1 hok
    exact h.later (capToObject_spec hfollow).1.later
  | rubout p =>
    obtain ⟨r, hshoot, rfl⟩ := bind_pure_eq_ok.1 hok
    change t.shootdownChanged env activity p true = .ok r at hshoot
    exact (h.shootdownChanged hshoot).write fun hne => absurd rfl hne
  | copy p a i flags props =>
    obtain ⟨r, hcopy, rfl⟩ := bind_pure_eq_ok.1 hok
    unfold vgCapCopyX at hcopy
    split at hcopy
    · exact pure_eq_ok.1 hcopy ▸ h
    next sub hsub =>
    obtain ⟨r, hshoot, hcopy⟩ := bind_eq_ok.1 hcopy
    have hr := h.shootdownChanged hshoot
    split at hcopy
    · exact pure_eq_ok.1 hcopy ▸ hr
    next c hstore =>
    have hderives := (attenuates_of_copyStore hsub hstore).derives
    refine pure_eq_ok.1 hcopy ▸ hr.write fun hne => ?_
    obtain ⟨b, j, hbj⟩ := h a i fun hvoid => by
      simpa [CapType.NoStronger, CapType.weaken, hvoid, hne] using hderives.type
    exact ⟨b, j, hbj.trans hderives⟩

end Inherits

/-- **No authority out of nothing.** In every run of requests of any activities, whatever their
flags and properties, a capability in a slot derives from one that was in a slot at the start. -/
theorem slots_inherit {env : Env} {ops : List (ℕ × SlotOp)} {s t : Kernel}
    (hrun : ops.foldlM (fun s op => op.2.exec env s op.1) s = .ok t) : Inherits s t :=
  foldlM_invariant (Inherits s) (fun _ _ _ _ hok h => h.exec hok) hrun
    fun a i _ => ⟨a, i, rfl, rfl, .inl rfl, fun _ => id⟩

/-- A weak copy of the capability in the slot, a copy of the copy, then the original is rubbed out
and the second copy followed. -/
def requests : List (ℕ × SlotOp) :=
  [(1, .copy (.slot 2 1) 2 0 8 ⟨.default, ⟨0, 0, 0⟩⟩),
    (1, .copy (.slot 2 2) 2 1 0 ⟨.default, ⟨0, 0, 0⟩⟩), (1, .rubout (.slot 2 0)),
    (1, .follow (.slot 2 2))]

/-- What is left is the first copy; the second one was found stale. -/
theorem slots_inherit_requests : ∃ t, requests.foldlM
    (fun s op => op.2.exec ⟨2, fun _ => .default⟩ s op.1) staleSlot = .ok t ∧
      (t.caps 2 0).type = .void ∧ (t.caps 2 1).type = .rpage ∧ (t.caps 2 2).type = .void ∧
      Inherits staleSlot t := by
  obtain ⟨t, hrun, hzero, hone, htwo⟩ : ∃ t, requests.foldlM
      (fun s op => op.2.exec ⟨2, fun _ => .default⟩ s op.1) staleSlot = .ok t ∧
        (t.caps 2 0).type = .void ∧ (t.caps 2 1).type = .rpage ∧ (t.caps 2 2).type = .void :=
    ⟨_, rfl, rfl, rfl, rfl⟩
  exact ⟨t, hrun, hzero, hone, htwo, slots_inherit hrun⟩

end Kernel

end Viengoos
