import Viengoos.Kernel.Touches

/-!
# Shooting a capability down

`cap_shootdown` walks everything that can be translated through a capability and unmaps the pages
it finds. It is a second walk over the same graph, written independently of the lookup.
-/

namespace Viengoos

open Outcome BitString

namespace Kernel

/-! ### The code -/

/-- `PAGESIZE_LOG2`. -/
def pagesizeLog2 : ℕ := 12

/-- The types of a folio's objects that the shootdown follows. -/
def followedType : CapType → Bool
  | .page | .rpage | .cappage | .rcappage => true
  | _ => false

/-- The capability the shootdown makes up for a folio's object. It leaves the policy
uninitialised; `junk` is what it finds there. -/
def shootdownCap (s : Kernel) (folio i : ℕ) (junk : ObjectPolicy) : Cap :=
  let e := (s.folio folio).entry i
  { version := e.version, discardable := junk.discardable, priority := junk.priority,
    addrTrans := .void, type := e.type, oid := folio + 1 + i }

/-- Unmap the page that was found, unless the capability turns out to be stale. -/
def unmapFound (s : Kernel) (p : CapPtr) (c : Cap) (found : Bool) : Kernel :=
  match found, s.desc c.oid with
  | true, some d =>
    if d.version ≠ c.version then s.voidCap p else s.objectDescUnmap c.oid
  | _, _ => s

/-- A page is reached. -/
def shootdownPage (s : Kernel) (activity : ℕ) (p : CapPtr) : Kernel :=
  let c := s.read p
  let (s, found) := s.objectFindSoft activity c.oid c.policy
  s.unmapFound p c found

/-- Visit the objects of a folio. -/
def shootdownFolio (doit : CapPtr → ℤ → Kernel → Except Fault Kernel) (root : CapPtr)
    (junk : ℕ → ObjectPolicy) (o : ℕ) (remaining : ℤ) (s : Kernel) : Except Fault Kernel :=
  (List.range folioObjects).foldlM (fun s i =>
    if followedType ((s.folio o).entry i).type then
      let c := s.shootdownCap o i (junk (o + 1 + i))
      if (s.read root).oid ≠ c.oid then doit (.stack c) remaining s else pure s
    else pure s) s

/-- Visit the first `n` slots of an object; `extra i` is what the code adds back to the bits that
remain at slot `i`. -/
def shootdownSlots (doit : CapPtr → ℤ → Kernel → Except Fault Kernel) (root : CapPtr)
    (o n : ℕ) (remaining : ℤ) (extra : ℕ → ℤ) (s : Kernel) : Except Fault Kernel :=
  (List.range n).foldlM (fun s i =>
    if (s.read root).oid ≠ (s.caps o i).oid then doit (.slot o i) (remaining + extra i) s
    else pure s) s

/-- The width with which the shootdown indexes an object, `none` where it does not go on. For a
capability with more than 256 subpages, which cannot be made, the width is 0. -/
def shootdownWidth (c : Cap) : Option ℕ :=
  match c.type with
  | .cappage | .rcappage => some c.addrTrans.subpageSizeLog2
  | .messenger | .rmessenger | .thread => some 2
  | .folio => some 7
  | _ => none

/-- How many slots it visits: all of a subpage, `VG_THREAD_SLOTS_LOG2` of a thread or
messenger. -/
def shootdownCount (c : Cap) : ℕ :=
  match c.type with
  | .cappage | .rcappage => c.addrTrans.subpageSize
  | _ => 2

/-- The bits added back for a thread's address-space slot. -/
def shootdownExtra (c : Cap) (i : ℕ) : ℤ :=
  if c.type = .thread ∧ i = 0 then 2 else 0

/-- `doit`, the recursion of `cap_shootdown`, over what it does with a page and over
`vg_cap_to_object`. -/
def shootdownWith (page : CapPtr → Kernel → Except Fault Kernel)
    (toObject : CapPtr → Kernel → Except Fault (Kernel × Option ℕ)) (root : CapPtr)
    (junk : ℕ → ObjectPolicy) : ℕ → CapPtr → ℤ → Kernel → Except Fault Kernel
  | 0, _, _, _ => .error .outOfFuel
  | n + 1, p, remaining, s =>
    let c := s.read p
    let remaining := remaining - c.addrTrans.guardBits
    if c.type = .page ∨ c.type = .rpage then
      if remaining < pagesizeLog2 then pure s else page p s
    else
      match shootdownWidth c with
      | none => pure s
      | some width =>
        if remaining < width + pagesizeLog2 then pure s
        else do
          let (s, object) ← toObject p s
          match object with
          | none => pure s
          | some o =>
            if c.type = .folio then
              shootdownFolio (shootdownWith page toObject root junk n) root junk o
                (remaining - width) s
            else
              shootdownSlots (shootdownWith page toObject root junk n) root o (shootdownCount c)
                (remaining - width) (shootdownExtra c) s

/-- `doit`, on behalf of an activity. -/
def shootdownFrom (activity : ℕ) (root : CapPtr) (junk : ℕ → ObjectPolicy) :
    ℕ → CapPtr → ℤ → Kernel → Except Fault Kernel :=
  shootdownWith (fun p s => pure (s.shootdownPage activity p)) (fun p s => s.capToObject activity p)
    root junk

/-- `cap_shootdown`. -/
def capShootdown (s : Kernel) (fuel activity : ℕ) (junk : ℕ → ObjectPolicy) (root : CapPtr) :
    Except Fault Kernel :=
  shootdownFrom activity root junk fuel root vgAddrBits s

/-! ### What it does to the state -/

variable {doit : CapPtr → ℤ → Kernel → Except Fault Kernel} {s : Kernel} {o : ℕ} {remaining : ℤ}

section Unfold

variable (activity : ℕ) (root : CapPtr) (junk : ℕ → ObjectPolicy)

theorem shootdownFrom_zero (p : CapPtr) (remaining : ℤ) (s : Kernel) :
    shootdownFrom activity root junk 0 p remaining s = .error .outOfFuel := rfl

theorem shootdownFrom_succ (n : ℕ) (p : CapPtr) (remaining : ℤ) (s : Kernel) :
    shootdownFrom activity root junk (n + 1) p remaining s =
      if (s.read p).type = .page ∨ (s.read p).type = .rpage then
        if remaining - (s.read p).addrTrans.guardBits < pagesizeLog2 then pure s
        else pure (s.shootdownPage activity p)
      else
        match shootdownWidth (s.read p) with
        | none => pure s
        | some width =>
          if remaining - (s.read p).addrTrans.guardBits < width + pagesizeLog2 then pure s
          else (do
            let (t, object) ← s.capToObject activity p
            match object with
            | none => pure t
            | some o =>
              if (s.read p).type = .folio then
                shootdownFolio (shootdownFrom activity root junk n) root junk o
                  (remaining - (s.read p).addrTrans.guardBits - width) t
              else
                shootdownSlots (shootdownFrom activity root junk n) root o
                  (shootdownCount (s.read p)) (remaining - (s.read p).addrTrans.guardBits - width)
                  (shootdownExtra (s.read p)) t) := rfl

end Unfold

section Touches

variable {H : ℕ → ObjectPolicy → Prop} {activity : ℕ} {root : CapPtr} {junk : ℕ → ObjectPolicy}

theorem shootdownPage_touches {p : CapPtr} (hH : H (s.read p).oid (s.read p).policy) :
    Touches H s (s.shootdownPage activity p) := by
  have htouch := objectFindSoft_touches s activity hH
  simp only [shootdownPage, unmapFound]
  split
  · split
    · exact htouch.voided p
    · exact htouch.unmapped _
  · exact htouch

/-- A visit may rely on what is in storage being fit to be looked up. -/
def Visits (H : ℕ → ObjectPolicy → Prop) (doit : CapPtr → ℤ → Kernel → Except Fault Kernel) :
    Prop :=
  ∀ p remaining s t, s.Allows H → ((s.read p).type ≠ .void → H (s.read p).oid (s.read p).policy) →
    doit p remaining s = .ok t → Touches H s t

theorem shootdownFolio_touches (hdoit : Visits H doit) (hjunk : ∀ o, H o (junk o)) {t : Kernel}
    (hs : s.Allows H) (h : shootdownFolio doit root junk o remaining s = .ok t) :
    Touches H s t := by
  refine foldlM_invariant (Touches H s) (fun i _ u v huv hu => ?_) h .refl
  split at huv
  · dsimp only at huv
    split at huv
    · exact hu.trans (hdoit _ _ u v (hu.allows hs) (fun _ => hjunk _) huv)
    · exact pure_eq_ok.1 huv ▸ hu
  · exact pure_eq_ok.1 huv ▸ hu

theorem shootdownSlots_touches (hdoit : Visits H doit) {n : ℕ} {extra : ℕ → ℤ} {t : Kernel}
    (hs : s.Allows H) (h : shootdownSlots doit root o n remaining extra s = .ok t) :
    Touches H s t := by
  refine foldlM_invariant (Touches H s) (fun i _ u v huv hu => ?_) h .refl
  split at huv
  · have hallows := hu.allows hs
    exact hu.trans (hdoit _ _ u v hallows (hallows (.slot o i) rfl) huv)
  · exact pure_eq_ok.1 huv ▸ hu

/-- **A shootdown only touches**: it looks up what is in storage, what it makes up for a folio's
objects, and folios. -/
theorem shootdownFrom_touches (hdefault : ∀ o, H o .default) (hjunk : ∀ o, H o (junk o)) (n : ℕ) :
    Visits H (shootdownFrom activity root junk n) := by
  induction n with
  | zero => exact fun p r s t _ _ h => by simp [shootdownFrom_zero] at h
  | succ n ih =>
    intro p remaining s t hs hp h
    simp only [shootdownFrom_succ] at h
    split at h
    · next hpage =>
      split at h
      · exact pure_eq_ok.1 h ▸ .refl
      · refine pure_eq_ok.1 h ▸ shootdownPage_touches (hp ?_)
        rcases hpage with hpage | hpage <;> simp [hpage]
    next hpage =>
    split at h
    · exact pure_eq_ok.1 h ▸ .refl
    next width hwidth =>
    split at h
    · exact pure_eq_ok.1 h ▸ .refl
    obtain ⟨⟨u, object⟩, hobj, hrest⟩ := bind_eq_ok.1 h
    have hvoid : (s.read p).type ≠ .void := by
      rintro hv
      simp [shootdownWidth, hv] at hwidth
    have hu : Touches H s u := by
      refine (capToObject_spec hobj).1.mono fun o policy hlook => ?_
      rcases hlook with ⟨rfl, rfl⟩ | rfl
      · exact hp hvoid
      · exact hdefault o
    cases object with
    | none => exact pure_eq_ok.1 hrest ▸ hu
    | some o =>
      simp only at hrest
      split at hrest
      · exact hu.trans (shootdownFolio_touches ih hjunk (hu.allows hs) hrest)
      · exact hu.trans (shootdownSlots_touches ih (hu.allows hs) hrest)

theorem capShootdown_touches {t : Kernel} {fuel : ℕ} (hdefault : ∀ o, H o .default)
    (hjunk : ∀ o, H o (junk o)) (hs : s.Allows H)
    (hroot : (s.read root).type ≠ .void → H (s.read root).oid (s.read root).policy)
    (h : s.capShootdown fuel activity junk root = .ok t) : Touches H s t :=
  shootdownFrom_touches hdefault hjunk fuel root _ s t hs hroot h

end Touches

end Kernel

end Viengoos
