import Viengoos.Kernel.Lookups

/-!
# Invariants under folio operations

The invariant rule for `folio_object_alloc`, `folio_free` and `activity_destroy`. They call each
other, and each is a sequence of lookups, writes to capabilities and a few larger steps; what all
of these keep (`Closed`), the operations keep. `A` says which types of objects are allocated:
freeing an object allocates void in its place, so `A` always has void.
-/

namespace Viengoos

open Outcome

namespace Kernel

/-- What is kept by lookups and by changes of who waits. -/
structure Modest (a : ℕ) (P : Kernel → Prop) : Prop where
  objectFind : ∀ {s s' : Kernel} {o : ℕ} {policy : ObjectPolicy} {found : Bool},
    s.objectFind a o policy = .ok (s', found) → P s → P s'
  capToObject : ∀ {s s' : Kernel} {p : CapPtr} {r : Option ℕ},
    s.capToObject a p = .ok (s', r) → P s → P s'
  awake : ∀ {s : Kernel} (w : ℕ → Option ℕ), P s → P { s with waitsOn := w }
  waiters : ∀ {s : Kernel} (folio idx : ℕ) (f : List ℕ → List ℕ), P s →
    P (s.modifyEntry folio idx fun e => { e with waiters := f e.waiters })

namespace Modest

variable {a folio idx : ℕ} {P : Kernel → Prop} {s t : Kernel}

theorem of_keeps (hP : Keeps a P)
    (awake : ∀ {s : Kernel} (w : ℕ → Option ℕ), P s → P { s with waitsOn := w })
    (waiters : ∀ {s : Kernel} (folio idx : ℕ) (f : List ℕ → List ℕ), P s →
      P (s.modifyEntry folio idx fun e => { e with waiters := f e.waiters })) : Modest a P :=
  ⟨hP.objectFind, hP.capToObject, awake, waiters⟩

variable {inMemory : Bool} {c : Cap} {type : CapType} {s : Kernel} {policy : ObjectPolicy}
  {o victim : ℕ}

section

variable (hP : Modest a P)

include hP

theorem wakeWaiters (h : s.wakeWaiters a folio idx = .ok t) (hs : P s) : P t := by
  obtain ⟨u, hloop, rfl⟩ := bind_pure_eq_ok.1 h
  refine hP.waiters folio idx (fun _ => []) ?_
  refine foldlM_invariant P (fun w _ v v' hv hs => ?_) hloop hs
  obtain ⟨⟨v₁, found⟩, hfind, hrest⟩ := bind_eq_ok.1 hv
  obtain ⟨_, -, rfl⟩ := bind_pure_eq_ok.1 hrest
  exact hP.awake _ (hP.objectFind hfind hs)

theorem messengerDestroy (h : s.messengerDestroy a o = .ok t) (hs : P s) : P t := by
  unfold Kernel.messengerDestroy at h
  split at h
  · exact pure_eq_ok.1 h ▸ hs
  · obtain ⟨⟨s₁, found⟩, hobject, hrest⟩ := bind_eq_ok.1 h
    obtain ⟨_, -, hrest⟩ := bind_eq_ok.1 hrest
    obtain ⟨⟨s₂, found'⟩, hfolio, hrest⟩ := bind_eq_ok.1 hrest
    obtain ⟨_, -, rfl⟩ := bind_pure_eq_ok.1 hrest
    have h₁ := hP.objectFind hobject hs
    have h₂ := hP.objectFind hfolio h₁
    exact hP.awake _ (hP.waiters _ _ (fun l => l.erase o) h₂)

theorem unlinkSibling {parent : ℕ} (hwrite : ∀ {s} (p : CapPtr) (c : Cap), P s → P (s.write p c))
    (h : s.unlinkSibling a victim parent = .ok t) (hs : P s) : P t := by
  obtain ⟨⟨s₁, prev⟩, hprev, hrest⟩ := bind_eq_ok.1 h
  obtain ⟨⟨s₂, next⟩, hnext, rfl⟩ := bind_pure_eq_ok.1 hrest
  have h₂ := hP.capToObject hnext (hP.capToObject hprev hs)
  refine hwrite _ _ (hwrite _ _ ?_)
  cases next with
  | none => cases prev <;> exact hwrite _ _ h₂
  | some => cases prev <;> exact hwrite _ _ (hwrite _ _ h₂)

theorem unlinkFolio {owner : ℕ} (hwrite : ∀ {s} (p : CapPtr) (c : Cap), P s → P (s.write p c))
    (h : s.unlinkFolio a folio owner = .ok t) (hs : P s) : P t := by
  obtain ⟨⟨s₁, next⟩, hnext, hrest⟩ := bind_eq_ok.1 h
  obtain ⟨⟨s₂, prev⟩, hprev, rfl⟩ := bind_pure_eq_ok.1 hrest
  have h₂ := hP.capToObject hprev (hP.capToObject hnext hs)
  refine hwrite _ _ (hwrite _ _ ?_)
  cases next with
  | none => cases prev <;> exact hwrite _ _ h₂
  | some => cases prev <;> exact hwrite _ _ (hwrite _ _ h₂)

theorem freeAll {free : ℕ → Kernel → Except Fault Kernel}
    (hfree : ∀ {o s t}, free o s = .ok t → P s → P t) {p : CapPtr} (n : ℕ)
    (h : Kernel.freeAll free a p n s = .ok t) (hs : P s) : P t := by
  induction n generalizing s with
  | zero => simp [Kernel.freeAll] at h
  | succ n ih =>
    obtain ⟨⟨s₁, o⟩, hobject, hrest⟩ := bind_eq_ok.1 h
    have h₁ := hP.capToObject hobject hs
    cases o with
    | none => exact pure_eq_ok.1 hrest ▸ h₁
    | some o =>
      obtain ⟨s₂, hone, hrest⟩ := bind_eq_ok.1 hrest
      exact ih hrest (hfree hone h₁)

theorem tearDown {destroy : ℕ → Kernel → Except Fault Kernel}
    (hdestroy : ((s.folio folio).entry idx).type = .activityControl →
      ∀ {o s t}, destroy o s = .ok t → P s → P t)
    {found : Bool} (h : s.tearDown destroy a folio idx = .ok (t, found)) (hs : P s) : P t := by
  simp only [Kernel.tearDown] at h
  split at h
  · obtain ⟨⟨s₁, found'⟩, hfind, hrest⟩ := bind_eq_ok.1 h
    obtain ⟨_, -, hrest⟩ := bind_eq_ok.1 hrest
    obtain ⟨_, -, hrest⟩ := bind_eq_ok.1 hrest
    have h₁ := hP.objectFind hfind hs
    split at hrest <;> rename_i htype <;> obtain ⟨s₂, hdown, hrest⟩ := bind_eq_ok.1 hrest <;>
      obtain ⟨rfl, -⟩ := Prod.mk.inj (pure_eq_ok.1 hrest)
    · exact hdestroy htype hdown h₁
    · exact hP.messengerDestroy hdown h₁
    · exact pure_eq_ok.1 hdown ▸ h₁
  · obtain ⟨⟩ := pure_eq_ok.1 h
    exact hs

end

end Modest

/-- What the steps of the folio operations by `a` keep, if objects of the types `A` are
allocated. -/
structure Closed (env : Env) (a : ℕ) (A : CapType → Prop) (P : Kernel → Prop) : Prop where
  lookups : Keeps a P
  write : ∀ {s} (p : CapPtr) (c : Cap), P s → P (s.write p c)
  awake : ∀ {s : Kernel} (w : ℕ → Option ℕ), P s → P { s with waitsOn := w }
  waiters : ∀ {s : Kernel} (folio idx : ℕ) (f : List ℕ → List ℕ), P s →
    P (s.modifyEntry folio idx fun e => { e with waiters := f e.waiters })
  destroyed : ∀ {s s' : Kernel} {o : ℕ}, s.memoryObjectDestroy env a o = .ok s' → P s → P s'
  freed : ∀ {s : Kernel}, P s → P s.memoryFrameFree
  renewed : ∀ {s s' : Kernel} {o : ℕ} {type : CapType} {policy : ObjectPolicy}, A type →
    type ≠ .void → s.renewObject env a o type policy = .ok s' → P s → P s'
  turned : ∀ {s : Kernel} {type : CapType} (folio idx : ℕ) (policy : ObjectPolicy), A type → P s →
    P (s.turnSlot folio idx type policy)
  /-- `activity_prepare`. -/
  prepared : ∀ {s : Kernel} (child : ℕ) (l : List ℕ), A .activityControl → P s →
    P (s.modifyActivity child fun g => { g with ancestors := l })
  dying : ∀ {s : Kernel} (victim : ℕ), P s →
    P (s.modifyActivity victim fun g => { g with dying := true })
  inherited : ∀ {s : Kernel} (victim parent : ℕ), P s → P (s.inheritObjects victim parent)
  refunded : ∀ {s : Kernel} (owner : ℕ), P s →
    P (s.forEachAncestor owner fun g => { g with folioCount := g.folioCount - 1 })
  released : ∀ {s : Kernel} (folio : ℕ), P s → P (s.releaseFolio folio)
  void : A .void

namespace Closed

variable {env : Env} {a folio idx : ℕ} {A : CapType → Prop} {P : Kernel → Prop} {s t : Kernel}

theorem voidCap (hP : Closed env a A P) (p : CapPtr) (hs : P s) : P (s.voidCap p) :=
  hP.write p _ hs

theorem modest (hP : Closed env a A P) : Modest a P :=
  .of_keeps hP.lookups hP.awake hP.waiters

section Recursion

variable {destroy : ℕ → Kernel → Except Fault Kernel}
  (hdestroy : ∀ {o s t}, destroy o s = .ok t → P s → P t)

include hdestroy

section

variable (hP : Closed env a A P)

include hP

theorem activityCreateWith (hA : A .activityControl) {child : ℕ}
    (h : s.activityCreateWith destroy a child = .ok t) (hs : P s) : P t := by
  obtain ⟨⟨s₁, oldParent⟩, hparent, hrest⟩ := bind_eq_ok.1 h
  have h₁ := hP.lookups.capToObject hparent hs
  obtain ⟨s₂, hold, hrest⟩ : ∃ s₂, P s₂ ∧ _ := by
    simp only at hrest
    split at hrest
    · obtain ⟨s₂, hdown, hrest⟩ := bind_eq_ok.1 hrest
      exact ⟨s₂, hdestroy hdown h₁, hrest⟩
    · exact ⟨s₁, h₁, hrest⟩
  obtain ⟨⟨s₃, oldHead⟩, hhead, hrest⟩ := bind_eq_ok.1 hrest
  obtain ⟨⟨s₄, p⟩, hprepare, hrest⟩ := bind_eq_ok.1 hrest
  obtain ⟨_, -, rfl⟩ := bind_pure_eq_ok.1 hrest
  refine hP.prepared child _ hA (hP.lookups.capToObject hprepare ?_)
  have h₃ : P s₃ := by
    refine hP.lookups.capToObject hhead (hP.write _ _ (hP.voidCap _ ?_))
    exact hP.write _ _ (hP.write _ _ hold)
  cases oldHead with
  | none => exact h₃
  | some o => exact hP.write _ _ h₃

theorem setUpObject (hA : A type)
    (h : s.setUpObject destroy a o type policy inMemory = .ok t) (hs : P s) :
    P t := by
  unfold Kernel.setUpObject at h
  split at h
  · next htype =>
    obtain ⟨s₁, h₁, hrest⟩ : ∃ s₁, P s₁ ∧ s₁.activityCreateWith destroy a o = .ok t := by
      split at h
      · obtain ⟨⟨s₁, found⟩, hfound, hrest⟩ := bind_eq_ok.1 h
        obtain ⟨⟩ := pure_eq_ok.1 hfound
        exact ⟨s, hs, hrest⟩
      · obtain ⟨⟨s₁, found⟩, hfind, hrest⟩ := bind_eq_ok.1 h
        obtain ⟨_, -, hrest⟩ := bind_eq_ok.1 hrest
        exact ⟨s₁, hP.lookups.objectFind hfind hs, hrest⟩
    exact hP.activityCreateWith hdestroy (htype ▸ hA) hrest h₁
  · exact pure_eq_ok.1 h ▸ hs

omit hdestroy in
theorem replaceObject (hA : A type)
    (h : s.replaceObject env a folio idx type policy = .ok (t, inMemory)) (hs : P s) : P t := by
  simp only [Kernel.replaceObject] at h
  split at h
  · obtain ⟨⟩ := pure_eq_ok.1 h
    exact hs
  · obtain ⟨_, -, hrest⟩ := bind_eq_ok.1 h
    obtain ⟨_, -, hrest⟩ := bind_eq_ok.1 hrest
    split at hrest
    · obtain ⟨u, hdestroyed, ⟨⟩⟩ := bind_pure_eq_ok.1 hrest
      exact hP.freed (hP.destroyed hdestroyed hs)
    · next hvoid =>
      obtain ⟨u, hrenewed, ⟨⟩⟩ := bind_pure_eq_ok.1 hrest
      exact hP.renewed hA hvoid hrenewed hs

theorem folioObjectAllocWith (hA : A type.strengthen)
    (h : s.folioObjectAllocWith destroy env a folio idx type policy = .ok (t, c))
    (hs : P s) : P t := by
  obtain ⟨_, -, hrest⟩ := bind_eq_ok.1 h
  obtain ⟨_, -, hrest⟩ := bind_eq_ok.1 hrest
  obtain ⟨_, -, hrest⟩ := bind_eq_ok.1 hrest
  obtain ⟨⟨s₁, found⟩, hdown, hrest⟩ := bind_eq_ok.1 hrest
  obtain ⟨s₂, hwake, hrest⟩ := bind_eq_ok.1 hrest
  obtain ⟨⟨s₃, inMemory⟩, hreplace, hrest⟩ := bind_eq_ok.1 hrest
  obtain ⟨s₄, hsetup, ⟨⟩⟩ := bind_pure_eq_ok.1 hrest
  have h₂ := hP.modest.wakeWaiters hwake (hP.modest.tearDown (fun _ => hdestroy) hdown hs)
  refine hP.setUpObject hdestroy hA hsetup (hP.turned folio idx policy hA ?_)
  refine hP.replaceObject hA hreplace ?_
  split
  · exact h₂
  · exact hP.lookups.objectFindSoft _ _ h₂

theorem folioObjectFreeWith (h : s.folioObjectFreeWith destroy env a folio idx = .ok t) (hs : P s) :
    P t := by
  obtain ⟨⟨s₁, c⟩, halloc, rfl⟩ := bind_pure_eq_ok.1 h
  exact hP.folioObjectAllocWith hdestroy (show A CapType.void.strengthen from hP.void) halloc hs

theorem objectFreeWith (h : s.objectFreeWith destroy env a o = .ok t) (hs : P s) : P t := by
  obtain ⟨⟨s₁, found⟩, hfind, hrest⟩ := bind_eq_ok.1 h
  obtain ⟨_, -, hrest⟩ := bind_eq_ok.1 hrest
  exact hP.folioObjectFreeWith hdestroy hrest (hP.lookups.objectFind hfind hs)

theorem folioFreeWith (h : s.folioFreeWith destroy env a folio = .ok t) (hs : P s) : P t := by
  obtain ⟨_, -, hrest⟩ := bind_eq_ok.1 h
  obtain ⟨_, -, hrest⟩ := bind_eq_ok.1 hrest
  obtain ⟨s₁, hobjects, hrest⟩ := bind_eq_ok.1 hrest
  obtain ⟨⟨s₂, owner⟩, howner, hrest⟩ := bind_eq_ok.1 hrest
  have h₁ := foldlM_invariant P
    (fun i _ u v huv hu => hP.folioObjectFreeWith hdestroy huv hu) hobjects hs
  have h₂ := hP.lookups.capToObject howner h₁
  cases owner with
  | none => simp at hrest
  | some owner =>
    obtain ⟨s₃, hunlink, rfl⟩ := bind_pure_eq_ok.1 hrest
    exact hP.released folio (hP.modest.unlinkFolio hP.write hunlink
      (hP.voidCap _ (hP.refunded owner h₂)))

end

end Recursion

/-! ### Whole operations -/

theorem activityDestroy (hP : Closed env a A P) (n : ℕ) {t : Kernel}
    (h : Kernel.activityDestroy env n a victim s = .ok t) (hs : P s) : P t := by
  induction n generalizing victim s t with
  | zero => simp [Kernel.activityDestroy] at h
  | succ n ih =>
    unfold Kernel.activityDestroy at h
    split at h
    · simp at h
    obtain ⟨_, -, hrest⟩ := bind_eq_ok.1 h
    obtain ⟨s₁, hfolios, hrest⟩ := bind_eq_ok.1 hrest
    obtain ⟨s₂, hchildren, hrest⟩ := bind_eq_ok.1 hrest
    obtain ⟨_, -, hrest⟩ := bind_eq_ok.1 hrest
    have h₁ := hP.modest.freeAll (hP.folioFreeWith ih) n hfolios (hP.dying victim hs)
    have h₂ := hP.modest.freeAll (hP.objectFreeWith ih) n hchildren h₁
    exact hP.modest.unlinkSibling hP.write hrest (hP.inherited victim _ h₂)

theorem folioObjectAlloc (hP : Closed env a A P) (hA : A type.strengthen) {c : Cap}
    (h : s.folioObjectAlloc env a folio idx type policy = .ok (t, c)) (hs : P s) : P t :=
  hP.folioObjectAllocWith (hP.activityDestroy env.fuel) hA h hs

end Closed

end Kernel

end Viengoos
