import Viengoos.Kernel.Filing
import Viengoos.Kernel.FolioRules

/-!
# Freeing folios

Freeing a folio frees its objects; an activity among them is destroyed, with its folios and its
children, which frees more folios. All of it keeps the files in order (`Filed`).

The recursion is followed with two specifications: of a way to destroy an activity (`Destroys`) and
of a way to free an object or a folio (`Frees`). Each function keeps its own given the other, and
fuel ties them in `activityDestroy_destroys`.
-/

namespace Viengoos

open Outcome DoublyLinked Hierarchy Function

namespace Kernel

variable {Q : Terms}

/-! ### Steps that only leave notes -/

theorem Noted.modifyEntry (s : Kernel) (folio idx : ℕ) (f : FolioEntry → FolioEntry) :
    Noted s (s.modifyEntry folio idx f) := by
  refine ⟨fun _ => rfl, fun p => ?_, fun _ => rfl, rfl⟩
  cases p with
  | folioActivity g | folioNext g | folioPrev g =>
    by_cases hg : g = folio
    · subst hg
      simp [Kernel.modifyEntry, Kernel.read, modifyFolio]
    · simp [Kernel.modifyEntry, Kernel.read, modifyFolio, hg]
  | _ => rfl

theorem Noted.waitsOn (s : Kernel) (w : ℕ → Option ℕ) : Noted s { s with waitsOn := w } :=
  ⟨fun _ => rfl, fun p => by cases p <;> rfl, fun _ => rfl, rfl⟩

theorem Noted.objectDescUnmap (s : Kernel) (o : ℕ) : Noted s (s.objectDescUnmap o) := by
  rcases objectDescUnmap_spec s o with ⟨heq, -⟩ | ⟨d, hw, hd, heq⟩
  · rw [heq]
    exact .refl s
  · have hset : Noted s (s.setDesc o (some { noteStatus d (s.status o) with mapped := false })) :=
      .setDesc (.refl s) hd rfl
    rw [heq]
    exact ⟨hset.desc, fun p => by rw [status_read, hset.read], hset.account, hset.allocated⟩

variable {p : CapPtr} {env : Env} {s t : Kernel} {R : Option ℕ} {activity folio o : ℕ}
  {free : ℕ → Kernel → Except Fault Kernel}

theorem Noted.of_accountsOnly (h : AccountsOnly s t) : Noted s t :=
  ⟨(Kept.of_accountsOnly h).desc, h.read, h.account, h.allocated⟩

theorem Noted.handOver (s : Kernel) {f : Desc → Desc} (hf : ∀ d, (f d).record = d.record)
    (objects : List ℕ) : Noted s (s.handOver f objects) := by
  induction objects generalizing s with
  | nil => exact .refl s
  | cons o objects ih =>
    have hone : Noted s (s.modifyDesc o f) :=
      ⟨(Kept.modifyDesc s o hf).desc, fun p => setDesc_read s o _ p, fun _ => rfl, rfl⟩
    exact hone.trans (ih _)

theorem Noted.inheritObjects (s : Kernel) (victim parent : ℕ) :
    Noted s (s.inheritObjects victim parent) := by
  simp only [Kernel.inheritObjects]
  refine (handOver s ?_ _).trans ((handOver _ ?_ _).trans ((handOver _ ?_ _).trans
    ((of_accountsOnly (modifyFrames_accountsOnly _ victim _)).trans
      (of_accountsOnly (modifyFrames_accountsOnly _ parent _))))) <;>
    exact fun _ => rfl

/-! ### Freeing an object -/

/-- The slot of a folio in memory does not have an activity. -/
def Inactive (folio idx : ℕ) (s : Kernel) : Prop :=
  (s.desc folio).isSome = true ∧ ((s.folio folio).entry idx).type ≠ .activityControl

theorem Later.inactive {idx : ℕ} (h : Later s t)
    (hs : Inactive folio idx s) : Inactive folio idx t := by
  obtain ⟨d, hd⟩ := Option.isSome_iff_exists.1 hs.1
  obtain ⟨d', hd', -⟩ := h.kept hd
  exact ⟨by simp [hd'], by rw [h.entry hs.1]; exact hs.2⟩

/-- On the way to free the object of a slot: either there is a retired activity, or the slot does
not have an activity. -/
structure Ready (Q : Terms) (R : Option ℕ) (s₀ : Kernel) (folio idx : ℕ) (s : Kernel) : Prop where
  shrinks : Shrinks s₀ s
  file : InFile Q R 0 s
  inactive : R = none → Inactive folio idx s

namespace Ready

variable {R : Option ℕ} {s₀ s t : Kernel} {folio idx activity : ℕ}

theorem noted (h : Ready Q R s₀ folio idx s) (hnoted : Noted s t)
    (hinactive : Inactive folio idx s → Inactive folio idx t) : Ready Q R s₀ folio idx t :=
  ⟨h.shrinks.trans (.noted hnoted), h.file.noted hnoted, fun hR => hinactive (h.inactive hR)⟩

theorem keeps (Q : Terms) (R : Option ℕ) (s₀ : Kernel) (folio idx activity : ℕ) :
    Keeps activity (Ready Q R s₀ folio idx) where
  found {s o d} policy _ h :=
    h.noted (objectFindSoft_noted s activity o policy)
      (objectFindSoft_touches (H := fun _ _ => True) s activity trivial).later.inactive
  paged hok h := by
    have harrives := memoryObjectAlloc_arrives hok
    exact ⟨h.shrinks.trans (.arrives harrives), h.file.arrives harrives,
      fun hR => (Later.paged hok).inactive (h.inactive hR)⟩
  voided p _ h hlater hd hstale := by
    obtain ⟨hshrinks, ⟨T, L, C, hfile⟩, hinactive⟩ := h
    exact ⟨hshrinks.trans (.voided _ p), ⟨T, L, C, hfile.voided p hlater hd hstale⟩,
      fun hR => (Later.voidCap _ p).inactive (hinactive hR)⟩

theorem waiters (h : Ready Q R s₀ folio idx s) (folio' idx' : ℕ) (f : List ℕ → List ℕ) :
    Ready Q R s₀ folio idx
      (s.modifyEntry folio' idx' fun e => { e with waiters := f e.waiters }) := by
  refine h.noted (.modifyEntry s folio' idx' _) fun hs => ⟨hs.1, ?_⟩
  have hkept := Kept.modifyEntry s folio' idx' (f := fun e => { e with waiters := f e.waiters })
    fun _ => rfl
  have htype := congrArg Prod.fst (hkept.entry folio idx)
  exact fun hact => hs.2 (htype.symm.trans hact)

theorem modest (Q : Terms) (R : Option ℕ) (s₀ : Kernel) (folio idx activity : ℕ) :
    Modest activity (Ready Q R s₀ folio idx) :=
  .of_keeps (keeps Q R s₀ folio idx activity) (fun w h => h.noted (.waitsOn _ w) id)
    fun folio' idx' f h => h.waiters folio' idx' f

theorem capShootdown {fuel : ℕ} {junk : ℕ → ObjectPolicy} {root : CapPtr}
    (hok : s.capShootdown fuel activity junk root = .ok t) (h : Ready Q R s₀ folio idx s) :
    Ready Q R s₀ folio idx t :=
  (keeps Q R s₀ folio idx activity).capShootdown
    (fun o h => h.noted (.objectDescUnmap _ o) (Later.objectDescUnmap _ o).inactive) hok h

end Ready

/-- What is left of `memory_object_destroy` after the shootdown. -/
theorem departs_of_claim {d : Desc} (hd : s.desc o = some d)
    (policy : ObjectPolicy) : Departs s ((s.objectDescClaim none o policy).setDesc o none) o := by
  obtain ⟨u, hu, heq⟩ := objectDescClaim_spec hd none policy
  rw [heq]
  refine ⟨setDesc_desc_self .., fun x hx => ?_, fun p => ?_, hu.account, hu.allocated⟩
  · rw [setDesc_desc_of_ne _ _ hx, setDesc_desc_of_ne _ _ hx, hu.desc]
  · rw [setDesc_read, setDesc_read, hu.read]

theorem InFile.departs (h : InFile Q R 0 s) (ho : Departs s t o) (hfolio : isFolioOid o = false)
    (hR : R = some o ∨ R = none ∧ ¬ s.Live o) : InFile Q none 0 t := by
  obtain ⟨T, L, C, h⟩ := h
  exact ⟨_, _, _, h.departed ho hfolio hR⟩

/-- The object of a slot that is ready goes, if it is in memory. -/
theorem Ready.replaceObject {idx : ℕ} {policy : ObjectPolicy} {s₀ : Kernel} {inMemory : Bool}
    (hfolio : isFolioOid (objectOid folio idx) = false)
    (hR : R = none ∨ R = some (objectOid folio idx) ∧
      ¬ (s₀.Live (objectOid folio idx) ∧ (s₀.activity (objectOid folio idx)).dying = true))
    (hok : s.replaceObject env activity folio idx .void policy = .ok (t, inMemory))
    (h : Ready Q R s₀ folio idx s) :
    InFile Q none 0 t ∧ Shrinks s₀ t ∧ t.desc (objectOid folio idx) = none := by
  simp only [Kernel.replaceObject] at hok
  split at hok
  · next hnone =>
    -- there is nothing to go
    obtain ⟨⟩ := pure_eq_ok.1 hok
    have hself : Departs s s (objectOid folio idx) :=
      ⟨hnone, fun _ _ => rfl, fun _ => rfl, fun _ => rfl, rfl⟩
    have hlive : ¬ s.Live (objectOid folio idx) := by simp [Live, hnone]
    exact ⟨h.file.departs hself hfolio (hR.symm.imp And.left fun hR => ⟨hR, hlive⟩), h.shrinks,
      hnone⟩
  next d hd =>
  obtain ⟨_, -, hrest⟩ := bind_eq_ok.1 hok
  obtain ⟨_, htype, hrest⟩ := bind_eq_ok.1 hrest
  have htype := require_eq_ok.1 htype
  obtain ⟨v, hdestroy, ⟨⟩⟩ := bind_pure_eq_ok.1 hrest
  obtain ⟨u, hshoot, hrest⟩ := bind_eq_ok.1 hdestroy
  obtain ⟨d', hd', htype', -⟩ := (shootdown_touches hshoot).later.kept hd
  have hu := h.capShootdown hshoot
  simp only [hd'] at hrest
  obtain ⟨_, -, rfl⟩ := bind_pure_eq_ok.1 hrest
  have hdeparts := departs_of_claim hd' d'.policy
  -- it is the retired activity, or its type is not that of an activity
  have hlive : R = none → ¬ u.Live (objectOid folio idx) := fun hR => by
    rw [Live, hd', Option.map_some, Option.some.injEq, htype', htype]
    exact (h.inactive hR).2
  have hfile := hu.file.departs hdeparts hfolio (hR.symm.imp And.left fun hR => ⟨hR, hlive hR⟩)
  have hdying : ¬ (s₀.Live (objectOid folio idx) ∧
      (s₀.activity (objectOid folio idx)).dying = true) := by
    rcases hR with hR | ⟨-, hdying⟩
    · exact fun hdying => hlive hR (hu.shrinks.live _ hdying.1 hdying.2)
    · exact hdying
  have hfree : ∀ w : Kernel, Noted w w.memoryFrameFree := fun w =>
    ⟨fun _ => rfl, fun p => by cases p <;> rfl, fun _ => rfl, rfl⟩
  exact ⟨hfile.noted (hfree _),
    (hu.shrinks.departs hdeparts hfolio hdying).trans (.noted (hfree _)),
    hdeparts.self⟩

theorem Noted.modifyDesc_of_none (hnone : s.desc o = none) (f : Desc → Desc) :
    Noted s (s.modifyDesc o f) := by
  refine ⟨fun o' => ?_, fun p => setDesc_read s o _ p, fun _ => rfl, rfl⟩
  by_cases ho : o' = o
  · subst ho
    rw [Kernel.modifyDesc, setDesc_desc_self, hnone]
    rfl
  · rw [Kernel.modifyDesc, setDesc_desc_of_ne _ _ ho]

/-- A slot without an object in memory is emptied. -/
theorem Noted.turnSlot {idx : ℕ} (hnone : s.desc (objectOid folio idx) = none)
    (type : CapType) (policy : ObjectPolicy) : Noted s (s.turnSlot folio idx type policy) := by
  have hbump : Noted s (s.bumpVersion folio idx) := by
    refine (Noted.modifyEntry s folio idx fun e =>
      { e with version := ((s.folio folio).entry idx).version + 1 }).trans ?_
    exact .modifyDesc_of_none (show (s.modifyEntry folio idx _).desc _ = none from hnone) _
  have hrecord : ∀ t : Kernel, Noted t { t.modifyEntry folio idx (recordedEntry type policy) with
      turnover := update t.turnover (objectOid folio idx)
        (t.turnover (objectOid folio idx) + 1) } := fun t => by
    have hentry := Noted.modifyEntry t folio idx (recordedEntry type policy)
    exact ⟨hentry.desc, fun p => (hentry.read p ▸ by cases p <;> rfl), hentry.account,
      hentry.allocated⟩
  unfold Kernel.turnSlot
  split
  · exact hbump.trans (hrecord _)
  · exact hrecord s

/-! ### Freeing folios and destroying activities -/

/-- What a way to destroy an activity is good for. -/
def Destroys (Q : Terms) (destroy : ℕ → Kernel → Except Fault Kernel) : Prop :=
  ∀ ⦃v s t⦄, InFile Q none 0 s → s.Live v → destroy v s = .ok t →
    InFile Q (some v) 0 t ∧ Shrinks s t ∧ (s.activity v).dying = false

/-- What a way to free something is good for. -/
def Frees (Q : Terms) (free : ℕ → Kernel → Except Fault Kernel) : Prop :=
  ∀ ⦃o s t⦄, InFile Q none 0 s → free o s = .ok t → InFile Q none 0 t ∧ Shrinks s t

section Recursion

variable {destroy : ℕ → Kernel → Except Fault Kernel} (hdestroy : Destroys Q destroy) {env : Env}
  {activity folio idx : ℕ} {s t : Kernel}

include hdestroy

theorem tearDown_ready {found : Bool} (hfolio : (s.desc folio).isSome = true)
    (h : InFile Q none 0 s) (hok : s.tearDown destroy activity folio idx = .ok (t, found)) :
    ∃ R, Ready Q R s folio idx t ∧ (R = none ∨ R = some (objectOid folio idx) ∧
      ¬ (s.Live (objectOid folio idx) ∧ (s.activity (objectOid folio idx)).dying = true)) := by
  by_cases htype : ((s.folio folio).entry idx).type = .activityControl
  · -- an activity is brought in and destroyed
    simp only [Kernel.tearDown, htype, true_or, if_true] at hok
    obtain ⟨⟨s₁, found'⟩, hfind, hrest⟩ := bind_eq_ok.1 hok
    obtain ⟨_, -, hrest⟩ := bind_eq_ok.1 hrest
    obtain ⟨_, hlive, hrest⟩ := bind_eq_ok.1 hrest
    obtain ⟨s₂, hdown, ⟨⟩⟩ := bind_pure_eq_ok.1 hrest
    obtain ⟨h₁, hshrinks₁⟩ := (InFile.keeps none 0 s activity).objectFind hfind ⟨h, .refl s⟩
    obtain ⟨h₂, hshrinks₂, hdying⟩ := hdestroy h₁ (require_eq_ok.1 hlive) hdown
    refine ⟨some (objectOid folio idx), ⟨hshrinks₁.trans hshrinks₂, h₂, by simp⟩, .inr ⟨rfl, ?_⟩⟩
    rintro ⟨hl, hd⟩
    simp [(hshrinks₁.dying _ hl hd).1] at hdying
  · -- anything else is not an activity now and stays so
    have hs : Ready Q none s folio idx s := ⟨.refl s, h, fun _ => ⟨hfolio, htype⟩⟩
    refine ⟨none, ?_, .inl rfl⟩
    exact (Ready.modest Q none s folio idx activity).tearDown (fun hact => absurd hact htype) hok hs

/-- **Freeing an object.** -/
theorem folioObjectFreeWith_filed (h : InFile Q none 0 s)
    (hok : s.folioObjectFreeWith destroy env activity folio idx = .ok t) :
    InFile Q none 0 t ∧ Shrinks s t := by
  obtain ⟨⟨s₁, c⟩, halloc, rfl⟩ := bind_pure_eq_ok.1 hok
  obtain ⟨_, hidx, hrest⟩ := bind_eq_ok.1 halloc
  obtain ⟨_, htype, hrest⟩ := bind_eq_ok.1 hrest
  obtain ⟨_, hfolio, hrest⟩ := bind_eq_ok.1 hrest
  obtain ⟨⟨s₂, found⟩, hdown, hrest⟩ := bind_eq_ok.1 hrest
  obtain ⟨s₃, hwake, hrest⟩ := bind_eq_ok.1 hrest
  obtain ⟨⟨s₄, inMemory⟩, hreplace, hrest⟩ := bind_eq_ok.1 hrest
  obtain ⟨s₅, hsetup, ⟨⟩⟩ := bind_pure_eq_ok.1 hrest
  have hsome : (s.desc folio).isSome = true := by
    rw [← Option.isSome_map (f := Desc.type), require_eq_ok.1 htype]
    rfl
  have hoid := isFolioOid_objectOid (require_eq_ok.1 hfolio) (require_eq_ok.1 hidx)
  obtain ⟨R, h₂, hR⟩ := tearDown_ready hdestroy hsome h hdown
  have h₃ := (Ready.modest Q R s folio idx activity).wakeWaiters hwake h₂
  have hsoft : Ready Q R s folio idx
      (if found then s₃ else (s₃.objectFindSoft activity (objectOid folio idx) .default).1) := by
    split
    · exact h₃
    · exact (Ready.keeps Q R s folio idx activity).objectFindSoft _ _ h₃
  obtain ⟨h₄, hshrinks, hnone⟩ := hsoft.replaceObject hoid hR hreplace
  obtain rfl := pure_eq_ok.1 hsetup
  have hturn := Noted.turnSlot hnone CapType.void.strengthen .default
  exact ⟨h₄.noted hturn, hshrinks.trans (.noted hturn)⟩

theorem objectFreeWith_frees :
    Frees Q fun o s => s.objectFreeWith destroy env activity o := by
  intro o s t h hok
  obtain ⟨⟨s₁, found⟩, hfind, hrest⟩ := bind_eq_ok.1 hok
  obtain ⟨_, -, hrest⟩ := bind_eq_ok.1 hrest
  obtain ⟨h₁, hshrinks⟩ := (InFile.keeps none 0 s activity).objectFind hfind ⟨h, .refl s⟩
  obtain ⟨h₂, hshrinks'⟩ := folioObjectFreeWith_filed hdestroy h₁ hrest
  exact ⟨h₂, hshrinks.trans hshrinks'⟩

/-- **Freeing a folio.** -/
theorem folioFreeWith_frees :
    Frees Q fun f s => s.folioFreeWith destroy env activity f := by
  intro f s t h hok
  obtain ⟨_, htype, hrest⟩ := bind_eq_ok.1 hok
  obtain ⟨_, hoid, hrest⟩ := bind_eq_ok.1 hrest
  obtain ⟨s₁, hobjects, hrest⟩ := bind_eq_ok.1 hrest
  obtain ⟨⟨s₂, owner⟩, howner, hrest⟩ := bind_eq_ok.1 hrest
  have hoid := require_eq_ok.1 hoid
  obtain ⟨⟨T, L, C, h₁⟩, hshrinks₁⟩ := foldlM_invariant
    (fun u => InFile Q none 0 u ∧ Shrinks s u) (fun i _ u v huv hu => by
      obtain ⟨hv, huv⟩ := folioObjectFreeWith_filed hdestroy hu.1 huv
      exact ⟨hv, hu.2.trans huv⟩) hobjects ⟨h, .refl s⟩
  -- the folio is still there, and so is its owner
  have hsome : (s₁.desc f).isSome = true := by
    refine hshrinks₁.folio f hoid ?_
    rw [← Option.isSome_map (f := Desc.type), require_eq_ok.1 htype]
    rfl
  have htype₁ := h₁.typed f hoid hsome
  obtain ⟨hnoted, rfl⟩ := capToObject_fresh (h₁.fresh_owner htype₁) howner
  cases htarget : (s₁.read (.folioActivity f)).target with
  | none => simp [htarget] at hrest
  | some owner =>
    simp only [htarget] at hrest
    obtain ⟨s₃, hunlink, rfl⟩ := bind_pure_eq_ok.1 hrest
    have h₂ := h₁.noted hnoted
    have hown : s₂.Owns owner f :=
      ⟨(Filed.desc_type (hnoted.desc f)).trans htype₁, by rw [hnoted.read, htarget]⟩
    have hT := (h₂.owned owner f hown).1
    have hL := (h₂.listed owner hT f).2 hown
    obtain ⟨hunfiles, hchain, hdesc, hheads⟩ :=
      unfiles_of_unlinkFolio h₂.folios (h₂.tree.nodup owner hT) hT hL hunlink
    have hchain' : Chained .folios T (update L owner ((L owner).erase f))
        (s₃.releaseFolio f) := by
      refine hchain.congr (fun p _ => releaseFolio_read s₃ f p) fun x hx => ?_
      refine (hunfiles.desc x ?_).trans (hdesc x).symm
      -- the folio is neither an activity nor on a list any more
      rintro rfl
      rcases hx with hxT | ⟨a, ha, hxa⟩
      · have hlive := (h₂.tree.live x).1 hxT
        rw [Live, hown.1] at hlive
        simp at hlive
      · by_cases hao : a = owner
        · subst hao
          rw [update_self, (h₂.folios.nodup a ha).mem_erase_iff] at hxa
          exact hxa.1 rfl
        · rw [update_of_ne hao] at hxa
          exact hao (h₂.folios.apart a ha owner hT x hxa hL)
    refine ⟨⟨_, _, _, h₂.unfiled hT hL hunfiles hchain'⟩,
      hshrinks₁.trans ((Shrinks.noted hnoted).trans (.unfiles hunfiles fun x hx => ?_))⟩
    have hxo : x ≠ owner := by
      rintro rfl
      have hhead := (h₂.folios.list x hT).head_eq
      rw [show CapList.folios.head x = .activityFolios x from rfl, hx] at hhead
      rw [List.head?_eq_none_iff.1 hhead.symm] at hL
      simp at hL
    rwa [releaseFolio_read, hheads x hxo]

end Recursion

/-- A loop that frees what a capability leads to ends when it leads nowhere. -/
theorem freeAll_filed (hfree : Frees Q free) {p : CapPtr} (n : ℕ) (h : InFile Q none 0 s)
    (hok : freeAll free activity p n s = .ok t) :
    ∃ u, InFile Q none 0 u ∧ Shrinks s u ∧ u.capToObject activity p = .ok (t, none) := by
  induction n generalizing s with
  | zero => simp [freeAll] at hok
  | succ n ih =>
    obtain ⟨⟨s₁, o⟩, hobject, hrest⟩ := bind_eq_ok.1 hok
    cases o with
    | none =>
      obtain rfl := pure_eq_ok.1 hrest
      exact ⟨s, h, .refl s, hobject⟩
    | some o =>
      obtain ⟨s₂, hone, hrest⟩ := bind_eq_ok.1 hrest
      obtain ⟨h₁, hshrinks₁⟩ := (InFile.keeps none 0 s activity).capToObject hobject ⟨h, .refl s⟩
      obtain ⟨h₂, hshrinks₂⟩ := hfree h₁ hone
      obtain ⟨u, hu, hshrinks, hend⟩ := ih h₂ hrest
      exact ⟨u, hu, (hshrinks₁.trans hshrinks₂).trans hshrinks, hend⟩

/-- `unlinkSibling` for a child that is on the list of its parent. -/
theorem unlinkSibling_spec {T : Finset ℕ} {C : ℕ → List ℕ}
    {parent v : ℕ} (h : Chained .children T C s) (hparent : parent ∈ T) (hv : v ∈ C parent)
    (hok : s.unlinkSibling activity v parent = .ok t) :
    ∃ u, Noted s u ∧ t = CapList.children.unlinked u parent v
      (u.read (.activitySiblingPrev v)).target (u.read (.activitySiblingNext v)).target := by
  obtain ⟨⟨s₁, prev⟩, hprev, hrest⟩ := bind_eq_ok.1 hok
  obtain ⟨⟨s₂, next⟩, hnext, rfl⟩ := bind_pure_eq_ok.1 hrest
  obtain ⟨hnoted₁, rfl⟩ := capToObject_fresh
    (h.fresh (.activitySiblingPrev v) ⟨parent, hparent, .inr ⟨v, hv, .inr rfl⟩⟩) hprev
  obtain ⟨hnoted₂, rfl⟩ := capToObject_fresh ((h.noted hnoted₁).fresh (.activitySiblingNext v)
    ⟨parent, hparent, .inr ⟨v, hv, .inl rfl⟩⟩) hnext
  have hp : (s.read (.activitySiblingPrev v)).target =
      (s₂.read (.activitySiblingPrev v)).target := by
    rw [hnoted₂.read, hnoted₁.read]
  have hn : (s₁.read (.activitySiblingNext v)).target =
      (s₂.read (.activitySiblingNext v)).target := by
    rw [hnoted₂.read]
  refine ⟨s₂, hnoted₁.trans hnoted₂, ?_⟩
  rw [hp, hn]
  rfl

/-- Marking an activity as dying. -/
theorem Shrinks.setDying (s : Kernel) (v : ℕ) :
    Shrinks s (s.modifyActivity v fun g => { g with dying := true }) := by
  refine ⟨fun _ hx _ => hx, fun x _ hd => ?_, fun _ _ h => h⟩
  by_cases hx : x = v
  · subst hx
    simp [Kernel.modifyActivity, Kernel.read]
  · simp [Kernel.modifyActivity, Kernel.read, hx, hd]

theorem modifyActivity_read (s : Kernel) (v : ℕ) (f : Activity → Activity)
    (hf : ∀ g, (f g).parentCap = g.parentCap ∧ (f g).childrenCap = g.childrenCap ∧
      (f g).siblingNextCap = g.siblingNextCap ∧ (f g).siblingPrevCap = g.siblingPrevCap ∧
      (f g).folios = g.folios) (p : CapPtr) : (s.modifyActivity v f).read p = s.read p := by
  cases p with
  | activityParent x | activityChildren x | activitySiblingNext x | activitySiblingPrev x
  | activityFolios x =>
    by_cases hx : x = v
    · subst hx
      simp [Kernel.modifyActivity, Kernel.read, hf (s.activity x)]
    · simp [Kernel.modifyActivity, Kernel.read, hx]
  | _ => rfl

theorem InFile.setDying (h : InFile Q none 0 s) (v : ℕ) :
    InFile Q none 0 (s.modifyActivity v fun g => { g with dying := true }) := by
  obtain ⟨T, L, C, h⟩ := h
  have hread := modifyActivity_read s v (fun g => { g with dying := true })
    fun _ => ⟨rfl, rfl, rfl, rfl, rfl⟩
  set t := s.modifyActivity v fun g => { g with dying := true } with ht
  have hsame : ∀ a, (t.activity a).ancestors = (s.activity a).ancestors ∧
      (t.activity a).folioCount = (s.activity a).folioCount ∧
      (t.activity a).quota = (s.activity a).quota := fun a => by
    by_cases ha : a = v
    · simp [ht, ha, Kernel.modifyActivity]
    · simp [ht, Kernel.modifyActivity, ha]
  refine ⟨T, L, C, h.recount (t := t) (fun _ => rfl) (fun p _ => hread p) (fun a => (hsame a).1)
    (fun _ hn => hn) h.charged (fun a => by rw [(hsame a).2.1]) fun a ha => ?_⟩
  rw [(hsame a).2.1, (hsame a).2.2]
  exact h.quota a ha

/-- When a dying activity's list has been freed, its head leads nowhere. -/
theorem freeAll_emptied (hfree : Frees Q free) {v n : ℕ} (h : InFile Q none 0 s) (hlive : s.Live v)
    (hdying : (s.activity v).dying = true) (hp : p = .activityFolios v ∨ p = .activityChildren v)
    (hok : freeAll free activity p n s = .ok t) :
    InFile Q none 0 t ∧ Shrinks s t ∧ (t.read p).target = none := by
  obtain ⟨u, ⟨T, L, C, hu⟩, hshrinks, hend⟩ := freeAll_filed hfree n h hok
  have hT : v ∈ T := (hu.tree.live v).2 (hshrinks.live v hlive hdying)
  have hfresh : u.Fresh (u.read p) := by
    rcases hp with rfl | rfl
    · exact hu.folios.fresh _ ⟨v, hT, .inl rfl⟩
    · exact hu.children.fresh _ ⟨v, hT, .inl rfl⟩
  obtain ⟨hnoted, hnone⟩ := capToObject_fresh hfresh hend
  refine ⟨⟨T, L, C, hu.noted hnoted⟩, hshrinks.trans (.noted hnoted), ?_⟩
  rw [hnoted.read, ← hnone]

/-- **Destroying an activity.** Its folios go first, then its children; what is left owns nothing
and is on no list. -/
theorem activityDestroy_destroys (env : Env) (activity n : ℕ) :
    Destroys Q (activityDestroy env n activity) := by
  induction n with
  | zero => exact fun v s t _ _ hok => by simp [activityDestroy] at hok
  | succ n ih =>
    intro v s t h hlive hok
    cases hancestors : (s.activity v).ancestors with
    | nil => simp [activityDestroy, hancestors] at hok
    | cons parent rest =>
      simp only [activityDestroy, hancestors] at hok
      obtain ⟨_, hdying, hrest⟩ := bind_eq_ok.1 hok
      obtain ⟨s₂, hfolios, hrest⟩ := bind_eq_ok.1 hrest
      obtain ⟨s₃, hchildren, hrest⟩ := bind_eq_ok.1 hrest
      obtain ⟨_, -, hunlink⟩ := bind_eq_ok.1 hrest
      set s₁ := s.modifyActivity v fun g => { g with dying := true } with hs₁
      have hv₁ : (s₁.activity v).dying = true ∧ (s₁.activity v).ancestors = parent :: rest := by
        simp [hs₁, Kernel.modifyActivity, hancestors]
      have hlive₁ : s₁.Live v := hlive
      obtain ⟨h₂, hshrinks₂, hnone₂⟩ :=
        freeAll_emptied (folioFreeWith_frees ih) (h.setDying v) hlive₁ hv₁.1 (.inl rfl) hfolios
      obtain ⟨hdying₂, -, -⟩ := hshrinks₂.dying v hlive₁ hv₁.1
      have hlive₂ := hshrinks₂.live v hlive₁ hv₁.1
      obtain ⟨⟨T, L, C, h₃⟩, hshrinks₃, hnone₃⟩ :=
        freeAll_emptied (objectFreeWith_frees ih) h₂ hlive₂ hdying₂ (.inr rfl) hchildren
      -- freeing the children has not given the victim a folio
      have hfolios₃ := (hshrinks₃.dying v hlive₂ hdying₂).2.2 hnone₂
      have hshrinks := hshrinks₂.trans hshrinks₃
      have hv₃ : v ∈ T := (h₃.tree.live v).2 (hshrinks.live v hlive₁ hv₁.1)
      have hL : L v = [] :=
        List.head?_eq_none_iff.1 ((h₃.folios.list v hv₃).head_eq.symm.trans hfolios₃)
      have hC : C v = [] :=
        List.head?_eq_none_iff.1 ((h₃.children.list v hv₃).head_eq.symm.trans hnone₃)
      have hancestors₃ := ((hshrinks.dying v hlive₁ hv₁.1).2.1).trans hv₁.2
      have hnoted := Noted.inheritObjects s₃ v parent
      have h₄ := h₃.noted hnoted
      have hp : parent ∈ T := (h₃.tree.lineage_eq hv₃ hancestors₃).2.1
      have hchild : v ∈ C parent :=
        (h₃.child parent hp v).2 ⟨hv₃, by simp, by rw [hancestors₃]; rfl⟩
      obtain ⟨u, hu, rfl⟩ := unlinkSibling_spec h₄.children hp hchild hunlink
      have haccount := (hnoted.trans hu).account v
      simp only [Activity.account, Prod.mk.injEq] at haccount
      refine ⟨⟨T, L, _, (h₄.noted hu).retire hv₃ (haccount.1.trans hancestors₃) hL hC⟩, ?_,
        require_eq_ok.1 hdying⟩
      have hunlinked : Shrinks u (CapList.children.unlinked u parent v
          (u.read (.activitySiblingPrev v)).target (u.read (.activitySiblingNext v)).target) :=
        .of_account (fun o => by rw [CapList.unlinked_desc]) (fun a => CapList.unlinked_account ..)
          fun x => .inl (CapList.read_unlinked_of_apart _ _ _ _ _ _
            (folios_apart_children (.inl rfl)))
      exact (Shrinks.setDying s v).trans (hshrinks.trans
        ((Shrinks.noted (hnoted.trans hu)).trans hunlinked))

/-- `folio_free` keeps the files in order. -/
theorem folioFree_filed (h : InFile Q none 0 s)
    (hok : s.folioFree env activity folio = .ok t) : InFile Q none 0 t :=
  (folioFreeWith_frees (activityDestroy_destroys env activity env.fuel) h hok).1

end Kernel

end Viengoos
