import Viengoos.Kernel.Folio
import Viengoos.Lib.Ledger

/-!
# The records of a kernel

The version of an object is in three places: in the capabilities that name it, in its folio, and in
its descriptor while it is in memory. The last two are the records of a kernel, a `Ledger`. Looking
objects up, shooting capabilities down and turning a slot over are sound changes of it; all else
that the kernel does to its state leaves the records alone (`Kept`).
-/

namespace Viengoos

open Outcome Function Option

theorem folioOf_folioOf (o : ℕ) : folioOf (folioOf o) = folioOf o := by
  simp only [folioOf, folioObjects]
  omega

variable {type : CapType} {d : Desc} {env : Env} {r : Kernel} {o : ℕ} {H : ℕ → ObjectPolicy → Prop}

theorem folioOf_eq_self : folioOf o = o ↔ isFolioOid o = true := by
  simp only [folioOf, isFolioOid, folioObjects, beq_iff_eq]
  omega

theorem folioOf_ne_self : folioOf o ≠ o ↔ isFolioOid o = false := by
  rw [ne_eq, folioOf_eq_self, Bool.not_eq_true]

/-- Objects are in folios. -/
def layout : Ledger.Layout ℕ CapType := ⟨folioOf, .void, folioOf_folioOf⟩

/-! ### The records of a kernel -/

/-- What a folio's entry says about type, version and content. -/
def FolioEntry.record (e : FolioEntry) : CapType × Fin (2 ^ 20) × Bool × Bool :=
  (e.type, e.version, e.discarded, e.content)

/-- What a descriptor says about type and version. -/
def Desc.record (d : Desc) : CapType × Fin (2 ^ 20) := (d.type, d.version)

namespace Kernel

/-- The records of a kernel. A folio's own version is in the folio. -/
def ledger (s : Kernel) : Ledger ℕ CapType (2 ^ 20) where
  live o := (s.desc o).map Desc.record
  version o := if isFolioOid o then (s.folio o).version else (s.entryOf o).version
  kind o := if isFolioOid o then .folio else (s.entryOf o).type
  withheld o := !isFolioOid o && (s.entryOf o).discarded
  stored o := !isFolioOid o && (s.entryOf o).content
  turnover := s.turnover

/-- A step that leaves every record as it is. -/
structure Kept (s t : Kernel) : Prop where
  desc : ∀ o, (t.desc o).map Desc.record = (s.desc o).map Desc.record
  version : ∀ f, (t.folio f).version = (s.folio f).version
  entry : ∀ f i, ((t.folio f).entry i).record = ((s.folio f).entry i).record
  turnover : t.turnover = s.turnover

namespace Kept

theorem refl (s : Kernel) : Kept s s := ⟨fun _ => rfl, fun _ => rfl, fun _ _ => rfl, rfl⟩

variable {s t : Kernel} {policy : ObjectPolicy} {activity : ℕ}

theorem trans (h : Kept s t) (h' : Kept t r) : Kept s r where
  desc o := (h'.desc o).trans (h.desc o)
  version f := (h'.version f).trans (h.version f)
  entry f i := (h'.entry f i).trans (h.entry f i)
  turnover := h'.turnover.trans h.turnover

theorem ledger (h : Kept s t) : t.ledger = s.ledger := by
  have hentry : ∀ o, (t.entryOf o).record = (s.entryOf o).record :=
    fun o => h.entry _ _
  simp only [FolioEntry.record, Prod.mk.injEq] at hentry
  simp only [Kernel.ledger, h.desc, h.version, h.turnover, hentry]

theorem of_accountsOnly (h : AccountsOnly s t) : Kept s t := by
  rw [h.rest]
  exact ⟨fun _ => rfl, fun _ => rfl, fun _ _ => rfl, rfl⟩

theorem modifyActivity (s : Kernel) (a : ℕ) (f : Activity → Activity) :
    Kept s (s.modifyActivity a f) :=
  ⟨fun _ => rfl, fun _ => rfl, fun _ _ => rfl, rfl⟩

theorem forEachAncestor (s : Kernel) (a : ℕ) (f : Activity → Activity) :
    Kept s (s.forEachAncestor a f) := by
  have hfold : ∀ (l : List ℕ) (t : Kernel),
      Kept t (l.foldl (fun t b => t.modifyActivity b f) t) := by
    intro l
    induction l with
    | nil => exact Kept.refl
    | cons b l ih => exact fun t => (modifyActivity t b f).trans (ih _)
  exact hfold _ s

/-- A change of a descriptor that keeps its type and version. -/
theorem modifyDesc (s : Kernel) (o : ℕ) {f : Desc → Desc}
    (hf : ∀ d, (f d).record = d.record) : Kept s (s.modifyDesc o f) := by
  refine ⟨fun o' => ?_, fun _ => rfl, fun _ _ => rfl, rfl⟩
  by_cases ho : o' = o
  · subst ho
    simp only [Kernel.modifyDesc, setDesc_desc_self, Option.map_map]
    exact congrArg (Option.map · _) (funext hf)
  · rw [Kernel.modifyDesc, setDesc_desc_of_ne _ _ ho]

theorem setDesc {d' : Desc} (h : AccountsOnly s t)
    (hd : s.desc o = some d) (hrecord : d'.record = d.record) :
    Kept s (t.setDesc o (some d')) := by
  refine (of_accountsOnly h).trans ⟨fun o' => ?_, fun _ => rfl, fun _ _ => rfl, rfl⟩
  by_cases ho : o' = o
  · subst ho
    rw [setDesc_desc_self, h.desc, hd, map_some, map_some, hrecord]
  · rw [setDesc_desc_of_ne _ _ ho]

/-- A change of a folio that keeps its version and what it records. -/
theorem modifyFolio (s : Kernel) (o : ℕ) {f : Folio → Folio}
    (hversion : ∀ g, (f g).version = g.version)
    (hentry : ∀ g i, ((f g).entry i).record = (g.entry i).record) :
    Kept s (s.modifyFolio o f) := by
  refine ⟨fun _ => rfl, fun o' => ?_, fun o' i => ?_, rfl⟩ <;>
    by_cases ho : o' = o
  · subst ho
    simp [Kernel.modifyFolio, hversion]
  · simp [Kernel.modifyFolio, ho]
  · subst ho
    simp [Kernel.modifyFolio, hentry]
  · simp [Kernel.modifyFolio, ho]

theorem modifyEntry (s : Kernel) (folio i : ℕ) {f : FolioEntry → FolioEntry}
    (hf : ∀ e, (f e).record = e.record) :
    Kept s (s.modifyEntry folio i f) := by
  refine modifyFolio s folio (fun _ => rfl) fun g j => ?_
  by_cases hj : j = i
  · subst hj
    simp [hf]
  · simp [hj]

theorem write (s : Kernel) (p : CapPtr) (c : Cap) : Kept s (s.write p c) := by
  cases p with
  | folioActivity f | folioNext f | folioPrev f =>
    rw [Kernel.write]
    exact modifyFolio s f (by intro; rfl) (by intros; rfl)
  | _ => exact ⟨fun _ => rfl, fun _ => rfl, fun _ _ => rfl, rfl⟩

theorem voidCap (s : Kernel) (p : CapPtr) : Kept s (s.voidCap p) := write s p _

theorem objectDescUnmap (s : Kernel) (o : ℕ) : Kept s (s.objectDescUnmap o) := by
  rcases objectDescUnmap_spec s o with ⟨heq, -⟩ | ⟨d, hw, hd, heq⟩
  · rw [heq]
    exact refl s
  · rw [heq]
    have hset : Kept s (s.setDesc o (some { noteStatus d (s.status o) with mapped := false })) :=
      setDesc (.refl s) hd rfl
    exact ⟨hset.desc, hset.version, hset.entry, hset.turnover⟩

theorem objectDescClaim (hd : s.desc o = some d) (activity : Option ℕ) (policy : ObjectPolicy) :
    Kept s (s.objectDescClaim activity o policy) := by
  obtain ⟨t, ht, heq⟩ := objectDescClaim_spec hd activity policy
  obtain ⟨htype, hversion, -⟩ := claimedDesc_fields d activity policy
  rw [heq]
  exact setDesc ht hd (Prod.ext htype hversion)

end Kept

/-! ### Lookups -/

/-- The records of a kernel stay consistent and only move on. -/
def Sound (s t : Kernel) : Prop := Ledger.Sound layout s.ledger t.ledger

variable {s t s' : Kernel} {activity oid : ℕ} {policy : ObjectPolicy}

theorem Kept.sound (h : Kept s t) : Sound s t := by
  rw [Sound, h.ledger]
  exact .refl _

theorem Sound.refl (s : Kernel) : Sound s s := Ledger.Sound.refl _

theorem Sound.trans (h : Sound s t) (h' : Sound t r) : Sound s r :=
  Ledger.Sound.trans h h'

theorem ledger_version_congr (hentry : t.entryOf o = s.entryOf o)
    (hself : isFolioOid o = true → t.folio o = s.folio o) :
    t.ledger.version o = s.ledger.version o := by
  by_cases ho : isFolioOid o = true
  · simp only [ledger, ho, if_true, hself ho]
  · simp only [ledger, ho, Bool.false_eq_true, if_false, hentry]

/-- The records after a frame was taken for an object. -/
theorem paged_ledger {version : Fin (2 ^ 20)}
    (h : s.memoryObjectAlloc activity type oid version policy = .ok s') :
    s'.ledger.live = update s.ledger.live oid (some (type, version)) ∧
      s'.folio = update s.folio oid .zero ∧ s'.turnover = s.turnover := by
  obtain ⟨-, -, -, -, t, ht, rfl⟩ := memoryObjectAlloc_spec h
  refine ⟨?_, ht.folio, by show t.turnover = _; rw [ht.rest]; rfl⟩
  funext o
  by_cases ho : o = oid
  · subst ho
    simp [ledger, Desc.record, pagedDesc, Desc.fresh]
  · simp only [ledger, setDesc_desc_of_ne _ _ ho, ht.desc, update_of_ne ho]
    rfl

theorem pagedFolio_sound (hoid : isFolioOid oid = true)
    (h : s.memoryObjectAlloc activity .folio oid 0 policy = .ok s') :
    Sound s s' := by
  obtain ⟨hlive, hfolio, hturn⟩ := paged_ledger h
  obtain ⟨-, -, -, hnone, -⟩ := memoryObjectAlloc_spec h
  have hkind : s'.ledger.kind oid = .folio := by simp [ledger, hoid]
  have hversion : s'.ledger.version oid = 0 := by simp [ledger, hoid, hfolio, Folio.zero]
  refine Ledger.Sound.bringContainer (a := oid) (by simp [ledger, hnone]) (folioOf_eq_self.2 hoid)
    (by rw [hkind, hversion, hlive]) (by rw [hkind]; exact CapType.noConfusion) hturn ?_ ?_
  · intro b hb
    have hb' : folioOf b ≠ oid := hb
    have hentry : s'.entryOf b = s.entryOf b := by simp [entryOf, hfolio, hb']
    have hself : isFolioOid b = true → s'.folio b = s.folio b := fun hfb => by
      rw [folioOf_eq_self.2 hfb] at hb'
      rw [hfolio, update_of_ne hb']
    exact ⟨ledger_version_congr hentry hself, by simp only [ledger, hentry],
      by simp only [ledger, hentry], by simp only [ledger, hentry]⟩
  · intro b hb _
    have hb' : folioOf b = oid := hb
    simp [ledger, entryOf, hfolio, hb', Folio.zero, FolioEntry.zero]

theorem pagedObject_sound (hoid : isFolioOid oid = false)
    (hin : (s.desc (folioOf oid)).isSome = true) (hdisc : (s.entryOf oid).discarded = false)
    (h : s.memoryObjectAlloc activity (s.entryOf oid).type oid (s.entryOf oid).version policy =
      .ok s') : Sound s s' := by
  obtain ⟨hlive, hfolio, hturn⟩ := paged_ledger h
  obtain ⟨hvoid, -, -, hnone, -⟩ := memoryObjectAlloc_spec h
  have hkind : s.ledger.kind oid = (s.entryOf oid).type := by simp [ledger, hoid]
  have hversion : s.ledger.version oid = (s.entryOf oid).version := by simp [ledger, hoid]
  have hslot : layout.owner oid ≠ oid := folioOf_ne_self.2 hoid
  -- no record is kept in the object's own page
  have hentry : ∀ b, s'.entryOf b = s.entryOf b := fun b => by
    have hb : folioOf b ≠ oid := layout.owner_ne hslot b
    simp [entryOf, hfolio, hb]
  have hself : ∀ b, isFolioOid b = true → s'.folio b = s.folio b := fun b hb => by
    have hne : b ≠ oid := by
      rintro rfl
      simp [hb] at hoid
    rw [hfolio, update_of_ne hne]
  have heq : s'.ledger = s.ledger.setLive oid (some (s.ledger.kind oid, s.ledger.version oid)) := by
    have hversions : s'.ledger.version = s.ledger.version :=
      funext fun b => ledger_version_congr (hentry b) (hself b)
    rw [Ledger.setLive, hkind, hversion, ← hlive, ← hversions]
    simp only [ledger, hentry, hturn]
  rw [Sound, heq]
  refine .bring hslot ?_ (by simp [ledger, hdisc]) (hkind ▸ hvoid)
  simpa [Ledger.Resident, ledger, layout] using hin

/-- **Lookups are sound.** -/
theorem Touches.sound (h : Touches H s t) :
    Sound s t := by
  induction h with
  | refl => exact .refl s
  | @found t oid d policy activity _ hd _ ih =>
    obtain ⟨u, hu, heq⟩ := objectFindSoft_spec hd activity policy
    obtain ⟨htype, hversion, -⟩ := foundDesc_fields d activity policy
    rw [heq]
    exact ih.trans (Kept.setDesc hu hd (Prod.ext htype hversion)).sound
  | paged _ _ hpages hok ih =>
    refine ih.trans ?_
    rcases hpages with ⟨hoid, rfl, rfl⟩ | ⟨hoid, rfl, rfl, hin, hdisc⟩
    · exact pagedFolio_sound hoid hok
    · exact pagedObject_sound hoid hin hdisc hok
  | voided p _ ih => exact ih.trans (Kept.voidCap _ p).sound
  | unmapped o _ ih => exact ih.trans (Kept.objectDescUnmap _ o).sound

/-- Lookups turn nothing over. -/
theorem Touches.turnover (h : Touches H s t) :
    t.turnover = s.turnover := by
  induction h with
  | refl => rfl
  | @found t oid d policy activity _ hd _ ih =>
    obtain ⟨u, hu, heq⟩ := objectFindSoft_spec hd activity policy
    obtain ⟨htype, hversion, -⟩ := foundDesc_fields d activity policy
    rw [heq]
    exact (Kept.setDesc hu hd (Prod.ext htype hversion)).turnover.trans ih
  | paged _ _ _ hok ih => exact (paged_ledger hok).2.2.trans ih
  | voided p _ ih => exact (Kept.voidCap _ p).turnover.trans ih
  | unmapped o _ ih => exact (Kept.objectDescUnmap _ o).turnover.trans ih

/-- A sound step that turns no slot over. -/
structure Quiet (s t : Kernel) : Prop where
  sound : Sound s t
  turnover : t.turnover = s.turnover

namespace Quiet

theorem refl (s : Kernel) : Quiet s s := ⟨.refl s, rfl⟩

theorem trans (h : Quiet s t) (h' : Quiet t r) : Quiet s r :=
  ⟨h.sound.trans h'.sound, h'.turnover.trans h.turnover⟩

end Quiet

theorem Kept.quiet (h : Kept s t) : Quiet s t := ⟨h.sound, h.turnover⟩

theorem Touches.quiet (h : Touches H s t) :
    Quiet s t :=
  ⟨h.sound, h.turnover⟩

theorem objectFind_quiet {s' : Kernel} {oid : ℕ} {found : Bool}
    (h : s.objectFind activity oid policy = .ok (s', found)) : Quiet s s' :=
  (objectFind_touches (H := fun _ _ => True) trivial trivial h).1.quiet

theorem capToObject_quiet {s' : Kernel} {p : CapPtr} {r : Option ℕ}
    (h : s.capToObject activity p = .ok (s', r)) : Quiet s s' :=
  (capToObject_spec h).1.quiet

theorem shootdown_touches {fuel : ℕ} {junk : ℕ → ObjectPolicy}
    {root : CapPtr} (h : s.capShootdown fuel activity junk root = .ok t) :
    Touches (fun _ _ => True) s t :=
  capShootdown_touches (fun _ => trivial) (fun _ => trivial) (fun _ _ _ => trivial)
    (fun _ => trivial) h

/-! ### Freeing and allocating -/

section Oid

variable {folio idx : ℕ}

section

variable (hfolio : isFolioOid folio = true) (hidx : idx < folioObjects)

include hfolio hidx

theorem isFolioOid_objectOid : isFolioOid (objectOid folio idx) = false := by
  simp only [isFolioOid, objectOid, folioObjects, beq_iff_eq, beq_eq_false_iff_ne] at *
  omega

theorem folioOf_objectOid : folioOf (objectOid folio idx) = folio := by
  simp only [isFolioOid, folioOf, objectOid, folioObjects, beq_iff_eq] at *
  omega

/-- The entries a folio keeps are told apart by the OIDs of its objects. -/
theorem modifyEntry_entryOf (f : FolioEntry → FolioEntry) (ho : isFolioOid o = false) :
    (s.modifyEntry folio idx f).entryOf o =
      if o = objectOid folio idx then f ((s.folio folio).entry idx) else s.entryOf o := by
  have hiff : o = objectOid folio idx ↔ folioOf o = folio ∧ o % (folioObjects + 1) - 1 = idx := by
    simp only [isFolioOid, folioOf, objectOid, folioObjects, beq_iff_eq, beq_eq_false_iff_ne] at *
    omega
  by_cases hf : folioOf o = folio
  · by_cases hi : o % (folioObjects + 1) - 1 = idx
    · rw [if_pos (hiff.2 ⟨hf, hi⟩)]
      simp [entryOf, modifyEntry, modifyFolio, hf, hi]
    · rw [if_neg fun h => hi (hiff.1 h).2]
      simp [entryOf, modifyEntry, modifyFolio, hf, hi]
  · rw [if_neg fun h => hf (hiff.1 h).1]
    simp [entryOf, modifyEntry, modifyFolio, hf]

end

theorem entryOf_objectOid (s : Kernel) (hfolio : isFolioOid folio = true)
    (hidx : idx < folioObjects) : s.entryOf (objectOid folio idx) = (s.folio folio).entry idx := by
  have hi : objectOid folio idx % (folioObjects + 1) - 1 = idx := by
    simp only [isFolioOid, objectOid, folioObjects, beq_iff_eq] at *
    omega
  rw [entryOf, folioOf_objectOid hfolio hidx, hi]

end Oid

theorem drop_quiet (ho : isFolioOid o = false) : Quiet s (s.setDesc o none) := by
  refine ⟨?_, rfl⟩
  have heq : (s.setDesc o none).ledger = s.ledger.setLive o none := by
    have hlive : (s.setDesc o none).ledger.live = update s.ledger.live o none := by
      funext b
      by_cases hb : b = o
      · simp [ledger, hb]
      · simp [ledger, setDesc_desc_of_ne _ _ hb, hb]
    rw [Ledger.setLive, ← hlive]
    rfl
  rw [Sound, heq]
  exact .drop (folioOf_ne_self.2 ho)

theorem memoryObjectDestroy_quiet
    (ho : isFolioOid o = false) (h : s.memoryObjectDestroy env activity o = .ok t) :
    Quiet s t ∧ t.desc o = none := by
  obtain ⟨s₁, hshoot, hrest⟩ := bind_eq_ok.1 h
  cases hd : s₁.desc o with
  | none => simp [hd] at hrest
  | some d =>
    simp only [hd] at hrest
    obtain ⟨_, -, rfl⟩ := bind_pure_eq_ok.1 hrest
    have hclaim := Kept.objectDescClaim hd none d.policy
    exact ⟨(shootdown_touches hshoot).quiet.trans (hclaim.quiet.trans (drop_quiet ho)),
      setDesc_desc_self ..⟩

/-- An object's page is ready for a new object of some type, or the object is not in memory. -/
structure Readied (s t : Kernel) (o : ℕ) (type : CapType) (version : Fin (2 ^ 20)) : Prop where
  other : ∀ b ≠ o, (t.desc b).map Desc.record = (s.desc b).map Desc.record
  folio : ∀ b ≠ o, t.folio b = s.folio b
  turnover : t.turnover = s.turnover
  desc : t.desc o = none ∨ type ≠ .void ∧ (t.desc o).map Desc.record = some (type, version)

theorem renewObject_spec (hd : s.desc o = some d) (hvoid : type ≠ .void)
    (h : s.renewObject env activity o type policy = .ok t) :
    ∃ s₁, Touches (fun _ _ => True) s s₁ ∧ Readied s₁ t o type d.version ∧
      (t.read (.activityParent o)).type = .void := by
  obtain ⟨s₁, hshoot, hrest⟩ := bind_eq_ok.1 h
  have htouch := shootdown_touches hshoot
  obtain ⟨d₁, hd₁, -, hversion, -⟩ := htouch.later.kept hd
  obtain rfl := pure_eq_ok.1 hrest
  refine ⟨s₁, htouch, ?_⟩
  -- the page is zeroed, the descriptor cleared, then the object is claimed
  set u : Kernel := { (s₁.zeroObject o).modifyDesc o clearedDesc with
    status := update (s₁.zeroObject o).status o ⟨false, false⟩ } with hu
  have hud : u.desc o = some (clearedDesc d₁) := by
    show ((s₁.zeroObject o).modifyDesc o clearedDesc).desc o = _
    rw [modifyDesc, setDesc_desc_self]
    show (s₁.desc o).map _ = _
    rw [hd₁]
    rfl
  obtain ⟨v, hv, heq⟩ := objectDescClaim_spec hud (some activity) policy
  obtain ⟨-, hclaimed, -⟩ := claimedDesc_fields (clearedDesc d₁) (some activity) policy
  rw [heq]
  refine ⟨⟨fun b hb => ?_, fun b hb => ?_, ?_, .inr ⟨hvoid, ?_⟩⟩, ?_⟩
  · rw [modifyDesc, setDesc_desc_of_ne _ _ hb, setDesc_desc_of_ne _ _ hb, hv.desc]
    show (((s₁.zeroObject o).modifyDesc o clearedDesc).desc b).map _ = _
    rw [modifyDesc, setDesc_desc_of_ne _ _ hb]
    rfl
  · show v.folio b = _
    rw [hv.folio]
    show (s₁.zeroObject o).folio b = _
    simp [zeroObject, hb]
  · show v.turnover = _
    rw [hv.rest]
    rfl
  · have hversion' : (claimedDesc (clearedDesc d₁) (some activity) policy).version = d.version :=
      hclaimed.trans hversion
    simp [modifyDesc, Desc.record, hversion']
  · show (v.activity o).parentCap.type = _
    rw [hv.activity]
    show ((s₁.zeroObject o).activity o).parentCap.type = _
    simp [zeroObject, Activity.zero]

/-- **Inversion of the replacement**: after steps that turn nothing over, the page is ready. -/
theorem replaceObject_spec {folio idx : ℕ}
    {s t : Kernel} {inMemory : Bool} (hfolio : isFolioOid folio = true)
    (hidx : idx < folioObjects) (hin : (s.desc folio).isSome = true)
    (h : s.replaceObject env activity folio idx type policy = .ok (t, inMemory)) :
    ∃ s₁, Quiet s s₁ ∧
      Readied s₁ t (objectOid folio idx) type ((s₁.folio folio).entry idx).version ∧
      (inMemory = true → (t.read (.activityParent (objectOid folio idx))).type = .void) ∧
      (inMemory = false → t.desc (objectOid folio idx) = none) := by
  have hready : ∀ {u : Kernel} (v), u.desc (objectOid folio idx) = none →
      Readied u u (objectOid folio idx) type v :=
    fun v hu => ⟨fun _ _ => rfl, fun _ _ => rfl, rfl, .inl hu⟩
  simp only [replaceObject] at h
  cases hd : s.desc (objectOid folio idx) with
  | none =>
    simp only [hd] at h
    obtain ⟨⟩ := pure_eq_ok.1 h
    exact ⟨s, .refl s, hready _ hd, by simp, fun _ => hd⟩
  | some d =>
    simp only [hd] at h
    obtain ⟨_, hversion, hrest⟩ := bind_eq_ok.1 h
    obtain ⟨_, -, hrest⟩ := bind_eq_ok.1 hrest
    have hversion := require_eq_ok.1 hversion
    split at hrest
    · obtain ⟨u, hdestroy, ⟨⟩⟩ := bind_pure_eq_ok.1 hrest
      obtain ⟨hquiet, hnone⟩ :=
        memoryObjectDestroy_quiet (isFolioOid_objectOid hfolio hidx) hdestroy
      have hfree : Kept u u.memoryFrameFree :=
        ⟨fun _ => rfl, fun _ => rfl, fun _ _ => rfl, rfl⟩
      exact ⟨_, hquiet.trans hfree.quiet, hready _ hnone, by simp, fun _ => hnone⟩
    · next hvoid =>
      obtain ⟨u, hrenew, ⟨⟩⟩ := bind_pure_eq_ok.1 hrest
      obtain ⟨s₁, htouch, hready, hparent⟩ := renewObject_spec hd hvoid hrenew
      rw [hversion, ← htouch.later.entry hin] at hready
      exact ⟨s₁, htouch.quiet, hready, fun _ => hparent, by simp⟩

theorem modifyEntry_version (s : Kernel) (folio idx : ℕ) (f : FolioEntry → FolioEntry) (o : ℕ) :
    ((s.modifyEntry folio idx f).folio o).version = (s.folio o).version := by
  by_cases ho : o = folio
  · subst ho
    simp [modifyEntry, modifyFolio]
  · simp [modifyEntry, modifyFolio, ho]

/-- The version a slot has next. -/
def nextVersion (e : FolioEntry) : Fin (2 ^ 20) :=
  if e.type ≠ .void then e.version + 1 else e.version

theorem turnSlot_turnover (s : Kernel) (folio idx : ℕ) (type : CapType) (policy : ObjectPolicy) :
    (s.turnSlot folio idx type policy).turnover = update s.turnover (objectOid folio idx)
      (s.turnover (objectOid folio idx) + 1) := by
  simp only [turnSlot]
  split <;> rfl

theorem turnSlot_version (s : Kernel) (folio idx : ℕ) (type : CapType) (policy : ObjectPolicy)
    (o : ℕ) : ((s.turnSlot folio idx type policy).folio o).version = (s.folio o).version := by
  simp only [turnSlot]
  rw [modifyEntry_version]
  split
  · exact modifyEntry_version s folio idx
      (fun e => { e with version := ((s.folio folio).entry idx).version + 1 }) o
  · rfl

theorem turnSlot_desc (s : Kernel) (folio idx : ℕ) (type type' : CapType) (policy : ObjectPolicy) :
    (∀ o ≠ objectOid folio idx, (s.turnSlot folio idx type policy).desc o = s.desc o) ∧
      (s.desc (objectOid folio idx) = none →
        (s.turnSlot folio idx type policy).desc (objectOid folio idx) = none) ∧
      ((s.desc (objectOid folio idx)).map Desc.record =
          some (type', ((s.folio folio).entry idx).version) →
        ((s.turnSlot folio idx type policy).desc (objectOid folio idx)).map Desc.record =
          some (type', nextVersion ((s.folio folio).entry idx))) := by
  have hdesc : (s.turnSlot folio idx type policy).desc =
      if ((s.folio folio).entry idx).type ≠ .void then (s.bumpVersion folio idx).desc
      else s.desc := by
    simp only [turnSlot]
    split <;> rfl
  rw [hdesc, nextVersion]
  split
  · refine ⟨fun o ho => ?_, fun hnone => ?_, fun hsome => ?_⟩
    · simp [bumpVersion, modifyDesc, setDesc, modifyEntry, modifyFolio, ho]
    · simp [bumpVersion, modifyDesc, setDesc, modifyEntry, modifyFolio, hnone]
    · obtain ⟨d, hd, hrecord⟩ := map_eq_some_iff.1 hsome
      simp only [Desc.record, Prod.mk.injEq] at hrecord
      simp [bumpVersion, modifyDesc, setDesc, modifyEntry, modifyFolio, hd, Desc.record, hrecord.1]
  · exact ⟨fun _ _ => rfl, id, id⟩

section Turn

variable {folio idx : ℕ} (hfolio : isFolioOid folio = true) (hidx : idx < folioObjects)

include hfolio hidx

theorem turnSlot_entryOf (s : Kernel) (type : CapType) (policy : ObjectPolicy)
    (ho : isFolioOid o = false) : ((s.turnSlot folio idx type policy).entryOf o).record =
      if o = objectOid folio idx then (type, nextVersion ((s.folio folio).entry idx), false, false)
      else (s.entryOf o).record := by
  -- bumping the version or not, as far as the entries go
  obtain ⟨u, hu, hversion, hentry⟩ : ∃ u : Kernel,
      (s.turnSlot folio idx type policy).entryOf o =
        (u.modifyEntry folio idx (recordedEntry type policy)).entryOf o ∧
      ((u.folio folio).entry idx).version = nextVersion ((s.folio folio).entry idx) ∧
      (o ≠ objectOid folio idx → u.entryOf o = s.entryOf o) := by
    by_cases hvoid : ((s.folio folio).entry idx).type ≠ .void
    · refine ⟨s.bumpVersion folio idx, by simp only [turnSlot, if_pos hvoid]; rfl, ?_,
        fun hne => ?_⟩
      · simp [nextVersion, hvoid, bumpVersion, modifyEntry, modifyFolio, modifyDesc, setDesc]
      · have hmod := modifyEntry_entryOf (s := s) hfolio hidx
          (fun e => { e with version := ((s.folio folio).entry idx).version + 1 }) ho
        rw [if_neg hne] at hmod
        exact hmod
    · exact ⟨s, by simp only [turnSlot, if_neg hvoid]; rfl, by simp [nextVersion, hvoid],
        fun _ => rfl⟩
  rw [hu, modifyEntry_entryOf hfolio hidx _ ho]
  split
  · rw [← hversion]
    rfl
  · next hne => rw [hentry hne]

theorem turnSlot_sound (policy : ObjectPolicy) (hin : (s.desc folio).isSome = true)
    (hready : Readied s t (objectOid folio idx) type ((s.folio folio).entry idx).version) :
    Sound s (t.turnSlot folio idx type policy) := by
  have hslot := isFolioOid_objectOid hfolio hidx
  have howner := folioOf_objectOid hfolio hidx
  have hne : folio ≠ objectOid folio idx := by
    rw [objectOid]
    omega
  have hfolio_eq := hready.folio folio hne
  have hentry_s := entryOf_objectOid s hfolio hidx
  obtain ⟨hdesc_ne, hdesc_none, hdesc_some⟩ := turnSlot_desc t folio idx type type policy
  have hentry := fun {b} (hb : isFolioOid b = false) =>
    turnSlot_entryOf hfolio hidx t type policy hb
  have hmine := hentry hslot
  rw [if_pos rfl, hfolio_eq] at hmine
  simp only [FolioEntry.record, Prod.mk.injEq] at hmine
  refine Ledger.Sound.turn (a := objectOid folio idx) (folioOf_ne_self.2 hslot) ?_ ?_ ?_ ?_ ?_ ?_ ?_
  · show ((s.desc (folioOf (objectOid folio idx))).map Desc.record).isSome = true
    rw [howner, isSome_map, hin]
  · rcases hready.desc with hnone | ⟨hvoid, hsome⟩
    · exact .inl (by simp [ledger, hdesc_none hnone])
    · refine .inr ⟨?_, ?_⟩
      · rw [← hfolio_eq] at hsome
        simp only [ledger, hslot, Bool.false_eq_true, if_false, hmine]
        rw [hdesc_some hsome, hfolio_eq]
      · simp only [ledger, hslot, Bool.false_eq_true, if_false, hmine]
        exact hvoid
  · simp [ledger, hslot, hmine]
  · simp [ledger, hslot, hmine]
  · show (t.turnSlot folio idx type policy).turnover _ = s.turnover _ + 1
    rw [turnSlot_turnover, hready.turnover, update_self]
  · simp only [ledger, hslot, Bool.false_eq_true, if_false, hmine, hentry_s, nextVersion]
    by_cases hvoid : ((s.folio folio).entry idx).type = .void
    · exact .inl ⟨hvoid, by simp [hvoid]⟩
    · refine .inr ?_
      rw [if_pos hvoid, Fin.val_add]
      rfl
  · intro b hb
    have hlive : ((t.turnSlot folio idx type policy).desc b).map Desc.record =
        (s.desc b).map Desc.record := by
      rw [hdesc_ne b hb, hready.other b hb]
    have hturn : (t.turnSlot folio idx type policy).turnover b = s.turnover b := by
      rw [turnSlot_turnover, hready.turnover, update_of_ne hb]
    have hversion : ((t.turnSlot folio idx type policy).folio b).version =
        (s.folio b).version := by
      rw [turnSlot_version, hready.folio b hb]
    by_cases hfb : isFolioOid b = true
    · simp only [ledger, hfb, if_true, Bool.not_true, Bool.false_and]
      exact ⟨hlive, hversion, trivial, trivial, trivial, hturn⟩
    · rw [Bool.not_eq_true] at hfb
      have hother := hentry hfb
      have hfolio_ne : folioOf b ≠ objectOid folio idx :=
        layout.owner_ne (folioOf_ne_self.2 hslot) b
      have hsame : t.entryOf b = s.entryOf b := by simp [entryOf, hready.folio _ hfolio_ne]
      rw [if_neg hb, hsame] at hother
      simp only [FolioEntry.record, Prod.mk.injEq] at hother
      simp only [ledger, hfb, Bool.false_eq_true, if_false, Bool.not_false, Bool.true_and, hother]
      exact ⟨hlive, trivial, trivial, trivial, trivial, hturn⟩

end Turn

end Kernel

end Viengoos
