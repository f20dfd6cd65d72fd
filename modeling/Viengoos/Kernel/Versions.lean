import Viengoos.Kernel.Records
import Viengoos.Kernel.FolioRules

/-!
# Allocation keeps the records

Everything that allocates, frees or pages is a sound change of the kernel's records: `folio_alloc`
and page-out turn nothing over, `folio_object_alloc` turns its slot over and `folio_free` the folio
with all its slots. The recursion through `activity_destroy` is by its fuel.
-/

namespace Viengoos

open Outcome Option Function

namespace Kernel

/-! ### What turns nothing over -/

theorem Kept.waitsOn (s : Kernel) (w : ℕ → Option ℕ) : Kept s { s with waitsOn := w } :=
  ⟨fun _ => rfl, fun _ => rfl, fun _ _ => rfl, rfl⟩

theorem Quiet.modest (s : Kernel) (activity : ℕ) : Modest activity (Quiet s) where
  objectFind h hs := hs.trans (objectFind_quiet h)
  capToObject h hs := hs.trans (capToObject_quiet h)
  awake w hs := hs.trans (Kept.waitsOn _ w).quiet
  waiters folio idx _ hs := hs.trans (Kept.modifyEntry _ folio idx (by intro; rfl)).quiet

theorem Sound.modest (s : Kernel) (activity : ℕ) : Modest activity (Sound s) where
  objectFind h hs := hs.trans (objectFind_quiet h).sound
  capToObject h hs := hs.trans (capToObject_quiet h).sound
  awake w hs := hs.trans (Kept.waitsOn _ w).sound
  waiters folio idx _ hs := hs.trans (Kept.modifyEntry _ folio idx (by intro; rfl)).sound

theorem handOver_kept (s : Kernel) {f : Desc → Desc} (hf : ∀ d, (f d).record = d.record)
    (objects : List ℕ) : Kept s (s.handOver f objects) := by
  induction objects generalizing s with
  | nil => exact .refl s
  | cons o objects ih => exact (Kept.modifyDesc s o hf).trans (ih _)

theorem inheritObjects_kept (s : Kernel) (victim parent : ℕ) :
    Kept s (s.inheritObjects victim parent) := by
  simp only [inheritObjects]
  refine (handOver_kept s ?_ _).trans ((handOver_kept _ ?_ _).trans ((handOver_kept _ ?_ _).trans
    ((Kept.modifyActivity _ victim _).trans (Kept.modifyActivity _ parent _)))) <;>
    exact fun _ => rfl

/-! ### Allocating and freeing -/

/-- How an activity is destroyed must be sound for what is built on it. -/
def Sounds (destroy : ℕ → Kernel → Except Fault Kernel) : Prop :=
  ∀ ⦃o s t⦄, destroy o s = .ok t → Sound s t

variable {s : Kernel} {activity o : ℕ}

section Recursion

variable {destroy : ℕ → Kernel → Except Fault Kernel} (hdestroy : Sounds destroy) {env : Env}
  {activity folio idx : ℕ} {type : CapType} {policy : ObjectPolicy} {s t : Kernel}

include hdestroy

omit hdestroy in
/-- A new activity has no parent yet, so nothing is destroyed for it. -/
theorem activityCreateWith_quiet {parent child : ℕ}
    (hparent : (s.read (.activityParent child)).type = .void)
    (h : s.activityCreateWith destroy parent child = .ok t) : Quiet s t := by
  obtain ⟨⟨s₁, oldParent⟩, hold, hrest⟩ := bind_eq_ok.1 h
  simp only [capToObject, hparent, if_true] at hold
  obtain ⟨⟩ := pure_eq_ok.1 hold
  obtain ⟨s₂, hpure, hrest⟩ := bind_eq_ok.1 hrest
  obtain rfl : s = s₂ := by simpa using hpure
  obtain ⟨⟨s₃, oldHead⟩, hhead, hrest⟩ := bind_eq_ok.1 hrest
  refine Quiet.trans (Kept.quiet ?_) ((capToObject_quiet hhead).trans ?_)
  · exact (Kept.write s _ _).trans ((Kept.write _ _ _).trans
      ((Kept.voidCap _ _).trans (Kept.write _ _ _)))
  obtain ⟨⟨s₄, p⟩, hprepare, hrest⟩ := bind_eq_ok.1 hrest
  obtain ⟨_, -, rfl⟩ := bind_pure_eq_ok.1 hrest
  refine Quiet.trans ?_ ((capToObject_quiet hprepare).trans (Kept.modifyActivity _ _ _).quiet)
  cases oldHead with
  | none => exact .refl _
  | some h => exact (Kept.write _ _ _).quiet

omit hdestroy in
/-- An object that comes into memory anew is zeroed. -/
theorem objectFind_fresh {oid : ℕ} {found : Bool} (hoid : isFolioOid oid = false)
    (hnone : s.desc oid = none) (h : s.objectFind activity oid policy = .ok (t, found))
    (hfound : found = true) : (t.read (.activityParent oid)).type = .void := by
  rcases objectFind_cases h with ⟨d, hd, -⟩ | ⟨-, hcase⟩
  · simp [hd] at hnone
  · rcases hcase with ⟨hfolio, -⟩ | ⟨-, u, -, ⟨-, hfalse, -⟩ | ⟨-, -, halloc⟩⟩
    · simp [hfolio] at hoid
    · simp [hfalse] at hfound
    · obtain ⟨-, -, -, -, v, hv, rfl⟩ := memoryObjectAlloc_spec halloc
      rw [setDesc_read, hv.read]
      simp [read, framed, zeroObject, Activity.zero]

omit hdestroy in
@[simp] theorem turnSlot_activity (s : Kernel) (folio idx : ℕ) (type : CapType)
    (policy : ObjectPolicy) : (s.turnSlot folio idx type policy).activity = s.activity := by
  simp only [turnSlot]
  split <;> rfl

omit hdestroy in
/-- Setting an object up turns nothing over, as its page is zeroed. -/
theorem setUpObject_quiet {inMemory : Bool} (ho : isFolioOid o = false)
    (hin : inMemory = true → (s.read (.activityParent o)).type = .void)
    (hout : inMemory = false → s.desc o = none)
    (h : s.setUpObject destroy activity o type policy inMemory = .ok t) : Quiet s t := by
  simp only [setUpObject] at h
  split at h
  · cases inMemory with
    | true =>
      obtain ⟨⟨s₁, found⟩, hpure, hrest⟩ := bind_eq_ok.1 h
      obtain ⟨⟩ := pure_eq_ok.1 hpure
      exact activityCreateWith_quiet (hin rfl) hrest
    | false =>
      obtain ⟨⟨s₁, found⟩, hfind, hrest⟩ := bind_eq_ok.1 h
      obtain ⟨_, hfound, hrest⟩ := bind_eq_ok.1 hrest
      have hparent := objectFind_fresh ho (hout rfl) hfind (require_eq_ok.1 hfound)
      exact (objectFind_quiet hfind).trans (activityCreateWith_quiet hparent hrest)
  · exact pure_eq_ok.1 h ▸ .refl s

/-- **What `folio_object_alloc` does to the records**: sound steps, and its slot is turned over. The
capability it returns is a ticket for what the records say then. -/
theorem folioObjectAllocWith_spec {c : Cap}
    (h : s.folioObjectAllocWith destroy env activity folio idx type policy = .ok (t, c))
    (hcons : s.ledger.Consistent layout) :
    (t.ledger.Consistent layout ∧ Ledger.Evolves layout s.ledger t.ledger) ∧
      idx < folioObjects ∧ isFolioOid folio = true ∧ t.ledger.Resident layout c.oid ∧
      s.turnover c.oid < t.turnover c.oid ∧ c.oid = objectOid folio idx ∧
      c.type = type.strengthen ∧ c.type = t.ledger.kind c.oid ∧
      c.version = t.ledger.version c.oid := by
  obtain ⟨_, hidx, hrest⟩ := bind_eq_ok.1 h
  obtain ⟨_, hdesc, hrest⟩ := bind_eq_ok.1 hrest
  obtain ⟨_, hfolio, hrest⟩ := bind_eq_ok.1 hrest
  rw [require_eq_ok] at hidx hdesc hfolio
  obtain ⟨⟨s₁, found⟩, htear, hrest⟩ := bind_eq_ok.1 hrest
  obtain ⟨s₂, hwake, hrest⟩ := bind_eq_ok.1 hrest
  obtain ⟨⟨s₄, inMemory⟩, hreplace, hrest⟩ := bind_eq_ok.1 hrest
  have hslot := isFolioOid_objectOid hfolio hidx
  have howner := folioOf_objectOid hfolio hidx
  -- up to the replacement: sound, and the folio stays in memory
  have hsound : Sound s (if found = true then s₂
      else (s₂.objectFindSoft activity (objectOid folio idx) policy).1) := by
    have hdown := (Sound.modest s activity).tearDown
      (fun _ _ _ _ hok hs => hs.trans (hdestroy hok)) htear (.refl s)
    refine ((Sound.modest s activity).wakeWaiters hwake hdown).trans ?_
    split
    · exact .refl s₂
    · exact (objectFindSoft_touches (H := fun _ _ => True) s₂ activity trivial).sound
  obtain ⟨hcons₃, hev₃⟩ := hsound hcons
  have hres : s.ledger.Resident layout (objectOid folio idx) := by
    obtain ⟨d, hd, -⟩ := map_eq_some_iff.1 hdesc
    simp [Ledger.Resident, layout, howner, ledger, hd]
  have hin₃ := hev₃.resident hres
  simp only [Ledger.Resident, layout, howner, ledger, isSome_map] at hin₃
  obtain ⟨u, hquiet, hready, hparent, hnone⟩ := replaceObject_spec hfolio hidx hin₃ hreplace
  obtain ⟨hcons_u, hev_u⟩ := hquiet.sound hcons₃
  have hin_u := (hev₃.trans hev_u).resident hres
  simp only [Ledger.Resident, layout, howner, ledger, isSome_map] at hin_u
  obtain ⟨hcons₅, hev₅⟩ := turnSlot_sound hfolio hidx policy hin_u hready hcons_u
  have hentry := turnSlot_entryOf hfolio hidx s₄ type.strengthen policy hslot
  rw [if_pos rfl] at hentry
  simp only [FolioEntry.record, Prod.mk.injEq] at hentry
  have hturn : s.turnover (objectOid folio idx) <
      (s₄.turnSlot folio idx type.strengthen policy).turnover (objectOid folio idx) := by
    have hle := (hev₃.trans hev_u).turnover (objectOid folio idx)
    have hle : s.turnover (objectOid folio idx) ≤ u.turnover (objectOid folio idx) := hle
    rw [turnSlot_turnover, hready.turnover, update_self]
    omega
  have hev := hev₃.trans (hev_u.trans hev₅)
  have hkind : (s₄.turnSlot folio idx type.strengthen policy).ledger.kind (objectOid folio idx) =
      type.strengthen := by
    simp [ledger, hslot, hentry]
  -- what comes after turns nothing over
  obtain ⟨v, hset, hrest⟩ := bind_eq_ok.1 hrest
  obtain ⟨rfl, rfl⟩ := Prod.mk.inj (pure_eq_ok.1 hrest)
  have hv : Quiet (s₄.turnSlot folio idx type.strengthen policy) v := by
    refine setUpObject_quiet hslot (fun hin => ?_) (fun hout => ?_) hset
    · rw [read, turnSlot_activity]
      exact hparent hin
    · exact (turnSlot_desc s₄ folio idx type.strengthen .void policy).2.1 (hnone hout)
  obtain ⟨hcons_v, hev_v⟩ := hv.sound hcons₅
  refine ⟨⟨hcons_v, hev.trans hev_v⟩, hidx, hfolio, (hev.trans hev_v).resident hres, ?_, rfl, rfl,
    ?_, ?_⟩
  · rw [hv.turnover]
    exact hturn
  · rw [hev_v.kind (hev.resident hres) (congrFun hv.turnover _), hkind]
  · simp [ledger, hslot, entryOf_objectOid v hfolio hidx]

theorem folioObjectFreeWith_spec (h : s.folioObjectFreeWith destroy env activity folio idx = .ok t)
    (hcons : s.ledger.Consistent layout) :
    (t.ledger.Consistent layout ∧ Ledger.Evolves layout s.ledger t.ledger) ∧
      s.turnover (objectOid folio idx) < t.turnover (objectOid folio idx) := by
  obtain ⟨⟨s₁, c⟩, halloc, rfl⟩ := bind_pure_eq_ok.1 h
  obtain ⟨hsound, -, -, -, hturn, hoid, -⟩ := folioObjectAllocWith_spec hdestroy halloc hcons
  exact ⟨hsound, hoid ▸ hturn⟩

theorem objectFreeWith_sound (h : s.objectFreeWith destroy env activity o = .ok t) :
    Sound s t := by
  obtain ⟨⟨s₁, found⟩, hfind, hrest⟩ := bind_eq_ok.1 h
  obtain ⟨_, -, hrest⟩ := bind_eq_ok.1 hrest
  exact (objectFind_quiet hfind).sound.trans fun hcons =>
    (folioObjectFreeWith_spec hdestroy hrest hcons).1

/-- Freeing all objects of a folio turns every slot over. -/
theorem freeObjects_spec (h : (List.range folioObjects).foldlM
      (fun s i => s.folioObjectFreeWith destroy env activity folio i) s = .ok t)
    (hcons : s.ledger.Consistent layout) :
    (t.ledger.Consistent layout ∧ Ledger.Evolves layout s.ledger t.ledger) ∧
      ∀ i < folioObjects, s.turnover (objectOid folio i) < t.turnover (objectOid folio i) := by
  have hloop := foldlM_covers
    (R := fun u v => (∀ o, u.turnover o ≤ v.turnover o) ∧ Sound u v)
    (Q := fun i v => s.turnover (objectOid folio i) < v.turnover (objectOid folio i))
    (fun u => ⟨fun _ => le_rfl, .refl u⟩)
    (fun u v w huv hvw => ⟨fun o => (huv.1 o).trans (hvw.1 o), huv.2.trans hvw.2⟩)
    (fun i u v huv hu => hu.trans_le (huv.1 _)) ?_ h
  · obtain ⟨⟨-, hsound⟩, hall⟩ := hloop
    exact ⟨hsound hcons, fun i hi => hall i (List.mem_range.2 hi)⟩
  · intro i _ u v hsu huv
    obtain ⟨hcons_u, -⟩ := hsu.2 hcons
    obtain ⟨⟨-, hev⟩, hlt⟩ := folioObjectFreeWith_spec hdestroy huv hcons_u
    exact ⟨⟨hev.turnover, fun hcons' => (folioObjectFreeWith_spec hdestroy huv hcons').1⟩,
      (hsu.1 _).trans_lt hlt⟩

theorem folioFreeWith_sound (h : s.folioFreeWith destroy env activity folio = .ok t) :
    Sound s t := by
  intro hcons
  obtain ⟨_, -, hrest⟩ := bind_eq_ok.1 h
  obtain ⟨_, hfolio, hrest⟩ := bind_eq_ok.1 hrest
  have hfolio := require_eq_ok.1 hfolio
  obtain ⟨s₁, hfree, hrest⟩ := bind_eq_ok.1 hrest
  obtain ⟨⟨hcons₁, hev₁⟩, hturn⟩ := freeObjects_spec hdestroy hfree hcons
  obtain ⟨⟨s₂, owner⟩, howner, hrest⟩ := bind_eq_ok.1 hrest
  cases owner with
  | none => simp at hrest
  | some owner =>
    obtain ⟨s₃, hunlink, rfl⟩ := bind_pure_eq_ok.1 hrest
    -- the folio leaves its owner, and nothing is turned over
    have hquiet : Quiet s₁ s₃ := (capToObject_quiet howner).trans
      (((Kept.forEachAncestor s₂ owner _).trans (Kept.voidCap _ _)).quiet.trans
        ((Quiet.modest _ activity).unlinkFolio
          (fun p c hs => hs.trans (Kept.write _ p c).quiet) hunlink (.refl _)))
    obtain ⟨hcons₃, hev₃⟩ := hquiet.sound hcons₁
    have hother : ∀ b ≠ folio, (s₃.releaseFolio folio).folio b = s₃.folio b := fun b hb => by
      simp [releaseFolio, modifyFolio, modifyDesc, setDesc, hb]
    have hversion : ((s₃.releaseFolio folio).folio folio).version =
        (s₃.folio folio).version + 1 := by
      simp [releaseFolio, modifyFolio, modifyDesc, setDesc]
    have hentry : ∀ b, (s₃.releaseFolio folio).entryOf b = s₃.entryOf b := fun b => by
      by_cases hb : folioOf b = folio
      · simp [entryOf, releaseFolio, modifyFolio, modifyDesc, setDesc, hb]
      · simp [entryOf, hother _ hb]
    refine (hev₁.trans hev₃).release (a := folio) hcons₃ (folioOf_eq_self.2 hfolio) ?_ ?_ ?_ rfl
      ?_ ?_ ?_ ?_
    · intro b hb hne
      have hb : folioOf b = folio := hb
      obtain ⟨i, hi, rfl⟩ : ∃ i < folioObjects, b = objectOid folio i := by
        refine ⟨b - folio - 1, ?_, ?_⟩ <;>
          simp only [folioOf, folioObjects, objectOid] at * <;> omega
      show s.turnover _ < s₃.turnover _
      rw [hquiet.turnover]
      exact hturn i hi
    · funext b
      by_cases hb : b = folio
      · subst hb
        simp [ledger, hfolio, releaseFolio, modifyFolio, modifyDesc, setDesc, Desc.record,
          map_map, comp_def]
      · simp [ledger, releaseFolio, modifyFolio, modifyDesc, setDesc, hb]
    · simp only [ledger, hfolio, if_true, hversion, Fin.val_add]
      rfl
    · simp only [ledger, hentry]
    · simp only [ledger, hentry]
    · simp only [ledger, hentry]
    · intro b hb
      exact ledger_version_congr (hentry b) fun _ => hother b hb

omit hdestroy in
/-- **Destroying an activity is sound**, whatever goes with it. -/
theorem activityDestroy_sound (n : ℕ) : Sounds (activityDestroy env n activity) := by
  induction n with
  | zero => exact fun _ _ _ h => by simp [activityDestroy] at h
  | succ n ih =>
    intro victim s t h
    unfold activityDestroy at h
    split at h
    · simp at h
    · obtain ⟨_, -, hrest⟩ := bind_eq_ok.1 h
      obtain ⟨s₁, hfolios, hrest⟩ := bind_eq_ok.1 hrest
      obtain ⟨s₂, hchildren, hrest⟩ := bind_eq_ok.1 hrest
      obtain ⟨_, -, hrest⟩ := bind_eq_ok.1 hrest
      have hkeeps := Sound.modest s activity
      have h₁ := hkeeps.freeAll (fun hok hs => hs.trans (folioFreeWith_sound ih hok)) n hfolios
        (Kept.modifyActivity s victim _).sound
      have h₂ := hkeeps.freeAll (fun hok hs => hs.trans (objectFreeWith_sound ih hok)) n hchildren
        h₁
      exact hkeeps.unlinkSibling (fun p c hs => hs.trans (Kept.write _ p c).sound) hrest
        (h₂.trans (inheritObjects_kept s₂ _ _).sound)

end Recursion

theorem chargeFolio_kept {l : List ℕ} {t : Kernel} (h : chargeFolio l s = some t) : Kept s t := by
  induction l generalizing s with
  | nil => exact Option.some.inj h ▸ .refl s
  | cons a l ih =>
    rw [chargeFolio] at h
    split at h
    · simp at h
    · exact (Kept.modifyActivity s a _).trans (ih h)

theorem folioParent_quiet {folio : ℕ} {t : Kernel}
    (h : s.folioParent activity folio = .ok t) : Quiet s t := by
  obtain ⟨⟨s₁, head⟩, hhead, hrest⟩ := bind_eq_ok.1 h
  refine (Kept.write s _ _).quiet.trans ((capToObject_quiet hhead).trans ?_)
  cases head with
  | none =>
    obtain ⟨s₂, hpure, hrest⟩ := bind_eq_ok.1 hrest
    obtain rfl := pure_eq_ok.1 hpure
    obtain rfl := pure_eq_ok.1 hrest
    exact ((Kept.write _ _ _).trans ((Kept.voidCap _ _).trans (Kept.write _ _ _))).quiet
  | some f =>
    obtain ⟨⟨s₂, prev⟩, hprev, hrest⟩ := bind_eq_ok.1 hrest
    obtain ⟨_, -, hrest⟩ := bind_eq_ok.1 hrest
    obtain ⟨s₃, hpure, hrest⟩ := bind_eq_ok.1 hrest
    obtain rfl := pure_eq_ok.1 hpure
    obtain rfl := pure_eq_ok.1 hrest
    exact (capToObject_quiet hprev).trans ((Kept.write _ _ _).trans ((Kept.write _ _ _).trans
      ((Kept.voidCap _ _).trans (Kept.write _ _ _)))).quiet

/-- **What `folio_alloc` does to the records**: the folio is in memory then. -/
theorem folioAlloc_spec {policy : FolioPolicy} {r : Option ℕ} {t : Kernel}
    (h : s.folioAlloc activity policy = .ok (t, r)) :
    Quiet s t ∧ ∀ f, r = some f → isFolioOid f = true ∧
      (s.ledger.Consistent layout → (t.desc f).isSome = true) := by
  simp only [folioAlloc] at h
  split at h
  · obtain ⟨⟩ := pure_eq_ok.1 h
    exact ⟨.refl s, by simp⟩
  next s₀ hcharge =>
  unfold takeFolio at h
  split at h
  · simp at h
  next n _ =>
  obtain ⟨⟨s₁, found⟩, hfind, hrest⟩ := bind_eq_ok.1 h
  obtain ⟨_, hfound, hrest⟩ := bind_eq_ok.1 hrest
  obtain rfl : found = true := require_eq_ok.1 hfound
  obtain ⟨s₂, hparent, ⟨⟩⟩ := bind_pure_eq_ok.1 hrest
  have hbit : Kept s₀ { s₀ with allocated := update s₀.allocated n true } :=
    ⟨fun _ => rfl, fun _ => rfl, fun _ _ => rfl, rfl⟩
  have hpolicy := Kept.modifyFolio s₂ (n * (folioObjects + 1)) (f := fun g => { g with policy })
    (by intro; rfl) (by intros; rfl)
  have hfirst := ((chargeFolio_kept hcharge).trans hbit).quiet.trans (objectFind_quiet hfind)
  have hlast := (folioParent_quiet hparent).trans hpolicy.quiet
  refine ⟨hfirst.trans hlast, fun f hf => ?_⟩
  obtain rfl := Option.some.inj hf
  have hfolio : isFolioOid (n * (folioObjects + 1)) = true := by
    simp only [isFolioOid, folioObjects, beq_iff_eq]
    omega
  refine ⟨hfolio, fun hcons => ?_⟩
  -- it was found, and folios stay in memory
  obtain ⟨-, hsome⟩ := objectFind_touches (H := fun _ _ => True) trivial trivial hfind
  have hres : s₁.ledger.Resident layout (n * (folioObjects + 1)) := by
    simpa [Ledger.Resident, layout, folioOf_eq_self.2 hfolio, ledger] using hsome
  have hres' := (hlast.sound (hfirst.sound hcons).1).2.resident hres
  simpa only [Ledger.Resident, layout, folioOf_eq_self.2 hfolio, ledger, isSome_map]
    using hres'

theorem discard_quiet (ho : isFolioOid o = false) (hnone : s.desc o = none) :
    Quiet s (s.modifyEntry (folioOf o) (o % (folioObjects + 1) - 1)
      fun e => { e with content := false, discarded := true }) := by
  refine ⟨?_, rfl⟩
  have hidx : o % (folioObjects + 1) - 1 < folioObjects := by
    simp only [folioObjects]
    omega
  have hoid : objectOid (folioOf o) (o % (folioObjects + 1) - 1) = o := by
    simp only [isFolioOid, objectOid, folioOf, folioObjects, beq_eq_false_iff_ne] at *
    omega
  have hentry := fun {b} (hb : isFolioOid b = false) => modifyEntry_entryOf (s := s)
    (isFolioOid_folioOf o) hidx (fun e => { e with content := false, discarded := true }) hb
  rw [hoid] at hentry
  have hold : (s.folio (folioOf o)).entry (o % (folioObjects + 1) - 1) = s.entryOf o := rfl
  have heq : (s.modifyEntry (folioOf o) (o % (folioObjects + 1) - 1)
      fun e => { e with content := false, discarded := true }).ledger =
      { s.ledger with
        withheld := update s.ledger.withheld o true
        stored := update s.ledger.stored o false } := by
    simp only [ledger, Ledger.mk.injEq]
    refine ⟨rfl, funext fun b => ?_, funext fun b => ?_, funext fun b => ?_, funext fun b => ?_,
      rfl⟩
    · rw [modifyEntry_version]
      split
      · rfl
      · next hb =>
        rw [hentry (by simpa using hb)]
        split
        · next hbo => rw [hold, hbo]
        · rfl
    · split
      · rfl
      · next hb =>
        rw [hentry (by simpa using hb)]
        split
        · next hbo => rw [hold, hbo]
        · rfl
    · by_cases hb : isFolioOid b = true
      · have hne : b ≠ o := by
          rintro rfl
          simp [ho] at hb
        simp [hb, hne]
      · rw [Bool.not_eq_true] at hb
        rw [hentry hb]
        by_cases hbo : b = o
        · simp [hbo, ho]
        · simp [hb, hbo]
    · by_cases hb : isFolioOid b = true
      · have hne : b ≠ o := by
          rintro rfl
          simp [ho] at hb
        simp [hb, hne]
      · rw [Bool.not_eq_true] at hb
        rw [hentry hb]
        by_cases hbo : b = o
        · simp [hbo]
        · simp [hb, hbo]
  rw [Sound, heq]
  exact .withhold (by simp [ledger, hnone])

/-- Reusing the frame of an object other than a folio turns nothing over. -/
theorem reclaim_quiet {env : Env} {t : Kernel}
    (hvictim : ∀ o, s.victimOf = some o → isFolioOid o = false)
    (h : s.reclaim env activity = .ok t) : Quiet s t := by
  simp only [reclaim] at h
  split at h
  · simp at h
  next o ho =>
  split at h
  · simp at h
  next d hd =>
  obtain ⟨⟨s₁, found⟩, hfind, hrest⟩ := bind_eq_ok.1 h
  obtain ⟨_, -, hrest⟩ := bind_eq_ok.1 hrest
  obtain ⟨s₂, hdestroy, rfl⟩ := bind_pure_eq_ok.1 hrest
  obtain ⟨hquiet, hnone⟩ := memoryObjectDestroy_quiet (hvictim o ho) hdestroy
  have hfree : ∀ u : Kernel, Kept u u.memoryFrameFree :=
    fun _ => ⟨fun _ => rfl, fun _ => rfl, fun _ _ => rfl, rfl⟩
  refine (objectFind_quiet hfind).trans (hquiet.trans ?_)
  split
  · exact (discard_quiet (hvictim o ho) hnone).trans (hfree _).quiet
  · exact (hfree _).quiet

end Kernel

end Viengoos
