import Viengoos.Kernel.Versions

/-!
# Revocation by version

A capability that `folio_alloc` or `folio_object_alloc` returns resolves until its slot is turned
over, and never afterwards, whatever else is allocated, freed, looked up or paged out in between.
There is one exception: `folio_object_alloc` takes the type `folio` and records it, but an object of
that type cannot be brought into memory.
-/

namespace Viengoos

open Outcome

namespace Kernel

/-! ### Resolving a capability -/

/-- Descriptors agree with what the folios record. -/
def Consistent (s : Kernel) : Prop := s.ledger.Consistent layout

variable {p : CapPtr} {env : Env} {s : Kernel}

/-- **Records agree**, spelled out. -/
theorem Consistent.desc (h : s.Consistent) {o : ℕ} {d : Desc} (hd : s.desc o = some d) :
    (isFolioOid o = true → d.type = .folio ∧ d.version = (s.folio o).version) ∧
      (isFolioOid o = false → d.type = (s.entryOf o).type ∧ d.version = (s.entryOf o).version) := by
  have hlive : s.ledger.live o = some (d.type, d.version) := by simp [ledger, hd, Desc.record]
  obtain ⟨htype, hversion⟩ := Ledger.Consistent.live h hlive
  constructor <;> intro ho <;>
    simp only [ledger, ho, if_true, Bool.false_eq_true, if_false] at * <;> exact ⟨htype, hversion⟩

/-- A capability **resolves** to the object it names, if the records have its version and a type it
can designate, and the object is in memory or there is a frame for it. -/
theorem capToObject_resolves (hcons : s.Consistent) (activity : ℕ)
    (hvoid : (s.read p).type ≠ .void) (hres : s.ledger.Resident layout (s.read p).oid)
    (hversion : s.ledger.version (s.read p).oid = (s.read p).version)
    (hkind : CapType.compatible (s.read p).type (s.ledger.kind (s.read p).oid) = true)
    (hnotVoid : s.ledger.kind (s.read p).oid ≠ .void)
    (hfolio : isFolioOid (s.read p).oid = false → s.ledger.kind (s.read p).oid ≠ .folio)
    (hdisc : s.ledger.withheld (s.read p).oid = false)
    (hframe : (s.desc (s.read p).oid).isSome = true ∨ 0 < s.free) :
    ∃ t, s.capToObject activity p = .ok (t, some (s.read p).oid) := by
  set c := s.read p with hc
  -- once it is found, the check of version and type succeeds
  have hfound : ∀ t, s.objectFind activity c.oid c.policy = .ok (t, true) →
      ∃ u, s.capToObject activity p = .ok (u, some c.oid) := by
    intro t hfind
    obtain ⟨-, hsome⟩ := objectFind_touches (H := fun _ _ => True) trivial trivial hfind
    obtain ⟨d, hd⟩ := Option.isSome_iff_exists.1 hsome
    have hquiet := objectFind_quiet hfind
    obtain ⟨hcons_t, hev⟩ := hquiet.sound hcons
    have hlive : t.ledger.live c.oid = some (d.type, d.version) := by
      simp [ledger, hd, Desc.record]
    obtain ⟨htype, hver⟩ := hcons_t.live hlive
    rw [hev.kind hres (congrFun hquiet.turnover _)] at htype
    rw [hev.version_eq hres (congrFun hquiet.turnover _), hversion] at hver
    refine ⟨t, ?_⟩
    simp only [capToObject, ← hc, if_neg hvoid, hfind, ok_bind, checkVersion, hd, hver, ne_eq,
      not_true_eq_false, if_false, htype, require_of hkind]
    rfl
  cases hd : s.desc c.oid with
  | some d => exact hfound _ (objectFind_of_some hd activity _)
  | none =>
    have hfree : 0 < s.free := hframe.resolve_left (by simp [hd])
    have hoid : isFolioOid c.oid = false := by
      by_contra hfolioOid
      rw [Bool.not_eq_false] at hfolioOid
      simp [Ledger.Resident, layout, folioOf_eq_self.2 hfolioOid, ledger, hd] at hres
    have hslot := folioOf_ne_self.2 hoid
    have hcontent := Ledger.Consistent.notStored hcons hres hslot
    have hin : (s.desc (folioOf c.oid)).isSome = true := by
      simpa [Ledger.Resident, layout, ledger] using hres
    simp only [ledger, hoid, Bool.false_eq_true, if_false, Bool.not_false, Bool.true_and]
      at hnotVoid hfolio hdisc hcontent
    obtain ⟨t, ht⟩ := objectFind_of_none hoid hd hin hnotVoid (hfolio trivial) hdisc hcontent hfree
      activity c.policy
    exact hfound t ht

/-- A capability of another version **does not resolve**. -/
theorem capToObject_stale (hcons : s.Consistent) (activity : ℕ)
    (hres : s.ledger.Resident layout (s.read p).oid)
    (hversion : s.ledger.version (s.read p).oid ≠ (s.read p).version) (t : Kernel) (o : ℕ) :
    s.capToObject activity p ≠ .ok (t, some o) := by
  intro h
  obtain ⟨-, hspec⟩ := capToObject_spec h
  obtain ⟨rfl, -, d, hd, hver, -⟩ := hspec o rfl
  have hquiet := capToObject_quiet h
  obtain ⟨hcons_t, hev⟩ := hquiet.sound hcons
  have hlive : t.ledger.live (s.read p).oid = some (d.type, d.version) := by
    simp [ledger, hd, Desc.record]
  obtain ⟨-, heq⟩ := hcons_t.live hlive
  rw [hev.version_eq hres (congrFun hquiet.turnover _), hver] at heq
  exact hversion heq.symm

/-! ### Runs -/

/-- **What the kernel does**: it allocates and frees storage, resolves capabilities, and reuses the
frames of objects other than folios. Whatever else it does keeps all records. -/
inductive Step (env : Env) (s t : Kernel) : Prop
  | folioAlloc (activity : ℕ) (policy : FolioPolicy) (r : Option ℕ) :
      s.folioAlloc activity policy = .ok (t, r) → Step env s t
  | folioFree (activity folio : ℕ) : s.folioFree env activity folio = .ok t → Step env s t
  | folioObjectAlloc (activity folio idx : ℕ) (type : CapType) (policy : ObjectPolicy) (c : Cap) :
      s.folioObjectAlloc env activity folio idx type policy = .ok (t, c) → Step env s t
  | capToObject (activity : ℕ) (p : CapPtr) (r : Option ℕ) :
      s.capToObject activity p = .ok (t, r) → Step env s t
  | reclaim (activity : ℕ) : (∀ o, s.victimOf = some o → isFolioOid o = false) →
      s.reclaim env activity = .ok t → Step env s t
  | other : Kept s t → Step env s t

/-- Any number of steps. -/
def Run (env : Env) : Kernel → Kernel → Prop := Relation.ReflTransGen (Step env)

theorem Step.sound {t : Kernel} (h : Step env s t) : Sound s t := by
  cases h with
  | folioAlloc activity policy r h => exact (folioAlloc_spec h).1.sound
  | folioFree activity folio h => exact folioFreeWith_sound (activityDestroy_sound _) h
  | folioObjectAlloc activity folio idx type policy c h =>
    exact fun hcons => (folioObjectAllocWith_spec (activityDestroy_sound _) h hcons).1
  | capToObject activity p r h => exact (capToObject_quiet h).sound
  | reclaim activity hvictim h => exact (reclaim_quiet hvictim h).sound
  | other h => exact h.sound

theorem Run.sound {t : Kernel} (h : Run env s t) : Sound s t := by
  induction h with
  | refl => exact .refl s
  | tail _ hstep ih => exact ih.trans hstep.sound

theorem strengthen_eq_folio {type : CapType} : type.strengthen = .folio ↔ type = .folio := by
  cases type <;> simp [CapType.strengthen]

/-- **A capability is issued**: `folio_alloc` names the new folio, and `folio_object_alloc` the new
object, which is not of the type of folios. -/
inductive Issues (env : Env) (s : Kernel) : Cap → Kernel → Prop
  | folio {activity : ℕ} {policy : FolioPolicy} {t : Kernel} {f : ℕ} :
      s.folioAlloc activity policy = .ok (t, some f) → Issues env s (t.objectToCap f) t
  | object {activity folio idx : ℕ} {type : CapType} {policy : ObjectPolicy} {c : Cap}
      {t : Kernel} :
      s.folioObjectAlloc env activity folio idx type policy = .ok (t, c) → type ≠ .folio →
      Issues env s c t

/-- What is issued is a ticket for the records at that time. -/
theorem Issues.spec {t : Kernel} {c : Cap} (h : Issues env s c t)
    (hcons : s.Consistent) : t.Consistent ∧ t.ledger.Resident layout c.oid ∧
      c.type = t.ledger.kind c.oid ∧ c.version = t.ledger.version c.oid ∧
      (isFolioOid c.oid = false → c.type ≠ .folio) := by
  cases h with
  | @folio activity policy _ f h =>
    obtain ⟨hquiet, hspec⟩ := folioAlloc_spec h
    obtain ⟨hfolio, hin⟩ := hspec f rfl
    obtain ⟨hcons_t, -⟩ := hquiet.sound hcons
    obtain ⟨d, hd⟩ := Option.isSome_iff_exists.1 (hin hcons)
    obtain ⟨htype, hversion⟩ := (Consistent.desc hcons_t hd).1 hfolio
    have hcap : t.objectToCap f = objectDescToCap f d := by simp [objectToCap, hd]
    have hoid : (objectDescToCap f d).oid = f := rfl
    rw [hcap, hoid]
    refine ⟨hcons_t, ?_, ?_, ?_, fun hno => ?_⟩
    · simp [Ledger.Resident, layout, folioOf_eq_self.2 hfolio, ledger, hd]
    · simpa [ledger, hfolio, objectDescToCap] using htype
    · simpa [ledger, hfolio, objectDescToCap] using hversion
    · simp [hfolio] at hno
  | object h htype =>
    obtain ⟨⟨hcons_t, -⟩, -, -, hres, -, -, hstrong, hkind, hversion⟩ :=
      folioObjectAllocWith_spec (activityDestroy_sound _) h hcons
    refine ⟨hcons_t, hres, hkind, hversion, fun _ => ?_⟩
    rw [hstrong]
    exact fun hfolio => htype (strengthen_eq_folio.1 hfolio)

/-- A copy of a capability, perhaps weakened, with whatever policy and address translation. -/
structure CopyOf (c x : Cap) : Prop where
  oid : x.oid = c.oid
  version : x.version = c.version
  type : CapType.compatible x.type c.type = true
  notVoid : x.type ≠ .void

/-- The records of a small kernel are consistent. -/
theorem ofTypes_consistent {types : List CapType} (hlen : types.length ≤ folioObjects)
    (hvoid : ∀ type ∈ types, type ≠ .void) (caps : ℕ → ℕ → Cap) (free : ℕ) :
    (ofTypes types caps free).Consistent := by
  -- what is in memory is the folio, or an object of it
  have hlive : ∀ {o k v}, (ofTypes types caps free).ledger.live o = some (k, v) → v = 0 ∧
      (o = 0 ∧ k = .folio ∨ isFolioOid o = false ∧ folioOf o = 0 ∧
        o % (folioObjects + 1) - 1 = o - 1 ∧ types[o - 1]? = some k) := by
    intro o k v h
    by_cases ho : o = 0
    · subst ho
      simp [ledger, ofTypes, ownedDesc, Desc.fresh, Desc.record] at h
      exact ⟨h.2.symm, .inl ⟨rfl, h.1.symm⟩⟩
    · simp only [ledger, ofTypes, ho, if_false, Option.map_map, Option.map_eq_some_iff] at h
      obtain ⟨type, htype, heq⟩ := h
      obtain ⟨rfl, rfl⟩ := Prod.mk.inj heq
      have hlt : o - 1 < types.length := (List.getElem?_eq_some_iff.1 htype).1
      refine ⟨rfl, .inr ⟨?_, ?_, ?_, htype⟩⟩ <;>
        simp only [isFolioOid, folioOf, folioObjects, beq_eq_false_iff_ne] at * <;> omega
  have hentry : ∀ i, ((ofTypes types caps free).folio 0).entry i =
      { FolioEntry.zero with type := types.getD i .void } := fun i => rfl
  refine ⟨fun h => ?_, fun h => ?_, fun h => ?_, fun hs h => ?_, fun {a} _ _ => ?_⟩
  · obtain ⟨-, ⟨rfl, -⟩ | ⟨-, hfolio, -⟩⟩ := hlive h
    · rfl
    · simp only [Ledger.Resident, layout, hfolio]
      rfl
  · obtain ⟨rfl, ⟨rfl, rfl⟩ | ⟨hoid, hfolio, hidx, htype⟩⟩ := hlive h
    · exact ⟨rfl, rfl⟩
    · simp only [ledger, hoid, Bool.false_eq_true, if_false, entryOf, hfolio, hidx, hentry,
        List.getD_eq_getElem?_getD, htype]
      exact ⟨rfl, rfl⟩
  · obtain ⟨-, ⟨-, rfl⟩ | ⟨-, -, -, htype⟩⟩ := hlive h
    · exact CapType.noConfusion
    · exact hvoid _ (List.mem_of_getElem? htype)
  · obtain ⟨-, ⟨rfl, -⟩ | ⟨hoid, hfolio, hidx, -⟩⟩ := hlive h
    · exact absurd rfl hs
    · simp only [ledger, entryOf, hfolio, hidx, hentry]
      simp [FolioEntry.zero]
  · simp only [ledger, entryOf, ofTypes]
    split <;> simp [FolioEntry.zero, Folio.zero]

/-- A root activity, and room in its folio. -/
def roomy : Kernel := ofTypes [.activityControl] (fun _ _ => .void) 4

/-- Enough fuel for the runs below. -/
def someEnv : Env := ⟨8, fun _ => .default⟩

/-- The kernel and the capability after an object was allocated in the second slot of folio 0. -/
def withObject (s : Kernel) (type : CapType) : Kernel × Cap :=
  match s.folioObjectAlloc someEnv 1 0 1 type .default with
  | .ok r => r
  | .error _ => (s, .void)

theorem roomy_consistent : roomy.Consistent :=
  ofTypes_consistent (by decide) (by decide) _ _

end Kernel

end Viengoos
