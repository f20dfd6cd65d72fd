import Viengoos.Kernel.Object

/-!
# What lookups do to the kernel

Looking an object up is not free of effects: it claims, brings objects into memory and voids stale
capabilities. `Touches` says once what any number of lookups can do, and `Later` is what follows
for the rest of the system: capabilities only decay, objects in memory keep their type and
version, and what comes into memory comes in zeroed.
-/

namespace Viengoos

open Outcome

namespace Kernel

/-! ### What a lookup does to the state -/

/-- What `object_find` brings into memory: a folio, with version 0, or an object with the type
and version its folio records. -/
def Pages (s : Kernel) (oid : ℕ) (type : CapType) (version : Fin (2 ^ 20)) : Prop :=
  isFolioOid oid = true ∧ type = .folio ∧ version = 0 ∨
    isFolioOid oid = false ∧ type = (s.entryOf oid).type ∧ version = (s.entryOf oid).version ∧
      (s.desc (folioOf oid)).isSome = true ∧ (s.entryOf oid).discarded = false

/-- **What lookups do**: they find objects in memory, bring objects in, void stale capabilities
and (in `cap_shootdown`) unmap pages. `H` says which objects are looked up under which policy. -/
inductive Touches (H : ℕ → ObjectPolicy → Prop) (s : Kernel) : Kernel → Prop
  | refl : Touches H s s
  | found {t : Kernel} {oid : ℕ} {d : Desc} {policy : ObjectPolicy} (activity : ℕ) :
      Touches H s t → t.desc oid = some d → H oid policy →
      Touches H s (t.objectFindSoft activity oid policy).1
  | paged {t t' : Kernel} {oid : ℕ} {type : CapType} {version : Fin (2 ^ 20)}
      {policy : ObjectPolicy} {activity : ℕ} :
      Touches H s t → H oid policy → t.Pages oid type version →
      t.memoryObjectAlloc activity type oid version policy = .ok t' → Touches H s t'
  | voided {t : Kernel} (p : CapPtr) : Touches H s t → Touches H s (t.voidCap p)
  | unmapped {t : Kernel} (oid : ℕ) : Touches H s t → Touches H s (t.objectDescUnmap oid)

namespace Touches

variable {H H' : ℕ → ObjectPolicy → Prop} {s t r : Kernel}

theorem trans (h : Touches H s t) (h' : Touches H t r) : Touches H s r := by
  induction h' with
  | refl => exact h
  | found a _ hd hH ih => exact ih.found a hd hH
  | paged _ hH hpages hok ih => exact ih.paged hH hpages hok
  | voided p _ ih => exact ih.voided p
  | unmapped o _ ih => exact ih.unmapped o

theorem mono (hH : ∀ o p, H o p → H' o p) (h : Touches H s t) : Touches H' s t := by
  induction h with
  | refl => exact .refl
  | found a _ hd h1 ih => exact ih.found a hd (hH _ _ h1)
  | paged _ h1 hpages hok ih => exact ih.paged (hH _ _ h1) hpages hok
  | voided p _ ih => exact ih.voided p
  | unmapped o _ ih => exact ih.unmapped o

end Touches

variable {H : ℕ → ObjectPolicy → Prop} {oid activity : ℕ} {policy : ObjectPolicy} {s s' : Kernel}
  {found : Bool}

theorem objectFindSoft_touches (s : Kernel) (activity : ℕ) (hH : H oid policy) :
    Touches H s (s.objectFindSoft activity oid policy).1 := by
  cases hd : s.desc oid with
  | none => simpa [objectFindSoft, hd] using Touches.refl
  | some d => exact .found activity .refl hd hH

/-- Looking a folio up says whether it is in memory now, and leaves every other descriptor. -/
theorem folioFind_touches (hoid : isFolioOid oid = true) (hH : H oid policy)
    (h : s.folioFind activity oid policy = .ok (s', found)) :
    Touches H s s' ∧ (s'.desc oid).isSome = found ∧ ∀ o ≠ oid, s'.desc o = s.desc o := by
  rcases folioFind_cases h with ⟨d, hd, rfl, rfl⟩ | ⟨hnone, ⟨rfl, -, halloc⟩ | ⟨rfl, -, rfl⟩⟩
  · obtain ⟨t, ht, heq⟩ := objectFindSoft_spec hd activity policy
    refine ⟨objectFindSoft_touches s activity hH, ?_, fun o ho => ?_⟩
    · simp [heq]
    · rw [heq, setDesc_desc_of_ne _ _ ho, ht.desc]
  · refine ⟨.paged .refl hH (.inl ⟨hoid, rfl, rfl⟩) halloc, ?_⟩
    obtain ⟨-, -, -, -, u, hu, rfl⟩ := memoryObjectAlloc_spec halloc
    refine ⟨by simp, fun o ho => ?_⟩
    rw [setDesc_desc_of_ne _ _ ho, hu.desc]
    rfl
  · exact ⟨.refl, by simp [hnone], fun _ _ => rfl⟩

/-- The lookups made on behalf of a capability: its object under its own policy, and the object's
folio under the default policy. -/
def LooksUp (c : Cap) (oid : ℕ) (policy : ObjectPolicy) : Prop :=
  oid = c.oid ∧ policy = c.policy ∨ policy = .default

theorem objectFind_touches (hH : H oid policy) (hfolio : H (folioOf oid) .default)
    (h : s.objectFind activity oid policy = .ok (s', found)) :
    Touches H s s' ∧ (s'.desc oid).isSome = found := by
  rcases objectFind_cases h with ⟨d, hd, rfl, rfl⟩ | ⟨hnone, hcase⟩
  · obtain ⟨t, ht, heq⟩ := objectFindSoft_spec hd activity policy
    exact ⟨objectFindSoft_touches s activity hH, by simp [heq]⟩
  rcases hcase with ⟨hoid, hfind⟩ | ⟨hoid, t, hfind, hcase⟩
  · obtain ⟨htouch, hin, -⟩ := folioFind_touches hoid hH hfind
    exact ⟨htouch, hin⟩
  obtain ⟨htouch, hin, hother⟩ := folioFind_touches (isFolioOid_folioOf oid) hfolio hfind
  rcases hcase with ⟨-, rfl, rfl⟩ | ⟨hbring, rfl, halloc⟩
  · exact ⟨htouch, by rw [hother oid (ne_folioOf hoid), hnone]; rfl⟩
  · have hdisc : (t.entryOf oid).discarded = false := by
      rw [← Bool.not_eq_true]
      exact fun hx => hbring (.inr (.inl hx))
    refine ⟨htouch.paged hH (.inr ⟨hoid, rfl, rfl, hin, hdisc⟩) halloc, ?_⟩
    obtain ⟨-, -, -, -, v, -, rfl⟩ := memoryObjectAlloc_spec halloc
    simp

variable {p : CapPtr} {o : ℕ} {H : ℕ → ObjectPolicy → Prop}

theorem checkVersion_spec {c : Cap} {r : Option ℕ} (H : ℕ → ObjectPolicy → Prop)
    (h : s.checkVersion p c found = .ok (s', r)) :
    Touches H s s' ∧ ∀ o, r = some o → o = c.oid ∧ s' = s ∧
      ∃ d, s.desc o = some d ∧ d.version = c.version ∧ CapType.compatible c.type d.type = true := by
  unfold checkVersion at h
  split at h
  · next d hd =>
    split at h
    · obtain ⟨⟩ := pure_eq_ok.1 h
      exact ⟨.voided p .refl, by simp⟩
    · next hv =>
      obtain ⟨_, hcompat, ⟨⟩⟩ := bind_pure_eq_ok.1 h
      refine ⟨.refl, fun o ho => ?_⟩
      obtain rfl := Option.some.inj ho
      exact ⟨rfl, rfl, d, hd, not_not.1 hv, require_eq_ok.1 hcompat⟩
  · obtain ⟨⟩ := pure_eq_ok.1 h
    exact ⟨.refl, by simp⟩

/-- **What dereferencing a capability does**: the state is touched, and if an object comes back it
is the one the capability names, in memory, of the capability's version and of a type the
capability can designate. -/
theorem capToObject_spec {r : Option ℕ} (h : s.capToObject activity p = .ok (s', r)) :
    Touches (LooksUp (s.read p)) s s' ∧ ∀ o, r = some o →
      o = (s.read p).oid ∧ (s.read p).type ≠ .void ∧ ∃ d, s'.desc o = some d ∧
        d.version = (s.read p).version ∧ CapType.compatible (s.read p).type d.type = true := by
  simp only [capToObject] at h
  split at h
  · obtain ⟨⟩ := pure_eq_ok.1 h
    exact ⟨.refl, by simp⟩
  · next hvoid =>
    obtain ⟨⟨t, found⟩, hfind, hrest⟩ := bind_eq_ok.1 h
    obtain ⟨htouch, -⟩ := objectFind_touches (H := LooksUp (s.read p)) (.inl ⟨rfl, rfl⟩) (.inr rfl)
      hfind
    obtain ⟨hcheck, hres⟩ := checkVersion_spec (LooksUp (s.read p)) hrest
    refine ⟨htouch.trans hcheck, fun o ho => ?_⟩
    obtain ⟨hoid, rfl, hd⟩ := hres o ho
    exact ⟨hoid, hvoid, hd⟩

/-! ### What follows for the rest of the system -/

/-- **Decay.** What the holder of a capability, or of an object in memory, can count on while
others look objects up. -/
structure Later (s t : Kernel) : Prop where
  /-- A capability stays or becomes void. -/
  read : ∀ p, t.read p = s.read p ∨ (t.read p).type = .void
  /-- An object in memory stays there, of the same type and version, and is not mapped anew. -/
  kept : ∀ {o d}, s.desc o = some d → ∃ d', t.desc o = some d' ∧ d'.type = d.type ∧
    d'.version = d.version ∧ (d'.mapped = true → d.mapped = true)
  /-- What came into memory is zeroed and not mapped. -/
  came : ∀ {o d}, s.desc o = none → t.desc o = some d → d.mapped = false ∧
    (∀ i, (t.caps o i).type = .void) ∧ (t.folio o).entry = fun _ => .zero
  /-- A folio in memory keeps its records. -/
  entry : ∀ {f}, (s.desc f).isSome = true → (t.folio f).entry = (s.folio f).entry

namespace Later

theorem refl (s : Kernel) : Later s s where
  read _ := .inl rfl
  kept hd := ⟨_, hd, rfl, rfl, id⟩
  came hnone hsome := by simp [hnone] at hsome
  entry _ := rfl

theorem trans {s t r : Kernel} (h : Later s t) (h' : Later t r) : Later s r where
  read p := by
    rcases h'.read p with heq | hvoid
    · rw [heq]
      exact h.read p
    · exact .inr hvoid
  kept hd := by
    obtain ⟨d₁, hd₁, htype, hversion, hmapped⟩ := h.kept hd
    obtain ⟨d₂, hd₂, htype', hversion', hmapped'⟩ := h'.kept hd₁
    exact ⟨d₂, hd₂, htype'.trans htype, hversion'.trans hversion, fun hm => hmapped (hmapped' hm)⟩
  came := by
    intro o d hnone hd
    cases ht : t.desc o with
    | none => exact h'.came ht hd
    | some d₁ =>
      obtain ⟨hmapped, hcaps, hentry⟩ := h.came hnone ht
      obtain ⟨d₂, hd₂, -, -, hmapped'⟩ := h'.kept ht
      obtain rfl : d₂ = d := Option.some.inj (hd₂.symm.trans hd)
      refine ⟨?_, fun i => ?_, (h'.entry (by simp [ht])).trans hentry⟩
      · rw [← Bool.not_eq_true] at hmapped ⊢
        exact fun hm => hmapped (hmapped' hm)
      · rcases h'.read (.slot o i) with heq | hvoid
        · exact (congrArg Cap.type heq).trans (hcaps i)
        · exact hvoid
  entry hf := by
    obtain ⟨d, hd⟩ := Option.isSome_iff_exists.1 hf
    obtain ⟨d', hd', -⟩ := h.kept hd
    rw [h'.entry (by simp [hd']), h.entry hf]

/-- A change of one descriptor that keeps what counts. -/
theorem setDesc {s t : Kernel} {d d' : Desc} (h : AccountsOnly s t)
    (hd : s.desc o = some d) (htype : d'.type = d.type) (hversion : d'.version = d.version)
    (hmapped : d'.mapped = true → d.mapped = true) : Later s (t.setDesc o (some d')) where
  read p := .inl (by rw [setDesc_read, h.read])
  kept := by
    intro o' e he
    by_cases ho : o' = o
    · subst ho
      obtain rfl : d = e := Option.some.inj (hd.symm.trans he)
      exact ⟨d', by simp, htype, hversion, hmapped⟩
    · exact ⟨e, by rw [setDesc_desc_of_ne _ _ ho, h.desc, he], rfl, rfl, id⟩
  came := by
    intro o' e hnone he
    have ho : o' ≠ o := by
      rintro rfl
      simp [hd] at hnone
    rw [setDesc_desc_of_ne _ _ ho, h.desc, hnone] at he
    exact absurd he (by simp)
  entry := fun _ => by
    show (t.folio _).entry = _
    rw [h.folio]

/-- A zeroed frame holds void capabilities. -/
theorem read_framed (s : Kernel) (oid : ℕ) (p : CapPtr) :
    (s.framed oid).read p = s.read p ∨ (s.framed oid).read p = .void := by
  cases p with
  | stack | fake => exact .inl rfl
  | slot o i =>
    by_cases ho : o = oid
    · exact .inr (by simp [Kernel.read, framed, zeroObject, ho])
    · exact .inl (by simp [Kernel.read, framed, zeroObject, ho])
  | _ o =>
    by_cases ho : o = oid
    · exact .inr (by simp [Kernel.read, framed, zeroObject, ho, Folio.zero, Activity.zero])
    · exact .inl (by simp [Kernel.read, framed, zeroObject, ho])

/-- A frame is zeroed under its own object only. -/
theorem read_framed_of_holder (s : Kernel) {oid : ℕ} (hp : p.holder = some o)
    (hne : o ≠ oid) : (s.framed oid).read p = s.read p := by
  cases p <;> simp_all [CapPtr.holder, Kernel.read, framed, zeroObject]

/-- Bringing an object in. -/
theorem paged {s s' : Kernel} {activity oid : ℕ} {type : CapType} {version : Fin (2 ^ 20)}
    {policy : ObjectPolicy} (h : s.memoryObjectAlloc activity type oid version policy = .ok s') :
    Later s s' := by
  obtain ⟨-, -, -, hnone, t, ht, rfl⟩ := memoryObjectAlloc_spec h
  have hother : ∀ {o}, o ≠ oid →
      (t.setDesc oid (some (pagedDesc type version activity policy))).desc o = s.desc o := by
    intro o ho
    rw [setDesc_desc_of_ne _ _ ho, ht.desc]
    rfl
  refine ⟨fun p => ?_, ?_, ?_, ?_⟩
  · rw [setDesc_read, ht.read]
    exact (read_framed s oid p).imp_right fun heq => by rw [heq, Cap.void_type]
  · intro o d hd
    have ho : o ≠ oid := by
      rintro rfl
      simp [hd] at hnone
    exact ⟨d, by rw [hother ho, hd], rfl, rfl, id⟩
  · intro o d hd hd'
    by_cases ho : o = oid
    · subst ho
      rw [setDesc_desc_self] at hd'
      obtain rfl := Option.some.inj hd'
      refine ⟨rfl, fun i => ?_, ?_⟩
      · show (t.caps o i).type = _
        rw [ht.caps]
        simp [framed, zeroObject]
      · show (t.folio o).entry = _
        rw [ht.folio]
        simp [framed, zeroObject, Folio.zero]
    · rw [hother ho, hd] at hd'
      exact absurd hd' (by simp)
  · intro f hf
    have hne : f ≠ oid := by
      rintro rfl
      simp [hnone] at hf
    show (t.folio f).entry = _
    rw [ht.folio]
    simp [framed, zeroObject, hne]

theorem voidCap (s : Kernel) (p : CapPtr) : Later s (s.voidCap p) where
  read q := by
    rcases read_write s p q { s.read p with type := .void } with heq | heq
    · exact .inl heq
    · exact .inr (congrArg Cap.type heq)
  kept hd := ⟨_, by rw [Kernel.voidCap, write_desc, hd], rfl, rfl, id⟩
  came hnone hsome := by
    rw [Kernel.voidCap, write_desc, hnone] at hsome
    exact absurd hsome (by simp)
  entry _ := by rw [Kernel.voidCap, write_entry]

theorem objectDescUnmap (s : Kernel) (o : ℕ) : Later s (s.objectDescUnmap o) := by
  rcases objectDescUnmap_spec s o with ⟨heq, -⟩ | ⟨d, hw, hd, heq⟩
  · rw [heq]
    exact refl s
  · rw [heq]
    have hset : Later s (s.setDesc o (some { noteStatus d (s.status o) with mapped := false })) :=
      setDesc (AccountsOnly.refl s) hd rfl rfl (by simp)
    obtain ⟨hread, hkept, hcame, hentry⟩ := hset
    refine ⟨fun p => ?_, hkept, hcame, hentry⟩
    exact hread p

end Later

/-- Lookups only make the system decay. -/
theorem Touches.later {s t : Kernel} (h : Touches H s t) :
    Later s t := by
  induction h with
  | refl => exact .refl s
  | @found t oid d policy activity _ hd _ ih =>
    obtain ⟨u, hu, heq⟩ := objectFindSoft_spec hd activity policy
    obtain ⟨htype, hversion, hmapped, -⟩ := foundDesc_fields d activity policy
    rw [heq]
    exact ih.trans (.setDesc hu hd htype hversion (by rw [hmapped]; exact id))
  | paged _ _ _ hok ih => exact ih.trans (.paged hok)
  | voided p _ ih => exact ih.trans (.voidCap _ p)
  | unmapped o _ ih => exact ih.trans (.objectDescUnmap _ o)

/-- Every capability in storage may be looked up under its own policy. -/
def Allows (H : ℕ → ObjectPolicy → Prop) (s : Kernel) : Prop :=
  ∀ p : CapPtr, p.stored = true → (s.read p).type ≠ .void → H (s.read p).oid (s.read p).policy

theorem Later.allows {s t : Kernel} (h : Later s t) (hs : s.Allows H) : t.Allows H := by
  intro p hp hvoid
  rcases h.read p with heq | hv
  · rw [heq] at hvoid ⊢
    exact hs p hp hvoid
  · exact absurd hv hvoid

theorem Touches.allows {H' : ℕ → ObjectPolicy → Prop} {s t : Kernel} (h : Touches H' s t)
    (hs : s.Allows H) : t.Allows H :=
  h.later.allows hs

end Kernel

end Viengoos
