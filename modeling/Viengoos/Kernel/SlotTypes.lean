import Viengoos.Kernel.FolioRules
import Viengoos.Kernel.Server
import Viengoos.Kernel.Versions

/-!
# The types of a folio's slots

A slot of a folio records the type of its object. `memory_object_alloc` takes it from there when
the object is first brought into memory, and asserts that it is folio exactly for the OID of a
folio. The type comes from a client: `VG_folio_object_alloc` checks that it is the number of a
type, and `folio_object_alloc` takes the strong form of it. Folio is a type and has no weak form, so
it gets through, and the assertion fails when the object is looked up.

* `slotTypes_iff` — over a whole history of requests and lookups, the slots stay well typed iff no
  request that is accepted asks for a folio.
-/

namespace Viengoos

open Outcome

/-- What a slot may record: not a folio, and not a weak type. -/
def CapType.Plain (t : CapType) : Prop := t ≠ .folio ∧ t.weakP = false

instance (t : CapType) : Decidable t.Plain := inferInstanceAs (Decidable (_ ∧ _))

theorem CapType.plain_strengthen {t : CapType} : t.strengthen.Plain ↔ t ≠ .folio := by
  cases t <;> decide

namespace Kernel

/-- Every slot of every folio is **well typed**. -/
def SlotsTyped (s : Kernel) : Prop := ∀ f i, ((s.folio f).entry i).type.Plain

namespace SlotsTyped

variable {s t : Kernel}

theorem congr (h : s.SlotsTyped) (heq : ∀ f, (t.folio f).entry = (s.folio f).entry) :
    t.SlotsTyped := fun f i => by
  rw [heq]
  exact h f i

theorem kept (h : s.SlotsTyped) (hkept : Kept s t) : t.SlotsTyped := fun f i => by
  have hrecord := congrArg Prod.fst (hkept.entry f i)
  have htype : ((t.folio f).entry i).type = ((s.folio f).entry i).type := hrecord
  rw [htype]
  exact h f i

/-- A zeroed page has void slots. -/
theorem zeroObject (h : s.SlotsTyped) (o : ℕ) : (s.zeroObject o).SlotsTyped := fun f i => by
  by_cases hf : f = o
  · subst hf
    simp [Kernel.zeroObject, Folio.zero, FolioEntry.zero, CapType.Plain, CapType.weakP]
  · simpa [Kernel.zeroObject, hf] using h f i

theorem modifyEntry (h : s.SlotsTyped) (folio idx : ℕ) {f : FolioEntry → FolioEntry}
    (hf : ∀ e, e.type.Plain → (f e).type.Plain) : (s.modifyEntry folio idx f).SlotsTyped := by
  intro f' i
  by_cases hf' : f' = folio
  · subst hf'
    by_cases hi : i = idx
    · subst hi
      simpa [Kernel.modifyEntry, modifyFolio] using hf _ (h f' i)
    · simpa [Kernel.modifyEntry, modifyFolio, hi] using h f' i
  · simpa [Kernel.modifyEntry, modifyFolio, hf'] using h f' i

theorem lookups (activity : ℕ) : Keeps activity SlotsTyped where
  found {s o d} policy hd h := by
    obtain ⟨u, hu, heq⟩ := objectFindSoft_spec hd activity policy
    rw [heq]
    exact h.congr fun f => congrArg (fun g => (g f).entry) hu.folio
  paged {s s' type o version policy} hok h := by
    obtain ⟨-, -, -, -, u, hu, rfl⟩ := memoryObjectAlloc_spec hok
    exact (h.zeroObject o).congr fun f => congrArg (fun g => (g f).entry) hu.folio
  voided p _ h _ _ _ := h.kept (.voidCap _ p)

variable {type : CapType} {env : Env} {t : Kernel} {activity : ℕ}

theorem capShootdown {fuel : ℕ} {junk : ℕ → ObjectPolicy} {root : CapPtr}
    (hok : s.capShootdown fuel activity junk root = .ok t) (h : s.SlotsTyped) : t.SlotsTyped :=
  (lookups activity).capShootdown (fun o h => h.kept (.objectDescUnmap _ o)) hok h

theorem objectDescClaim (h : s.SlotsTyped) (activity : Option ℕ) (o : ℕ) (policy : ObjectPolicy) :
    (s.objectDescClaim activity o policy).SlotsTyped := by
  cases hd : s.desc o with
  | none => simpa [Kernel.objectDescClaim, hd] using h
  | some d => exact h.kept (.objectDescClaim hd activity policy)

theorem memoryObjectDestroy {o : ℕ}
    (hok : s.memoryObjectDestroy env activity o = .ok t) (h : s.SlotsTyped) : t.SlotsTyped := by
  obtain ⟨s₁, hshoot, hrest⟩ := bind_eq_ok.1 hok
  cases hd : s₁.desc o with
  | none => simp [hd] at hrest
  | some d =>
    simp only [hd] at hrest
    obtain ⟨_, -, rfl⟩ := bind_pure_eq_ok.1 hrest
    exact ((capShootdown hshoot h).objectDescClaim none o d.policy).congr fun _ => rfl

theorem renewObject {o : ℕ} {policy : ObjectPolicy}
    (hok : s.renewObject env activity o type policy = .ok t) (h : s.SlotsTyped) :
    t.SlotsTyped := by
  obtain ⟨s₁, hshoot, rfl⟩ := bind_pure_eq_ok.1 hok
  have hcleared : SlotsTyped { (s₁.zeroObject o).modifyDesc o clearedDesc with
      status := Function.update (s₁.zeroObject o).status o ⟨false, false⟩ } :=
    ((capShootdown hshoot h).zeroObject o).congr fun _ => rfl
  exact (hcleared.objectDescClaim (some activity) o policy).congr fun _ => rfl

theorem turnSlot (h : s.SlotsTyped) (folio idx : ℕ) (policy : ObjectPolicy)
    (htype : type.Plain) : (s.turnSlot folio idx type policy).SlotsTyped := by
  refine (modifyEntry ?_ folio idx (f := recordedEntry type policy) fun _ _ => htype).congr
    fun _ => rfl
  split
  · exact (h.modifyEntry folio idx
      (f := fun e => { e with version := ((s.folio folio).entry idx).version + 1 })
      fun _ => id).congr fun _ => rfl
  · exact h

/-- **The folio operations** keep the slots well typed, if they allocate plain types. -/
theorem closed (env : Env) (activity : ℕ) : Closed env activity CapType.Plain SlotsTyped where
  lookups := lookups activity
  write p c h := h.kept (.write _ p c)
  awake _ h := h.congr fun _ => rfl
  waiters folio idx _ h := h.modifyEntry folio idx fun _ => id
  destroyed hok h := memoryObjectDestroy hok h
  freed h := h.congr fun _ => rfl
  renewed _ _ hok h := renewObject hok h
  turned folio idx policy hA h := h.turnSlot folio idx policy hA
  prepared child l _ h := h.kept (.modifyActivity _ child _)
  dying victim h := h.kept (.modifyActivity _ victim _)
  inherited victim parent h := h.kept (inheritObjects_kept _ victim parent)
  refunded owner h := h.kept (.forEachAncestor _ owner _)
  released {s} folio h := by
    refine h.congr fun f => ?_
    exact modifyFolio_entry (s.modifyDesc folio _) folio f
      (f := fun g => { g with version := (s.folio folio).version + 1 }) fun _ => rfl
  void := by decide

theorem touches {H : ℕ → ObjectPolicy → Prop} (h : s.SlotsTyped) (htouch : Touches H s t) :
    t.SlotsTyped := by
  induction htouch with
  | refl => exact h
  | found activity _ hd _ ih => exact (lookups activity).found _ hd ih
  | paged _ _ _ hok ih => exact (lookups _).paged hok ih
  | voided p _ ih => exact ih.kept (.voidCap _ p)
  | unmapped o _ ih => exact ih.kept (.objectDescUnmap _ o)

end SlotsTyped

/-! ### Lookups -/

/-- The folio of an object has no place to come from: it is not in memory, and its number is not
allocated or not one of core memory. -/
def FolioMissing (s : Kernel) (oid : ℕ) : Prop :=
  s.desc (folioOf oid) = none ∧ (folioOf oid / (folioObjects + 1) < foliosCore →
    s.allocated (folioOf oid / (folioObjects + 1)) = false)

variable {s : Kernel} {activity oid : ℕ} {policy : ObjectPolicy}

/-- Bringing an object of the right type in can only run out of frames. -/
theorem memoryObjectAlloc_ne_assertion {version : Fin (2 ^ 20)}
    (hvoid : type ≠ .void) (htype : (type == .folio) = isFolioOid oid) (hnone : s.desc oid = none) :
    s.memoryObjectAlloc activity type oid version policy ≠ .error .assertion := by
  intro h
  rw [memoryObjectAlloc, memoryObjectPlace, require_of hvoid, ok_bind, require_of htype, ok_bind,
    memoryFrameAllocate] at h
  by_cases hfree : 0 < s.free
  · rw [require_of hfree, ok_bind] at h
    simp [require_of, hnone] at h
  · rw [require_of_not hfree] at h
    simp at h

/-- Looking a folio up fails an assertion only where the folio is missing. -/
theorem folioFind_assertion (hoid : isFolioOid oid = true)
    (h : s.folioFind activity oid policy = .error .assertion) :
    s.FolioMissing oid := by
  have hself : folioOf oid = oid := folioOf_eq_self.2 hoid
  rw [FolioMissing, hself]
  simp only [folioFind] at h
  cases hd : s.desc oid with
  | some d =>
    obtain ⟨t, -, heq⟩ := objectFindSoft_spec hd activity policy
    simp [heq, pure, Except.pure] at h
  | none =>
    refine ⟨rfl, fun hcore => ?_⟩
    rw [objectFindSoft_of_none hd] at h
    simp only [Bool.false_eq_true, if_false, if_pos hcore] at h
    by_contra hallocated
    rw [require_of (Bool.eq_true_of_not_eq_false hallocated), ok_bind] at h
    cases halloc : s.memoryObjectAlloc activity .folio oid 0 policy with
    | ok t => simp [halloc] at h
    | error e =>
      have he : e = .assertion := by simpa [halloc] using h
      exact memoryObjectAlloc_ne_assertion (by decide) (by simp [hoid]) hd (he ▸ halloc)

/-- **In a kernel with well-typed slots, `object_find` fails no assertion** but those on where the
folio comes from. -/
theorem SlotsTyped.objectFind_assertion (htyped : s.SlotsTyped)
    (h : s.objectFind activity oid policy = .error .assertion) :
    s.FolioMissing oid := by
  simp only [objectFind] at h
  split at h
  · next hoid => exact folioFind_assertion hoid h
  next hoid =>
  cases hd : s.desc oid with
  | some d =>
    obtain ⟨t, -, heq⟩ := objectFindSoft_spec hd activity policy
    simp [heq, pure, Except.pure] at h
  | none =>
    rw [objectFindSoft_of_none hd] at h
    simp only [Bool.false_eq_true, if_false] at h
    have hself : folioOf (folioOf oid) = folioOf oid := folioOf_folioOf oid
    cases hfolio : s.folioFind activity (folioOf oid) .default with
    | error e =>
      have he : e = .assertion := by simpa [hfolio] using h
      have hmissing := folioFind_assertion (isFolioOid_folioOf oid) (he ▸ hfolio)
      rwa [FolioMissing, hself] at hmissing
    | ok r =>
      obtain ⟨t, found⟩ := r
      simp only [hfolio, ok_bind] at h
      cases found with
      | false =>
        -- the folio is not one of core memory
        rcases folioFind_cases hfolio with
          ⟨d, hd', hfound, -⟩ | ⟨hnone, ⟨hfound, -⟩ | ⟨-, hcore, -⟩⟩
        · simp at hfound
        · simp at hfound
        · exact ⟨hnone, fun hlt => absurd hlt (not_lt.2 hcore)⟩
      | true =>
        rw [require_of rfl, ok_bind] at h
        obtain ⟨htouch, -, hother⟩ :=
          folioFind_touches (H := fun _ _ => True) (isFolioOid_folioOf oid) trivial hfolio
        split at h
        · simp [pure, Except.pure] at h
        next hbring =>
        have hoid : isFolioOid oid = false := by simpa using hoid
        have hplain := (htyped.touches htouch) (folioOf oid) (oid % (folioObjects + 1) - 1)
        have hnone : t.desc oid = none := (hother oid (ne_folioOf hoid)).trans hd
        cases halloc : t.memoryObjectAlloc activity (t.entryOf oid).type oid
            (t.entryOf oid).version policy with
        | ok u => simp [halloc] at h
        | error e =>
          have he : e = .assertion := by simpa [halloc] using h
          refine absurd (he ▸ halloc) (memoryObjectAlloc_ne_assertion ?_ ?_ hnone)
          · exact fun hvoid => hbring (.inl hvoid)
          · rw [hoid, beq_eq_false_iff_ne]
            exact hplain.1

/-! ### Histories -/

/-- What happens to a kernel: a request, or any number of lookups. -/
inductive SlotEvent
  | request (r : ObjectAlloc)
  | lookups

/-- What an event does. -/
def SlotEvent.Step (env : Env) (s : Kernel) : SlotEvent → Kernel → Prop
  | .request r, t => ∃ reply, s.vgFolioObjectAlloc env r = .ok (t, reply)
  | .lookups, t => Touches (fun _ _ => True) s t

/-- The event is a request for a folio that the server **accepts**. -/
def SlotEvent.AsksForFolio (s : Kernel) : SlotEvent → Prop
  | .request r => (s.desc r.target).map Desc.type = some .folio ∧ r.idx < folioObjects ∧
      CapType.ofNumber r.type = some .folio
  | .lookups => False

/-- A history, with the state each event starts from. -/
inductive SlotHistory (env : Env) : Kernel → List (Kernel × SlotEvent) → Kernel → Prop
  | nil (s : Kernel) : SlotHistory env s [] s
  | cons {s t r : Kernel} {e : SlotEvent} {es : List (Kernel × SlotEvent)} :
      e.Step env s t → SlotHistory env t es r → SlotHistory env s ((s, e) :: es) r

/-- The slots are well typed, so that no lookup fails the assertion on the type of an object. -/
def SlotsSafe (s : Kernel) : Prop :=
  s.SlotsTyped ∧ ∀ activity oid policy,
    s.objectFind activity oid policy = .error .assertion → s.FolioMissing oid

theorem slotsSafe_iff : s.SlotsSafe ↔ s.SlotsTyped :=
  ⟨And.left, fun h => ⟨h, fun _ _ _ => h.objectFind_assertion⟩⟩

theorem turnSlot_type (s : Kernel) (folio idx : ℕ) (type : CapType) (policy : ObjectPolicy) :
    (((s.turnSlot folio idx type policy).folio folio).entry idx).type = type := by
  simp [turnSlot, modifyEntry, modifyFolio, recordedEntry]

/-- A slot for which a folio was allocated says so. -/
theorem folioObjectAlloc_folio {folio idx : ℕ} {c : Cap}
    (h : s.folioObjectAlloc env activity folio idx .folio policy = .ok (t, c)) :
    ((t.folio folio).entry idx).type = .folio := by
  obtain ⟨_, -, hrest⟩ := bind_eq_ok.1 h
  obtain ⟨_, -, hrest⟩ := bind_eq_ok.1 hrest
  obtain ⟨_, -, hrest⟩ := bind_eq_ok.1 hrest
  obtain ⟨⟨s₁, found⟩, -, hrest⟩ := bind_eq_ok.1 hrest
  obtain ⟨s₂, -, hrest⟩ := bind_eq_ok.1 hrest
  obtain ⟨⟨s₃, inMemory⟩, -, hrest⟩ := bind_eq_ok.1 hrest
  obtain ⟨s₄, hsetup, ⟨⟩⟩ := bind_pure_eq_ok.1 hrest
  -- only an activity is set up at once
  rw [setUpObject, if_neg (show ¬ CapType.folio.strengthen = .activityControl by decide)] at hsetup
  obtain rfl := pure_eq_ok.1 hsetup
  exact turnSlot_type ..

/-- **One event** keeps the slots well typed iff it is not an accepted request for a folio. -/
theorem SlotEvent.Step.typed_iff {e : SlotEvent} (hstep : e.Step env s t)
    (hs : s.SlotsTyped) : t.SlotsTyped ↔ ¬ e.AsksForFolio s := by
  cases e with
  | lookups => exact ⟨fun _ => id, fun _ => hs.touches hstep⟩
  | request r =>
    obtain ⟨reply, hok⟩ := hstep
    simp only [AsksForFolio]
    unfold vgFolioObjectAlloc at hok
    split at hok
    · next htarget =>
      obtain ⟨⟩ := pure_eq_ok.1 hok
      exact ⟨fun _ hasks => htarget hasks.1, fun _ => hs⟩
    next htarget =>
    split at hok
    · next hidx =>
      obtain ⟨⟩ := pure_eq_ok.1 hok
      exact ⟨fun _ hasks => absurd hasks.2.1 (not_lt.2 hidx), fun _ => hs⟩
    next hidx =>
    split at hok
    · next hnumber =>
      obtain ⟨⟩ := pure_eq_ok.1 hok
      exact ⟨fun _ hasks => by simp [hnumber] at hasks, fun _ => hs⟩
    · next type hnumber =>
      obtain ⟨⟨u, c⟩, halloc, ⟨⟩⟩ := bind_pure_eq_ok.1 hok
      by_cases hfolio : type = .folio
      · subst hfolio
        refine ⟨fun htyped => ?_, fun hasks => ?_⟩
        · exact absurd (folioObjectAlloc_folio halloc) (htyped _ _).1
        · exact absurd ⟨not_not.1 htarget, not_le.1 hidx, hnumber⟩ hasks
      · refine ⟨fun _ hasks => ?_, fun _ => ?_⟩
        · exact hfolio (Option.some.inj (hnumber.symm.trans hasks.2.2))
        · exact (SlotsTyped.closed env _).folioObjectAlloc (CapType.plain_strengthen.2 hfolio)
            halloc hs

/-- **Slot types stay well formed iff no folio is asked for**: from a kernel with well-typed slots,
in every state of a history the slots are well typed and no lookup fails the assertion on types,
iff the server accepts no request for a folio. -/
theorem slotTypes_iff {env : Env} {s t : Kernel} {es : List (Kernel × SlotEvent)}
    (h : SlotHistory env s es t) (hs : s.SlotsTyped) :
    (∀ r ∈ es.map Prod.fst ++ [t], r.SlotsSafe) ↔ ∀ e ∈ es, ¬ e.2.AsksForFolio e.1 := by
  induction h with
  | nil s => simpa [slotsSafe_iff] using hs
  | @cons s t r e es hstep hrest ih =>
    have hhead : ∀ u, u ∈ ((s, e) :: es).map Prod.fst ++ [r] ↔
        u = s ∨ u ∈ es.map Prod.fst ++ [r] := by simp
    simp only [hhead, List.mem_cons, forall_eq_or_imp]
    constructor
    · rintro ⟨-, hall⟩
      have ht : t.SlotsTyped := by
        -- the next state is one of those in the rest of the history
        have hmem : t ∈ es.map Prod.fst ++ [r] := by cases hrest <;> simp
        exact slotsSafe_iff.1 (hall t hmem)
      exact ⟨(hstep.typed_iff hs).1 ht, (ih ht).1 hall⟩
    · rintro ⟨he, hall⟩
      exact ⟨slotsSafe_iff.2 hs, (ih ((hstep.typed_iff hs).2 he)).2 hall⟩

theorem ofTypes_slotsTyped {types : List CapType} (htypes : ∀ t ∈ types, t.Plain)
    (caps : ℕ → ℕ → Cap) (free : ℕ) : (ofTypes types caps free).SlotsTyped := by
  have hplain : ∀ i, (types.getD i .void).Plain := fun i => by
    by_cases hi : i < types.length
    · rw [List.getD_eq_getElem _ _ hi]
      exact htypes _ (List.getElem_mem hi)
    · rw [List.getD_eq_default _ _ (not_lt.1 hi)]
      decide
  intro f i
  by_cases hf : f = 0
  · simpa [ofTypes, hf] using hplain i
  · simp [ofTypes, hf, Folio.zero, FolioEntry.zero, CapType.Plain, CapType.weakP]

/-- A request to allocate an object of some type at the second slot of the first folio. -/
def secondSlot (type : ℕ) : ObjectAlloc := ⟨1, 0, 1, type, .default⟩

/-- A kernel with the root activity only. -/
def rootOnly : Kernel := ofTypes [.activityControl] (fun _ _ => .void) 4

/-- The root activity asks for a page, which is then brought into memory. -/
theorem slotTypes_iff_page : ∃ t r reply,
    rootOnly.vgFolioObjectAlloc ⟨4, fun _ => .default⟩ (secondSlot 1) = .ok (t, .ok reply) ∧
      t.objectFind 1 2 .default = .ok (r, true) ∧
      ((∀ u ∈ [rootOnly, t, r], u.SlotsSafe) ↔
        ∀ e ∈ [(rootOnly, SlotEvent.request (secondSlot 1)), (t, SlotEvent.lookups)],
          ¬ e.2.AsksForFolio e.1) := by
  have hrun : ∃ t r reply,
      rootOnly.vgFolioObjectAlloc ⟨4, fun _ => .default⟩ (secondSlot 1) = .ok (t, .ok reply) ∧
        t.objectFind 1 2 .default = .ok (r, true) := ⟨_, _, _, rfl, rfl⟩
  obtain ⟨t, r, reply, ht, hr⟩ := hrun
  have hhistory : SlotHistory ⟨4, fun _ => .default⟩ rootOnly
      [(rootOnly, .request (secondSlot 1)), (t, .lookups)] r := by
    refine .cons (e := .request (secondSlot 1)) ⟨_, ht⟩ (.cons (e := .lookups) ?_ (.nil r))
    exact (objectFind_touches (H := fun _ _ => True) trivial trivial hr).1
  exact ⟨t, r, reply, ht, hr, slotTypes_iff hhistory (ofTypes_slotsTyped (by decide) _ _)⟩

/-- The root activity asks for a **folio** in a slot of a folio. The server grants it, the slot
says so, and looking the new object up fails the assertion, although its folio is in memory. -/
theorem folio_in_slot_asserts : ∃ t reply,
    rootOnly.vgFolioObjectAlloc ⟨4, fun _ => .default⟩ (secondSlot 5) = .ok (t, .ok reply) ∧
      rootOnly.SlotsTyped ∧ ¬ t.SlotsTyped ∧
      t.objectFind 1 2 .default = .error .assertion ∧ ¬ t.FolioMissing 2 := by
  have hrun : ∃ t reply,
      rootOnly.vgFolioObjectAlloc ⟨4, fun _ => .default⟩ (secondSlot 5) = .ok (t, .ok reply) ∧
        ((t.folio 0).entry 1).type = .folio ∧ t.objectFind 1 2 .default = .error .assertion ∧
        (t.desc 0).isSome = true := ⟨_, _, rfl, rfl, rfl, rfl⟩
  obtain ⟨t, reply, ht, hslot, hfind, hfolio⟩ := hrun
  refine ⟨t, reply, ht, ofTypes_slotsTyped (by decide) _ _, fun htyped => ?_, hfind,
    fun hmissing => ?_⟩
  · exact (htyped 0 1).1 hslot
  · have hnone : t.desc 0 = none := hmissing.1
    simp [hnone] at hfolio

end Kernel

end Viengoos
