import Viengoos.Kernel.Records
import Viengoos.Lib.Fuel

/-!
# When walks end

A client chooses the capability graph, so both the lookup and the shootdown can meet cycles. What
makes them end is that a hop translates bits of the address. There are hops that do not: through a
capability without a guard to a single slot of a cappage (256 subpages is a legal setting), and, in
the shootdown, into the address space of a thread, where the bits of the thread's index are given
back. `lookup_terminates_iff` and `shootdown_terminates` say what follows.
-/

namespace Viengoos

open Outcome BitString AddrTrans

namespace Kernel

/-! ### Looking an object up ends -/

theorem memoryObjectAlloc_ne_outOfFuel (s : Kernel) (activity : ℕ) (type : CapType) (oid : ℕ)
    (version : Fin (2 ^ 20)) (policy : ObjectPolicy) :
    s.memoryObjectAlloc activity type oid version policy ≠ .error .outOfFuel := by
  refine bind_ne_stuck (bind_ne_stuck (require_ne_stuck nofun) fun _ _ =>
    bind_ne_stuck (require_ne_stuck nofun) fun _ _ =>
      bind_ne_stuck (bind_ne_stuck (require_ne_stuck nofun) fun _ _ => nofun) fun _ _ =>
        bind_ne_stuck (require_ne_stuck nofun) fun _ _ => nofun) fun _ _ => nofun

theorem folioFind_ne_outOfFuel (s : Kernel) (activity oid : ℕ) (policy : ObjectPolicy) :
    s.folioFind activity oid policy ≠ .error .outOfFuel := by
  simp only [folioFind]
  split
  · rintro ⟨⟩
  · split
    · exact bind_ne_stuck (require_ne_stuck (by decide)) fun _ _ =>
        bind_ne_stuck (memoryObjectAlloc_ne_outOfFuel _ _ _ _ _ _) fun _ _ => by rintro ⟨⟩
    · rintro ⟨⟩

theorem objectFind_ne_outOfFuel (s : Kernel) (activity oid : ℕ) (policy : ObjectPolicy) :
    s.objectFind activity oid policy ≠ .error .outOfFuel := by
  simp only [objectFind]
  split
  · exact folioFind_ne_outOfFuel _ _ _ _
  · split
    · rintro ⟨⟩
    · refine bind_ne_stuck (folioFind_ne_outOfFuel _ _ _ _) fun _ _ =>
        bind_ne_stuck (require_ne_stuck (by decide)) fun _ _ => ?_
      split
      · rintro ⟨⟩
      · exact bind_ne_stuck (memoryObjectAlloc_ne_outOfFuel _ _ _ _ _ _) fun _ _ => by rintro ⟨⟩

theorem capToObject_ne_outOfFuel (s : Kernel) (activity : ℕ) (p : CapPtr) :
    s.capToObject activity p ≠ .error .outOfFuel := by
  simp only [capToObject]
  split
  · rintro ⟨⟩
  · refine bind_ne_stuck (objectFind_ne_outOfFuel _ _ _ _) fun _ _ => ?_
    simp only [checkVersion]
    split
    · split
      · rintro ⟨⟩
      · exact bind_ne_stuck (require_ne_stuck (by decide)) fun _ _ => by rintro ⟨⟩
    · rintro ⟨⟩

/-! ### What a capability leads to -/

/-- A capability **leads to an object in memory**. -/
def Designates (s : Kernel) (c : Cap) : Prop :=
  ∃ d, s.desc c.oid = some d ∧ d.version = c.version ∧ CapType.compatible c.type d.type = true

variable {c : Cap} {p q : CapPtr} {s t : Kernel} {k : Walk Kernel CapPtr} {f : ℕ → CapPtr}

/-- Where a dereference in a later state succeeds, it did lead to an object in memory, or the object
has come in since, and is empty. -/
theorem Later.designates {t' : Kernel} (h : Later s t) {activity o : ℕ}
    (hobj : t.capToObject activity p = .ok (t', some o)) :
    t.read p = s.read p ∧ o = (s.read p).oid ∧ Later s t' ∧
      (s.Designates (s.read p) ∨
        s.desc (s.read p).oid = none ∧ ∀ i, (t'.caps o i).type = .void) := by
  obtain ⟨htouch, hspec⟩ := capToObject_spec hobj
  obtain ⟨ho, hvoid, d, hd, hversion, hcompat⟩ := hspec o rfl
  have hread : t.read p = s.read p := (h.read p).resolve_right hvoid
  have hlater := h.trans htouch.later
  rw [hread] at ho hversion hcompat
  refine ⟨hread, ho, hlater, ?_⟩
  subst ho
  cases hs : s.desc (s.read p).oid with
  | none => exact .inr ⟨rfl, (hlater.came hs hd).2.1⟩
  | some d₀ =>
    obtain ⟨d', hd', htype, hver, -⟩ := hlater.kept hs
    obtain rfl : d' = d := Option.some.inj (hd'.symm.trans hd)
    exact .inl ⟨d₀, hs, hver ▸ hversion, htype ▸ hcompat⟩

/-- Two states that hold the same capabilities and records, and the same objects in memory. -/
structure Alike (s t : Kernel) : Prop where
  read : ∀ p, t.read p = s.read p
  desc : ∀ o, (t.desc o).map Desc.record = (s.desc o).map Desc.record
  folio : t.folio = s.folio

theorem Alike.refl (s : Kernel) : Alike s s := ⟨fun _ => rfl, fun _ => rfl, rfl⟩

theorem Alike.trans {r : Kernel} (h : Alike s t) (h' : Alike t r) : Alike s r :=
  ⟨fun p => (h'.read p).trans (h.read p), fun o => (h'.desc o).trans (h.desc o),
    h'.folio.trans h.folio⟩

/-- Finding an object in memory. -/
theorem alike_setDesc {d d' : Desc} {o : ℕ} (ht : AccountsOnly s t) (hd : s.desc o = some d)
    (hrecord : d'.record = d.record) : Alike s (t.setDesc o (some d')) :=
  ⟨fun q => by rw [setDesc_read, ht.read], (Kept.setDesc ht hd hrecord).desc, by rw [ht.rest]; rfl⟩

theorem Alike.designates (h : Alike s t) (hc : s.Designates c) :
    t.Designates c := by
  obtain ⟨d, hd, hversion, hcompat⟩ := hc
  have hrecord := h.desc c.oid
  rw [hd, Option.map_some] at hrecord
  obtain ⟨d', hd', heq⟩ := Option.map_eq_some_iff.1 hrecord
  simp only [Desc.record, Prod.mk.injEq] at heq
  exact ⟨d', hd', heq.2 ▸ hversion, heq.1 ▸ hcompat⟩

/-- Dereferencing a capability to an object in memory succeeds and changes no capability. -/
theorem Designates.capToObject (h : s.Designates (s.read p))
    (hvoid : (s.read p).type ≠ .void) (activity : ℕ) :
    ∃ t, s.capToObject activity p = .ok (t, some (s.read p).oid) ∧ Alike s t := by
  obtain ⟨d, hd, hversion, hcompat⟩ := h
  obtain ⟨t, ht, heq⟩ := objectFindSoft_spec hd activity (s.read p).policy
  obtain ⟨htype, hver, -⟩ := foundDesc_fields d activity (s.read p).policy
  refine ⟨t.setDesc (s.read p).oid (some (foundDesc d activity (s.read p).policy)), ?_,
    alike_setDesc ht hd (Prod.ext htype hver)⟩
  simp only [Kernel.capToObject, if_neg hvoid, objectFind_of_some hd, heq, ok_bind, checkVersion,
    setDesc_desc_self, hver, hversion, ne_eq, not_true_eq_false, if_false, htype,
    require_of hcompat]
  rfl

/-! ### The lookup -/

/-- **A still hop** of the lookup: a capability without a guard to a single slot of a cappage in
memory. It leads to the slot without translating a bit. -/
structure StillHop (s : Kernel) (p q : CapPtr) : Prop where
  type : (s.read p).type = .cappage ∨ (s.read p).type = .rcappage
  single : (s.read p).addrTrans.subpagesLog2.val = 8
  guard : (s.read p).addrTrans.guardBits = 0
  object : s.Designates (s.read p)
  target : q = .slot (s.read p).oid (s.read p).addrTrans.subpageOffset

theorem StillHop.notVoid (h : s.StillHop p q) :
    (s.read p).type ≠ .void := by
  rcases h.type with htype | htype <;> simp [htype]

theorem StillHop.indexWidth (h : s.StillHop p q) :
    indexWidth (s.read p) = some 0 := by
  rcases h.type with htype | htype <;>
    simp [Viengoos.indexWidth, htype, h.single, subpageSizeLog2]

theorem StillHop.alike (h : s.StillHop p q) (ht : Alike s t) :
    t.StillHop p q := by
  obtain ⟨htype, hsingle, hguard, hobject, htarget⟩ := h
  rw [← ht.read p] at htype hsingle hguard hobject htarget
  exact ⟨htype, hsingle, hguard, ht.designates hobject, htarget⟩

section Lookup

variable {activity : ℕ} {addr : ℕ} {type : Option CapType} {mode : LookupMode} {s : Kernel}

/-- A step of the walk that translates no bits is a still hop, or ends in an empty slot. -/
theorem still_of_steps {t' : Kernel} {p' : CapPtr} {u : ℕ} {h : Hop} (hlater : Later s t)
    (hsteps : Steps (memory activity) addr t p u h t' p' u) :
    s.StillHop p p' ∨ (t'.read p').type = .void := by
  obtain ⟨hread, ho, -, hcase⟩ := hlater.designates hsteps.object
  have hcap : h.cap = s.read p := hsteps.cap.trans hread
  have hbits := hsteps.bits
  have hwidth := hsteps.width
  have hindex := hsteps.index
  have htarget := hsteps.target
  have hzero : h.width = 0 := by omega
  have hguard : h.cap.addrTrans.guardBits = 0 := by omega
  rw [hzero, field_zero] at hindex
  rw [hzero] at hwidth
  have htype : (h.cap.type = .cappage ∨ h.cap.type = .rcappage) ∧
      h.cap.addrTrans.subpagesLog2.val = 8 := by
    cases heq : h.cap.type <;> simp [indexWidth, heq, subpageSizeLog2] at hwidth ⊢ <;> omega
  have hbase : p' = .slot h.object h.cap.addrTrans.subpageOffset := by
    rw [htarget, Memory.target, hindex]
    rcases htype.1 with heq | heq <;> simp [heq, indexBase, memory]
  rw [hcap] at htype hguard hbase
  rcases hcase with hin | ⟨-, hempty⟩
  · exact .inl ⟨htype.1, htype.2, hguard, hin, by rw [hbase, ho]⟩
  · exact .inr (by rw [hbase]; exact hempty _)

/-- At an empty slot the lookup ends. -/
theorem lookupLoop_settles_of_void (hvoid : (k.state.read k.root).type = .void) :
    Settles .outOfFuel fun n => lookupLoop (memory activity) addr type mode n k := by
  refine Settles.of_succ ?_
  simp only [lookupLoop]
  split
  · exact settles_ok _
  · have hturn : ∃ t, lookupTurn (memory activity) addr type mode k = .ok t ∧
        ∀ k', t ≠ .next k' := by
      have hcap : (memory activity).cap k.state k.root = k.state.read k.root := rfl
      simp only [lookupTurn, hcap, hvoid, indexWidth]
      split_ifs <;> exact ⟨_, rfl, by simp⟩
    obtain ⟨t, ht, hnext⟩ := hturn
    simp only [ht, ok_bind]
    cases t with
    | fail s => exact settles_ok _
    | done k' => exact settles_ok _
    | next k' => exact absurd rfl (hnext k')

theorem lookupTurn_ne_outOfFuel (k : Walk Kernel CapPtr) :
    lookupTurn (memory activity) addr type mode k ≠ .error .outOfFuel := by
  simp only [lookupTurn]
  split
  · rintro ⟨⟩
  · split
    · rintro ⟨⟩
    · split
      · rintro ⟨⟩
      · split
        · rintro ⟨⟩
        · split
          · rintro ⟨⟩
          · refine bind_ne_stuck (capToObject_ne_outOfFuel _ _ _) fun x _ => ?_
            obtain ⟨s, o⟩ := x
            cases o with
            | none => rintro ⟨⟩
            | some o =>
              simp only
              split
              · split <;> rintro ⟨⟩
              · rintro ⟨⟩

/-- **Without endless still hops the loop ends**: by induction on the bits to go, and for each
number of bits along the still hops. -/
theorem lookupLoop_settles (hno : ¬ ∃ f : ℕ → CapPtr, ∀ i, s.StillHop (f i) (f (i + 1)))
    (u : ℕ) (p : CapPtr) (k : Walk Kernel CapPtr) (hu : k.remaining = u) (hp : k.root = p)
    (hlater : Later s k.state) :
    Settles .outOfFuel fun n => lookupLoop (memory activity) addr type mode n k := by
  induction u using Nat.strong_induction_on generalizing p k with
  | _ u ihu =>
    induction acc_of_no_endless hno p generalizing k with
    | intro p _ ihp =>
      refine Settles.of_succ ?_
      simp only [lookupLoop]
      split
      · exact settles_ok _
      cases hturn : lookupTurn (memory activity) addr type mode k with
      | error e =>
        refine settles_const fun heq => ?_
        injection heq with heq
        exact lookupTurn_ne_outOfFuel k (heq ▸ hturn)
      | ok t =>
        rcases lookupTurn_cases hturn with ⟨s', rfl⟩ | ⟨-, hcase⟩
        · exact settles_ok _
        rcases hcase with ⟨hop, s', p', u', hsteps, -, rfl⟩ | ⟨hop, s', p', -, -, rfl⟩ | ⟨-, -, rfl⟩
        · have hlater' : Later s s' :=
            hlater.trans (capToObject_spec hsteps.object).1.later
          have hbits := hsteps.bits
          by_cases heq : u' = u
          · subst heq
            have hsame : u' = k.remaining := hu.symm
            rw [← hsame] at hsteps
            rcases still_of_steps hlater hsteps with hstill | hvoid
            · exact ihp p' (hp ▸ hstill) (k.after hop s' p' u') rfl rfl hlater'
            · exact lookupLoop_settles_of_void hvoid
          · exact ihu u' (by omega) p' (k.after hop s' p' u') rfl rfl hlater'
        · exact settles_ok _
        · exact settles_ok _

variable (activity addr mode)

/-- A turn at a still hop makes it. -/
theorem lookupTurn_of_still (ht : Alike s t)
    (hk : k.state = t) (hu : 0 < k.remaining) (hstill : s.StillHop k.root q) :
    ∃ k', lookupTurn (memory activity) addr none mode k = .ok (.next k') ∧
      Alike s k'.state ∧ k'.root = q ∧ k'.remaining = k.remaining := by
  subst hk
  have hstill' := hstill.alike ht
  obtain ⟨t', hobj, halike⟩ := hstill'.object.capToObject hstill'.notVoid activity
  have hcap : (memory activity).cap k.state k.root = k.state.read k.root := rfl
  have hobj' : (memory activity).capToObject k.state k.root =
      .ok (t', some (k.state.read k.root).oid) := hobj
  have hne : ¬ k.remaining = 0 := by omega
  simp only [lookupTurn, refusesWeak, hcap, hstill'.guard, hstill'.indexWidth, Bool.false_eq_true,
    and_false, if_false, ne_eq, not_true_eq_false, false_and, Nat.sub_zero, hne, Nat.not_lt_zero,
    hobj', ok_bind]
  refine ⟨_, rfl, ht.trans halike, ?_, rfl⟩
  rw [hstill'.target, Memory.target]
  rcases hstill'.type with htype | htype <;> simp [htype, indexBase, memory]

/-- **Along endless still hops the loop does not end**, whatever its fuel. -/
theorem lookupLoop_runs_out (hf : ∀ i, s.StillHop (f i) (f (i + 1))) (n i : ℕ)
    (k : Walk Kernel CapPtr) (hu : 0 < k.remaining) (hp : k.root = f i) (ht : Alike s k.state) :
    lookupLoop (memory activity) addr none mode n k = .error .outOfFuel := by
  induction n generalizing i k with
  | zero => rfl
  | succ n ih =>
    obtain ⟨k', hturn, ht', hroot, hrem⟩ :=
      lookupTurn_of_still activity addr mode ht rfl hu (hp ▸ hf i)
    have hne : ¬ k.remaining = 0 := by omega
    simp only [lookupLoop, if_neg hne, hturn, ok_bind]
    exact ih (i + 1) k' (by omega) hroot ht'

/-- So no lookup from there ends that has a bit to translate. -/
theorem asLookupRel_runs_out (hf : ∀ i, s.StillHop (f i) (f (i + 1))) (n : ℕ) :
    asLookupRel (memory activity) n (f 0) (VgAddr.mk 1 (by decide)) none mode s =
      .error .outOfFuel := by
  have hloop := lookupLoop_runs_out activity (VgAddr.mk 1 (by decide)).num mode hf n 0
    ⟨s, f 0, (VgAddr.mk 1 (by decide)).depth, true, [], false⟩
    (show 0 < (VgAddr.mk 1 (by decide)).depth by decide) rfl (.refl s)
  simp only [asLookupRel, hloop, error_bind]

end Lookup

/-- **When lookups end.** All lookups in a state end, from any root, for every address, type and
mode, if and only if no still hops go on for ever (in a memory of finitely many objects: form a
cycle). -/
theorem lookup_terminates_iff (s : Kernel) :
    (∀ activity root address type mode, Settles .outOfFuel fun n =>
      asLookupRel (memory activity) n root address type mode s) ↔
    ¬ ∃ f : ℕ → CapPtr, ∀ i, s.StillHop (f i) (f (i + 1)) := by
  constructor
  · rintro hall ⟨f, hf⟩
    exact Settles.not_of_forall (asLookupRel_runs_out 0 .wantCap hf) (hall 0 (f 0) _ none .wantCap)
  · intro hno activity root address type mode
    refine (lookupLoop_settles hno _ root _ rfl rfl (.refl s)).bind fun r n hr => ?_
    cases r with
    | inl s' => exact settles_ok _
    | inr k => exact settles_ok _

/-- A cappage in memory whose first slot holds a capability to that slot alone. -/
def selfLoop : Kernel :=
  ofTypes [.activityControl, .cappage]
    (fun o i => if o = 2 ∧ i = 0 then ⟨0, false, 0, ⟨0, 8, 0⟩, .cappage, 2⟩ else .void) 4

/-- **An endless lookup**, through a capability with 256 subpages as `vg_cap_copy_x` makes it: every
lookup at that slot that has bits to translate goes round for ever. -/
theorem selfLoop_never_ends :
    AddrTrans.setGuardSubpage 0 0 0 256 = some (selfLoop.caps 2 0).addrTrans ∧
    ∀ n, asLookupRel (memory 1) n (.slot 2 0) (VgAddr.mk 1 (by decide)) none .wantCap selfLoop =
      .error .outOfFuel := by
  have hstill : selfLoop.StillHop (.slot 2 0) (.slot 2 0) :=
    ⟨.inl rfl, rfl, rfl, ⟨ownedDesc .cappage, rfl, rfl, rfl⟩, rfl⟩
  exact ⟨by decide, asLookupRel_runs_out 1 .wantCap (f := fun _ => .slot 2 0) fun _ => hstill⟩

/-! ### The shootdown -/

/-- **A nested call** of the recursion, from a capability with the bits that remain there: to a slot
of an object in memory, to one of an object that may be brought in, which is empty, or from a folio
to one of its objects. Objects in `skip` are not visited. -/
inductive Calls (s : Kernel) (junk : ℕ → ObjectPolicy) (skip : Set ℕ) :
    CapPtr × ℤ → CapPtr × ℤ → Prop
  | slot {p : CapPtr} {remaining : ℤ} {width i : ℕ} :
      shootdownWidth (s.read p) = some width → (s.read p).type ≠ .folio →
      width + pagesizeLog2 ≤ remaining - (s.read p).addrTrans.guardBits →
      s.Designates (s.read p) → i < shootdownCount (s.read p) →
      (s.caps (s.read p).oid i).oid ∉ skip →
      Calls s junk skip (p, remaining) (.slot (s.read p).oid i,
        remaining - (s.read p).addrTrans.guardBits - width + shootdownExtra (s.read p) i)
  | fresh {p : CapPtr} {remaining : ℤ} {width : ℕ} :
      shootdownWidth (s.read p) = some width →
      width + pagesizeLog2 ≤ remaining - (s.read p).addrTrans.guardBits →
      s.desc (s.read p).oid = none → Calls s junk skip (p, remaining) (.stack .void, 0)
  | object {p : CapPtr} {remaining : ℤ} {i : ℕ} : (s.read p).type = .folio →
      7 + pagesizeLog2 ≤ remaining - (s.read p).addrTrans.guardBits →
      s.Designates (s.read p) → i < folioObjects →
      followedType ((s.folio (s.read p).oid).entry i).type = true →
      (s.read p).oid + 1 + i ∉ skip →
      Calls s junk skip (p, remaining)
        (.stack (s.shootdownCap (s.read p).oid i (junk ((s.read p).oid + 1 + i))),
          remaining - (s.read p).addrTrans.guardBits - 7)

section Calls

variable {s : Kernel} {junk : ℕ → ObjectPolicy} {skip : Set ℕ} {remaining : ℤ} {n width : ℕ}

/-- A call is made only with enough bits. -/
theorem Calls.room {y : CapPtr × ℤ} (h : s.Calls junk skip (p, remaining) y) :
    ∃ width, shootdownWidth (s.read p) = some width ∧
      width + pagesizeLog2 ≤ remaining - (s.read p).addrTrans.guardBits := by
  cases h with
  | slot hwidth _ hroom => exact ⟨_, hwidth, hroom⟩
  | fresh hwidth hroom => exact ⟨_, hwidth, hroom⟩
  | object hfolio hroom => exact ⟨7, by rw [shootdownWidth, hfolio], hroom⟩

theorem nests_slots (hwidth : shootdownWidth (s.read p) = some width)
    (hfolio : (s.read p).type ≠ .folio)
    (hroom : width + pagesizeLog2 ≤ remaining - (s.read p).addrTrans.guardBits)
    (hin : s.Designates (s.read p)) :
    Nests (s.Calls junk skip) (n + 1) (p, remaining) ↔
      ∃ i ∈ List.range (shootdownCount (s.read p)), (s.caps (s.read p).oid i).oid ∉ skip ∧
        Nests (s.Calls junk skip) n (.slot (s.read p).oid i,
          remaining - (s.read p).addrTrans.guardBits - width + shootdownExtra (s.read p) i) := by
  constructor
  · rintro ⟨y, hcall, hnest⟩
    cases hcall with
    | slot hwidth' _ _ _ hi hskip =>
      obtain rfl := Option.some.inj (hwidth.symm.trans hwidth')
      exact ⟨_, List.mem_range.2 hi, hskip, hnest⟩
    | fresh _ _ hnone =>
      obtain ⟨d, hd, -⟩ := hin
      simp [hnone] at hd
    | object hfolio' => exact absurd hfolio' hfolio
  · rintro ⟨i, hi, hskip, hnest⟩
    exact ⟨_, .slot hwidth hfolio hroom hin (List.mem_range.1 hi) hskip, hnest⟩

theorem nests_folio (hfolio : (s.read p).type = .folio)
    (hroom : 7 + pagesizeLog2 ≤ remaining - (s.read p).addrTrans.guardBits)
    (hin : s.Designates (s.read p)) :
    Nests (s.Calls junk skip) (n + 1) (p, remaining) ↔
      ∃ i ∈ List.range folioObjects, followedType ((s.folio (s.read p).oid).entry i).type = true ∧
        (s.read p).oid + 1 + i ∉ skip ∧ Nests (s.Calls junk skip) n
          (.stack (s.shootdownCap (s.read p).oid i (junk ((s.read p).oid + 1 + i))),
            remaining - (s.read p).addrTrans.guardBits - 7) := by
  constructor
  · rintro ⟨y, hcall, hnest⟩
    cases hcall with
    | slot _ hfolio' => exact absurd hfolio hfolio'
    | fresh _ _ hnone =>
      obtain ⟨d, hd, -⟩ := hin
      simp [hnone] at hd
    | object _ _ _ hi htype hskip => exact ⟨_, List.mem_range.2 hi, htype, hskip, hnest⟩
  · rintro ⟨i, hi, htype, hskip, hnest⟩
    exact ⟨_, .object hfolio hroom hin (List.mem_range.1 hi) htype hskip, hnest⟩

end Calls

section Shootdown

variable {s : Kernel} {activity : ℕ} {root : CapPtr} {junk : ℕ → ObjectPolicy}

/-- A shootdown decays the system. -/
theorem shootdownFrom_later {n : ℕ} {remaining : ℤ} {t' : Kernel}
    (h : shootdownFrom activity root junk n p remaining t = .ok t') : Later t t' :=
  (shootdownFrom_touches (H := fun _ _ => True) (fun _ => trivial) (fun _ => trivial) n p remaining
    t t' (fun _ _ _ => trivial) (fun _ => trivial) h).later

/-- What is void stays void. -/
theorem Later.void {t' : Kernel} (h : Later t t') (hvoid : (t.read p).type = .void) :
    (t'.read p).type = .void :=
  (h.read p).elim (fun hsame => hsame ▸ hvoid) id

/-- An empty slot is not followed. -/
theorem shootdownFrom_of_void (hvoid : (t.read p).type = .void) (n : ℕ)
    (remaining : ℤ) : shootdownFrom activity root junk (n + 1) p remaining t = .ok t := by
  simp [shootdownFrom_succ, hvoid, shootdownWidth]

/-- A folio's object that is followed in a later state was there to be followed. -/
theorem Later.calls_object {t₁ v : Kernel} {o i : ℕ} {remaining : ℤ} (hlater : Later s t)
    (hfolio : (t.read p).type = .folio) (hobj : t.capToObject activity p = .ok (t₁, some o))
    (hv : Later s v) (hv₁ : Later t₁ v) (hi : i < folioObjects)
    (hroom : 7 + pagesizeLog2 ≤ remaining - (t.read p).addrTrans.guardBits)
    (htype : followedType ((v.folio o).entry i).type = true) :
    Calls s junk ∅ (p, remaining) (.stack (v.shootdownCap o i (junk (o + 1 + i))),
      remaining - (t.read p).addrTrans.guardBits - 7) := by
  obtain ⟨hread, ho, -, -⟩ := hlater.designates hobj
  obtain ⟨-, hspec⟩ := capToObject_spec hobj
  obtain ⟨-, -, d, hd, hversion, hcompat⟩ := hspec o rfl
  rw [hread] at hfolio hversion hcompat hroom ⊢
  subst ho
  have hlater₁ : Later s t₁ := hlater.trans (capToObject_spec hobj).1.later
  cases hs : s.desc (s.read p).oid with
  | none =>
    -- it would have come in empty
    have hzero := (hlater₁.came hs hd).2.2
    rw [hv₁.entry (by simp [hd]), hzero] at htype
    simp [FolioEntry.zero, followedType] at htype
  | some d₀ =>
    obtain ⟨d', hd', htype', hver, -⟩ := hlater₁.kept hs
    obtain rfl : d' = d := Option.some.inj (hd'.symm.trans hd)
    have hentry : (v.folio (s.read p).oid).entry = (s.folio (s.read p).oid).entry :=
      hv.entry (by simp [hs])
    have hcap : v.shootdownCap (s.read p).oid i (junk ((s.read p).oid + 1 + i)) =
        s.shootdownCap (s.read p).oid i (junk ((s.read p).oid + 1 + i)) := by
      simp only [shootdownCap, hentry]
    rw [hcap]
    exact .object hfolio hroom ⟨d₀, hs, hver ▸ hversion, htype' ▸ hcompat⟩ hi (hentry ▸ htype)
      (Set.notMem_empty _)

/-- **What the recursion nests**: with fuel for more calls than are nested it does not run out. -/
theorem shootdownFrom_depth (n : ℕ) (p : CapPtr) (remaining : ℤ) (t : Kernel) (hlater : Later s t)
    (hn : ¬Nests (s.Calls junk ∅) n (p, remaining)) :
    shootdownFrom activity root junk n p remaining t ≠ .error .outOfFuel := by
  induction n generalizing p remaining t with
  | zero => exact absurd trivial hn
  | succ n ih =>
    by_cases hvoid : (t.read p).type = .void
    · rw [shootdownFrom_of_void hvoid]
      rintro ⟨⟩
    have hread : t.read p = s.read p := (hlater.read p).resolve_right hvoid
    rw [shootdownFrom_succ]
    split
    · split <;> rintro ⟨⟩
    split
    · rintro ⟨⟩
    next width hwidth =>
    split
    · rintro ⟨⟩
    next hroom =>
    rw [not_lt] at hroom
    refine bind_ne_stuck (capToObject_ne_outOfFuel t activity p) fun r hr => ?_
    obtain ⟨t₁, object⟩ := r
    cases object with
    | none => rintro ⟨⟩
    | some o =>
      obtain ⟨-, ho, hlater₁, hcase⟩ := hlater.designates hr
      simp only
      split
      · next hfolio =>
        obtain rfl : width = 7 := by simpa [shootdownWidth, hfolio, eq_comm] using hwidth
        refine foldlM_ne_stuck (fun v => Later s v ∧ Later t₁ v) (fun i hi v hv => ?_)
          ⟨hlater₁, .refl t₁⟩
        split
        · next htype =>
          simp only
          split
          · have hcall : s.Calls junk ∅ (p, remaining) _ := hlater.calls_object hfolio hr hv.1 hv.2
              (List.mem_range.1 hi) hroom htype
            exact ⟨ih _ _ v hv.1 fun hnest => hn ⟨_, hcall, hnest⟩,
              fun v' hv' => ⟨hv.1.trans (shootdownFrom_later hv'),
                hv.2.trans (shootdownFrom_later hv')⟩⟩
          · exact ⟨by rintro ⟨⟩, fun v' hv' => pure_eq_ok.1 hv' ▸ hv⟩
        · exact ⟨by rintro ⟨⟩, fun v' hv' => pure_eq_ok.1 hv' ▸ hv⟩
      · next hfolio =>
        refine foldlM_ne_stuck (fun v => Later s v ∧ Later t₁ v) (fun i hi v hv => ?_)
          ⟨hlater₁, .refl t₁⟩
        split
        · refine ⟨?_, fun v' hv' => ⟨hv.1.trans (shootdownFrom_later hv'),
            hv.2.trans (shootdownFrom_later hv')⟩⟩
          rw [hread] at hwidth hroom hfolio hi ⊢
          subst ho
          rcases hcase with hin | ⟨hnone, hempty⟩
          · exact ih _ _ v hv.1 fun hnest => hn ⟨_, .slot hwidth hfolio hroom hin
              (List.mem_range.1 hi) (Set.notMem_empty _), hnest⟩
          · -- the slots of an object that has come in are empty
            cases n with
            | zero => exact absurd ⟨_, .fresh hwidth hroom hnone, trivial⟩ hn
            | succ n =>
              rw [shootdownFrom_of_void (hv.2.void (p := .slot _ i) (hempty i))]
              rintro ⟨⟩
        · exact ⟨by rintro ⟨⟩, fun v' hv' => pure_eq_ok.1 hv' ▸ hv⟩

/-- Whether a call at a capability finds what it needs **in memory**: the object it follows, and for
a page one that is not stale. -/
def Settled (s : Kernel) (p : CapPtr) (remaining : ℤ) : Prop :=
  (∀ width, shootdownWidth (s.read p) = some width →
    width + pagesizeLog2 ≤ remaining - (s.read p).addrTrans.guardBits →
    s.Designates (s.read p)) ∧
  ((s.read p).type = .page ∨ (s.read p).type = .rpage →
    ∀ d, s.desc (s.read p).oid = some d → d.version = (s.read p).version)

/-- Everything that the shootdown reaches is in memory. -/
def Resident (s : Kernel) (junk : ℕ → ObjectPolicy) (root : CapPtr) : Prop :=
  ∀ x, Relation.ReflTransGen (s.Calls junk {(s.read root).oid}) (root, vgAddrBits) x →
    s.Settled x.1 x.2

/-- It is where every slot is empty or leads to an object in memory that is no folio and no page. -/
theorem Resident.of_slots (h : ∀ p, (p = root ∨ ∃ o i, p = .slot o i) → (s.read p).type = .void ∨
    s.Designates (s.read p) ∧ (s.read p).type ∉ [.folio, .page, .rpage]) :
    s.Resident junk root := by
  intro x hreach
  have hfrom : x.1 = root ∨ ∃ o i, x.1 = .slot o i := by
    induction hreach with
    | refl => exact .inl rfl
    | tail _ hcall ih =>
      cases hcall with
      | slot => exact .inr ⟨_, _, rfl⟩
      | fresh hwidth _ hnone =>
        rcases h _ ih with hvoid | ⟨⟨d, hd, -⟩, -⟩
        · simp [shootdownWidth, hvoid] at hwidth
        · simp [hnone] at hd
      | object hfolio =>
        rcases h _ ih with hvoid | ⟨-, hnot⟩
        · simp [hvoid] at hfolio
        · simp [hfolio] at hnot
  rcases h x.1 hfrom with hvoid | ⟨hin, hnot⟩
  · exact ⟨fun width hwidth => by simp [shootdownWidth, hvoid] at hwidth,
      fun hpage => by simp [hvoid] at hpage⟩
  · exact ⟨fun _ _ _ => hin, fun hpage => by rcases hpage with heq | heq <;> simp [heq] at hnot⟩

theorem alike_objectDescUnmap (s : Kernel) (o : ℕ) : Alike s (s.objectDescUnmap o) := by
  refine ⟨fun q => ?_, (Kept.objectDescUnmap s o).desc, ?_⟩ <;> rw [objectDescUnmap] <;>
    split <;> [rfl; split <;> rfl; rfl; split <;> rfl]

theorem alike_shootdownPage (h : ∀ d, s.desc (s.read p).oid = some d →
    d.version = (s.read p).version) : Alike s (s.shootdownPage activity p) := by
  simp only [shootdownPage, unmapFound]
  cases hd : s.desc (s.read p).oid with
  | none => simpa [objectFindSoft_of_none hd] using .refl s
  | some d =>
    obtain ⟨t, ht, heq⟩ := objectFindSoft_spec hd activity (s.read p).policy
    obtain ⟨htype, hver, -⟩ := foundDesc_fields d activity (s.read p).policy
    have halike : Alike s (t.setDesc _ (some (foundDesc d activity (s.read p).policy))) :=
      alike_setDesc ht hd (Prod.ext htype hver)
    simp only [heq, setDesc_desc_self, hver, h d hd, ne_eq, not_true_eq_false, if_false]
    exact halike.trans (alike_objectDescUnmap _ _)

/-- **Exactly when the recursion runs out** of fuel, where everything is in memory. -/
theorem shootdownFrom_exact (hres : s.Resident junk root) (n : ℕ) (p : CapPtr) (remaining : ℤ)
    (t : Kernel) (ht : Alike s t)
    (hreach : Relation.ReflTransGen (s.Calls junk {(s.read root).oid}) (root, vgAddrBits)
      (p, remaining)) :
    shootdownFrom activity root junk n p remaining t = .error .outOfFuel ∧
        Nests (s.Calls junk {(s.read root).oid}) n (p, remaining) ∨
      ∃ t', shootdownFrom activity root junk n p remaining t = .ok t' ∧ Alike s t' ∧
        ¬Nests (s.Calls junk {(s.read root).oid}) n (p, remaining) := by
  induction n generalizing p remaining t with
  | zero => exact .inl ⟨rfl, trivial⟩
  | succ n ih =>
    obtain ⟨hfollow, hstale⟩ := hres _ hreach
    have hread := ht.read p
    rw [shootdownFrom_succ, hread]
    split
    · next hpage =>
      have hleaf : ¬Nests (s.Calls junk {(s.read root).oid}) (n + 1) (p, remaining) := by
        rintro ⟨y, hcall, -⟩
        obtain ⟨width, hwidth, -⟩ := hcall.room
        rcases hpage with heq | heq <;> simp [shootdownWidth, heq] at hwidth
      split
      · exact .inr ⟨t, rfl, ht, hleaf⟩
      · refine .inr ⟨_, rfl, ht.trans (alike_shootdownPage fun d hd => ?_), hleaf⟩
        obtain ⟨d', hd', heq⟩ := Option.map_eq_some_iff.1 ((ht.desc _).symm.trans (by rw [hd]; rfl))
        rw [hread] at hd' ⊢
        rw [← hstale hpage d' hd']
        exact (congrArg Prod.snd heq).symm
    split
    · next hwidth =>
      refine .inr ⟨t, rfl, ht, ?_⟩
      rintro ⟨y, hcall, -⟩
      obtain ⟨width, hwidth', -⟩ := hcall.room
      simp [hwidth] at hwidth'
    next width hwidth =>
    split
    · next hfew =>
      refine .inr ⟨t, rfl, ht, ?_⟩
      rintro ⟨y, hcall, -⟩
      obtain ⟨width', hwidth', hroom⟩ := hcall.room
      obtain rfl := Option.some.inj (hwidth.symm.trans hwidth')
      exact absurd hroom (not_le.2 hfew)
    next hroom =>
    rw [not_lt] at hroom
    have hin := hfollow width hwidth hroom
    have hvoid : (s.read p).type ≠ .void := fun heq => by simp [shootdownWidth, heq] at hwidth
    obtain ⟨t₁, hobj, ht₁⟩ := (ht.designates (hread ▸ hin)).capToObject (hread ▸ hvoid) activity
    rw [hobj, ok_bind]
    simp only [hread]
    split
    · next hfolio =>
      obtain rfl : width = 7 := by simpa [shootdownWidth, hfolio, eq_comm] using hwidth
      rw [nests_folio hfolio hroom hin]
      refine foldlM_decided (Alike s) (fun i hi v hv => ?_) (ht.trans ht₁)
      have hcap : v.shootdownCap (s.read p).oid i (junk ((s.read p).oid + 1 + i)) =
          s.shootdownCap (s.read p).oid i (junk ((s.read p).oid + 1 + i)) := by
        simp only [shootdownCap, hv.folio]
      rw [hv.folio, hv.read root, hcap]
      by_cases htype : followedType ((s.folio (s.read p).oid).entry i).type = true
      · by_cases hskip : (s.read p).oid + 1 + i = (s.read root).oid
        · exact .inr ⟨v, by simp [htype, shootdownCap, hskip], hv, by simp [hskip]⟩
        · have hcall : s.Calls junk {(s.read root).oid} (p, remaining) _ :=
            .object hfolio hroom hin (List.mem_range.1 hi) htype hskip
          simpa [htype, hskip, shootdownCap, Ne.symm hskip] using ih _ _ v hv (hreach.tail hcall)
      · exact .inr ⟨v, by simp [htype], hv, by simp [htype]⟩
    · next hfolio =>
      rw [nests_slots hwidth hfolio hroom hin]
      refine foldlM_decided (Alike s) (fun i hi v hv => ?_) (ht.trans ht₁)
      have hcap : v.caps (s.read p).oid i = s.caps (s.read p).oid i := hv.read (.slot _ i)
      rw [hv.read root, hcap]
      by_cases hskip : (s.caps (s.read p).oid i).oid = (s.read root).oid
      · exact .inr ⟨v, by simp [hskip], hv, by simp [hskip]⟩
      · have hcall : s.Calls junk {(s.read root).oid} (p, remaining) _ :=
          .slot hwidth hfolio hroom hin (List.mem_range.1 hi) hskip
        simpa [hskip, Ne.symm hskip] using ih _ _ v hv (hreach.tail hcall)

theorem shootdownFrom_iff (hres : s.Resident junk root) (n : ℕ) :
    s.capShootdown n activity junk root = .error .outOfFuel ↔
      Nests (s.Calls junk {(s.read root).oid}) n (root, vgAddrBits) := by
  rw [capShootdown]
  rcases shootdownFrom_exact hres n root vgAddrBits s (.refl s) .refl with
    ⟨hstuck, hnest⟩ | ⟨t, hok, -, hnest⟩
  · exact iff_of_true hstuck hnest
  · exact iff_of_false (by simp [hok]) hnest

/-- More fuel than is needed does not matter. -/
theorem shootdownFrom_stable (n : ℕ) (p : CapPtr) (remaining : ℤ) (t : Kernel)
    (hne : shootdownFrom activity root junk n p remaining t ≠ .error .outOfFuel) :
    shootdownFrom activity root junk (n + 1) p remaining t =
      shootdownFrom activity root junk n p remaining t := by
  induction n generalizing p remaining t with
  | zero => exact absurd rfl hne
  | succ n ih =>
    rw [shootdownFrom_succ] at hne ⊢
    conv_rhs => rw [shootdownFrom_succ]
    split
    · rfl
    next hpage =>
    rw [if_neg hpage] at hne
    cases hwidth : shootdownWidth (t.read p) with
    | none => rfl
    | some width =>
    rw [hwidth] at hne
    dsimp only at hne ⊢
    split
    · rfl
    next hroom =>
    rw [if_neg hroom] at hne
    cases hobj : t.capToObject activity p with
    | error e => rfl
    | ok r =>
    rw [hobj, ok_bind] at hne
    rw [ok_bind, ok_bind]
    obtain ⟨t₁, object⟩ := r
    cases object with
    | none => rfl
    | some o =>
    dsimp only at hne ⊢
    split
    · next hfolio =>
      rw [if_pos hfolio] at hne
      refine foldlM_stable (fun v i hround => ?_) hne
      split
      · next htype =>
        rw [if_pos htype] at hround
        dsimp only at hround ⊢
        split
        · next hroot => exact ih _ _ _ (by rwa [if_pos hroot] at hround)
        · rfl
      · rfl
    · next hfolio =>
      rw [if_neg hfolio] at hne
      refine foldlM_stable (fun v i hround => ?_) hne
      split
      · next hroot => exact ih _ _ _ (by rwa [if_pos hroot] at hround)
      · rfl

end Shootdown

/-- A thread that has a cappage for its address space. -/
def oneThread : Kernel :=
  ofTypes [.activityControl, .thread, .cappage]
    (fun o i => if o = 2 ∧ i = 0 then ⟨0, false, 0, .void, .cappage, 3⟩ else .void) 4

/-- Two threads. The address space of the first is the second, and that of the second is itself. -/
def threadLoop : Kernel :=
  ofTypes [.activityControl, .thread, .thread]
    (fun o i => if (o = 2 ∨ o = 3) ∧ i = 0 then ⟨0, false, 0, .void, .thread, 3⟩ else .void) 4

end Kernel

end Viengoos
