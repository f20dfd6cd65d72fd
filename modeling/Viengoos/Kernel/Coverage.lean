import Viengoos.Kernel.Shootdown

/-!
# The shootdown covers the lookup

`cap_shootdown` and the lookup are two walks over one graph, written independently. Four things
the shootdown does not do as the lookup does: it takes the slots of a cappage from the first one
on whatever the subpage, it visits two of the four slots of threads and messengers, of a folio's
objects it follows pages and cappages only, and it skips every capability to the root's own
object. `Covered` is the path on which none of this matters, and along such paths
`shootdown_complete` says that every page found with room for a page's offset is unmapped.
-/

namespace Viengoos

open Outcome BitString

namespace Kernel

/-! ### Paths the shootdown follows -/

/-- A capability to a page. -/
def IsPage (c : Cap) : Prop := c.type = .page ∨ c.type = .rpage

/-- Two capabilities that designate the same object with the same translation. -/
structure SameTarget (c c' : Cap) : Prop where
  oid : c.oid = c'.oid
  version : c.version = c'.version
  type : c.type = c'.type
  addrTrans : c.addrTrans = c'.addrTrans

variable {c : Cap} {p p₁ : CapPtr} {hop : Hop} {s s₁ t : Kernel} {hs : List Hop}
  {activity o r u₁ v : ℕ} {junk : ℕ → ObjectPolicy} {remaining : ℤ}

theorem SameTarget.rfl : SameTarget c c := ⟨.refl _, .refl _, .refl _, .refl _⟩

theorem SameTarget.indexWidth {c' : Cap} (h : SameTarget c c') :
    indexWidth c = indexWidth c' := by
  simp only [Viengoos.indexWidth, h.type, h.addrTrans]

/-- The capability after a hop: that of the next hop, or the last one. -/
def nextCap : List Hop → Cap → Cap
  | [], last => last
  | h :: _, _ => h.cap

/-- **A hop the shootdown makes too**: the next capability does not name the root's object `r`,
and the slot is one of those visited. -/
def CoveredHop (r : ℕ) (h : Hop) (next : Cap) : Prop :=
  next.oid ≠ r ∧
    match h.cap.type with
    | .cappage | .rcappage => h.cap.addrTrans.subpageOffset = 0
    | .folio => followedType next.type = true
    | _ => h.index < 2

/-- All hops of a path are made by the shootdown too. -/
def Covered (r : ℕ) : List Hop → Cap → Prop
  | [], _ => True
  | h :: hs, last => CoveredHop r h (nextCap hs last) ∧ Covered r hs last

/-- **Cleared**: whatever is translated later through a capability, with at least the bits of a
page's offset to spare, the page it ends at is not mapped now. -/
def Cleared (r : ℕ) (t : Kernel) (c : Cap) (remaining : ℤ) : Prop :=
  ∀ ⦃activity addr u : ℕ⦄ ⦃t₂ t₃ : Kernel⦄ ⦃q p : CapPtr⦄ ⦃hs : List Hop⦄, Later t t₂ →
    SameTarget (t₂.read q) c →
    Walks (memory activity) addr t₂ q u hs t₃ p (t₃.read p).addrTrans.guardBits →
    (u : ℤ) + pagesizeLog2 ≤ remaining → Covered r hs (t₃.read p) → IsPage (t₃.read p) →
    ∀ d, t.desc (t₃.read p).oid = some d → d.version = (t₃.read p).version → d.mapped = false

theorem Cleared.later {t' : Kernel}
    (h : Cleared r t c remaining) (hlater : Later t t') : Cleared r t' c remaining := by
  intro activity addr u t₂ t₃ q p hs h₂ hsame hwalk hroom hcov hpage d hd hversion
  cases hbefore : t.desc (t₃.read p).oid with
  | none => exact (hlater.came hbefore hd).1
  | some d₀ =>
    obtain ⟨d', hd', -, hversion', hmapped⟩ := hlater.kept hbefore
    obtain rfl : d' = d := Option.some.inj (hd'.symm.trans hd)
    have hclear := h (hlater.trans h₂) hsame hwalk hroom hcov hpage d₀ hbefore
      (hversion'.symm.trans hversion)
    rw [← Bool.not_eq_true] at hclear ⊢
    exact fun hm => hclear (hmapped hm)

theorem Cleared.mono {remaining' : ℤ}
    (h : Cleared r t c remaining) (hle : remaining' ≤ remaining) : Cleared r t c remaining' :=
  fun _ _ _ _ _ _ _ _ h₂ hsame hwalk hroom => h h₂ hsame hwalk (hroom.trans hle)

/-- A walk does not pass a capability that cannot be indexed. -/
theorem walks_nil_of_indexWidth {σ P : Type} {m : Memory σ P} {addr u u' : ℕ} {s s' : σ}
    {q p : P} (h : Walks m addr s q u hs s' p u')
    (hnone : indexWidth (m.cap s q) = none) : hs = [] ∧ s' = s ∧ p = q ∧ u' = u := by
  cases h with
  | nil => exact ⟨rfl, rfl, rfl, rfl⟩
  | cons hstep _ =>
    have hwidth := hstep.width
    rw [hstep.cap, hnone] at hwidth
    exact absurd hwidth (by simp)

theorem indexWidth_of_isPage (h : IsPage c) : indexWidth c = none := by
  rcases h with h | h <;> simp [indexWidth, h]

theorem indexWidth_of_void (h : c.type = .void) : indexWidth c = none := by
  simp [indexWidth, h]

/-- Where the lookup indexes an object, the shootdown does so with the same width. -/
theorem shootdownWidth_of_indexWidth {w : ℕ} (h : indexWidth c = some w) :
    shootdownWidth c = some w := by
  unfold indexWidth at h
  unfold shootdownWidth
  split at h <;> simp_all

/-- A page that was found is not mapped afterwards. -/
theorem shootdownPage_clears (hpage : IsPage (s.read p)) :
    Cleared r (s.shootdownPage activity p) (s.read p) remaining := by
  intro activity' addr u t₂ t₃ q p' hs _ hsame hwalk _ _ _ d hd hversion
  have hnone : indexWidth (t₂.read q) = none := by
    rw [hsame.indexWidth, indexWidth_of_isPage hpage]
  obtain ⟨-, rfl, rfl, -⟩ := walks_nil_of_indexWidth hwalk hnone
  rw [hsame.oid] at hd
  rw [hsame.version] at hversion
  cases hbefore : s.desc (s.read p).oid with
  | none => simp [shootdownPage, unmapFound, objectFindSoft_of_none hbefore, hbefore] at hd
  | some d₀ =>
    obtain ⟨t, -, heq⟩ := objectFindSoft_spec hbefore activity (s.read p).policy
    simp only [shootdownPage, unmapFound, heq, setDesc_desc_self] at hd
    split at hd
    · next hstale =>
      -- the capability is stale, and no page has its version
      rw [voidCap, write_desc, setDesc_desc_self] at hd
      obtain rfl := Option.some.inj hd
      exact absurd hversion hstale
    · rcases objectDescUnmap_spec (t.setDesc (s.read p).oid
        (some (foundDesc d₀ activity (s.read p).policy))) (s.read p).oid with
        ⟨hsame', hnot⟩ | ⟨d₁, hw, -, heq'⟩
      · rw [hsame'] at hd
        exact hnot d hd
      · rw [heq'] at hd
        simp only [setDesc_desc_self, Option.some.injEq] at hd
        exact hd ▸ rfl

/-! ### The loops -/

/-- The cap in a slot names the root's object, or all behind it is cleared. -/
def SlotDone (r : ℕ) (o i : ℕ) (remaining : ℤ) (t : Kernel) : Prop :=
  ∃ c, (t.caps o i = c ∨ (t.caps o i).type = .void) ∧ (c.oid = r ∨ Cleared r t c remaining)

theorem SlotDone.later {i : ℕ} {t' : Kernel}
    (h : SlotDone r o i remaining t) (hlater : Later t t') : SlotDone r o i remaining t' := by
  obtain ⟨c, hcap, hdone⟩ := h
  refine ⟨c, ?_, hdone.imp_right fun hc => hc.later hlater⟩
  rcases hlater.read (.slot o i) with heq | hvoid
  · exact hcap.imp (fun h => Eq.trans heq h) fun h => (congrArg Cap.type heq).trans h
  · exact .inr hvoid

/-- A capability that is not void now has been what it is all along. -/
theorem Later.read_eq (h : Later s t) (hc : c.type ≠ .void) (ht : t.read p = c) : s.read p = c := by
  rcases h.read p with heq | hvoid
  · rw [← heq, ht]
  · rw [ht] at hvoid
    exact absurd hvoid hc

section Loops

variable {root : CapPtr} {C : Cap} {doit : CapPtr → ℤ → Kernel → Except Fault Kernel}

/-- What the recursive visits achieve, as long as the root capability `C` is still in place. -/
def Clears (root : CapPtr) (C : Cap) (doit : CapPtr → ℤ → Kernel → Except Fault Kernel) : Prop :=
  ∀ p remaining s t, doit p remaining s = .ok t →
    Later s t ∧ (t.read root = C → Cleared C.oid t (s.read p) remaining)

theorem shootdownSlots_clears (hC : C.type ≠ .void) (hdoit : Clears root C doit) {n : ℕ}
    {extra : ℕ → ℤ} (hextra : ∀ i, 0 ≤ extra i)
    (h : shootdownSlots doit root o n remaining extra s = .ok t) :
    Later s t ∧ (t.read root = C → ∀ i < n, SlotDone C.oid o i remaining t) := by
  have hloop := foldlM_covers (R := Later)
    (Q := fun i t => t.read root = C → SlotDone C.oid o i remaining t) .refl
    (fun _ _ _ => Later.trans)
    (fun i u v huv hQ hv => (hQ (huv.read_eq hC hv)).later huv) ?_ h
  · exact ⟨hloop.1, fun hroot i hi => hloop.2 i (List.mem_range.2 hi) hroot⟩
  intro i _ u v _ huv
  split at huv
  · obtain ⟨hlater, hclear⟩ := hdoit _ _ u v huv
    refine ⟨hlater, fun hroot => ⟨u.caps o i, ?_, .inr ((hclear hroot).mono ?_)⟩⟩
    · exact (hlater.read (.slot o i)).imp id id
    · have := hextra i
      omega
  · next hskip =>
    obtain rfl := pure_eq_ok.1 huv
    refine ⟨.refl u, fun hroot => ⟨u.caps o i, .inl rfl, .inl ?_⟩⟩
    rw [← hroot]
    exact (not_not.1 hskip).symm

theorem shootdownFolio_clears (hC : C.type ≠ .void) (hdoit : Clears root C doit)
    {remaining : ℤ} (ho : (s.desc o).isSome = true)
    (h : shootdownFolio doit root junk o remaining s = .ok t) :
    Later s t ∧ (t.read root = C → ∀ i < folioObjects,
      followedType ((s.folio o).entry i).type = true →
        o + 1 + i = C.oid ∨
          Cleared C.oid t (s.shootdownCap o i (junk (o + 1 + i))) remaining) := by
  have hloop := foldlM_covers (R := Later)
    (Q := fun i t => t.read root = C → followedType ((s.folio o).entry i).type = true →
      o + 1 + i = C.oid ∨ Cleared C.oid t (s.shootdownCap o i (junk (o + 1 + i))) remaining) .refl
    (fun _ _ _ => Later.trans)
    (fun i u v huv hQ hv hfollow => (hQ (huv.read_eq hC hv) hfollow).imp_right
      fun hc => hc.later huv) ?_ h
  · exact ⟨hloop.1, fun hroot i hi => hloop.2 i (List.mem_range.2 hi) hroot⟩
  intro i _ u v hsu huv
  -- the folio stays in memory, so its records are those at the start
  have hentry := hsu.entry ho
  have hcap : u.shootdownCap o i (junk (o + 1 + i)) = s.shootdownCap o i (junk (o + 1 + i)) := by
    simp only [shootdownCap, hentry]
  rw [hentry, hcap] at huv
  split at huv
  · dsimp only at huv
    split at huv
    · obtain ⟨hlater, hclear⟩ := hdoit _ _ u v huv
      exact ⟨hlater, fun hroot _ => .inr (hclear hroot)⟩
    · next hskip =>
      obtain rfl := pure_eq_ok.1 huv
      refine ⟨.refl u, fun hroot _ => .inl ?_⟩
      rw [← hroot]
      exact (not_not.1 hskip).symm
  · next hnot =>
    obtain rfl := pure_eq_ok.1 huv
    exact ⟨.refl u, fun _ hfollow => absurd hfollow hnot⟩

end Loops

/-! ### The recursion -/

variable {activity addr u : ℕ} {s s' t : Kernel} {q p : CapPtr}

/-- A walk to a page from a capability to something else makes a hop. -/
theorem exists_first_hop (h : Walks (memory activity) addr s q u hs s' p v)
    (hpage : IsPage (s'.read p)) (hnot : ¬ IsPage (s.read q)) :
    ∃ hop hs' s₁ p₁ u₁, hs = hop :: hs' ∧ Steps (memory activity) addr s q u hop s₁ p₁ u₁ ∧
      Walks (memory activity) addr s₁ p₁ u₁ hs' s' p v := by
  cases h with
  | nil => exact absurd hpage hnot
  | cons hstep hwalk => exact ⟨_, _, _, _, _, rfl, hstep, hwalk⟩

theorem nextCap_of_walks
    (h : Walks (memory activity) addr s q u hs s' p v) : nextCap hs (s'.read p) = s.read q := by
  cases h with
  | nil => rfl
  | cons hstep _ => exact hstep.cap

/-- A hop leaves the object in memory, of the capability's version. -/
theorem Steps.landed (h : Steps (memory activity) addr s q u hop s₁ p₁ u₁) :
    Later s s₁ ∧ hop.object = (s.read q).oid ∧
      ∃ d, s₁.desc hop.object = some d ∧ d.version = (s.read q).version := by
  obtain ⟨htouch, hobj⟩ := capToObject_spec h.object
  obtain ⟨hoid, -, d, hd, hversion, -⟩ := hobj _ rfl
  exact ⟨htouch.later, hoid, d, hd, hversion⟩

/-- An object that was not there, or not of the capability's version, leads nowhere later. -/
theorem Steps.dead_end (h : Steps (memory activity) addr s q u hop s₁ p₁ u₁) (hlater : Later t s)
    (hgone : t.desc (s.read q).oid = none ∨
      ∃ d, t.desc (s.read q).oid = some d ∧ d.version ≠ (s.read q).version) :
    (s₁.read p₁).type = .void := by
  obtain ⟨hlater', hoid, d, hd, hversion⟩ := Steps.landed h
  have hall := hlater.trans hlater'
  rw [← hoid] at hgone
  rcases hgone with hnone | ⟨d₀, hd₀, hstale⟩
  · obtain ⟨-, hcaps, hentry⟩ := hall.came hnone hd
    rw [h.target, Memory.target]
    split
    · show (s₁.folioObjectCap hop.object hop.index).type = _
      simp [folioObjectCap, hentry, FolioEntry.zero]
    · exact hcaps _
  · obtain ⟨d', hd', -, hversion', -⟩ := hall.kept hd₀
    obtain rfl : d' = d := Option.some.inj (hd'.symm.trans hd)
    exact absurd (hversion'.symm.trans hversion) hstale

/-- Where `vg_cap_to_object` answers NULL, the object is not in memory or of another version. -/
theorem capToObject_none (h : s.capToObject activity p = .ok (s', none))
    (hvoid : (s.read p).type ≠ .void) :
    s'.desc (s.read p).oid = none ∨
      ∃ d, s'.desc (s.read p).oid = some d ∧ d.version ≠ (s.read p).version := by
  simp only [capToObject, if_neg hvoid] at h
  obtain ⟨⟨t, found⟩, hfind, hrest⟩ := bind_eq_ok.1 h
  obtain ⟨-, hin⟩ := objectFind_touches (H := fun _ _ => True) trivial trivial hfind
  simp only [checkVersion] at hrest
  split at hrest
  · next d hd =>
    split at hrest
    · next hstale =>
      obtain ⟨⟩ := pure_eq_ok.1 hrest
      exact .inr ⟨d, by rw [voidCap, write_desc, hd], hstale⟩
    · obtain ⟨_, -, hsome⟩ := bind_eq_ok.1 hrest
      exact absurd (pure_eq_ok.1 hsome) (by simp)
  · next hnot =>
    obtain ⟨rfl, -⟩ := Prod.mk.inj (pure_eq_ok.1 hrest)
    refine .inl ?_
    cases hd : t.desc (s.read p).oid with
    | none => rfl
    | some d =>
      rw [hd, Option.isSome_some] at hin
      exact absurd hd (hnot d hin.symm)

/-- Nothing is behind a capability that has no page within reach. -/
theorem Cleared.of_width (hnot : ¬ IsPage c)
    (h : ∀ w, shootdownWidth c = some w → remaining < c.addrTrans.guardBits + w + pagesizeLog2) :
    Cleared r t c remaining := by
  intro activity addr u t₂ t₃ q p hs _ hsame hwalk hroom _ hpage
  have hnot' : ¬ IsPage (t₂.read q) := by
    rw [IsPage, hsame.type]
    exact hnot
  obtain ⟨hop, hs', s₁, p₁, u₁, -, hstep, -⟩ := exists_first_hop hwalk hpage hnot'
  have hwidth := hstep.width
  have hbits := hstep.bits
  rw [hstep.cap] at hwidth hbits
  have hroom' := h _ (shootdownWidth_of_indexWidth (hsame.indexWidth ▸ hwidth))
  change u = (t₂.read q).addrTrans.guardBits + _ + _ at hbits
  rw [hsame.addrTrans] at hbits
  omega

/-- **Clearing by the next step**: all is cleared behind a capability if it is behind every slot a
hop can lead to. -/
theorem Cleared.of_hop (hnot : ¬ IsPage c)
    (h : ∀ {activity addr u u₁ : ℕ} {s s₁ : Kernel} {q p₁ : CapPtr} {hop : Hop} {next : Cap},
      Later t s → SameTarget (s.read q) c → Steps (memory activity) addr s q u hop s₁ p₁ u₁ →
      CoveredHop r hop next → next = s₁.read p₁ → next.type ≠ .void →
      ∃ c', SameTarget next c' ∧
        Cleared r t c' (remaining - c.addrTrans.guardBits - hop.width)) :
    Cleared r t c remaining := by
  intro activity addr u t₂ t₃ q p hs h₂ hsame hwalk hroom hcov hpage
  have hnot' : ¬ IsPage (t₂.read q) := by
    rw [IsPage, hsame.type]
    exact hnot
  obtain ⟨hop, hs', s₁, p₁, u₁, rfl, hstep, hrest⟩ := exists_first_hop hwalk hpage hnot'
  obtain ⟨hhop, hcov'⟩ := hcov
  rw [nextCap_of_walks hrest] at hhop
  have hnext : (s₁.read p₁).type ≠ .void := by
    intro hvoid
    obtain ⟨-, rfl, rfl, -⟩ := walks_nil_of_indexWidth hrest (indexWidth_of_void hvoid)
    rcases hpage with hpage | hpage <;> simp [hvoid] at hpage
  obtain ⟨c', hsame', hclear⟩ := h h₂ hsame hstep hhop rfl hnext
  have hbits := hstep.bits
  rw [hstep.cap] at hbits
  change u = (t₂.read q).addrTrans.guardBits + _ + _ at hbits
  rw [hsame.addrTrans] at hbits
  have hlater := h₂.trans (Steps.landed hstep).1
  exact hclear hlater hsame' hrest (by omega) hcov' hpage

theorem shootdownExtra_nonneg (c : Cap) (i : ℕ) : 0 ≤ shootdownExtra c i := by
  unfold shootdownExtra
  split <;> omega

section Hops

variable {activity addr u u₁ r width : ℕ} {t s s₁ : Kernel} {q p₁ : CapPtr} {hop : Hop}
  {c next : Cap} {remaining : ℤ}

/-- A hop is as wide as the shootdown takes it to be. -/
theorem hop_width (hwidth : shootdownWidth c = some width) (hsame : SameTarget (s.read q) c)
    (hstep : Steps (memory activity) addr s q u hop s₁ p₁ u₁) : hop.width = width := by
  have hw := hstep.width
  rw [hstep.cap] at hw
  have := shootdownWidth_of_indexWidth (hsame.indexWidth ▸ hw)
  exact Option.some.inj (this.symm.trans hwidth)

/-- A hop through a folio leads to an object that was visited. -/
theorem folio_hop {v : Kernel} (hfolio : c.type = .folio)
    (hwidth : shootdownWidth c = some width) (hlater : Later v s)
    (hin : (v.desc c.oid).isSome = true) (hsame : SameTarget (s.read q) c)
    (hstep : Steps (memory activity) addr s q u hop s₁ p₁ u₁) (hhop : CoveredHop r hop next)
    (heq : next = s₁.read p₁)
    (hdone : ∀ i < folioObjects, followedType ((v.folio c.oid).entry i).type = true →
      c.oid + 1 + i = r ∨
        Cleared r t (v.shootdownCap c.oid i (junk (c.oid + 1 + i))) (remaining - width)) :
    ∃ c', SameTarget next c' ∧ Cleared r t c' (remaining - hop.width) := by
  obtain ⟨hlater', hobj, -⟩ := Steps.landed hstep
  have htype : hop.cap.type = .folio := by
    rw [hstep.cap]
    exact hsame.type.trans hfolio
  have hoid : hop.object = c.oid := hobj.trans hsame.oid
  have hw := hop_width hwidth hsame hstep
  have hw7 : width = 7 := by simpa [shootdownWidth, hfolio, eq_comm] using hwidth
  have hidx : hop.index < folioObjects := by
    rw [hstep.index, hw, hw7]
    exact field_lt ..
  have hentry := (hlater.trans hlater').entry hin
  have hnext : next = s₁.folioObjectCap c.oid hop.index := by
    rw [heq, hstep.target, Memory.target, if_pos htype, ← hoid]
    rfl
  obtain ⟨hne, hfollow⟩ := hhop
  simp only [htype] at hfollow
  have hsame' : SameTarget next
      (v.shootdownCap c.oid hop.index (junk (c.oid + 1 + hop.index))) := by
    rw [hnext]
    constructor <;> simp only [folioObjectCap, shootdownCap, hentry]
  refine ⟨_, hsame', hw ▸ (hdone hop.index hidx ?_).resolve_left fun hr => hne ?_⟩
  · rw [hsame'.type] at hfollow
    exact hfollow
  · rw [hsame'.oid]
    exact hr

/-- A hop through any other object leads to a slot that was visited. -/
theorem slot_hop (hfolio : c.type ≠ .folio) (hwidth : shootdownWidth c = some width)
    (hlater : Later t s) (hsame : SameTarget (s.read q) c)
    (hstep : Steps (memory activity) addr s q u hop s₁ p₁ u₁) (hhop : CoveredHop r hop next)
    (heq : next = s₁.read p₁) (hnext : next.type ≠ .void)
    (hdone : ∀ i < shootdownCount c, SlotDone r c.oid i (remaining - width) t) :
    ∃ c', SameTarget next c' ∧ Cleared r t c' (remaining - hop.width) := by
  obtain ⟨hlater', hobj, -⟩ := Steps.landed hstep
  have htype : hop.cap.type = c.type := by
    rw [hstep.cap]
    exact hsame.type
  have htrans : hop.cap.addrTrans = c.addrTrans := by
    rw [hstep.cap]
    exact hsame.addrTrans
  have hoid : hop.object = c.oid := hobj.trans hsame.oid
  have hw := hop_width hwidth hsame hstep
  obtain ⟨hne, hslot⟩ := hhop
  obtain ⟨i, hi, hread⟩ : ∃ i < shootdownCount c, next = s₁.caps c.oid i := by
    refine ⟨indexBase hop.cap + hop.index, ?_, ?_⟩
    · have hidx : hop.index < 2 ^ width := hw ▸ hstep.index ▸ field_lt ..
      rw [htype, htrans] at hslot
      cases hct : c.type <;> rw [hct] at hslot <;>
        simp only [shootdownWidth, hct, Option.some.injEq, reduceCtorEq] at hwidth <;>
        simp only [indexBase, shootdownCount, htype, hct, htrans]
      case cappage | rcappage =>
        rwa [hslot, Nat.zero_add, AddrTrans.subpageSize, hwidth]
      case folio => exact absurd hct hfolio
      all_goals rwa [Nat.zero_add]
    · rw [heq, hstep.target, Memory.target, if_neg (by rw [htype]; exact hfolio), ← hoid]
      rfl
  obtain ⟨c', hcap, hclear⟩ := hdone i hi
  have hsame' : next = c' := by
    have hstill : t.read (.slot c.oid i) = next := (hlater.trans hlater').read_eq hnext hread.symm
    rcases hcap with hcap | hvoid
    · exact hstill.symm.trans hcap
    · exact absurd ((congrArg Cap.type hstill).symm.trans hvoid) hnext
  refine ⟨c', hsame' ▸ .rfl, hw ▸ hclear.resolve_left fun hr => hne ?_⟩
  rw [hsame', hr]

end Hops

/-- **The recursion clears** what is behind the capability it is called with. -/
theorem shootdownFrom_clears {root : CapPtr} {C : Cap}
    (hC : C.type ≠ .void) (n : ℕ) : Clears root C (shootdownFrom activity root junk n) := by
  induction n with
  | zero => exact fun p r s t h => by simp [shootdownFrom_zero] at h
  | succ n ih =>
    intro p remaining s t h
    have hlater : Later s t := (shootdownFrom_touches (H := fun _ _ => True) (by simp) (by simp)
      (n + 1) p remaining s t (by simp [Allows]) (by simp) h).later
    refine ⟨hlater, fun hroot => ?_⟩
    simp only [shootdownFrom_succ] at h
    split at h
    · next hpage =>
      split at h
      · next hroom =>
        -- a page's guard leaves no room for the offset
        intro activity' addr u t₂ t₃ q p' hs _ hsame hwalk hroom'
        have hnone : indexWidth (t₂.read q) = none := by
          rw [hsame.indexWidth, indexWidth_of_isPage hpage]
        obtain ⟨-, rfl, rfl, hu⟩ := walks_nil_of_indexWidth hwalk hnone
        rw [hsame.addrTrans] at hu
        omega
      · rw [← pure_eq_ok.1 h]
        exact shootdownPage_clears hpage
    next hnot =>
    split at h
    · next hwidth => exact .of_width hnot fun w hw => by simp [hwidth] at hw
    next width hwidth =>
    split at h
    · next hroom =>
      refine .of_width hnot fun w hw => ?_
      obtain rfl : width = w := Option.some.inj (hwidth.symm.trans hw)
      omega
    obtain ⟨⟨u, object⟩, hobj, hrest⟩ := bind_eq_ok.1 h
    have hvoid : (s.read p).type ≠ .void := by
      rintro hv
      simp [shootdownWidth, hv] at hwidth
    cases object with
    | none =>
      obtain rfl := pure_eq_ok.1 hrest
      refine .of_hop hnot fun {_ _ _ _ s₁ _ q _ _ _} h₂ hsame hstep _ heq hnext => ?_
      refine absurd (Steps.dead_end hstep h₂ ?_) (heq ▸ hnext)
      rw [hsame.oid, hsame.version]
      exact capToObject_none hobj hvoid
    | some o =>
      obtain ⟨-, hres⟩ := capToObject_spec hobj
      obtain ⟨rfl, -, d, hd, -, -⟩ := hres o rfl
      simp only at hrest
      split at hrest
      · next hfolio =>
        obtain ⟨hut, hdone⟩ := shootdownFolio_clears hC ih (by simp [hd]) hrest
        refine .of_hop hnot fun {_ _ _ _ s' s₁ q _ _ next} h₂ hsame hstep hhop heq _ => ?_
        exact folio_hop hfolio hwidth (hut.trans h₂) (by simp [hd]) hsame hstep hhop heq
          (hdone hroot)
      · next hfolio =>
        obtain ⟨hut, hdone⟩ := shootdownSlots_clears hC ih (shootdownExtra_nonneg _) hrest
        refine .of_hop hnot fun {_ _ _ _ s' s₁ q _ _ next} h₂ hsame hstep hhop heq hnext => ?_
        exact slot_hop hfolio hwidth h₂ hsame hstep hhop heq hnext (hdone hroot)

/-! ### Completeness -/

/-- **`cap_shootdown` is complete** for what a page fault can map: a page that a lookup finds
afterwards, along hops the shootdown makes too and with room for the page's offset behind the
address, is not mapped. -/
theorem shootdown_complete {s t t' : Kernel} {fuel fuel' activity activity' : ℕ}
    {junk : ℕ → ObjectPolicy} {root : CapPtr} {a : VgAddr} {type : Option CapType}
    {ret : LookupRet CapPtr} (h : s.capShootdown fuel activity junk root = .ok t)
    (hlookup : asLookupRel (memory activity') fuel' root a type .wantObject t = .ok (t', some ret))
    (hpage : IsPage ret.cap) (hroom : a.depth + pagesizeLog2 ≤ vgAddrBits)
    (hguard : ret.cap.addrTrans.guardBits + pagesizeLog2 ≤ vgAddrBits)
    (hcovered : Covered (s.read root).oid ret.hops ret.cap) (d : Desc)
    (hd : t.desc ret.cap.oid = some d) (hversion : d.version = ret.cap.version) :
    d.mapped = false := by
  obtain ⟨⟨u, hwalk, hstop⟩, hcap, -⟩ := asLookupRel_sound hlookup
  change ret.cap = t'.read ret.slot at hcap
  rw [hcap] at hpage hguard hcovered hd hversion
  have hroot : (t.read root).type ≠ .void := by
    intro hvoid
    obtain ⟨-, rfl, hslot, -⟩ := walks_nil_of_indexWidth hwalk (indexWidth_of_void hvoid)
    rw [hslot] at hpage
    rcases hpage with hpage | hpage <;> simp [hvoid] at hpage
  have hlater := (shootdownFrom_clears hroot fuel root vgAddrBits s t h).1
  have hsame : s.read root = t.read root := hlater.read_eq hroot rfl
  have hclear := (shootdownFrom_clears hroot fuel root vgAddrBits s t h).2 rfl
  rw [hsame] at hclear hcovered
  rcases hstop with ⟨-, rfl, hobj⟩ | ⟨-, -, hbits, -⟩
  · -- no bits are left: the capability has no guard, or the address is empty
    rcases hobj rfl with hnil | hzero
    · rw [hnil] at hwalk hcovered
      obtain ⟨rfl, hslot, -⟩ := hwalk.nil_inv
      rw [hslot] at hpage hguard hcovered hd hversion
      exact @hclear activity' a.num _ _ _ _ _ _ (.refl _) .rfl .nil (by omega) hcovered hpage d hd
        hversion
    · rw [hcap] at hzero
      rw [← hzero] at hwalk
      exact hclear (.refl t) .rfl hwalk (by omega) hcovered hpage d hd hversion
  · rw [hcap] at hbits
    rw [hbits] at hwalk
    exact hclear (.refl t) .rfl hwalk (by omega) hcovered hpage d hd hversion

/-- A cappage (object 2) with a mapped page (object 3) in its first slot. -/
def mappedPage : Kernel :=
  (ofTypes [.activityControl, .cappage, .page]
    (fun o i => if o = 2 ∧ i = 0 then ⟨0, false, 0, .void, .page, 3⟩ else .void) 0).modifyDesc 3
    fun d => { d with mapped := true }

/-- A capability to the first two slots of that cappage. -/
def firstSlots : CapPtr := .stack ⟨0, false, 0, ⟨0, 7, 0⟩, .cappage, 2⟩

/-- The address of its first slot. -/
def firstAddr : VgAddr := .ofNum 1 0 (by decide) (by decide)

/-- The state after the shootdown. -/
def unmappedPage : Kernel :=
  match mappedPage.capShootdown 3 1 (fun _ => .default) firstSlots with
  | .ok t => t
  | .error _ => mappedPage

/-- What the lookup finds there. -/
def firstRet : LookupRet CapPtr :=
  ⟨.slot 2 0, ⟨0, false, 0, .void, .page, 3⟩, true,
    [⟨⟨0, false, 0, ⟨0, 7, 0⟩, .cappage, 2⟩, 2, 1, 0⟩], false⟩

theorem shootdown_complete_mappedPage :
    mappedPage.capShootdown 3 1 (fun _ => .default) firstSlots = .ok unmappedPage ∧
      asLookupRel (memory 1) 3 firstSlots firstAddr none .wantObject unmappedPage =
        .ok (unmappedPage, some firstRet) ∧
      (mappedPage.desc 3).map Desc.mapped = some true ∧
      ∀ d, unmappedPage.desc 3 = some d → d.version = 0 → d.mapped = false := by
  have hrun : mappedPage.capShootdown 3 1 (fun _ => .default) firstSlots = .ok unmappedPage := by
    rfl
  have hlookup : asLookupRel (memory 1) 3 firstSlots firstAddr none .wantObject unmappedPage =
      .ok (unmappedPage, some firstRet) := by
    rfl
  refine ⟨hrun, hlookup, by rfl, ?_⟩
  exact shootdown_complete hrun hlookup (.inl rfl) (by decide) (by decide)
    ⟨⟨by decide, by decide⟩, trivial⟩

/-- A mapped page (object 2), to be reached through a capability with a guard of 52 zero bits. -/
def farPage : Kernel :=
  (ofTypes [.activityControl, .page] (fun _ _ => .void) 0).modifyDesc 2
    fun d => { d with mapped := true }

/-- That capability. -/
def farCap : Cap := ⟨0, false, 0, ⟨0, 0, 52⟩, .page, 2⟩

/-- Behind 52 bits there is no room for a page's offset: the lookup finds the page, but the
shootdown passes it over and it stays mapped. -/
theorem farPage_stays_mapped :
    farPage.capShootdown 2 1 (fun _ => .default) (.stack farCap) = .ok farPage ∧
      asLookupRel (memory 1) 2 (.stack farCap) (.ofNum 52 0 (by decide) (by decide)) none
        .wantObject farPage = .ok (farPage, some ⟨.stack farCap, farCap, true, [], true⟩) ∧
      (farPage.desc 2).map Desc.mapped = some true := by
  exact ⟨by rfl, by rfl, by rfl⟩

end Kernel

end Viengoos
