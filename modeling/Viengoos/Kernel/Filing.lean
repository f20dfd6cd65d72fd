import Viengoos.Kernel.CapLists
import Viengoos.Kernel.Tree
import Viengoos.Kernel.Versions
import Viengoos.Lib.Hierarchy

/-!
# Who owns which folio

Each folio in memory names its owner by a capability, and each activity has its folios, and its
children, on lists of capabilities. `Filed` says that all of this agrees: the lists have exactly
the folios that name their owner and exactly the children, and each activity's `folio_count` is the
number of folios that it and its descendants own. Between the charge for a folio and its entry in
the list, the counts are ahead by what is **due**; between `activity_destroy` and the freeing of its
memory, an activity is **retired**: it owns nothing, and is on no list.

Lookups keep this (`InFile.keeps`). What frees a folio or an activity, or allocates a folio, has one
rule each.
-/

namespace Viengoos

open Outcome DoublyLinked Hierarchy Function Option List Finset

namespace Kernel

/-- A folio in memory belongs to an activity. -/
def Owns (s : Kernel) (a f : ℕ) : Prop :=
  (s.desc f).map Desc.type = some .folio ∧ (s.read (.folioActivity f)).target = some a

/-- What the files are held to: the activities whose quotas may have been lowered are not held to
their quotas, and the counts of activities without a parent may be wrong from the start. -/
structure Terms where
  lowered : Set ℕ
  error : ℕ → ℤ

/-- **The files are in order**, for the activities `T` with folios `L` and children `C`, but for a
retired activity and counts that are due, on the terms `Q`. -/
structure Filed (Q : Terms) (R : Option ℕ) (due : ℕ → ℤ) (T : Finset ℕ) (L C : ℕ → List ℕ)
    (s : Kernel) : Prop where
  tree : Tree T s
  folios : Chained .folios T L s
  children : Chained .children T C s
  typed : ∀ f, isFolioOid f = true → (s.desc f).isSome = true →
    (s.desc f).map Desc.type = some .folio
  owned : ∀ a f, s.Owns a f → a ∈ T ∧ s.Fresh (s.read (.folioActivity f)) ∧
    isFolioOid f = true ∧ s.allocated (f / (folioObjects + 1)) = true
  listed : ∀ a ∈ T, ∀ f, f ∈ L a ↔ s.Owns a f
  child : ∀ a ∈ T, ∀ b, b ∈ C a ↔ b ∈ T ∧ R ≠ some b ∧ (s.activity b).ancestors.head? = some a
  retired : ∀ r, R = some r → L r = [] ∧ ∀ b ∈ T, r ∈ s.lineage b → b = r
  charged : ∀ a, due a ≠ 0 → a ∈ T
  counts : Balanced T s.lineage (fun b => ((L b).length : ℤ))
    fun a => (s.activity a).folioCount - due a - Q.error a
  quota : ∀ a ∈ T, a ∉ Q.lowered → (s.activity a).quota ≠ 0 →
    (s.activity a).folioCount ≤ (s.activity a).quota
  rooted : ∀ a, Q.error a ≠ 0 → a ∈ T ∧ R ≠ some a ∧ (s.activity a).ancestors = []

/-- The files are in order, for some lists. -/
def InFile (Q : Terms) (R : Option ℕ) (due : ℕ → ℤ) (s : Kernel) : Prop :=
  ∃ T L C, Filed Q R due T L C s

namespace Filed

variable {Q : Terms} {R : Option ℕ} {due : ℕ → ℤ} {T : Finset ℕ} {L C : ℕ → List ℕ}
  {s t : Kernel} {a f o : ℕ}

/-- The capability by which a folio names its owner is fresh, or void. -/
theorem fresh_owner (h : Filed Q R due T L C s) (hf : (s.desc f).map Desc.type = some .folio) :
    s.Fresh (s.read (.folioActivity f)) := by
  cases ht : (s.read (.folioActivity f)).target with
  | none =>
    refine .inl (by_contra fun hvoid => ?_)
    simp [Cap.target, hvoid] at ht
  | some a => exact (h.owned a f ⟨hf, ht⟩).2.1

theorem desc_type {s t : Kernel} (hdesc : (t.desc o).map Desc.record = (s.desc o).map Desc.record) :
    (t.desc o).map Desc.type = (s.desc o).map Desc.type := by
  have h := congrArg (Option.map Prod.fst) hdesc
  rw [Option.map_map, Option.map_map] at h
  exact h

section

variable (h : Filed Q R due T L C s)
  (hdesc : ∀ o, (t.desc o).map Desc.record = (s.desc o).map Desc.record)
  (hread : ∀ p, s.Fresh (s.read p) → t.read p = s.read p)

include h hdesc hread

/-- What leaves types, versions, ancestors and every fresh capability leaves the files, with other
counts and other quotas if they fit. -/
theorem recount {due' : ℕ → ℤ}
    (hancestors : ∀ a, (t.activity a).ancestors = (s.activity a).ancestors)
    (hallocated : ∀ n, s.allocated n = true → t.allocated n = true)
    (hcharged : ∀ a, due' a ≠ 0 → a ∈ T)
    (hcount : ∀ a, (t.activity a).folioCount - due' a = (s.activity a).folioCount - due a)
    (hquota : ∀ a ∈ T, a ∉ Q.lowered → (t.activity a).quota ≠ 0 →
      (t.activity a).folioCount ≤ (t.activity a).quota) :
    Filed Q R due' T L C t := by
  have hlineage : t.lineage = s.lineage := funext fun a => by rw [lineage, lineage, hancestors a]
  have howns : ∀ a f, t.Owns a f ↔ s.Owns a f := fun a f => by
    rw [Owns, Owns, desc_type (hdesc f)]
    refine and_congr_right fun hf => ?_
    rw [hread _ (h.fresh_owner hf)]
  refine ⟨?_, ?_, ?_, ?_, ?_, ?_, ?_, ?_, hcharged, ?_, hquota, fun a ha => ?_⟩
  · refine h.tree.congr (fun a => ?_) fun a _ => hancestors a
    rw [Live, Live, desc_type (hdesc a)]
  · exact h.folios.congr (fun p hp => hread p (h.folios.fresh p hp)) fun o _ => hdesc o
  · exact h.children.congr (fun p hp => hread p (h.children.fresh p hp)) fun o _ => hdesc o
  · intro f hf hsome
    rw [desc_type (hdesc f)]
    refine h.typed f hf ?_
    rwa [← isSome_map (f := Desc.record), hdesc, isSome_map] at hsome
  · intro a f hown
    obtain ⟨ha, hfresh, hfolio, halloc⟩ := h.owned a f ((howns a f).1 hown)
    refine ⟨ha, ?_, hfolio, hallocated _ halloc⟩
    rw [hread _ hfresh]
    exact hfresh.congr fun o _ => hdesc o
  · exact fun a ha f => (h.listed a ha f).trans (howns a f).symm
  · intro a ha b
    rw [hancestors b]
    exact h.child a ha b
  · rw [hlineage]
    exact h.retired
  · exact h.counts.congr (fun b _ => by rw [hlineage]) (fun _ _ => rfl) fun a _ => by rw [hcount a]
  · rw [hancestors a]
    exact h.rooted a ha

/-- What leaves types, versions, accounts and every fresh capability leaves the files. -/
theorem congr (haccount : ∀ a, (t.activity a).account = (s.activity a).account)
    (hallocated : ∀ n, s.allocated n = true → t.allocated n = true) : Filed Q R due T L C t := by
  simp only [Activity.account, Prod.mk.injEq] at haccount
  refine h.recount hdesc hread (fun a => (haccount a).1) hallocated h.charged
    (fun a => by rw [(haccount a).2.1]) fun a ha => ?_
  rw [(haccount a).2.1, (haccount a).2.2.1]
  exact h.quota a ha

end

theorem noted (h : Filed Q R due T L C s) (hnoted : Noted s t) : Filed Q R due T L C t :=
  h.congr hnoted.desc (fun p _ => hnoted.read p) hnoted.account fun n hn => by
    rwa [hnoted.allocated]

/-- Voiding a **stale** capability does not concern the files. -/
theorem voided (h : Filed Q R due T L C s) {s₀ : Kernel} {d : Desc} (p : CapPtr)
    (hlater : Later s₀ s) (hd : s.desc (s₀.read p).oid = some d)
    (hstale : d.version ≠ (s₀.read p).version) : Filed Q R due T L C (s.voidCap p) := by
  have hkept := Kept.voidCap s p
  refine h.congr hkept.desc (fun q hfresh => ?_) (write_account s p _) fun n hn => by
    rwa [voidCap, write_allocated]
  by_cases hqp : q = p
  · subst hqp
    -- a fresh capability is not stale, so it was void before
    have hvoid : (s.read q).type = .void := by
      rcases hlater.read q with heq | hvoid
      · rcases hfresh with hvoid | ⟨d', hd', hversion, -⟩
        · exact hvoid
        · rw [← heq] at hd hstale
          exact absurd hversion (Option.some.inj (hd'.symm.trans hd) ▸ hstale)
      · exact hvoid
    rcases read_write s q q { s.read q with type := .void } with heq | heq
    · exact heq
    · refine heq.trans ?_
      rw [← hvoid]
  · exact s.read_write_of_ne hqp _

end Filed

/-! ### An object comes into memory -/

/-- An object **arrives** in memory, zeroed. -/
structure Arrives (s t : Kernel) (o : ℕ) : Prop where
  before : s.desc o = none
  after : (t.desc o).isSome = true
  folio : isFolioOid o = true → (t.desc o).map Desc.type = some .folio
  desc : ∀ x ≠ o, t.desc x = s.desc x
  read : ∀ p x, p.holder = some x → t.read p = if x = o then .void else s.read p
  account : ∀ x, (t.activity x).account =
    if x = o then ([], 0, 0, false) else (s.activity x).account
  allocated : t.allocated = s.allocated

variable {activity b o v x : ℕ}

theorem memoryObjectAlloc_arrives {s t : Kernel} {type : CapType}
    {version : Fin (2 ^ 20)} {policy : ObjectPolicy}
    (hok : s.memoryObjectAlloc activity type o version policy = .ok t) : Arrives s t o := by
  obtain ⟨-, htype, -, hnone, u, hu, rfl⟩ := memoryObjectAlloc_spec hok
  refine ⟨hnone, by simp, fun hfolio => ?_, fun x hx => ?_, fun p x hp => ?_, fun x => ?_,
    hu.allocated⟩
  · rw [hfolio, beq_iff_eq] at htype
    simp [pagedDesc, Desc.fresh, htype]
  · rw [setDesc_desc_of_ne _ _ hx, hu.desc]
    rfl
  · rw [setDesc_read, hu.read]
    split
    · next hx =>
      cases p <;> simp_all [CapPtr.holder, Kernel.read, framed, zeroObject, Folio.zero,
        Activity.zero]
    · next hx => exact Later.read_framed_of_holder s hp hx
  · refine (hu.account x).trans ?_
    split
    · next hx => simp [hx, framed, zeroObject, Activity.account, Activity.zero]
    · next hx => simp [hx, framed, zeroObject]

namespace Arrives

variable {Q : Terms} {R : Option ℕ} {due : ℕ → ℤ} {T : Finset ℕ} {L C : ℕ → List ℕ}
  {s t : Kernel} {o : ℕ}

section

variable (h : Arrives s t o)

include h

theorem ne (hx : (s.desc x).isSome = true) : x ≠ o := by
  rintro rfl
  simp [h.before] at hx

theorem chained {F : CapList} (hF : Chained F T L s) : Chained F T L t := by
  have hT : ∀ {b}, b ∈ T → b ≠ o := fun hb => h.ne (hF.resident _ hb).1
  have hL : ∀ {b x}, b ∈ T → x ∈ L b → x ≠ o := fun hb hx => h.ne ((hF.resident _ hb).2 _ hx)
  refine hF.congr ?_ ?_
  · rintro p ⟨b, hb, rfl | ⟨x, hx, rfl | rfl⟩⟩
    · rw [h.read _ b (F.head_holder b), if_neg (hT hb)]
    · rw [h.read _ x (F.next_holder x), if_neg (hL hb hx)]
    · rw [h.read _ x (F.prev_holder x), if_neg (hL hb hx)]
  · rintro x (hx | ⟨b, hb, hx⟩)
    · rw [h.desc x (hT hx)]
    · rw [h.desc x (hL hb hx)]

theorem owns (a f : ℕ) : t.Owns a f ↔ s.Owns a f := by
  rw [Owns, Owns]
  by_cases hf : f = o
  · subst hf
    simp [h.before, h.read (.folioActivity f) f rfl, Cap.target]
  · rw [h.desc f hf, h.read _ f rfl, if_neg hf]

theorem live (hx : x ≠ o) : t.Live x ↔ s.Live x := by
  rw [Live, Live, h.desc x hx]

theorem account_of_ne (hx : x ≠ o) :
    (t.activity x).ancestors = (s.activity x).ancestors ∧
      (t.activity x).folioCount = (s.activity x).folioCount ∧
      (t.activity x).quota = (s.activity x).quota ∧
      (t.activity x).dying = (s.activity x).dying := by
  have haccount := h.account x
  rw [if_neg hx] at haccount
  simpa only [Activity.account, Prod.mk.injEq] using haccount

theorem account_self :
    (t.activity o).ancestors = [] ∧ (t.activity o).folioCount = 0 ∧ (t.activity o).quota = 0 := by
  have haccount := h.account o
  rw [if_pos rfl] at haccount
  simp only [Activity.account, Prod.mk.injEq] at haccount
  exact ⟨haccount.1, haccount.2.1, haccount.2.2.1⟩

end

end Arrives

namespace Filed

variable {Q : Terms} {R : Option ℕ} {due : ℕ → ℤ} {T : Finset ℕ} {L C : ℕ → List ℕ}
  {s t : Kernel} {a f o : ℕ}

theorem mem_ne (h : Filed Q R due T L C s) (ho : s.desc o = none) (hb : b ∈ T) : b ≠ o := by
  rintro rfl
  have hsome := (h.folios.resident b hb).1
  simp [ho] at hsome

section

variable (h : Filed Q R due T L C s) (ho : Arrives s t o)
include h ho

/-- What an arrival leaves of the files, whatever has arrived. -/
theorem arrived :
    (∀ f, isFolioOid f = true → (t.desc f).isSome = true →
        (t.desc f).map Desc.type = some .folio) ∧
      (∀ a f, t.Owns a f → a ∈ T ∧ t.Fresh (t.read (.folioActivity f)) ∧
        isFolioOid f = true ∧ t.allocated (f / (folioObjects + 1)) = true) ∧
      (∀ b ∈ T, t.lineage b = s.lineage b) ∧
      Balanced T t.lineage (fun b => ((L b).length : ℤ))
        (fun a => (t.activity a).folioCount - due a - Q.error a) ∧
      (∀ a ∈ T, a ∉ Q.lowered → (t.activity a).quota ≠ 0 →
        (t.activity a).folioCount ≤ (t.activity a).quota) ∧
      ∀ a, Q.error a ≠ 0 → a ∈ T ∧ R ≠ some a ∧ (t.activity a).ancestors = [] := by
  have hT : ∀ {b}, b ∈ T → b ≠ o := h.mem_ne ho.before
  have hlineage : ∀ b ∈ T, t.lineage b = s.lineage b := fun b hb => by
    rw [lineage, lineage, (ho.account_of_ne (hT hb)).1]
  refine ⟨fun f hf hsome => ?_, fun a f hown => ?_, hlineage, ?_, fun a ha => ?_, fun a ha => ?_⟩
  · by_cases hfo : f = o
    · subst hfo
      exact ho.folio hf
    · rw [ho.desc f hfo] at hsome ⊢
      exact h.typed f hf hsome
  · have hown := (ho.owns a f).1 hown
    obtain ⟨ha, hfresh, hf, halloc⟩ := h.owned a f hown
    have hfo : f ≠ o := fun hfo => by
      have hdesc := hown.1
      simp [hfo, ho.before] at hdesc
    rw [ho.allocated, ho.read _ f rfl, if_neg hfo]
    refine ⟨ha, hfresh.congr fun x hx => ?_, hf, halloc⟩
    obtain rfl : a = x := Option.some.inj (hown.2.symm.trans hx)
    rw [ho.desc a (hT ha)]
  · exact h.counts.congr hlineage (fun _ _ => rfl) fun b hb => by
      rw [(ho.account_of_ne (hT hb)).2.1]
  · obtain ⟨-, hcount, hquota, -⟩ := ho.account_of_ne (hT ha)
    rw [hcount, hquota]
    exact h.quota a ha
  · obtain ⟨haT, hR, hroot⟩ := h.rooted a ha
    exact ⟨haT, hR, (ho.account_of_ne (hT haT)).1.trans hroot⟩

/-- What arrives is not an activity: the files stay as they are. -/
theorem arrived_other (hlive : ¬ t.Live o) :
    Filed Q R due T L C t := by
  obtain ⟨htyped, howned, hlineage, hcounts, hquota, hrooted⟩ := h.arrived ho
  have hT : ∀ {b}, b ∈ T → b ≠ o := h.mem_ne ho.before
  refine ⟨?_, ho.chained h.folios, ho.chained h.children, htyped, howned, ?_, ?_, ?_, h.charged,
    hcounts, hquota, hrooted⟩
  · refine h.tree.congr (fun x => ?_) fun b hb => (ho.account_of_ne (hT hb)).1
    by_cases hx : x = o
    · subst hx
      exact iff_of_false hlive (by simp [Live, ho.before])
    · exact ho.live hx
  · exact fun a ha f => (h.listed a ha f).trans (ho.owns a f).symm
  · intro a ha b
    rw [h.child a ha b]
    refine and_congr_right fun hb => ?_
    rw [(ho.account_of_ne (hT hb)).1]
  · intro r hr
    obtain ⟨hL, hleaf⟩ := h.retired r hr
    exact ⟨hL, fun b hb hrb => hleaf b hb (hlineage b hb ▸ hrb)⟩

/-- An activity arrives: it has no folios and no children, and counts nothing. -/
theorem arrived_activity (hlive : t.Live o) :
    Filed Q R due (insert o T) (update L o []) (update C o []) t := by
  obtain ⟨htyped, howned, hlineage, hcounts, hquota, hrooted⟩ := h.arrived ho
  obtain ⟨hancestors, hcount, hquota'⟩ := ho.account_self
  have hT : ∀ {b}, b ∈ T → b ≠ o := h.mem_ne ho.before
  have hoT : o ∉ T := fun hoT => hT hoT rfl
  have hold : ∀ {K : ℕ → List ℕ}, ∀ b ∈ T, update K o [] b = K b := fun b hb =>
    update_of_ne (hT hb) ..
  have hvoid : ∀ {p : CapPtr}, p.holder = some o → (t.read p).type = .void := fun hp => by
    rw [ho.read _ o hp, if_pos rfl, Cap.void_type]
  refine ⟨?_, ?_, ?_, htyped, ?_, ?_, ?_, ?_, ?_, ?_, ?_, fun a ha => ?_⟩
  · exact h.tree.joined hlive hancestors (fun x hx => ho.live hx) fun b hb =>
      (ho.account_of_ne (hT hb)).1
  · exact (ho.chained h.folios).joined hoT (hvoid rfl) ho.after
  · exact (ho.chained h.children).joined hoT (hvoid rfl) ho.after
  · intro a f hown
    obtain ⟨ha, hrest⟩ := howned a f hown
    exact ⟨mem_insert_of_mem ha, hrest⟩
  · intro a ha f
    rcases mem_insert.1 ha with rfl | ha
    · rw [update_self]
      exact iff_of_false (by simp) fun hown => hoT (howned a f hown).1
    · rw [hold a ha, ho.owns]
      exact h.listed a ha f
  · intro a ha b
    have hb : b ∈ insert o T ∧ R ≠ some b ∧ (t.activity b).ancestors.head? = some a ↔
        b ∈ T ∧ R ≠ some b ∧ (s.activity b).ancestors.head? = some a := by
      by_cases hbo : b = o
      · simp [hbo, hancestors, hoT]
      · rw [mem_insert, or_iff_right hbo, (ho.account_of_ne hbo).1]
    rw [hb]
    rcases mem_insert.1 ha with rfl | ha
    · rw [update_self]
      refine iff_of_false (by simp) ?_
      rintro ⟨hbT, -, hparent⟩
      have hmem : a ∈ s.lineage b := mem_cons_of_mem b (mem_of_head? hparent)
      exact hoT (h.tree.above b hbT a hmem)
    · rw [hold a ha]
      exact h.child a ha b
  · intro r hr
    obtain ⟨hL, hleaf⟩ := h.retired r hr
    refine ⟨?_, fun b hb hrb => ?_⟩
    · by_cases hro : r = o
      · rw [hro, update_self]
      · rw [update_of_ne hro, hL]
    · rcases mem_insert.1 hb with rfl | hb
      · have hrb : r = b := by simpa [lineage, hancestors] using hrb
        exact hrb.symm
      · rw [hlineage b hb] at hrb
        exact hleaf b hb hrb
  · exact fun a ha => mem_insert_of_mem (h.charged a ha)
  · have hdue : due o = 0 := by_contra fun hdue => hoT (h.charged o hdue)
    have herror : Q.error o = 0 := by_contra fun herror => hoT (h.rooted o herror).1
    refine Balanced.insert (hcounts.congr (fun _ _ => rfl) (fun b hb => ?_) fun _ _ => rfl) ?_ ?_
      ?_ ?_
    · rw [hold b hb]
    · rw [lineage, hancestors]
    · intro b hb hob
      rw [hlineage b hb] at hob
      exact hoT (h.tree.above b hb o hob)
    · simp
    · rw [hcount, hdue, herror, sub_zero, sub_zero]
  · intro a ha
    rcases mem_insert.1 ha with rfl | ha
    · exact fun _ hq => absurd hquota' hq
    · exact hquota a ha
  · obtain ⟨haT, hrest⟩ := hrooted a ha
    exact ⟨mem_insert_of_mem haT, hrest⟩

end

end Filed

/-! ### An object goes out of memory -/

/-- An object **departs** from memory. -/
structure Departs (s t : Kernel) (o : ℕ) : Prop where
  self : t.desc o = none
  desc : ∀ x ≠ o, (t.desc x).map Desc.record = (s.desc x).map Desc.record
  read : ∀ p, t.read p = s.read p
  account : ∀ a, (t.activity a).account = (s.activity a).account
  allocated : t.allocated = s.allocated

variable {Q : Terms} {T : Finset ℕ} {L C : ℕ → List ℕ} {s t : Kernel} {f owner : ℕ}

/-- What is owned afterwards is what was, without the object. -/
theorem Departs.owns_iff (ho : Departs s t o) {a : ℕ} : t.Owns a f ↔ f ≠ o ∧ s.Owns a f := by
  rcases eq_or_ne f o with rfl | hfo
  · simp [Owns, ho.self]
  · rw [Owns, Filed.desc_type (ho.desc f hfo), ho.read, and_iff_right hfo, Owns]

/-- The children that are left are those that were filed, for the object is not among them or is
retired. -/
theorem Filed.child_departed {R : Option ℕ} (h : Filed Q R 0 T L C s) (ho : Departs s t o)
    (hR : R = some o ∨ R = none ∧ ¬ s.Live o) {a : ℕ} (ha : a ∈ T) (b : ℕ) :
    b ∈ C a ↔ b ∈ T.erase o ∧ none ≠ some b ∧ (t.activity b).ancestors.head? = some a := by
  have haccount := ho.account
  simp only [Activity.account, Prod.mk.injEq] at haccount
  rw [h.child a ha b, mem_erase, (haccount b).1]
  rcases hR with rfl | ⟨rfl, hlive⟩
  · simp only [ne_eq, Option.some.injEq, reduceCtorEq, not_false_eq_true, true_and]
    rw [and_left_comm, and_assoc, eq_comm (a := o)]
  · have hb : b ∈ T → b ≠ o := fun hb hbo => hlive (hbo ▸ (h.tree.live b).1 hb)
    refine and_congr_left' ?_
    exact ⟨fun hbT => ⟨hb hbT, hbT⟩, And.right⟩

/-- An object goes that is not a folio, and not an activity unless it is retired. -/
theorem Filed.departed {R : Option ℕ} (h : Filed Q R 0 T L C s) (ho : Departs s t o)
    (hfolio : isFolioOid o = false) (hR : R = some o ∨ R = none ∧ ¬ s.Live o) :
    Filed Q none 0 (T.erase o) L C t := by
  have haccount := ho.account
  simp only [Activity.account, Prod.mk.injEq] at haccount
  have hlineage : t.lineage = s.lineage := funext fun a => by rw [lineage, lineage, (haccount a).1]
  have hlive : ∀ x ≠ o, (t.Live x ↔ s.Live x) := fun x hx => by
    rw [Live, Live, desc_type (ho.desc x hx)]
  -- the object is not on any list, and has none
  have hL : ∀ a ∈ T, o ∉ L a := fun a ha hoa => by
    have hoid := (h.owned a o ((h.listed a ha o).1 hoa)).2.2.1
    simp [hfolio] at hoid
  have hempty : o ∈ T → L o = [] := fun hoT => by
    rcases hR with hR | ⟨-, hlive⟩
    · exact (h.retired o hR).1
    · exact absurd ((h.tree.live o).1 hoT) hlive
  have hleaf : ∀ b ∈ T, o ∈ s.lineage b → b = o := fun b hb hob => by
    rcases hR with hR | ⟨-, hlive⟩
    · exact (h.retired o hR).2 b hb hob
    · exact absurd ((h.tree.live o).1 (h.tree.above b hb o hob)) hlive
  have hT : ∀ {a}, a ∈ T.erase o → a ∈ T := fun ha => mem_of_mem_erase ha
  have howner : ∀ {a f}, s.Owns a f → a ∈ T.erase o := fun {a f} hown => by
    have haT := (h.owned a f hown).1
    refine mem_erase.2 ⟨fun hao => ?_, haT⟩
    have hf := (h.listed a haT f).2 hown
    rw [hao, hempty (hao ▸ haT)] at hf
    simp at hf
  refine ⟨?_, ?_, ?_, ?_, ?_, ?_, fun a ha => h.child_departed ho hR (hT ha), by simp,
    fun a ha => absurd rfl ha, ?_, ?_, fun a ha => ?_⟩
  · exact h.tree.left (by simp [Live, ho.self]) hleaf hlive fun a => (haccount a).1
  · refine (h.folios.mono (T.erase_subset o)).congr (fun p _ => ho.read p) ?_
    rintro x (hx | ⟨a, ha, hx⟩)
    · exact ho.desc x (ne_of_mem_erase hx)
    · exact ho.desc x fun hxo => hL a (hT ha) (hxo ▸ hx)
  · refine (h.children.mono (T.erase_subset o)).congr (fun p _ => ho.read p) ?_
    rintro x (hx | ⟨a, ha, hx⟩)
    · exact ho.desc x (ne_of_mem_erase hx)
    · exact ho.desc x (ne_of_mem_erase ((h.child_departed ho hR (hT ha) x).1 hx).1)
  · intro f hf hsome
    have hfo : f ≠ o := fun hfo => by simp [hfo, ho.self] at hsome
    rw [desc_type (ho.desc f hfo)]
    refine h.typed f hf ?_
    rwa [← isSome_map (f := Desc.record), ho.desc f hfo, isSome_map] at hsome
  · intro a f hown
    obtain ⟨-, hown⟩ := ho.owns_iff.1 hown
    obtain ⟨-, hfresh, hrest⟩ := h.owned a f hown
    have haT := howner hown
    rw [ho.read, ho.allocated]
    refine ⟨haT, hfresh.congr fun x hx => ho.desc x ?_, hrest⟩
    obtain rfl : a = x := Option.some.inj (hown.2.symm.trans hx)
    exact ne_of_mem_erase haT
  · intro a ha f
    rw [ho.owns_iff, ← h.listed a (hT ha) f, iff_and_self]
    exact fun hf hfo => hL a (hT ha) (hfo ▸ hf)
  · have hcounts : Balanced (T.erase o) s.lineage (fun b => ((L b).length : ℤ))
        fun a => (s.activity a).folioCount - (0 : ℕ → ℤ) a - Q.error a := by
      by_cases hoT : o ∈ T
      · exact h.counts.erase (by simp [hempty hoT])
      · rw [erase_eq_of_notMem hoT]
        exact h.counts
    refine hcounts.congr (fun b _ => by rw [hlineage]) (fun _ _ => rfl) fun a _ => ?_
    rw [(haccount a).2.1]
  · intro a ha
    rw [(haccount a).2.1, (haccount a).2.2.1]
    exact h.quota a (hT ha)
  · obtain ⟨haT, hne, hroot⟩ := h.rooted a ha
    refine ⟨mem_erase.2 ⟨?_, haT⟩, by simp, (haccount a).1.trans hroot⟩
    rintro rfl
    rcases hR with hR | ⟨-, hlive⟩
    · exact hne hR
    · exact hlive ((h.tree.live a).1 haT)

/-! ### An activity retires -/

/-- An activity without children has nothing below it. -/
theorem Tree.leaf (h : Tree T s)
    (hchildless : ∀ b ∈ T, (s.activity b).ancestors.head? ≠ some v) (hb : b ∈ T)
    (hv : v ∈ s.lineage b) : b = v := by
  -- by induction up the chain: the element below `v` would be a child of it
  induction hn : (s.activity b).ancestors generalizing b with
  | nil => simpa [lineage, hn, eq_comm] using hv
  | cons p rest ih =>
    obtain ⟨hup, hp, -⟩ := h.lineage_eq hb hn
    rw [hup] at hv
    rcases mem_cons.1 hv with hvb | hvp
    · exact hvb.symm
    · obtain rfl := ih hp hvp (h.parent b hb p rest hn).symm
      exact absurd (by rw [hn]; rfl) (hchildless b hb)

theorem folios_apart_children {q : CapPtr}
    (hq : q = .activityFolios x ∨ q = .folioNext x ∨ q = .folioPrev x ∨ q = .folioActivity x) :
    CapList.children.Apart q := by
  intro y
  rcases hq with rfl | rfl | rfl | rfl <;> exact ⟨nofun, nofun, nofun⟩

/-- An activity that owns nothing and has no children leaves its parent's list. -/
theorem Filed.retire {p : ℕ} {rest : List ℕ} (h : Filed Q none 0 T L C s) (hv : v ∈ T)
    (hchain : (s.activity v).ancestors = p :: rest) (hL : L v = []) (hC : C v = []) :
    Filed Q (some v) 0 T L (update C p ((C p).erase v))
      (CapList.children.unlinked s p v (s.read (.activitySiblingPrev v)).target
        (s.read (.activitySiblingNext v)).target) := by
  obtain ⟨-, hp, hvp⟩ := h.tree.lineage_eq hv hchain
  have hchild : v ∈ C p := (h.child p hp v).2 ⟨hv, by simp, by rw [hchain]; rfl⟩
  set t := CapList.children.unlinked s p v (s.read (.activitySiblingPrev v)).target
    (s.read (.activitySiblingNext v)).target with ht
  have hread : ∀ {q x}, (q = .activityFolios x ∨ q = .folioNext x ∨ q = .folioPrev x ∨
      q = .folioActivity x) → t.read q = s.read q := fun hq =>
    CapList.children.read_unlinked_of_apart s p v _ _ (folios_apart_children hq)
  have hdesc : t.desc = s.desc := CapList.children.unlinked_desc ..
  have haccount := CapList.children.unlinked_account s p v (s.read (.activitySiblingPrev v)).target
    (s.read (.activitySiblingNext v)).target
  simp only [← ht, Activity.account, Prod.mk.injEq] at haccount
  have hlineage : t.lineage = s.lineage := funext fun a => by rw [lineage, lineage, (haccount a).1]
  have howns : ∀ a f, t.Owns a f ↔ s.Owns a f := fun a f => by
    rw [Owns, Owns, hdesc, hread (.inr (.inr (.inr rfl)))]
  refine ⟨?_, ?_, h.children.unlink hp hchild, ?_, ?_, ?_, ?_, ?_, fun a ha => absurd rfl ha, ?_,
    ?_, fun a ha => ?_⟩
  · exact h.tree.congr (fun a => by rw [Live, Live, hdesc]) fun a _ => (haccount a).1
  · refine h.folios.congr ?_ fun o _ => by rw [hdesc]
    rintro q ⟨a, -, hq | ⟨x, -, hq | hq⟩⟩
    · exact hread (.inl hq)
    · exact hread (.inr (.inl hq))
    · exact hread (.inr (.inr (.inl hq)))
  · rw [hdesc]
    exact h.typed
  · intro a f hown
    obtain ⟨ha, hfresh, hrest⟩ := h.owned a f ((howns a f).1 hown)
    rw [hread (.inr (.inr (.inr rfl))), CapList.children.unlinked_allocated]
    exact ⟨ha, hfresh.congr fun o _ => by rw [hdesc], hrest⟩
  · exact fun a ha f => (h.listed a ha f).trans (howns a f).symm
  · intro a ha b
    rw [(haccount b).1]
    by_cases hap : a = p
    · subst hap
      rw [update_self, (h.children.nodup a ha).mem_erase_iff, h.child a ha b]
      simp only [ne_eq, Option.some.injEq, reduceCtorEq, not_false_eq_true, true_and]
      rw [and_left_comm, eq_comm (a := b)]
    · rw [update_of_ne hap, h.child a ha b]
      simp only [ne_eq, Option.some.injEq, reduceCtorEq, not_false_eq_true, true_and]
      refine and_congr_right fun _ => ⟨fun hb => ⟨?_, hb⟩, And.right⟩
      rintro rfl
      rw [hchain] at hb
      exact hap (Option.some.inj hb).symm
  · intro r hr
    obtain rfl := Option.some.inj hr
    refine ⟨hL, fun b hb hvb => h.tree.leaf (fun c hc hparent => ?_) hb (hlineage ▸ hvb)⟩
    have hcv := (h.child v hv c).2 ⟨hc, by simp, hparent⟩
    simp [hC] at hcv
  · refine h.counts.congr (fun b _ => by rw [hlineage]) (fun _ _ => rfl) fun a _ => ?_
    rw [(haccount a).2.1]
  · intro a ha
    rw [(haccount a).2.1, (haccount a).2.2.1]
    exact h.quota a ha
  · obtain ⟨haT, -, hroot⟩ := h.rooted a ha
    refine ⟨haT, ?_, (haccount a).1.trans hroot⟩
    rintro heq
    rw [Option.some.inj heq, hroot] at hchain
    simp at hchain

/-! ### A folio is freed -/

/-- `activity_for_each_ancestor` changes activities only. -/
theorem forEachAncestor_rest (s : Kernel) (a : ℕ) (f : Activity → Activity) :
    s.forEachAncestor a f = { s with activity := (s.forEachAncestor a f).activity } := by
  have hfold : ∀ (l : List ℕ) (t : Kernel), l.foldl (fun t b => t.modifyActivity b f) t =
      { t with activity := (l.foldl (fun t b => t.modifyActivity b f) t).activity } := by
    intro l
    induction l with
    | nil => exact fun _ => rfl
    | cons b l ih =>
      intro t
      rw [foldl_cons, ih]
      rfl
  exact hfold _ s

/-- Counting folios leaves the capabilities. -/
theorem forEachAncestor_read (s : Kernel) (a : ℕ) (n : ℤ) (p : CapPtr) :
    (s.forEachAncestor a fun g => { g with folioCount := g.folioCount + n }).read p = s.read p := by
  have hproj := fun (π : Activity → Cap) hπ b => forEachAncestor_proj π
    (f := fun g => { g with folioCount := g.folioCount + n }) hπ s a b
  cases p with
  | activityFolios b => exact hproj Activity.folios (fun _ => rfl) b
  | activityParent b => exact hproj Activity.parentCap (fun _ => rfl) b
  | activityChildren b => exact hproj Activity.childrenCap (fun _ => rfl) b
  | activitySiblingNext b => exact hproj Activity.siblingNextCap (fun _ => rfl) b
  | activitySiblingPrev b => exact hproj Activity.siblingPrevCap (fun _ => rfl) b
  | _ => rw [forEachAncestor_rest]; rfl

theorem releaseFolio_read (s : Kernel) (f : ℕ) (p : CapPtr) :
    (s.releaseFolio f).read p = s.read p := by
  cases p with
  | folioActivity g | folioNext g | folioPrev g =>
    by_cases hg : g = f
    · subst hg
      simp [releaseFolio, read, modifyFolio, modifyDesc, setDesc]
    · simp [releaseFolio, read, modifyFolio, modifyDesc, setDesc, hg]
  | _ => rfl

/-- Folios are told apart by their numbers. -/
theorem eq_of_folioNumber {g : ℕ} (hf : isFolioOid f = true) (hg : isFolioOid g = true)
    (h : f / (folioObjects + 1) = g / (folioObjects + 1)) : f = g := by
  simp only [isFolioOid, folioObjects, beq_iff_eq] at hf hg h
  omega

/-- `unlinkFolio` for a folio that is on the list of its owner. -/
theorem unlinkFolio_spec (h : Chained .folios T L s) (howner : owner ∈ T)
    (hf : f ∈ L owner) (hok : s.unlinkFolio activity f owner = .ok t) :
    ∃ u, Noted s u ∧ t = CapList.folios.unlinked u owner f (u.read (.folioPrev f)).target
      (u.read (.folioNext f)).target := by
  obtain ⟨⟨s₁, next⟩, hnext, hrest⟩ := bind_eq_ok.1 hok
  obtain ⟨⟨s₂, prev⟩, hprev, rfl⟩ := bind_pure_eq_ok.1 hrest
  obtain ⟨hnoted₁, rfl⟩ :=
    capToObject_fresh (h.fresh (.folioNext f) ⟨owner, howner, .inr ⟨f, hf, .inl rfl⟩⟩) hnext
  obtain ⟨hnoted₂, rfl⟩ := capToObject_fresh
    ((h.noted hnoted₁).fresh (.folioPrev f) ⟨owner, howner, .inr ⟨f, hf, .inr rfl⟩⟩) hprev
  have hn : (s.read (.folioNext f)).target = (s₂.read (.folioNext f)).target := by
    rw [hnoted₂.read, hnoted₁.read]
  have hp : (s₁.read (.folioPrev f)).target = (s₂.read (.folioPrev f)).target := by
    rw [hnoted₂.read]
  refine ⟨s₂, hnoted₁.trans hnoted₂, ?_⟩
  rw [hn, hp]
  rfl

/-- A folio is taken from its owner. -/
structure Unfiles (s t : Kernel) (owner f : ℕ) : Prop where
  desc : ∀ x ≠ f, (t.desc x).map Desc.record = (s.desc x).map Desc.record
  type : (t.desc f).map Desc.type = (s.desc f).map Desc.type
  read : ∀ q, CapList.folios.Apart q → q ≠ .folioActivity f → t.read q = s.read q
  void : (t.read (.folioActivity f)).target = none
  account : ∀ a, (t.activity a).account =
    if a ∈ s.lineage owner then
      ((s.activity a).ancestors, (s.activity a).folioCount - 1, (s.activity a).quota,
        (s.activity a).dying)
    else (s.activity a).account
  allocated : ∀ n ≠ f / (folioObjects + 1), t.allocated n = s.allocated n

theorem apart_folioActivity (f : ℕ) : CapList.folios.Apart (.folioActivity f) :=
  fun _ => ⟨nofun, nofun, nofun⟩

/-- **The end of `folio_free`** takes the folio from its owner, and off the owner's list. -/
theorem unfiles_of_unlinkFolio (h : Chained .folios T L s)
    (hnodup : (s.lineage owner).Nodup) (howner : owner ∈ T) (hf : f ∈ L owner)
    (hok : ((s.forEachAncestor owner fun g => { g with folioCount := g.folioCount - 1 }).voidCap
      (.folioActivity f)).unlinkFolio activity f owner = .ok t) :
    Unfiles s (t.releaseFolio f) owner f ∧
      Chained .folios T (update L owner ((L owner).erase f)) t ∧
      (∀ x, (t.desc x).map Desc.record = (s.desc x).map Desc.record) ∧
      ∀ b ≠ owner, t.read (.activityFolios b) = s.read (.activityFolios b) := by
  set s₁ := s.forEachAncestor owner fun g => { g with folioCount := g.folioCount - 1 } with hs₁
  have hread₁ : ∀ p, s₁.read p = s.read p := forEachAncestor_read s owner (-1)
  have hdesc₁ : s₁.desc = s.desc := by rw [hs₁, forEachAncestor_rest]
  have halloc₁ : s₁.allocated = s.allocated := by rw [hs₁, forEachAncestor_rest]
  have hread₂ : ∀ p, p ≠ .folioActivity f → (s₁.voidCap (.folioActivity f)).read p = s.read p :=
    fun p hp => (s₁.read_write_of_ne hp _).trans (hread₁ p)
  have hchain₂ : Chained .folios T L (s₁.voidCap (.folioActivity f)) := by
    refine h.congr ?_ fun o _ => by rw [voidCap, write_desc, hdesc₁]
    rintro p ⟨a, -, rfl | ⟨x, -, rfl | rfl⟩⟩ <;> exact hread₂ _ (by rintro ⟨⟩)
  obtain ⟨u, hnoted, rfl⟩ := unlinkFolio_spec hchain₂ howner hf hok
  set v := CapList.folios.unlinked u owner f (u.read (.folioPrev f)).target
    (u.read (.folioNext f)).target with hv
  have hdesc : ∀ x, (v.desc x).map Desc.record = (s.desc x).map Desc.record := fun x => by
    rw [hv, CapList.unlinked_desc, hnoted.desc, voidCap, write_desc, hdesc₁]
  refine ⟨⟨fun x hx => ?_, ?_, fun q hq hqf => ?_, ?_, fun a => ?_, fun n hn => ?_⟩,
    (hchain₂.noted hnoted).unlink howner hf, hdesc, fun b hb => ?_⟩
  · rw [← hdesc x]
    exact congrArg _ (setDesc_desc_of_ne v _ hx)
  · rw [← Filed.desc_type (hdesc f)]
    show (((v.modifyDesc f _).desc f).map Desc.type) = _
    rw [modifyDesc, setDesc_desc_self, Option.map_map]
    rfl
  · rw [releaseFolio_read, hv, CapList.folios.read_unlinked_of_apart _ _ _ _ _ hq, hnoted.read,
      hread₂ q hqf]
  · rw [releaseFolio_read, hv,
      CapList.folios.read_unlinked_of_apart _ _ _ _ _ (apart_folioActivity f), hnoted.read, voidCap,
      read_write_self _ rfl]
    rfl
  · show (v.activity a).account = _
    rw [hv, CapList.unlinked_account, hnoted.account, voidCap, write_account, hs₁,
      forEachAncestor_activity hnodup]
    split <;> rfl
  · show update v.allocated _ _ n = _
    rw [update_of_ne hn, hv, CapList.unlinked_allocated, hnoted.allocated, voidCap,
      write_allocated, halloc₁]
  · have hhead := (CapList.folios.read_head_unlinked u owner f (u.read (.folioPrev f)).target
      (u.read (.folioNext f)).target).2 b hb
    refine hhead.trans ?_
    rw [hnoted.read]
    exact hread₂ _ (by rintro ⟨⟩)

namespace Unfiles

variable {a : ℕ} (h : Unfiles s t owner f)

include h

/-- Nobody owns the folio, all else is owned as before. -/
theorem owns_iff {g : ℕ} : t.Owns a g ↔ g ≠ f ∧ s.Owns a g := by
  rw [Owns, Owns]
  by_cases hg : g = f
  · subst hg
    simp [h.void]
  · have hread := h.read (.folioActivity g) (apart_folioActivity g) (by simpa using hg)
    rw [Filed.desc_type (h.desc g hg), hread, and_iff_right hg]

theorem live_iff : t.Live a ↔ s.Live a := by
  by_cases ha : a = f
  · rw [Live, Live, ha, h.type]
  · rw [Live, Live, Filed.desc_type (h.desc a ha)]

/-- The owner and its ancestors count one folio less. -/
theorem accounts : (t.activity a).ancestors = (s.activity a).ancestors ∧
    (t.activity a).folioCount = (s.activity a).folioCount +
      (if a ∈ s.lineage owner then -1 else 0) ∧
    (t.activity a).quota = (s.activity a).quota := by
  have haccount := h.account a
  split at haccount <;> rename_i ha <;>
    simp only [Activity.account, Prod.mk.injEq] at haccount <;>
    exact ⟨haccount.1, by simp [haccount.2.1, ha, sub_eq_add_neg], haccount.2.2.1⟩

end Unfiles

/-- **Freeing a folio** leaves the files in order. -/
theorem Filed.unfiled (h : Filed Q none 0 T L C s) (howner : owner ∈ T) (hf : f ∈ L owner)
    (ht : Unfiles s t owner f) (hchain : Chained .folios T (update L owner ((L owner).erase f)) t) :
    Filed Q none 0 T (update L owner ((L owner).erase f)) C t := by
  have hown := (h.listed owner howner f).1 hf
  obtain ⟨-, -, hoid, -⟩ := h.owned owner f hown
  -- the folio is not an activity
  have hfT : ∀ {x}, x ∈ T → x ≠ f := by
    rintro x hx rfl
    have hlive := (h.tree.live x).1 hx
    rw [Live, hown.1] at hlive
    simp at hlive
  have haccount := fun a => ht.accounts (a := a)
  have hlineage : t.lineage = s.lineage := funext fun a => by rw [lineage, lineage, (haccount a).1]
  have hdescT : ∀ {x}, x ∈ T → (t.desc x).map Desc.record = (s.desc x).map Desc.record :=
    fun hx => ht.desc _ (hfT hx)
  refine ⟨h.tree.congr (fun _ => ht.live_iff) fun a _ => (haccount a).1, hchain, ?_, ?_, ?_, ?_, ?_,
    by simp, fun a ha => absurd rfl ha, ?_, ?_, fun a ha => ?_⟩
  · refine h.children.congr ?_ ?_
    · rintro p ⟨a, -, rfl | ⟨x, -, rfl | rfl⟩⟩ <;>
        exact ht.read _ (fun _ => ⟨by rintro ⟨⟩, by rintro ⟨⟩, by rintro ⟨⟩⟩) (by rintro ⟨⟩)
    · rintro x (hx | ⟨a, ha, hx⟩)
      · exact hdescT hx
      · exact hdescT ((h.child a ha x).1 hx).1
  · intro g hg hsome
    by_cases hgf : g = f
    · rw [hgf, ht.type]
      exact hown.1
    · rw [desc_type (ht.desc g hgf)]
      refine h.typed g hg ?_
      rwa [← isSome_map (f := Desc.record), ht.desc g hgf, isSome_map] at hsome
  · intro a g hag
    obtain ⟨hgf, hag⟩ := ht.owns_iff.1 hag
    obtain ⟨ha, hfresh, hg, halloc⟩ := h.owned a g hag
    have hread := ht.read (.folioActivity g) (apart_folioActivity g) (by simpa using hgf)
    have hnumber : g / (folioObjects + 1) ≠ f / (folioObjects + 1) := fun heq =>
      hgf (eq_of_folioNumber hg hoid heq)
    rw [hread, ht.allocated _ hnumber]
    refine ⟨ha, hfresh.congr fun x hx => ?_, hg, halloc⟩
    obtain rfl : a = x := Option.some.inj (hag.2.symm.trans hx)
    exact hdescT ha
  · intro a ha g
    rw [ht.owns_iff, ← h.listed a ha g]
    by_cases hao : a = owner
    · subst hao
      rw [update_self, (h.folios.nodup a ha).mem_erase_iff]
    · rw [update_of_ne hao]
      refine ⟨fun hg => ⟨?_, hg⟩, And.right⟩
      rintro rfl
      exact hao (h.folios.apart a ha owner howner g hg hf)
  · intro a ha b
    rw [(haccount b).1]
    exact h.child a ha b
  · refine (h.counts.charge howner (-1)).congr (fun b _ => by rw [hlineage]) (fun b _ => ?_)
      fun a _ => ?_
    · by_cases hb : b = owner
      · subst hb
        have hpos : 1 ≤ (L b).length := length_pos_of_mem hf
        simp only [update_self, length_erase_of_mem hf, Pi.add_apply,
          Pi.single_eq_same]
        omega
      · simp [hb]
    · rw [(haccount a).2.1]
      ring
  · intro a ha hQ
    have hquota := h.quota a ha hQ
    rw [(haccount a).2.1, (haccount a).2.2]
    split <;> omega
  · rw [(haccount a).1]
    exact h.rooted a ha

/-! ### What an operation leaves of a dying activity -/

/-- While an activity is being destroyed, the operations that this takes leave it in memory and do
not give it folios. Folios stay in memory anyway. -/
structure Shrinks (s t : Kernel) : Prop where
  live : ∀ x, s.Live x → (s.activity x).dying = true → t.Live x
  dying : ∀ x, s.Live x → (s.activity x).dying = true → (t.activity x).dying = true ∧
    (t.activity x).ancestors = (s.activity x).ancestors ∧
    ((s.read (.activityFolios x)).target = none → (t.read (.activityFolios x)).target = none)
  folio : ∀ f, isFolioOid f = true → (s.desc f).isSome = true → (t.desc f).isSome = true

namespace Shrinks

variable {s t r : Kernel}

theorem refl (s : Kernel) : Shrinks s s where
  live _ h _ := h
  dying _ _ h := ⟨h, rfl, id⟩
  folio _ _ h := h

theorem trans (h : Shrinks s t) (h' : Shrinks t r) : Shrinks s r where
  live x hx hd := h'.live x (h.live x hx hd) (h.dying x hx hd).1
  dying x hx hd := by
    obtain ⟨hd₁, hanc₁, hfolios₁⟩ := h.dying x hx hd
    obtain ⟨hd₂, hanc₂, hfolios₂⟩ := h'.dying x (h.live x hx hd) hd₁
    exact ⟨hd₂, hanc₂.trans hanc₁, fun hnone => hfolios₂ (hfolios₁ hnone)⟩
  folio f hf hs := h'.folio f hf (h.folio f hf hs)

/-- What leaves types and accounts, and does not give folios to an activity. -/
theorem of_account (hdesc : ∀ o, (t.desc o).map Desc.type = (s.desc o).map Desc.type)
    (haccount : ∀ a, (t.activity a).account = (s.activity a).account)
    (hread : ∀ x, t.read (.activityFolios x) = s.read (.activityFolios x) ∨
      (t.read (.activityFolios x)).target = none) : Shrinks s t where
  live x hx _ := (hdesc x).trans hx
  dying x _ hd := by
    have h := haccount x
    simp only [Activity.account, Prod.mk.injEq] at h
    refine ⟨h.2.2.2.trans hd, h.1, fun hnone => ?_⟩
    rcases hread x with heq | hnone'
    · rwa [heq]
    · exact hnone'
  folio f _ hs := by rwa [← isSome_map (f := Desc.type), hdesc, isSome_map]

theorem noted (h : Noted s t) : Shrinks s t :=
  of_account (fun o => Filed.desc_type (h.desc o)) h.account fun _ => .inl (h.read _)

theorem voided (s : Kernel) (p : CapPtr) : Shrinks s (s.voidCap p) := by
  refine of_account (fun o => by rw [voidCap, write_desc]) (write_account s p _) fun x => ?_
  refine (read_write s p _ _).imp id fun heq => ?_
  rw [voidCap, heq]
  rfl

theorem arrives (h : Arrives s t o) : Shrinks s t where
  live x hx _ := by
    refine (h.live (h.ne ?_)).2 hx
    rw [← isSome_map (f := Desc.type), hx]
    rfl
  dying x hx hd := by
    have hne : x ≠ o := h.ne (by rw [← isSome_map (f := Desc.type), hx]; rfl)
    obtain ⟨hanc, -, -, hdying⟩ := h.account_of_ne hne
    refine ⟨hdying.trans hd, hanc, fun hnone => ?_⟩
    rwa [h.read _ x rfl, if_neg hne]
  folio f _ hs := by rwa [h.desc f (h.ne hs)]

theorem unfiles {owner f : ℕ} (h : Unfiles s t owner f)
    (hfolios : ∀ x, (s.read (.activityFolios x)).target = none →
      (t.read (.activityFolios x)).target = none) : Shrinks s t := by
  have htype : ∀ o, (t.desc o).map Desc.type = (s.desc o).map Desc.type := fun o => by
    by_cases ho : o = f
    · rw [ho, h.type]
    · exact Filed.desc_type (h.desc o ho)
  refine ⟨fun x hx _ => (htype x).trans hx, fun x _ hd => ?_, fun g _ hs => ?_⟩
  · have haccount := h.account x
    split at haccount <;> simp only [Activity.account, Prod.mk.injEq] at haccount <;>
      exact ⟨haccount.2.2.2.trans hd, haccount.1, hfolios x⟩
  · rwa [← isSome_map (f := Desc.type), htype, isSome_map]

/-- An object goes that was not a dying activity. -/
theorem departs (h : Shrinks s t) (ho : Departs t r o) (hfolio : isFolioOid o = false)
    (hdying : ¬ (s.Live o ∧ (s.activity o).dying = true)) : Shrinks s r := by
  refine ⟨fun x hx hd => ?_, fun x hx hd => ?_, fun g hg hs => ?_⟩
  · have hxo : x ≠ o := fun hxo => hdying (hxo ▸ ⟨hx, hd⟩)
    exact (Filed.desc_type (ho.desc x hxo)).trans (h.live x hx hd)
  · obtain ⟨hd', hanc, hfolios⟩ := h.dying x hx hd
    have haccount := ho.account x
    simp only [Activity.account, Prod.mk.injEq] at haccount
    exact ⟨haccount.2.2.2.trans hd', haccount.1.trans hanc, by rw [ho.read]; exact hfolios⟩
  · have hgo : g ≠ o := fun hgo => by simp [hgo, hfolio] at hg
    rw [← isSome_map (f := Desc.record), ho.desc g hgo, isSome_map]
    exact h.folio g hg hs

end Shrinks

/-! ### Lookups -/

namespace InFile

variable {Q : Terms} {R : Option ℕ} {due : ℕ → ℤ} {s t : Kernel}

theorem noted (h : InFile Q R due s) (hnoted : Noted s t) : InFile Q R due t := by
  obtain ⟨T, L, C, h⟩ := h
  exact ⟨T, L, C, h.noted hnoted⟩

theorem arrives (h : InFile Q R due s) (ho : Arrives s t o) : InFile Q R due t := by
  obtain ⟨T, L, C, h⟩ := h
  by_cases hlive : t.Live o
  · exact ⟨_, _, _, h.arrived_activity ho hlive⟩
  · exact ⟨T, L, C, h.arrived_other ho hlive⟩

/-- **Lookups** keep the files in order. -/
theorem keeps (R : Option ℕ) (due : ℕ → ℤ) (s₀ : Kernel) (activity : ℕ) :
    Keeps activity fun s => InFile Q R due s ∧ Shrinks s₀ s where
  found {s o d} policy _ h := by
    have hnoted := objectFindSoft_noted s activity o policy
    exact ⟨h.1.noted hnoted, h.2.trans (.noted hnoted)⟩
  paged hok h := by
    have harrives := memoryObjectAlloc_arrives hok
    exact ⟨h.1.arrives harrives, h.2.trans (.arrives harrives)⟩
  voided p _ h hlater hd hstale := by
    obtain ⟨⟨T, L, C, hfiled⟩, hshrinks⟩ := h
    exact ⟨⟨T, L, C, hfiled.voided p hlater hd hstale⟩, hshrinks.trans (.voided _ p)⟩

end InFile

end Kernel

end Viengoos
