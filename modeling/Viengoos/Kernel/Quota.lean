import Viengoos.BitArray
import Viengoos.Kernel.Freeing

/-!
# Folio quotas

`folio_alloc` checks the quotas of an activity and its ancestors and charges them in the same walk.
Where one of them has used up its quota the walk breaks, and a second walk gives the charges back.
The two walks come to what `folioAlloc` says about them.

Over whole runs of `folio_alloc`, `folio_free` and changes of quotas the files stay in order: each
list of folios is made of fresh links and holds what its activity owns, and no activity whose quota
is not lowered counts more folios than it. The counts change by what is allocated and freed, so they
are right exactly if they were right at the start. They are not when the kernel has **booted**: the
first folio is allocated before there is an activity to charge it to, and is given to the root
activity afterwards, which does not count it.
-/

namespace Viengoos

open Outcome DoublyLinked Hierarchy Function List

namespace Kernel

variable {Q : Terms}

/-! ### The two walks of `folio_alloc` -/

/-- The activity has used up its quota of folios. -/
def Exhausted (s : Kernel) (a : ℕ) : Prop :=
  (s.activity a).quota ≠ 0 ∧ ((s.activity a).quota : ℤ) ≤ (s.activity a).folioCount

instance (s : Kernel) (a : ℕ) : Decidable (s.Exhausted a) := by
  unfold Exhausted
  infer_instance

/-- `a->folio_count += n`. -/
def count (s : Kernel) (a : ℕ) (n : ℤ) : Kernel :=
  s.modifyActivity a fun g => { g with folioCount := g.folioCount + n }

/-- The walk that charges. The second component is the activity it breaks at. -/
def chargeWalk : List ℕ → Kernel → Kernel × Option ℕ
  | [], s => (s, none)
  | a :: rest, s => if s.Exhausted a then (s, some a) else chargeWalk rest (s.count a 1)

/-- The walk that gives the charges back, up to where the first one broke. -/
def refundWalk (stop : ℕ) : List ℕ → Kernel → Kernel
  | [], s => s
  | b :: rest, s => if b = stop then s else refundWalk stop rest (s.count b (-1))

/-- `folio_alloc`, with its two walks. -/
def folioAllocWalks (activity : ℕ) (policy : FolioPolicy) (s : Kernel) :
    Except Fault (Kernel × Option ℕ) :=
  match chargeWalk (s.lineage activity) s with
  | (charged, some a) => pure (refundWalk a (s.lineage activity) charged, none)
  | (charged, none) => charged.takeFolio activity policy

theorem count_activity (s : Kernel) (a : ℕ) (n : ℤ) (b : ℕ) : (s.count a n).activity b =
    if b = a then { s.activity b with folioCount := (s.activity b).folioCount + n }
    else s.activity b := by
  by_cases hb : b = a
  · subst hb
    simp [count, modifyActivity]
  · simp [count, modifyActivity, hb]

variable {s t : Kernel} {a b f : ℕ} {l : List ℕ} {T : Finset ℕ} {L C : ℕ → List ℕ}

theorem exhausted_count_of_ne (hb : b ≠ a) (n : ℤ) :
    (s.count a n).Exhausted b ↔ s.Exhausted b := by
  rw [Exhausted, Exhausted, count_activity, if_neg hb]

theorem count_comm (s : Kernel) (hab : a ≠ b) (m n : ℤ) :
    (s.count a m).count b n = (s.count b n).count a m := by
  simp only [count, modifyActivity, update_of_ne hab.symm, update_of_ne hab,
    update_comm hab]

theorem count_count_neg (s : Kernel) (a : ℕ) (n : ℤ) : (s.count a n).count a (-n) = s := by
  simp [count, modifyActivity]

theorem refundWalk_count {stop : ℕ} (hb : b ∉ l) (s : Kernel) (n : ℤ) :
    refundWalk stop l (s.count b n) = (refundWalk stop l s).count b n := by
  induction l generalizing s with
  | nil => rfl
  | cons c l ih =>
    obtain ⟨hbc, hb⟩ := not_or.1 (mt mem_cons.2 hb)
    simp only [refundWalk]
    split
    · rfl
    · rw [count_comm s hbc n (-1), ih hb]

/-- **Charging and giving back.** Where the first walk breaks at an activity the second one restores
the state; where it does not, every activity has been charged. -/
theorem chargeWalk_spec (hnodup : l.Nodup) (s : Kernel) :
    match chargeWalk l s with
    | (t, some a) => a ∈ l ∧ s.Exhausted a ∧ chargeFolio l s = none ∧ refundWalk a l t = s
    | (t, none) => (∀ a ∈ l, ¬ s.Exhausted a) ∧ chargeFolio l s = some t := by
  induction l generalizing s with
  | nil => exact ⟨by simp, rfl⟩
  | cons b l ih =>
    obtain ⟨hb, hnodup⟩ := nodup_cons.1 hnodup
    have hne : ∀ {a}, a ∈ l → a ≠ b := fun ha hab => hb (hab ▸ ha)
    by_cases hexhausted : s.Exhausted b
    · simp only [chargeWalk, hexhausted, if_true, mem_cons_self, true_and, refundWalk]
      exact ⟨if_pos hexhausted, trivial⟩
    · have hcharge : chargeFolio (b :: l) s = chargeFolio l (s.count b 1) := if_neg hexhausted
      have hih := ih hnodup (s.count b 1)
      simp only [chargeWalk, hexhausted, if_false, hcharge]
      revert hih
      rcases chargeWalk l (s.count b 1) with ⟨t, _ | a⟩
      · rintro ⟨hrest, heq⟩
        refine ⟨fun a ha => ?_, heq⟩
        rcases mem_cons.1 ha with rfl | ha
        · exact hexhausted
        · exact fun h => hrest a ha ((exhausted_count_of_ne (hne ha) 1).2 h)
      · rintro ⟨ha, hexhausted', heq, hrefund⟩
        have hexhausted := (exhausted_count_of_ne (hne ha) 1).1 hexhausted'
        refine ⟨mem_cons_of_mem b ha, hexhausted, heq, ?_⟩
        simp only [refundWalk, (hne ha).symm, if_false]
        rw [refundWalk_count hb, hrefund, count_count_neg]

variable {found : Bool} {policy : FolioPolicy} {r : Option ℕ} {activity : ℕ} {allocated : ℕ → Bool}

/-- `folio_alloc` fails where an activity of the lineage has used up its quota, and then leaves the
state; elsewhere the folio is paid for by each of them. -/
theorem folioAllocWalks_eq (hnodup : (s.lineage activity).Nodup) (policy : FolioPolicy) :
    s.folioAllocWalks activity policy = s.folioAlloc activity policy ∧
      ((∃ b ∈ s.lineage activity, s.Exhausted b) ∧
          s.folioAllocWalks activity policy = .ok (s, none) ∨
        (∀ b ∈ s.lineage activity, ¬ s.Exhausted b) ∧ ∃ t,
          chargeFolio (s.lineage activity) s = some t ∧
          s.folioAllocWalks activity policy = t.takeFolio activity policy) := by
  have hspec := chargeWalk_spec hnodup s
  rw [folioAlloc, folioAllocWalks]
  revert hspec
  rcases chargeWalk (s.lineage activity) s with ⟨t, _ | a⟩
  · rintro ⟨hrest, heq⟩
    simp only [heq]
    exact ⟨trivial, .inr ⟨hrest, t, rfl, rfl⟩⟩
  · rintro ⟨ha, hexhausted, heq, hrefund⟩
    simp only [heq, hrefund]
    exact ⟨trivial, .inl ⟨⟨a, ha, hexhausted⟩, rfl⟩⟩

theorem chargeFolio_eq (h : chargeFolio l s = some t) :
    t = l.foldl (fun t b => t.count b 1) s := by
  induction l generalizing s with
  | nil => exact (Option.some.inj h).symm
  | cons a l ih =>
    rw [chargeFolio] at h
    split at h
    · simp at h
    · exact ih h

/-! ### Paying for a folio -/

/-- A charge of one folio to an activity and its ancestors. -/
def dueFrom (s : Kernel) (a : ℕ) : ℕ → ℤ := fun b => if b ∈ s.lineage a then 1 else 0

/-- Every activity of a lineage that has not used up its quota can be charged. -/
theorem Filed.charge (h : Filed Q none 0 T L C s) (ha : a ∈ T)
    (hrest : ∀ b ∈ s.lineage a, ¬ s.Exhausted b) (hcharge : chargeFolio (s.lineage a) s = some t) :
    Filed Q none (s.dueFrom a) T L C t ∧ t.lineage = s.lineage ∧ t.desc = s.desc ∧
      t.allocated = s.allocated ∧ t.free = s.free := by
  obtain rfl : t = s.forEachAncestor a fun g => { g with folioCount := g.folioCount + 1 } :=
    chargeFolio_eq hcharge
  have hactivity := forEachAncestor_activity (h.tree.nodup a ha)
    fun g => { g with folioCount := g.folioCount + 1 }
  have hancestors : ∀ b, ((s.forEachAncestor a fun g =>
      { g with folioCount := g.folioCount + 1 }).activity b).ancestors =
        (s.activity b).ancestors := fun b => by
    rw [hactivity]
    split <;> rfl
  refine ⟨h.recount ?_ (fun p _ => forEachAncestor_read s a 1 p) hancestors ?_ (fun b hb => ?_)
    (fun b => ?_) fun b hb hQ => ?_, ?_, ?_, ?_, ?_⟩
  · exact fun o => by rw [forEachAncestor_rest]
  · exact fun n hn => by rwa [forEachAncestor_rest]
  · refine h.tree.above a ha b ?_
    by_contra hmem
    simp [dueFrom, hmem] at hb
  · rw [hactivity, dueFrom]
    split <;> simp
  · rw [hactivity]
    split
    · next hmem =>
      intro hquota
      have := hrest b hmem
      simp only [Exhausted, not_and, not_le] at this
      exact this hquota
    · exact h.quota b hb hQ
  · exact funext fun b => by rw [lineage, lineage, hancestors]
  all_goals rw [forEachAncestor_rest]

/-! ### Taking a folio -/

/-- `bit_alloc` gives the first number that was not allocated. -/
theorem bitAlloc_spec {n i : ℕ} (h : bitAlloc allocated n i = some f) :
    f < i + n ∧ allocated f = false ∧ ∀ j, i ≤ j → j < f → allocated j = true := by
  induction n generalizing i with
  | zero => simp [bitAlloc] at h
  | succ n ih =>
    rw [bitAlloc] at h
    split at h
    · next hi =>
      obtain ⟨hlt, hfree, hbefore⟩ := ih h
      refine ⟨by omega, hfree, fun j hij hj => ?_⟩
      rcases hij.eq_or_lt with rfl | hij
      · exact hi
      · exact hbefore j hij hj
    · next hi =>
      obtain rfl := Option.some.inj h
      exact ⟨by omega, by simpa using hi, fun j hij hj => by omega⟩

/-- `bit_alloc` finds a number if there is one. -/
theorem bitAlloc_isSome {n i : ℕ} (hi : i ≤ f) (hf : f < i + n)
    (hfree : allocated f = false) : ∃ g, bitAlloc allocated n i = some g := by
  induction n generalizing i with
  | zero => omega
  | succ n ih =>
    rw [bitAlloc]
    split
    · next htaken =>
      have hne : i ≠ f := by
        rintro rfl
        simp [hfree] at htaken
      exact ih (by omega) (by omega)
    · exact ⟨i, rfl⟩

/-- **The numbers of the folios are a bit array**: on one whose bits are the numbers allocated,
`bit_alloc` from the first bit on finds what `bitAlloc` does, and sets the bit. -/
theorem bitArray_bitAlloc (array : BitArray) {size : ℕ} (hsize : 0 < size) :
    ∃ array', array.bitAlloc size 0 = .ok (array', bitAlloc array.bit (size * 8) 0) ∧
      ∀ f ∈ bitAlloc array.bit (size * 8) 0, array'.bit = update array.bit f true := by
  obtain ⟨array', r, hok, hsome, hnone, -⟩ :=
    BitArray.bitAlloc_first array (show 0 < size * 8 by omega)
  have hr : bitAlloc array.bit (size * 8) 0 = r := by
    rcases hbit : bitAlloc array.bit (size * 8) 0 with _ | f
    · -- A number that is found in the array would be found here, too.
      rcases r with _ | i
      · rfl
      · obtain ⟨d, hd, rfl, hfree, -⟩ := hsome i rfl
        have hlt := Nat.mod_lt (0 + d) (show 0 < size * 8 by omega)
        obtain ⟨g, hg⟩ := bitAlloc_isSome (Nat.zero_le _) (hlt.trans_eq (Nat.zero_add _).symm) hfree
        rw [hbit] at hg
        cases hg
    · obtain ⟨hf, hfree, hbefore⟩ := bitAlloc_spec hbit
      rcases r with _ | i
      · rw [hnone.1 rfl f (by omega)] at hfree
        cases hfree
      · obtain ⟨d, hd, hi, hi_free, hi_before, -⟩ := hsome i rfl
        rw [Nat.zero_add, Nat.mod_eq_of_lt hd] at hi
        subst hi
        -- Both are the first of the zero bits.
        rcases lt_trichotomy f i with hlt | rfl | hlt
        · have htaken := hi_before f hlt
          rw [Nat.zero_add, Nat.mod_eq_of_lt (by omega), hfree] at htaken
          cases htaken
        · rfl
        · rw [hbefore i (Nat.zero_le i) hlt] at hi_free
          cases hi_free
  rw [hr]
  refine ⟨array', hok, fun f hf => funext fun j => ?_⟩
  obtain ⟨_, _, _, _, _, hset⟩ := hsome f hf
  rw [hset, update_apply]

/-- A folio is given to an activity. -/
structure Files (s t : Kernel) (owner f : ℕ) : Prop where
  desc : ∀ x, (t.desc x).map Desc.record = (s.desc x).map Desc.record
  read : ∀ q, CapList.folios.Apart q → q ≠ .folioActivity f → t.read q = s.read q
  owner : t.read (.folioActivity f) = s.objectToCap owner
  account : ∀ a, (t.activity a).account = (s.activity a).account
  allocated : t.allocated = s.allocated

/-- **`folio_parent`** puts a folio in front of the list of its new owner. -/
theorem folioParent_spec {d : Desc} (h : Chained .folios T L s) (ha : a ∈ T) (hf : ∀ b ∈ T, f ∉ L b)
    (hd : s.desc f = some d) (hvoid : d.type ≠ .void) :
    ∃ t, s.folioParent a f = .ok t ∧ Files s t a f ∧
      Chained .folios T (update L a (f :: L a)) t := by
  set s₁ := s.write (.folioActivity f) (s.objectToCap a) with hs₁
  have hread₁ : ∀ p, p ≠ .folioActivity f → s₁.read p = s.read p :=
    fun p hp => s.read_write_of_ne hp _
  have hchain₁ : Chained .folios T L s₁ := by
    refine h.congr ?_ fun o _ => by rw [hs₁, write_desc]
    rintro p ⟨b, -, rfl | ⟨x, -, rfl | rfl⟩⟩ <;> exact hread₁ _ nofun
  obtain ⟨s₂, hnoted₂, hhead⟩ :=
    capToObject_of_fresh (hchain₁.fresh (.activityFolios a) ⟨a, ha, .inl rfl⟩) a
  have hlist := (hchain₁.noted hnoted₂).list a ha
  -- the old head, if there is one, has nothing before it
  obtain ⟨u, hu, hok⟩ : ∃ u, Noted s₁ u ∧ s.folioParent a f =
      .ok (CapList.folios.linked u a f (u.read (.activityFolios a)).target) := by
    have htarget : (s₁.read (.activityFolios a)).target =
        (s₂.read (CapList.folios.head a)).target := by
      rw [hnoted₂.read]
      rfl
    simp only [folioParent, ← hs₁, hhead, ok_bind]
    cases hL : L a with
    | nil =>
      have hnone : (s₂.read (.activityFolios a)).target = none :=
        hlist.head_eq.trans (by rw [hL]; rfl)
      refine ⟨s₂, hnoted₂, ?_⟩
      rw [htarget]
      simp only [CapList.folios, hnone]
      rfl
    | cons x l =>
      rw [hL] at hlist
      obtain ⟨hx, hprev, -⟩ := hlist
      have hxL : x ∈ L a := by simp [hL]
      obtain ⟨s₃, hnoted₃, hnone⟩ := capToObject_of_fresh
        ((hchain₁.noted hnoted₂).fresh (.folioPrev x) ⟨a, ha, .inr ⟨x, hxL, .inr rfl⟩⟩) a
      refine ⟨s₃, hnoted₂.trans hnoted₃, ?_⟩
      have hprev : (s₂.read (.folioPrev x)).target = none := hprev
      have hx₃ : (s₃.read (.activityFolios a)).target = some x := by
        rw [hnoted₃.read]
        exact hx
      rw [htarget, hx, hx₃]
      simp only [hnone, ok_bind, hprev, require_of]
      rfl
  obtain ⟨d', hd', htype, -⟩ := desc_of_record (hu.desc f) (by rw [hs₁, write_desc]; exact hd)
  refine ⟨_, hok, ⟨fun x => ?_, fun q hq hqf => ?_, ?_, fun b => ?_, ?_⟩,
    (hchain₁.noted hu).link ha hf hd' (htype ▸ hvoid)⟩
  · rw [CapList.linked_desc, hu.desc, hs₁, write_desc]
  · rw [CapList.folios.read_linked_of_apart _ _ _ _ hq, hu.read, hread₁ q hqf]
  · rw [CapList.folios.read_linked_of_apart _ _ _ _ (apart_folioActivity f), hu.read, hs₁,
      read_write_self _ rfl]
  · rw [CapList.linked_account, hu.account, hs₁, write_account]
  · rw [CapList.linked_allocated, hu.allocated, hs₁, write_allocated]

/-- **A paid folio is filed** under its owner. -/
theorem Filed.file (h : Filed Q none (s.dueFrom a) T L C s) (ha : a ∈ T) (hnew : ∀ b ∈ T, f ∉ L b)
    (htype : (s.desc f).map Desc.type = some .folio) (hoid : isFolioOid f = true)
    (halloc : s.allocated (f / (folioObjects + 1)) = true) (ht : Files s t a f)
    (hchain : Chained .folios T (update L a (f :: L a)) t) :
    Filed Q none 0 T (update L a (f :: L a)) C t := by
  have haccount := ht.account
  simp only [Activity.account, Prod.mk.injEq] at haccount
  have hlineage : t.lineage = s.lineage := funext fun b => by rw [lineage, lineage, (haccount b).1]
  obtain ⟨d, hd⟩ := Option.isSome_iff_exists.1 (h.folios.resident a ha).1
  have hlive := (h.tree.live a).1 ha
  have htarget : (s.objectToCap a).target = some a := by
    rw [Live, hd] at hlive
    simp [objectToCap, hd, objectDescToCap, Cap.target, Option.some.inj hlive]
  have howns : ∀ b g, t.Owns b g ↔ s.Owns b g ∧ g ≠ f ∨ b = a ∧ g = f := fun b g => by
    rw [Owns, Owns, desc_type (ht.desc g)]
    by_cases hg : g = f
    · subst hg
      simp [htype, ht.owner, htarget, eq_comm]
    · rw [ht.read (.folioActivity g) (apart_folioActivity g) (by simpa using hg)]
      simp [hg]
  refine ⟨h.tree.congr (fun b => ?_) fun b _ => (haccount b).1, hchain, ?_, ?_, ?_, ?_, ?_, by simp,
    fun b hb => absurd rfl hb, ?_, ?_, fun b hb => ?_⟩
  · rw [Live, Live, desc_type (ht.desc b)]
  · refine h.children.congr ?_ fun o _ => ht.desc o
    rintro p ⟨b, -, rfl | ⟨x, -, rfl | rfl⟩⟩ <;>
      exact ht.read _ (fun _ => ⟨by rintro ⟨⟩, by rintro ⟨⟩, by rintro ⟨⟩⟩) (by rintro ⟨⟩)
  · intro g hg hsome
    rw [desc_type (ht.desc g)]
    refine h.typed g hg ?_
    rwa [← Option.isSome_map (f := Desc.record), ht.desc g, Option.isSome_map] at hsome
  · intro b g hbg
    rw [ht.allocated]
    rcases (howns b g).1 hbg with ⟨hbg, hgf⟩ | ⟨rfl, rfl⟩
    · obtain ⟨hb, hfresh, hrest⟩ := h.owned b g hbg
      rw [ht.read (.folioActivity g) (apart_folioActivity g) (by simpa using hgf)]
      exact ⟨hb, hfresh.congr fun o _ => ht.desc o, hrest⟩
    · rw [ht.owner]
      exact ⟨ha, (Chained.fresh_objectToCap hd).congr fun o _ => ht.desc o, hoid, halloc⟩
  · intro b hb g
    rw [howns b g, ← h.listed b hb g]
    by_cases hba : b = a
    · subst hba
      rw [update_self, mem_cons]
      constructor
      · rintro (rfl | hg)
        · exact .inr ⟨rfl, rfl⟩
        · exact .inl ⟨hg, fun hgf => hnew b hb (hgf ▸ hg)⟩
      · rintro (⟨hg, -⟩ | ⟨-, rfl⟩)
        · exact .inr hg
        · exact .inl rfl
    · rw [update_of_ne hba]
      refine ⟨fun hg => .inl ⟨hg, fun hgf => hnew b hb (hgf ▸ hg)⟩, ?_⟩
      rintro (⟨hg, -⟩ | ⟨hba', -⟩)
      · exact hg
      · exact absurd hba' hba
  · intro b hb c
    rw [(haccount c).1]
    exact h.child b hb c
  · refine (h.counts.charge ha 1).congr (fun b _ => by rw [hlineage]) (fun b _ => ?_) fun b _ => ?_
    · by_cases hb : b = a
      · subst hb
        simp
      · simp [hb]
    · rw [(haccount b).2.1, dueFrom, Pi.zero_apply]
      ring
  · intro b hb hQ
    rw [(haccount b).2.1, (haccount b).2.2.1]
    exact h.quota b hb hQ
  · rw [(haccount b).1]
    exact h.rooted b hb

/-- Bringing a folio into memory leaves the files in order. -/
theorem folio_found {due : ℕ → ℤ} (h : Filed Q none due T L C s)
    (hoid : isFolioOid f = true) (hok : s.objectFind activity f .default = .ok (t, found))
    (hfound : found = true) :
    Filed Q none due T L C t ∧ (∀ a ∈ T, t.lineage a = s.lineage a) ∧
      t.allocated = s.allocated ∧ (t.desc f).map Desc.type = some .folio := by
  rw [objectFind, if_pos hoid] at hok
  rcases folioFind_cases hok with ⟨d, hd, -, rfl⟩ | ⟨-, ⟨-, -, halloc⟩ | ⟨hfalse, -⟩⟩
  · have hnoted := objectFindSoft_noted s activity f .default
    have haccount := hnoted.account
    simp only [Activity.account, Prod.mk.injEq] at haccount
    refine ⟨h.noted hnoted, fun a _ => ?_, hnoted.allocated, ?_⟩
    · rw [lineage, lineage, (haccount a).1]
    · rw [Filed.desc_type (hnoted.desc f)]
      exact h.typed f hoid (by simp [hd])
  · have harrives := memoryObjectAlloc_arrives halloc
    have htype := harrives.folio hoid
    refine ⟨h.arrived_other harrives ?_, fun a ha => ?_, harrives.allocated, htype⟩
    · rw [Live, htype]
      simp
    · rw [lineage, lineage, (harrives.account_of_ne (h.mem_ne harrives.before ha)).1]
  · simp [hfalse] at hfound

theorem Noted.setPolicy (s : Kernel) (f : ℕ) (policy : FolioPolicy) :
    Noted s (s.modifyFolio f fun g => { g with policy }) := by
  refine ⟨fun _ => rfl, fun p => ?_, fun _ => rfl, rfl⟩
  cases p with
  | folioActivity g | folioNext g | folioPrev g =>
    by_cases hg : g = f
    · subst hg
      simp [Kernel.read, modifyFolio]
    · simp [Kernel.read, modifyFolio, hg]
  | _ => rfl

theorem isFolioOid_mul (f : ℕ) : isFolioOid (f * (folioObjects + 1)) = true := by
  simp [isFolioOid]

/-- **A paid folio is taken** once it is found: it goes to the activity, and the charge is no longer
due. -/
theorem takeFolio_of_found {s₁ : Kernel} (h : Filed Q none (s.dueFrom a) T L C s)
    (ha : a ∈ T) (hbit : bitAlloc s.allocated foliosCore 0 = some f)
    (hfind : { s with allocated := update s.allocated f true }.objectFind a
      (f * (folioObjects + 1)) .default = .ok (s₁, found)) (hfound : found = true)
    (policy : FolioPolicy) :
    ∃ t, InFile Q none 0 t ∧ s.takeFolio a policy = .ok (t, some (f * (folioObjects + 1))) := by
  obtain ⟨-, hfree, -⟩ := bitAlloc_spec hbit
  have hoid := isFolioOid_mul f
  have hnumber : f * (folioObjects + 1) / (folioObjects + 1) = f :=
    Nat.mul_div_cancel f (Nat.succ_pos _)
  -- nobody owns a folio whose number is free
  have hnew : ∀ b ∈ T, f * (folioObjects + 1) ∉ L b := fun b hb hmem => by
    have halloc := (h.owned b _ ((h.listed b hb _).1 hmem)).2.2.2
    rw [hnumber, hfree] at halloc
    simp at halloc
  have h₀ : Filed Q none (s.dueFrom a) T L C
      { s with allocated := update s.allocated f true } := by
    refine h.congr (fun _ => rfl) (fun p _ => by cases p <;> rfl) (fun _ => rfl) fun n hn => ?_
    by_cases hnf : n = f
    · simp [hnf]
    · simpa [hnf] using hn
  obtain ⟨h₁, hlineage, halloc, htype⟩ := folio_found h₀ hoid hfind hfound
  have hlineage : s₁.lineage a = s.lineage a := hlineage a ha
  have hdue : s₁.dueFrom a = s.dueFrom a := funext fun b => by simp only [dueFrom, hlineage]
  obtain ⟨d, hd, hdtype⟩ := Option.map_eq_some_iff.1 htype
  obtain ⟨s₂, hparent, hfiles, hchain⟩ := folioParent_spec h₁.folios ha hnew hd (by simp [hdtype])
  rw [← hdue] at h₁
  refine ⟨s₂.modifyFolio (f * (folioObjects + 1)) fun g => { g with policy },
    ⟨T, _, C, (h₁.file ha hnew htype hoid ?_ hfiles hchain).noted (.setPolicy _ _ policy)⟩, ?_⟩
  · rw [halloc, hnumber]
    exact update_self ..
  · simp only [takeFolio, hbit, hfind, ok_bind, hfound, require_of, hparent]
    rfl

theorem takeFolio_spec (h : Filed Q none (s.dueFrom a) T L C s) (ha : a ∈ T)
    (hok : s.takeFolio a policy = .ok (t, r)) : InFile Q none 0 t ∧ r ≠ none := by
  have hok' := hok
  simp only [takeFolio] at hok
  split at hok
  · simp at hok
  next f hbit =>
  obtain ⟨⟨s₁, found⟩, hfind, hrest⟩ := bind_eq_ok.1 hok
  obtain ⟨_, hfound, hrest⟩ := bind_eq_ok.1 hrest
  obtain ⟨u, hu, htake⟩ := takeFolio_of_found h ha hbit hfind (require_eq_ok.1 hfound) policy
  obtain ⟨⟩ := Except.ok.inj (hok'.symm.trans htake)
  exact ⟨hu, by simp⟩

/-- A folio whose number is allocated is found if there is a frame for it. -/
theorem objectFind_folio_returns (hoid : isFolioOid f = true)
    (hcore : f / (folioObjects + 1) < foliosCore)
    (halloc : s.allocated (f / (folioObjects + 1)) = true) (hframe : 0 < s.free) (activity : ℕ)
    (policy : ObjectPolicy) : ∃ t, s.objectFind activity f policy = .ok (t, true) := by
  cases hd : s.desc f with
  | some d => exact ⟨_, objectFind_of_some hd activity policy⟩
  | none =>
    obtain ⟨t, ht⟩ := memoryObjectAlloc_ok (by simp : CapType.folio ≠ .void) (by simp [hoid])
      hframe hd activity 0 policy
    refine ⟨t, ?_⟩
    rw [objectFind, if_pos hoid, folioFind, objectFindSoft_of_none hd]
    simp only [Bool.false_eq_true, if_false, if_pos hcore, require_of halloc, ok_bind, ht]
    rfl

/-- There is a folio to take if a number and a frame are free. -/
theorem takeFolio_returns (h : Filed Q none (s.dueFrom a) T L C s) (ha : a ∈ T)
    (hf : f < foliosCore) (hnumber : s.allocated f = false) (hframe : 0 < s.free)
    (policy : FolioPolicy) :
    ∃ t g, s.takeFolio a policy = .ok (t, some g) := by
  obtain ⟨g, hbit⟩ := bitAlloc_isSome (n := foliosCore) (Nat.zero_le f) (by omega) hnumber
  obtain ⟨hg, -⟩ := bitAlloc_spec hbit
  have hdiv : g * (folioObjects + 1) / (folioObjects + 1) = g :=
    Nat.mul_div_cancel g (Nat.succ_pos _)
  obtain ⟨s₁, hfind⟩ := objectFind_folio_returns
    (s := { s with allocated := update s.allocated g true }) (isFolioOid_mul g)
    (by omega) (by rw [hdiv]; exact update_self ..) hframe a .default
  obtain ⟨t, -, htake⟩ := takeFolio_of_found h ha hbit hfind rfl policy
  exact ⟨t, _, htake⟩

/-- `folio_alloc` keeps the files in order. -/
theorem folioAllocWalks_filed (h : InFile Q none 0 s)
    (hlive : s.Live a) (hok : s.folioAllocWalks a policy = .ok (t, r)) : InFile Q none 0 t := by
  obtain ⟨T, L, C, h⟩ := h
  have ha := (h.tree.live a).2 hlive
  rcases (folioAllocWalks_eq (h.tree.nodup a ha) policy).2 with
    ⟨-, hnone⟩ | ⟨hrest, u, hcharge, heq⟩
  · obtain ⟨⟩ := Except.ok.inj (hok.symm.trans hnone)
    exact ⟨T, L, C, h⟩
  · obtain ⟨hu, hlineage, -⟩ := h.charge ha hrest hcharge
    have hdue : u.dueFrom a = s.dueFrom a := funext fun b => by simp only [dueFrom, hlineage]
    exact (takeFolio_spec (hdue ▸ hu) ha (heq ▸ hok)).1

/-! ### Runs -/

/-- The quota of an activity, as `activity_policy_update` sets it. -/
def setQuota (s : Kernel) (a q : ℕ) : Kernel :=
  s.modifyActivity a fun g => { g with quota := q }

/-- A change of quota does not lower it, where 0 stands for no limit. -/
def Raises (s : Kernel) (a q : ℕ) : Prop :=
  q = 0 ∨ (s.activity a).quota ≠ 0 ∧ (s.activity a).quota ≤ q

/-- What happens to folios: they are allocated and freed, and quotas change. Only those of some
activities may be lowered. -/
inductive FolioStep (env : Env) (lowered : Set ℕ) : Kernel → Kernel → Prop
  | alloc {s t : Kernel} {a : ℕ} {policy : FolioPolicy} {r : Option ℕ} :
      s.Live a → s.folioAllocWalks a policy = .ok (t, r) → FolioStep env lowered s t
  | free {s t : Kernel} {activity folio : ℕ} :
      s.folioFree env activity folio = .ok t → FolioStep env lowered s t
  | policy {s : Kernel} {a q : ℕ} :
      a ∈ lowered ∨ s.Raises a q → FolioStep env lowered s (s.setQuota a q)

theorem InFile.setQuota {q : ℕ} (h : InFile Q none 0 s) (hq : a ∈ Q.lowered ∨ s.Raises a q) :
    InFile Q none 0 (s.setQuota a q) := by
  obtain ⟨T, L, C, h⟩ := h
  have hread := modifyActivity_read s a (fun g => { g with quota := q })
    fun _ => ⟨rfl, rfl, rfl, rfl, rfl⟩
  have hactivity : ∀ b, ((s.setQuota a q).activity b).ancestors = (s.activity b).ancestors ∧
      ((s.setQuota a q).activity b).folioCount = (s.activity b).folioCount ∧
      ((s.setQuota a q).activity b).quota = if b = a then q else (s.activity b).quota := fun b => by
    by_cases hb : b = a
    · subst hb
      simp [Kernel.setQuota, Kernel.modifyActivity]
    · simp [Kernel.setQuota, Kernel.modifyActivity, hb]
  refine ⟨T, L, C, h.recount (t := s.setQuota a q) (fun _ => rfl) (fun p _ => hread p)
    (fun b => (hactivity b).1) (fun _ hn => hn) h.charged (fun b => by rw [(hactivity b).2.1])
    fun b hb hQ => ?_⟩
  rw [(hactivity b).2.1, (hactivity b).2.2]
  split
  · next hba =>
    subst hba
    intro hne
    rcases hq with hmem | rfl | ⟨hold, hle⟩
    · exact absurd hmem hQ
    · exact absurd rfl hne
    · exact (h.quota b hb hQ hold).trans (by exact_mod_cast hle)
  · exact h.quota b hb hQ

/-- One step keeps the files in order. -/
theorem FolioStep.filed {env : Env} (hstep : FolioStep env Q.lowered s t) (h : InFile Q none 0 s) :
    InFile Q none 0 t := by
  cases hstep with
  | alloc hlive hok => exact folioAllocWalks_filed h hlive hok
  | free hok => exact folioFree_filed h hok
  | policy hq => exact h.setQuota hq

/-- **The folios of every activity are in order**: `T` are the activities and `L` their folios. -/
structure FoliosKept (lowered : Set ℕ) (T : Finset ℕ) (L : ℕ → List ℕ) (s : Kernel) : Prop where
  /-- `T` are the activities. -/
  live : ∀ a, a ∈ T ↔ s.Live a
  /-- Each activity has a doubly linked list, whose links resolve. -/
  lists : Chained .folios T L s
  /-- The list has exactly the folios the activity owns. -/
  owned : ∀ a ∈ T, ∀ f, f ∈ L a ↔ s.Owns a f
  /-- No activity counts more folios than its quota, unless the quota was lowered. -/
  quota : ∀ a ∈ T, a ∉ lowered → (s.activity a).quota ≠ 0 →
    (s.activity a).folioCount ≤ (s.activity a).quota

/-- **The counts are right**: an activity counts the folios that it and its descendants own. -/
def CountsRight (s : Kernel) : Prop :=
  ∀ (T : Finset ℕ) (L : ℕ → List ℕ), (∀ a, a ∈ T ↔ s.Live a) →
    (∀ a ∈ T, (L a).Nodup ∧ ∀ f, f ∈ L a ↔ s.Owns a f) →
    ∀ a ∈ T, (s.activity a).folioCount = ∑ b ∈ T with a ∈ s.lineage b, ((L b).length : ℤ)

theorem Filed.kept (h : Filed Q none 0 T L C s) : FoliosKept Q.lowered T L s where
  live := h.tree.live
  lists := h.folios
  owned := h.listed
  quota := h.quota

/-- The counts are right where there is no error in the terms. -/
theorem Filed.countsRight_iff (h : Filed Q none 0 T L C s) : s.CountsRight ↔ Q.error = 0 := by
  have hcount : ∀ a ∈ T, (s.activity a).folioCount - Q.error a =
      ∑ b ∈ T with a ∈ s.lineage b, ((L b).length : ℤ) := fun a ha => by
    have hcount := h.counts a ha
    simp only [Pi.zero_apply, sub_zero] at hcount
    exact hcount
  constructor
  · intro hright
    funext a
    by_contra herror
    have ha := (h.rooted a herror).1
    have hsum := hright T L h.tree.live (fun b hb => ⟨h.folios.nodup b hb, h.listed b hb⟩) a ha
    have := hcount a ha
    exact herror (show Q.error a = 0 by omega)
  · intro herror T' L' hT hL a ha
    obtain rfl : T' = T := Finset.ext fun b => (hT b).trans (h.tree.live b).symm
    have hlength : ∀ b ∈ T', (L' b).length = (L b).length := fun b hb => by
      obtain ⟨hnodup, hmem⟩ := hL b hb
      refine ((perm_ext_iff_of_nodup hnodup (h.folios.nodup b hb)).2 fun f => ?_).length_eq
      rw [hmem, h.listed b hb]
    have hsum := hcount a ha
    rw [herror, Pi.zero_apply, sub_zero] at hsum
    rw [hsum]
    exact Finset.sum_congr rfl fun b hb => by rw [hlength b (Finset.mem_filter.1 hb).1]

/-- What a call of `folio_alloc` comes to. -/
structure AllocDecided (a : ℕ) (policy : FolioPolicy) (s : Kernel) : Prop where
  /-- It fails where the quota of the activity or of an ancestor is used up, leaving the state. -/
  fails : (∃ b ∈ s.lineage a, s.Exhausted b) → s.folioAllocWalks a policy = .ok (s, none)
  /-- It does not fail elsewhere. -/
  succeeds : (∀ b ∈ s.lineage a, ¬ s.Exhausted b) →
    ∀ t r, s.folioAllocWalks a policy = .ok (t, r) → r ≠ none
  /-- It returns a folio then if the kernel has a folio and a frame. -/
  returns : (∀ b ∈ s.lineage a, ¬ s.Exhausted b) → (∃ f < foliosCore, s.allocated f = false) →
    0 < s.free → ∃ t f, s.folioAllocWalks a policy = .ok (t, some f)

theorem Filed.decides (h : Filed Q none 0 T L C s) (hlive : s.Live a) (policy : FolioPolicy) :
    AllocDecided a policy s := by
  have ha := (h.tree.live a).2 hlive
  rcases (folioAllocWalks_eq (h.tree.nodup a ha) policy).2 with
    ⟨⟨b, hb, hexhausted⟩, hnone⟩ | ⟨hrest, u, hcharge, heq⟩
  · exact ⟨fun _ => hnone, fun hrest => absurd hexhausted (hrest b hb),
      fun hrest => absurd hexhausted (hrest b hb)⟩
  · obtain ⟨hu, hlineage, -, hallocated, hfree⟩ := h.charge ha hrest hcharge
    have hdue : u.dueFrom a = s.dueFrom a := funext fun b => by simp only [dueFrom, hlineage]
    rw [← hdue] at hu
    refine ⟨?_, fun _ t r hok => (takeFolio_spec hu ha (heq ▸ hok)).2, ?_⟩
    · rintro ⟨b, hb, hexhausted⟩
      exact absurd hexhausted (hrest b hb)
    · rintro - ⟨f, hf, hnumber⟩ hframe
      rw [heq]
      exact takeFolio_returns hu ha hf (hallocated ▸ hnumber) (hfree ▸ hframe) policy

theorem run_filed {env : Env} (h : InFile Q none 0 s)
    (hrun : Relation.ReflTransGen (FolioStep env Q.lowered) s t) : InFile Q none 0 t := by
  induction hrun with
  | refl => exact h
  | tail _ hstep ih => exact hstep.filed ih

/-- `folio_alloc` before there is a root activity: no quota is checked, nobody is charged, and the
folio has no owner. -/
def folioAllocUnowned (policy : FolioPolicy) (s : Kernel) : Except Fault (Kernel × ℕ) :=
  match bitAlloc s.allocated foliosCore 0 with
  | none => .error .panic
  | some f => do
    let folio := f * (folioObjects + 1)
    let s := { s with allocated := update s.allocated f true }
    let s ← if (s.desc folio).isSome then pure s else s.memoryObjectPlace .folio folio 0
    pure (s.modifyFolio folio fun g => { g with policy }, folio)

/-- How the kernel sets up its first activity (`process_spawn`): it allocates a folio, the root
activity in the first slot of it, and then gives the folio to the root activity. -/
def boot (s : Kernel) : Except Fault Kernel := do
  let (s, folio) ← s.folioAllocUnowned ⟨false, 0, 0⟩
  let root := objectOid folio 0
  -- `folio_object_alloc` and `activity_create`, on behalf of nobody
  let s := s.turnSlot folio 0 .activityControl .default
  let s ← s.memoryObjectPlace .activityControl root ((s.folio folio).entry 0).version
  let s ← s.folioParent root folio
  let s := s.objectDescClaim (some root) root .default
  pure (s.objectDescClaim (some root) folio .default)

/-- The memory before anything is in it. -/
def blank (free : ℕ) : Kernel where
  desc _ := none
  caps _ _ := .void
  bytes _ _ := 0
  folio _ := .zero
  activity _ := .zero
  status _ := ⟨false, false⟩
  allocated _ := false
  free := free
  laundry := []
  available := []
  waitsOn _ := none
  turnover _ := 0

/-- A kernel with **one folio**, of which the first object is the root activity. The activity owns
the folio. -/
structure OneFolio (s : Kernel) : Prop where
  desc : ∀ o, (s.desc o).map Desc.record =
    if o = 0 then some (.folio, 0) else if o = 1 then some (.activityControl, 0) else none
  owner : ((s.read (.folioActivity 0)).type, (s.read (.folioActivity 0)).oid,
    (s.read (.folioActivity 0)).version) = (.activityControl, 1, 0)
  head : ((s.read (.activityFolios 1)).type, (s.read (.activityFolios 1)).oid,
    (s.read (.activityFolios 1)).version) = (.folio, 0, 0)
  ends : (s.read (.folioNext 0)).type = .void ∧ (s.read (.folioPrev 0)).type = .void ∧
    (s.read (.activityChildren 1)).type = .void
  root : (s.activity 1).ancestors = []
  allocated : s.allocated 0 = true
  quota : (s.activity 1).quota ≠ 0 → (s.activity 1).folioCount ≤ (s.activity 1).quota

namespace OneFolio

variable (h : OneFolio s)

include h

theorem type (o : ℕ) : (s.desc o).map Desc.type =
    if o = 0 then some .folio else if o = 1 then some .activityControl else none := by
  have hdesc := congrArg (Option.map Prod.fst) (h.desc o)
  rw [Option.map_map] at hdesc
  refine hdesc.trans ?_
  split_ifs <;> rfl

theorem live_iff : s.Live a ↔ a = 1 := by
  rw [Live, h.type]
  split_ifs with h₀ h₁
  · simp [h₀]
  · simp [h₁]
  · simp [h₁]

theorem owns_iff : s.Owns a f ↔ a = 1 ∧ f = 0 := by
  obtain ⟨htype, hoid, -⟩ := by simpa only [Prod.mk.injEq] using h.owner
  rw [Owns, h.type]
  by_cases hf : f = 0
  · subst hf
    simp [Cap.target, htype, hoid, eq_comm]
  · split_ifs <;> simp [hf]

theorem fresh_owner : s.Fresh (s.read (.folioActivity 0)) := by
  obtain ⟨htype, hoid, hversion⟩ := by simpa only [Prod.mk.injEq] using h.owner
  obtain ⟨d, hd, hrecord⟩ := Option.map_eq_some_iff.1 (h.desc 1)
  obtain ⟨hdtype, hdversion⟩ := Prod.mk.inj hrecord
  exact .inr ⟨d, hoid ▸ hd, by rw [hversion, hdversion], by rw [htype, hdtype]; rfl⟩

theorem fresh_head : s.Fresh (s.read (.activityFolios 1)) := by
  obtain ⟨htype, hoid, hversion⟩ := by simpa only [Prod.mk.injEq] using h.head
  obtain ⟨d, hd, hrecord⟩ := Option.map_eq_some_iff.1 (h.desc 0)
  obtain ⟨hdtype, hdversion⟩ := Prod.mk.inj hrecord
  exact .inr ⟨d, hoid ▸ hd, by rw [hversion, hdversion], by rw [htype, hdtype]; rfl⟩

theorem isSome (ho : o = 0 ∨ o = 1) : (s.desc o).isSome = true := by
  rw [← Option.isSome_map (f := Desc.record), h.desc]
  rcases ho with rfl | rfl <;> rfl

theorem folios : Chained .folios {1} (fun _ => [0]) s := by
  obtain ⟨htype, hoid, -⟩ := by simpa only [Prod.mk.injEq] using h.head
  refine ⟨fun a ha => ?_, fun _ _ => by decide, fun a ha b hb _ _ _ => ?_, ?_, fun a ha => ?_⟩
  · obtain rfl := Finset.mem_singleton.1 ha
    refine ⟨?_, ?_, ?_⟩
    · show (s.read (.activityFolios 1)).target = some 0
      simp [Cap.target, htype, hoid]
    · show (s.read (.folioPrev 0)).target = none
      simp [Cap.target, h.ends.2.1]
    · show (s.read (.folioNext 0)).target = none
      simp [Cap.target, h.ends.1]
  · rw [Finset.mem_singleton.1 ha, Finset.mem_singleton.1 hb]
  · rintro p ⟨a, ha, rfl | ⟨x, hx, rfl | rfl⟩⟩
    · obtain rfl := Finset.mem_singleton.1 ha
      exact h.fresh_head
    · obtain rfl := mem_singleton.1 hx
      exact .inl h.ends.1
    · obtain rfl := mem_singleton.1 hx
      exact .inl h.ends.2.1
  · obtain rfl := Finset.mem_singleton.1 ha
    refine ⟨h.isSome (.inr rfl), fun x hx => h.isSome (.inl (mem_singleton.1 hx))⟩

theorem children : Chained .children {1} (fun _ => []) s := by
  refine ⟨fun a ha => ?_, fun _ _ => nodup_nil, fun _ _ _ _ _ hx => by simp at hx, ?_,
    fun a ha => ⟨h.isSome (.inr (Finset.mem_singleton.1 ha)), by simp⟩⟩
  · obtain rfl := Finset.mem_singleton.1 ha
    show (s.read (.activityChildren 1)).target = none
    simp [Cap.target, h.ends.2.2]
  · rintro p ⟨a, ha, rfl | ⟨x, hx, -⟩⟩
    · obtain rfl := Finset.mem_singleton.1 ha
      exact .inl h.ends.2.2
    · simp at hx

theorem lineage_eq : s.lineage 1 = [1] := by rw [lineage, h.root]

theorem tree : Tree {1} s := by
  refine ⟨fun a => by rw [Finset.mem_singleton, h.live_iff], fun a ha => ?_,
    fun a ha b hb => ?_, fun a ha p rest hchain => ?_⟩ <;> obtain rfl := Finset.mem_singleton.1 ha
  · rw [h.lineage_eq]
    decide
  · rw [h.lineage_eq] at hb
    simpa using hb
  · simp [h.root] at hchain

/-- The files are in order, with an error in the count if the root does not count its folio. -/
theorem filed : InFile ⟨∅, Pi.single 1 ((s.activity 1).folioCount - 1)⟩ none 0 s := by
  refine ⟨{1}, fun _ => [0], fun _ => [], h.tree, h.folios, h.children, fun f hf hsome => ?_,
    fun a f hown => ?_, fun a ha f => ?_, fun a ha b => ?_, by simp, fun a ha => absurd rfl ha,
    fun a ha => ?_, fun a ha _ => ?_, fun a ha => ?_⟩
  · rw [h.type]
    rw [← Option.isSome_map (f := Desc.type), h.type] at hsome
    split_ifs at hsome ⊢ with h₀ h₁
    · rfl
    · simp [h₁, isFolioOid, folioObjects] at hf
    · simp at hsome
  · obtain ⟨rfl, rfl⟩ := h.owns_iff.1 hown
    exact ⟨by simp, h.fresh_owner, rfl, h.allocated⟩
  · rw [h.owns_iff, Finset.mem_singleton.1 ha]
    simp
  · rw [Finset.mem_singleton.1 ha]
    simp only [not_mem_nil, Finset.mem_singleton, false_iff, not_and]
    rintro rfl -
    simp [h.root]
  · obtain rfl := Finset.mem_singleton.1 ha
    simp [Finset.filter_singleton, h.lineage_eq]
  · obtain rfl := Finset.mem_singleton.1 ha
    exact h.quota
  · have ha : a = 1 := by
      by_contra hne
      simp [hne] at ha
    subst ha
    exact ⟨by simp, by simp, h.root⟩

theorem countsRight_iff : s.CountsRight ↔ (s.activity 1).folioCount = 1 := by
  obtain ⟨T, L, C, hfiled⟩ := h.filed
  rw [hfiled.countsRight_iff, Pi.single_eq_zero_iff, sub_eq_zero]

end OneFolio

/-- The kernel after it has booted with five frames. -/
def booted : Kernel :=
  match (blank 5).boot with
  | .ok s => s
  | .error _ => blank 5

theorem booted_oneFolio : OneFolio booted where
  desc o := by rcases o with _ | _ | o <;> rfl
  owner := rfl
  head := rfl
  ends := ⟨rfl, rfl, rfl⟩
  root := rfl
  allocated := rfl
  quota := by decide

/-- A root activity that counts its folio and may have two. -/
def twoFolios : Kernel := (ofTypes [.activityControl] (fun _ _ => .void) 1).setQuota 1 2

theorem twoFolios_oneFolio : OneFolio twoFolios where
  desc o := by rcases o with _ | _ | o <;> rfl
  owner := rfl
  head := rfl
  ends := ⟨rfl, rfl, rfl⟩
  root := rfl
  allocated := rfl
  quota := by decide

end Kernel

end Viengoos
