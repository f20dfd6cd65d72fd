import Viengoos.AsBuild.Spec

/-!
# How the page tables evolve

`as_build` changes the tree below a slot in three ways: it gives a free slot a guard, it moves a
subtree one table further down, and it works on a child. `Evolves` is what all of them have in
common: the new state still represents a tree, every entry is still there with what it designates,
and nothing outside the tree has been touched. `Evolves.free`, `Evolves.pivot` and
`Evolves.child` are the three cases.
-/

namespace Viengoos

open BitString PageTree Function

/-- From state `s` and tree `t` below slot `p` to state `s'` and tree `t'`, with new entries `A`
only. An entry stays in its slot unless it moved to a **fresh** table. -/
structure Evolves (s s' : Shadow) (t t' : PageTree) (p : ShadowPtr) (A : List Bool → Prop) :
    Prop where
  rep : Rep s' t' p
  sep : t'.Sep
  full : t'.Full
  oids : ∀ o ∈ t'.oids, o ∈ t.oids ∨ s.next ≤ o
  next : s.next ≤ s'.next
  old : ∀ e r, Holds t p e r → ∃ r', Holds t' p e r' ∧ (s'.read r').core = (s.read r).core ∧
    (r' = r ∨ ∃ o i, r' = .slot o i ∧ s.next ≤ o)
  only : ∀ e r, Holds t' p e r → A e ∨ ∃ r₀, Holds t p e r₀
  frame : ∀ x, x ≠ p → (∀ o i, x = .slot o i → o ∉ t.oids ∧ o < s.next) → s'.read x = s.read x

/-- A slot that a tree can hang below: a real slot, in no table of the tree, and not in a table
that is still to be allocated. -/
structure Anchors (s : Shadow) (t : PageTree) (p : ShadowPtr) : Prop where
  real : ∀ d, p ≠ .fake d
  outside : t.Outside p
  old : ∀ o i, p = .slot o i → o < s.next

variable {s s' s₁ : Shadow} {t t₁ t' : PageTree} {p q : ShadowPtr} {A B : List Bool → Prop}

/-! ### A guard on a free slot -/

/-- Giving a free slot a guard makes it an entry. -/
theorem Evolves.free {new : Cap} (hp : ∀ d, p ≠ .fake d) (hok : new.GuardOk) :
    Evolves s (s.write p new) .empty (.entry new.guardList) p (· = new.guardList) where
  rep := by
    rw [Rep, Shadow.read_write_self _ _ hp]
    exact ⟨hok, rfl⟩
  sep := trivial
  full := trivial
  oids := fun o ho => ho.elim
  next := by simp
  old := fun e r h => by cases h
  only := fun e r h => by
    cases h
    exact .inl rfl
  frame := fun x hx _ => Shadow.read_write_of_ne _ _ hx

/-! ### Composition -/

theorem Evolves.trans (h : Evolves s s₁ t t₁ p A) (h' : Evolves s₁ s' t₁ t' p B) :
    Evolves s s' t t' p fun e => A e ∨ B e where
  rep := h'.rep
  sep := h'.sep
  full := h'.full
  oids := fun o ho => by
    rcases h'.oids o ho with ho | ho
    · exact h.oids o ho
    · exact .inr (h.next.trans ho)
  next := h.next.trans h'.next
  old := fun e r hr => by
    obtain ⟨r₁, hr₁, hcore₁, hloc₁⟩ := h.old e r hr
    obtain ⟨r', hr', hcore', hloc'⟩ := h'.old e r₁ hr₁
    refine ⟨r', hr', hcore'.trans hcore₁, ?_⟩
    rcases hloc' with rfl | ⟨o, i, rfl, ho⟩
    · exact hloc₁
    · exact .inr ⟨o, i, rfl, h.next.trans ho⟩
  only := fun e r hr => by
    rcases h'.only e r hr with hB | ⟨r₁, hr₁⟩
    · exact .inl (.inr hB)
    · exact (h.only e r₁ hr₁).imp .inl id
  frame := fun x hx hout => by
    rw [h'.frame x hx, h.frame x hx hout]
    intro o i hxo
    obtain ⟨hmem, hlt⟩ := hout o i hxo
    refine ⟨fun ho => ?_, hlt.trans_le h.next⟩
    rcases h.oids o ho with ho | ho
    · exact hmem ho
    · omega

theorem Evolves.mono (h : Evolves s s' t t' p A) (hAB : ∀ e, A e → B e) :
    Evolves s s' t t' p B :=
  { h with only := fun e r hr => (h.only e r hr).imp (hAB e) id }

/-! ### Work on a child -/

section Child

variable {g : List Bool} {o w i : ℕ} {ch : ℕ → PageTree}

/-- A child of a represented table hangs below its slot. -/
theorem Anchors.child (hrep : Rep s (.table g o w ch) p) (hsep : (table g o w ch).Sep)
    (hi : i < 2 ^ w) : Anchors s (ch i) (.slot o i) where
  real := by simp
  outside := by
    rintro o' i' h
    obtain ⟨rfl, -⟩ := ShadowPtr.slot.inj h
    exact (hsep.1 i hi).2
  old := by
    rintro o' i' h
    obtain ⟨rfl, -⟩ := ShadowPtr.slot.inj h
    exact hrep.2.1.2.1

/-- What happens below one child leaves the others alone. -/
private theorem sibling_frame (hrep : Rep s (.table g o w ch) p)
    (hsep : (table g o w ch).Sep) (hi : i < 2 ^ w) {j : ℕ} (hj : j < 2 ^ w) (hij : j ≠ i)
    (h : Evolves s s' (ch i) t' (.slot o i) A) {x : ShadowPtr}
    (hx : x = .slot o j ∨ ∃ o' k, x = .slot o' k ∧ o' ∈ (ch j).oids) :
    s'.read x = s.read x := by
  rcases hx with rfl | ⟨o', k, rfl, ho'⟩
  · refine h.frame _ (by simpa using hij) fun o' k hk => ?_
    obtain ⟨rfl, -⟩ := ShadowPtr.slot.inj hk
    exact ⟨(hsep.1 i hi).2, hrep.2.1.2.1⟩
  · have hne : o' ≠ o := fun heq => (hsep.1 j hj).2 (heq ▸ ho')
    refine h.frame _ (fun heq => hne (ShadowPtr.slot.inj heq).1) fun o'' k' hk => ?_
    obtain ⟨rfl, -⟩ := ShadowPtr.slot.inj hk
    exact ⟨Set.disjoint_left.1 (hsep.2 j hj i hi hij) ho', (hrep.2.2 j hj).oids_lt ho'⟩

/-- Evolving one child evolves the tree. -/
theorem Evolves.child (hanc : Anchors s (.table g o w ch) p)
    (hrep : Rep s (.table g o w ch) p) (hsep : (table g o w ch).Sep)
    (hfull : (table g o w ch).Full) (hi : i < 2 ^ w) (h : Evolves s s' (ch i) t' (.slot o i) A) :
    Evolves s s' (.table g o w ch) (.table g o w (update ch i t')) p
      fun e => ∃ a, A a ∧ e = g ++ (bits w i ++ a) := by
  have hread : s'.read p = s.read p := by
    refine h.frame p (fun heq => ?_) fun o' k hk => ⟨fun ho' => ?_, hanc.old o' k hk⟩
    · exact hanc.outside o i heq (mem_oids_table.2 (.inl rfl))
    · exact hanc.outside o' k hk (mem_oids_table.2 (.inr ⟨i, hi, ho'⟩))
  -- the tables below a child after the change are its old ones or fresh
  have hfresh {x : ℕ} (hx : x ∈ t'.oids) : x ≠ o := by
    rintro rfl
    rcases h.oids x hx with hx | hx
    · exact (hsep.1 i hi).2 hx
    · exact absurd hrep.2.1.2.1 (Nat.not_lt.2 hx)
  have hdisj {j : ℕ} (hj : j < 2 ^ w) (hij : j ≠ i) : Disjoint t'.oids (ch j).oids := by
    refine Set.disjoint_left.2 fun x hx hx' => ?_
    rcases h.oids x hx with hx | hx
    · exact Set.disjoint_left.1 (hsep.2 i hi j hj hij.symm) hx hx'
    · exact absurd ((hrep.2.2 j hj).oids_lt hx') (Nat.not_lt.2 hx)
  refine
    { rep := ?_
      sep := ⟨fun j hj => ?_, fun j hj k hk hjk => ?_⟩
      full := ⟨fun j hj => ?_, ?_⟩
      oids := fun x hx => ?_
      next := h.next
      old := fun e r hr => ?_
      only := fun e r hr => ?_
      frame := fun x hx hout => ?_ }
  · have hw := hrep.2.1
    refine ⟨by rw [hread]; exact hrep.1, ⟨hw.1, hw.2.1.trans_le h.next, hw.2.2⟩, fun j hj => ?_⟩
    by_cases hij : j = i
    · subst hij
      rw [update_self]
      exact h.rep
    · rw [update_of_ne hij]
      refine (hrep.2.2 j hj).frame ?_ (fun o' ho' k => ?_) h.next
      · exact sibling_frame hrep hsep hi hj hij h (.inl rfl)
      · exact sibling_frame hrep hsep hi hj hij h (.inr ⟨o', k, rfl, ho'⟩)
  · by_cases hij : j = i
    · subst hij
      rw [update_self]
      exact ⟨h.sep, fun ho => hfresh ho rfl⟩
    · rw [update_of_ne hij]
      exact hsep.1 j hj
  · by_cases hji : j = i
    · subst hji
      rw [update_self, update_of_ne hjk.symm]
      exact hdisj hk hjk.symm
    · by_cases hki : k = i
      · subst hki
        rw [update_self, update_of_ne hji]
        exact (hdisj hj hji).symm
      · rw [update_of_ne hji, update_of_ne hki]
        exact hsep.2 j hj k hk hjk
  · by_cases hij : j = i
    · subst hij
      rw [update_self]
      exact h.full
    · rw [update_of_ne hij]
      exact hfull.1 j hj
  · obtain ⟨j, hj, a, r, hr⟩ := hfull.2
    by_cases hij : j = i
    · subst hij
      obtain ⟨r', hr', -⟩ := h.old a r hr
      exact ⟨j, hj, a, r', by rwa [update_self]⟩
    · exact ⟨j, hj, a, r, by rwa [update_of_ne hij]⟩
  · rcases mem_oids_table.1 hx with rfl | ⟨j, hj, hx⟩
    · exact .inl (mem_oids_table.2 (.inl rfl))
    · by_cases hij : j = i
      · subst hij
        rw [update_self] at hx
        exact (h.oids x hx).imp (fun hx => mem_oids_table.2 (.inr ⟨j, hj, hx⟩)) id
      · rw [update_of_ne hij] at hx
        exact .inl (mem_oids_table.2 (.inr ⟨j, hj, hx⟩))
  · cases hr with
    | @table _ _ _ j _ _ _ a hj hr =>
      by_cases hij : j = i
      · subst hij
        obtain ⟨r', hr', hcore, hloc⟩ := h.old a r hr
        exact ⟨r', .table hj (by rwa [update_self]), hcore, hloc⟩
      · refine ⟨r, .table hj (by rwa [update_of_ne hij]), ?_, .inl rfl⟩
        rw [sibling_frame hrep hsep hi hj hij h hr.slot_cases]
  · cases hr with
    | @table _ _ _ j _ _ _ a hj hr =>
      by_cases hij : j = i
      · subst hij
        rw [update_self] at hr
        rcases h.only a r hr with hA | ⟨r₀, hr₀⟩
        · exact .inl ⟨a, hA, rfl⟩
        · exact .inr ⟨r₀, .table hj hr₀⟩
      · rw [update_of_ne hij] at hr
        exact .inr ⟨r, .table hj hr⟩
  · refine h.frame x (fun heq => ?_) fun o' k hk => ⟨fun ho' => ?_, (hout o' k hk).2⟩
    · exact (hout o i heq).1 (mem_oids_table.2 (.inl rfl))
    · exact (hout o' k hk).1 (mem_oids_table.2 (.inr ⟨i, hi, ho'⟩))

end Child

/-! ### A table in between -/

/-- The tree after a table has been inserted in front of it. -/
def pivotTree (o w i : ℕ) (g₁ g₂ : List Bool) (t : PageTree) : PageTree :=
  .table g₁ o w (update (fun _ => .empty) i (t.reguard g₂))

/-- Moving a tree to another slot behind another guard. -/
theorem Rep.reguard {g : List Bool} (h : Rep s t p) (hne : t ≠ .empty)
    (hok : (s'.read q).GuardOk) (hg : (s'.read q).guardList = g)
    (hcore : (s'.read q).core = (s.read p).core)
    (htab : ∀ o ∈ t.oids, ∀ i, s'.caps o i = s.caps o i) (hnext : s.next ≤ s'.next) :
    Rep s' (t.reguard g) q := by
  cases t with
  | empty => exact absurd rfl hne
  | entry g' => exact ⟨hok, hg⟩
  | table g' o w ch =>
    obtain ⟨⟨htype, hoid, hsub, hlog, -, -⟩, ⟨ho, hlt, hw⟩, hchild⟩ := h
    simp only [Cap.core, Cap.Core.mk.injEq] at hcore
    obtain ⟨hctype, hcoid, -, -, hcsub, hcsubs⟩ := hcore
    have hclog : (s'.read q).addrTrans.subpagesLog2.val = 8 - w := by
      refine subpagesLog2_of_subpages (hcsubs.trans ?_)
      rw [AddrTrans.subpages, hlog]
    refine ⟨⟨hctype.trans htype, hcoid.trans hoid, hcsub.trans hsub, hclog, hok, hg⟩,
      ⟨ho, hlt.trans_le hnext, hw⟩, fun i hi => ?_⟩
    refine (hchild i hi).frame (htab o (mem_oids_table.2 (.inl rfl)) i) (fun o' ho' => ?_) hnext
    exact htab o' (mem_oids_table.2 (.inr ⟨i, hi, ho'⟩))

/-- Inserting a table in front of a tree keeps all its entries. -/
theorem Evolves.pivot {gbits w : ℕ} (hanc : Anchors s t p) (hrep : Rep s t p) (hsep : t.Sep)
    (hfull : t.Full) (hne : t ≠ .empty) (hw : 0 < w) (hw8 : w ≤ 8)
    (hfit : gbits + w ≤ (s.read p).addrTrans.guardBits) (h : TableInserted s s' p gbits w) :
    let c := s.read p
    Evolves s s' t
      (pivotTree s.next w (field c.addrTrans.guard (c.addrTrans.guardBits - gbits) w)
        (bits gbits (field c.addrTrans.guard c.addrTrans.guardBits gbits))
        (bits (c.addrTrans.guardBits - gbits - w) c.addrTrans.guard) t) p fun _ => False := by
  intro c
  set i := field c.addrTrans.guard (c.addrTrans.guardBits - gbits) w with hi
  set g₁ := bits gbits (field c.addrTrans.guard c.addrTrans.guardBits gbits) with hg₁
  set g₂ := bits (c.addrTrans.guardBits - gbits - w) c.addrTrans.guard with hg₂
  have hilt : i < 2 ^ w := field_lt _ _ _
  have hguard : t.guard = g₁ ++ (bits w i ++ g₂) := by
    rw [← hrep.guardList_eq, guardList_cut hfit]
  have hlt {o : ℕ} (ho : o ∈ t.oids) : o < s.next := hrep.oids_lt ho
  have htab (o : ℕ) (ho : o ∈ t.oids) (j : ℕ) : s'.caps o j = s.caps o j := by
    refine h.frame (.slot o j) (fun heq => hanc.outside o j heq.symm ho) fun k hk => ?_
    exact absurd (hlt ho) (by rw [(ShadowPtr.slot.inj hk).1]; exact lt_irrefl _)
  obtain ⟨hpok, hpcore, hplist⟩ := h.pivot
  refine
    { rep := ⟨⟨h.type, h.oid, h.subpage, h.log2, h.guardOk, h.guard⟩,
        ⟨h.next_ne, by rw [h.next]; exact Nat.lt_succ_self _, hw, hw8⟩, fun j hj => ?_⟩
      sep := ⟨fun j hj => ?_, fun j hj k hk hjk => ?_⟩
      full := ⟨fun j hj => ?_, ?_⟩
      oids := fun o ho => ?_
      next := by rw [h.next]; exact Nat.le_succ _
      old := fun e r hr => ?_
      only := fun e r hr => ?_
      frame := fun x hx hout => ?_ }
  · by_cases hji : j = i
    · subst hji
      rw [update_self]
      exact hrep.reguard hne hpok hplist hpcore htab (by rw [h.next]; exact Nat.le_succ _)
    · rw [update_of_ne hji]
      exact h.free j hji
  · by_cases hji : j = i
    · subst hji
      rw [update_self]
      exact ⟨hsep.reguard _, fun ho => lt_irrefl _ (hlt (by simpa using ho))⟩
    · rw [update_of_ne hji]
      exact ⟨trivial, fun ho => ho.elim⟩
  · by_cases hji : j = i
    · have hki : k ≠ i := fun hki => hjk (hji.trans hki.symm)
      rw [update_of_ne hki]
      exact Set.disjoint_empty _
    · rw [update_of_ne hji]
      exact Set.empty_disjoint _
  · by_cases hji : j = i
    · subst hji
      rw [update_self]
      exact hfull.reguard _
    · rw [update_of_ne hji]
      trivial
  · obtain ⟨e, r, hr⟩ := exists_holds hfull hne p
    obtain ⟨b, rfl⟩ := hr.exists_eq_guard_append
    obtain ⟨r', hr', -⟩ := hr.reguard (.slot s.next i) g₂
    exact ⟨i, hilt, _, r', by rwa [update_self]⟩
  · rcases mem_oids_table.1 ho with rfl | ⟨j, hj, ho⟩
    · exact .inr le_rfl
    · by_cases hji : j = i
      · subst hji
        rw [update_self, oids_reguard] at ho
        exact .inl ho
      · rw [update_of_ne hji] at ho
        exact ho.elim
  · obtain ⟨b, rfl⟩ := hr.exists_eq_guard_append
    obtain ⟨r', hr', hloc⟩ := hr.reguard (.slot s.next i) g₂
    refine ⟨r', ?_, ?_, ?_⟩
    · rw [hguard, List.append_assoc, List.append_assoc]
      exact .table hilt (by rwa [update_self])
    · rcases hloc with ⟨rfl, o, k, rfl, ho⟩ | ⟨rfl, rfl⟩
      · exact congrArg Cap.core (htab o ho k)
      · exact hpcore
    · rcases hloc with ⟨rfl, -⟩ | ⟨-, rfl⟩
      · exact .inl rfl
      · exact .inr ⟨_, _, rfl, le_rfl⟩
  · right
    generalize htree : pivotTree s.next w i g₁ g₂ t = t' at hr
    cases hr with
    | entry => simp [pivotTree] at htree
    | @table _ o w' j ch _ _ a hj hr =>
      obtain ⟨rfl, rfl, rfl, rfl⟩ := PageTree.table.inj htree
      by_cases hji : j = i
      · subst hji
        rw [update_self] at hr
        obtain ⟨b, rfl⟩ := hr.exists_eq_guard_append
        obtain ⟨r₀, hr₀, -⟩ := hr.reguard p t.guard
        rw [reguard_reguard_guard, hguard, List.append_assoc, List.append_assoc] at hr₀
        rw [guard_reguard hne]
        exact ⟨r₀, hr₀⟩
      · rw [update_of_ne hji] at hr
        cases hr
  · refine h.frame x hx fun k hk => ?_
    exact absurd (hout _ _ hk).2 (lt_irrefl _)

end Viengoos
