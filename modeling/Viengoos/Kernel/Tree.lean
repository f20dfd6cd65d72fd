import Viengoos.Kernel.Folio

/-!
# The tree of activities

The activities in memory are a tree: each has the chain of its ancestors, up to the root. Code that
changes a count for an activity and all its ancestors goes up this chain.
-/

namespace Viengoos

open List

namespace Kernel

variable {T : Finset ℕ} {s t : Kernel} {a c v p : ℕ} {rest : List ℕ}


/-- `activity_for_each_ancestor` changes each activity of the chain once. -/
theorem forEachAncestor_activity (hnodup : (s.lineage a).Nodup) (f : Activity → Activity) (b : ℕ) :
    (s.forEachAncestor a f).activity b =
      if b ∈ s.lineage a then f (s.activity b) else s.activity b := by
  have hfold : ∀ (l : List ℕ) (t : Kernel), l.Nodup →
      (l.foldl (fun t c => t.modifyActivity c f) t).activity b =
        if b ∈ l then f (t.activity b) else t.activity b := by
    intro l
    induction l with
    | nil => exact fun _ _ => rfl
    | cons c l ih =>
      intro t hl
      obtain ⟨hc, hl⟩ := nodup_cons.1 hl
      rw [foldl_cons, ih _ hl]
      by_cases hb : b = c
      · subst hb
        simp [hc, modifyActivity]
      · simp [hb, modifyActivity]
  exact hfold _ s hnodup


/-- An activity in memory. -/
def Live (s : Kernel) (a : ℕ) : Prop := (s.desc a).map Desc.type = some .activityControl

instance (s : Kernel) (a : ℕ) : Decidable (s.Live a) :=
  inferInstanceAs (Decidable (_ = some CapType.activityControl))

/-- The activities in memory are a tree: each is below a chain of others, up to the root. -/
structure Tree (T : Finset ℕ) (s : Kernel) : Prop where
  live : ∀ a, a ∈ T ↔ s.Live a
  nodup : ∀ a ∈ T, (s.lineage a).Nodup
  above : ∀ a ∈ T, ∀ b ∈ s.lineage a, b ∈ T
  parent : ∀ a ∈ T, ∀ p rest, (s.activity a).ancestors = p :: rest →
    rest = (s.activity p).ancestors


/-- Activities stay and keep their ancestors. -/
theorem Tree.congr (h : Tree T s) (hlive : ∀ a, t.Live a ↔ s.Live a)
    (hancestors : ∀ a ∈ T, (t.activity a).ancestors = (s.activity a).ancestors) : Tree T t := by
  have hlineage : ∀ a ∈ T, t.lineage a = s.lineage a := fun a ha => by
    rw [lineage, lineage, hancestors a ha]
  refine ⟨fun a => (h.live a).trans (hlive a).symm, fun a ha => ?_, fun a ha => ?_,
    fun a ha p rest hp => ?_⟩
  · rw [hlineage a ha]
    exact h.nodup a ha
  · rw [hlineage a ha]
    exact h.above a ha
  · rw [hancestors a ha] at hp
    rw [hancestors p (h.above a ha p (by simp [lineage, hp]))]
    exact h.parent a ha p rest hp

/-- An activity joins that has no ancestors. -/
theorem Tree.joined (h : Tree T s) (hc : t.Live c)
    (hroot : (t.activity c).ancestors = []) (hlive : ∀ a, a ≠ c → (t.Live a ↔ s.Live a))
    (hancestors : ∀ a ∈ T, (t.activity a).ancestors = (s.activity a).ancestors) :
    Tree (insert c T) t := by
  have hlineage : ∀ a ∈ T, t.lineage a = s.lineage a := fun a ha => by
    rw [lineage, lineage, hancestors a ha]
  refine ⟨fun a => ?_, fun a ha => ?_, fun a ha b hb => ?_, fun a ha p rest hp => ?_⟩
  · by_cases hac : a = c
    · simp [hac, hc]
    · rw [Finset.mem_insert, or_iff_right hac, h.live, hlive a hac]
  · rcases Finset.mem_insert.1 ha with rfl | ha
    · simp [lineage, hroot]
    · rw [hlineage a ha]
      exact h.nodup a ha
  · rcases Finset.mem_insert.1 ha with rfl | ha
    · simp_all [lineage]
    · rw [hlineage a ha] at hb
      exact Finset.mem_insert_of_mem (h.above a ha b hb)
  · rcases Finset.mem_insert.1 ha with rfl | ha
    · exact absurd (hroot.symm.trans hp) (by simp)
    · rw [hancestors a ha] at hp
      rw [hancestors p (h.above a ha p (by simp [lineage, hp]))]
      exact h.parent a ha p rest hp

/-- An activity leaves that has nothing below it. -/
theorem Tree.left (h : Tree T s) (hc : ¬ t.Live c)
    (hleaf : ∀ b ∈ T, c ∈ s.lineage b → b = c) (hlive : ∀ a, a ≠ c → (t.Live a ↔ s.Live a))
    (hancestors : ∀ a, (t.activity a).ancestors = (s.activity a).ancestors) :
    Tree (T.erase c) t := by
  have hlineage : ∀ a, t.lineage a = s.lineage a := fun a => by
    rw [lineage, lineage, hancestors a]
  refine ⟨fun a => ?_, fun a ha => ?_, fun a ha b hb => ?_, fun a ha p rest hp => ?_⟩
  · by_cases hac : a = c
    · simp [hac, hc]
    · rw [Finset.mem_erase, h.live, hlive a hac, and_iff_right hac]
  · rw [hlineage]
    exact h.nodup a (Finset.mem_of_mem_erase ha)
  · obtain ⟨hac, haT⟩ := Finset.mem_erase.1 ha
    rw [hlineage] at hb
    refine Finset.mem_erase.2 ⟨?_, h.above a haT b hb⟩
    rintro rfl
    exact hac (hleaf a haT hb)
  · rw [hancestors] at hp ⊢
    exact h.parent a (Finset.mem_of_mem_erase ha) p rest hp


/-- The parent of an activity in memory. -/
theorem Tree.lineage_eq (h : Tree T s) (hv : v ∈ T)
    (hchain : (s.activity v).ancestors = p :: rest) :
    s.lineage v = v :: s.lineage p ∧ p ∈ T ∧ v ≠ p := by
  have hup : s.lineage v = v :: s.lineage p := by
    rw [lineage, lineage, hchain, h.parent v hv p rest hchain]
  have hmem : p ∈ s.lineage p := mem_cons_self
  refine ⟨hup, h.above v hv p (by rw [hup]; exact mem_cons_of_mem v hmem), ?_⟩
  rintro rfl
  have hnodup := h.nodup v hv
  rw [hup] at hnodup
  exact (nodup_cons.1 hnodup).1 hmem

end Kernel

end Viengoos
