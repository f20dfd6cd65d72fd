import Viengoos.Mm.Replace

/-!
# `map_join`

`map_join` is to merge two maps that follow each other. It destroys the second one, with the storage
and the address range that it has, and then moves the **offset** of the first one, where its length
is to grow. No pair of maps that it joins keeps what its addresses had.
-/

namespace Viengoos

open Outcome FreeSpace List

namespace Maps

open Anon

variable {s : Maps Anon} {A : Set ℕ} {first second : ℕ}

/-- **`map_join` preserves the address space**: when it succeeds, every address has what it had, and
no storage was released. -/
def JoinPreserves (s : Maps Anon) (first second : ℕ) : Prop :=
  ∀ s', s.mapJoin backend first second = .ok (s', true) →
    (∀ x < 2 ^ 32, s'.lookup x = s.lookup x) ∧ s'.world.storage = s.world.storage

/-- Two maps follow each other in the address space. -/
def Adjacent (m m' : Map) : Prop := m.stop = m'.start ∨ m'.stop = m.start

/-- At the end of `map_join` nothing is found where the second map was. -/
theorem Consistent.joining (h : Consistent s A) (hsecond : second ∈ s.tree.nodes) (first : ℕ) :
    ∃ s', s.joining backend first second = .ok (s', true) ∧
      s'.lookup (s.map second).start = none := by
  obtain ⟨pre, post, hl⟩ := append_of_mem hsecond
  have hfits := h.valid.fits hsecond
  have hmem := mem_records.2 ⟨second, hsecond, rfl⟩
  obtain ⟨s₁, hok₁, hvalid₁, hnodes₁, hself, hother, -, hlist, -, hworld⟩ :=
    h.valid.mapDisconnect hl
  have hnot : second ∉ pre ++ post := by
    have hnodup := h.valid.nodup
    rw [hl, nodup_middle, nodup_cons] at hnodup
    exact hnodup.1
  have hremoved : Removed s₁ [second] := by
    refine ⟨by simp, ?_, ?_, ?_⟩ <;> intro id hid <;> obtain rfl := mem_singleton.1 hid
    · rwa [hnodes₁]
    · rw [hself]
    · rw [hself, hlist]
      exact h.valid.listed id hsecond
  have hcovers : ∀ x, (s₁.map second).Covers x → x ∈ A := fun x hx => by
    rw [hself] at hx
    exact h.mapped ⟨_, hmem, hx⟩
  have hpos : 0 < (s₁.map second).length := by
    rw [hself]
    exact hfits.pos
  obtain ⟨w, hw, -⟩ := release_ok (hworld ▸ h.partitioned) hpos hcovers
    (s₁.list (s₁.map second).pager == [second])
  obtain ⟨s₂, hok₂, -, -, hmap₂, htree₂, -⟩ := hvalid₁.mapDestroy hremoved hw
  refine ⟨_, by rw [Maps.joining, hok₁, ok_bind, hok₂]; rfl, ?_⟩
  have hx : (s.map second).start < 2 ^ 32 := hfits.lt_stop.trans_le hfits.inside
  rw [lookup, Option.map_eq_none_iff]
  by_contra hsome
  obtain ⟨id, hfind⟩ := Option.ne_none_iff_exists'.1 hsome
  obtain ⟨hid, hstart, hlast⟩ := mapFind_covers hx hfind
  have hid' : id ∈ pre ++ post := by
    have htree : id ∈ s₂.tree.nodes := hid
    rwa [htree₂, hnodes₁] at htree
  have hne' : id ≠ second := fun heq => hnot (heq ▸ hid')
  -- the region of the map that was found did not change
  have hregion : ∀ o, ((s₂.setMap first { s₂.map first with offset := o }).map id).start =
        (s.map id).start ∧
      ((s₂.setMap first { s₂.map first with offset := o }).map id).last = (s.map id).last := by
    intro o
    simp only [Maps.setMap, Function.update_apply]
    split
    · next heq =>
      rw [← heq, hmap₂, hother id hne']
      exact ⟨rfl, rfl⟩
    · rw [hmap₂, hother id hne']
      exact ⟨rfl, rfl⟩
  rw [(hregion _).1] at hstart
  rw [(hregion _).2] at hlast
  have hapart := h.valid.apart
  rw [hl, pairwise_append, pairwise_cons] at hapart
  have hlt := hfits.lt_stop
  rcases mem_append.1 hid' with hpre | hpost
  · have hfits' := h.valid.fits (show id ∈ s.tree.nodes by simp [hl, hpre])
    have hle := hapart.2.2 id hpre second (by simp)
    have hlt' := hfits'.lt_stop
    rw [hfits'.last_eq] at hlast
    omega
  · have hle := hapart.2.1.1 id hpost
    omega

theorem mapJoin_eq (hpager : (s.map first).pager = (s.map second).pager)
    (haccess : (s.map first).access = (s.map second).access) :
    s.mapJoin backend first second =
      if ((s.map first).start + (s.map first).length) % 2 ^ 32 = (s.map second).start then
        s.joining backend first second
      else if ((s.map second).start + (s.map second).length) % 2 ^ 32 = (s.map first).start then
        s.joining backend second first
      else pure (s, false) := by
  rw [mapJoin, if_neg (not_not.2 hpager), if_neg (not_not.2 haccess), ite_not]

/-- **`map_join` preserves the address space** of two maps that follow each other if and only if it
does not join them: they have different pagers, or different accesses. -/
theorem joinPreserves_iff (h : Consistent s A) (hfirst : first ∈ s.tree.nodes)
    (hsecond : second ∈ s.tree.nodes) (hadj : Adjacent (s.map first) (s.map second)) :
    JoinPreserves s first second ↔ (s.map first).pager ≠ (s.map second).pager ∨
      (s.map first).access ≠ (s.map second).access := by
  constructor
  · intro hpreserves
    by_contra hsame
    obtain ⟨hpager, haccess⟩ := not_or.1 hsame
    have hjoin := mapJoin_eq (not_not.1 hpager) (not_not.1 haccess)
    -- a map that goes was found before
    have hgone : ∀ {a b}, b ∈ s.tree.nodes →
        s.mapJoin backend first second ≠ s.joining backend a b := by
      intro a b hb heq
      obtain ⟨s', hok, hnone⟩ := h.joining hb a
      have hfits := h.valid.fits hb
      have hx : (s.map b).start < 2 ^ 32 := hfits.lt_stop.trans_le hfits.inside
      have hlook := (hpreserves s' (heq.trans hok)).1 _ hx
      have hmapped := (h.valid.isSome_lookup hx).2
        ⟨_, mem_records.2 ⟨b, hb, rfl⟩, le_rfl, hfits.lt_stop⟩
      rw [← hlook, hnone] at hmapped
      simp at hmapped
    have hfits := h.valid.fits hfirst
    have hfits' := h.valid.fits hsecond
    have hinside := hfits.inside
    have hinside' := hfits'.inside
    have hlt := hfits.lt_stop
    have hlt' := hfits'.lt_stop
    split_ifs at hjoin with hnext hprev
    · exact hgone hsecond hjoin
    · exact hgone hfirst hjoin
    · simp only [Adjacent, Map.stop] at hadj hinside hinside' hlt hlt'
      omega
  · rintro hdiffer s' hok
    rw [mapJoin] at hok
    split_ifs at hok with hpager haccess
    · simp at hok
    · simp at hok
    all_goals exact absurd hdiffer (by simp_all)

/-- **A join that unmaps**: two pages are in maps of their own after `mprotect`, which have the same
pager and access again; to join them unmaps the second page, and frees its storage. -/
theorem mapJoin_unmaps : ∃ s s', Reached s ∧ 0 ∈ s.tree.nodes ∧ 1 ∈ s.tree.nodes ∧
    Adjacent (s.map 0) (s.map 1) ∧ s.mapJoin backend 0 1 = .ok (s', true) ∧
    s.lookup 0x11000 = some (0, 0x1000, ⟨true, true⟩) ∧ s'.lookup 0x11000 = none ∧
    s.world.stored 0 0x1000 = some 1 ∧ s'.world.stored 0 0x1000 = none := by
  have hrun : (do
      let s ← protectedTwice 0x2000 0x11000
      let joined ← s.mapJoin backend 0 1
      pure (decide (joined.2 = true ∧ 0 ∈ s.tree.nodes ∧ 1 ∈ s.tree.nodes ∧
        (s.map 0).stop = (s.map 1).start ∧
        s.lookup 0x11000 = some (0, 0x1000, ⟨true, true⟩) ∧ joined.1.lookup 0x11000 = none ∧
        s.world.stored 0 0x1000 = some 1 ∧ joined.1.world.stored 0 0x1000 = none))) =
      Except.ok true := by decide +kernel
  obtain ⟨s, hs, hrun⟩ := bind_eq_ok.1 hrun
  obtain ⟨⟨s', r⟩, hjoin, hrun⟩ := bind_eq_ok.1 hrun
  obtain ⟨(rfl : r = true), hzero, hone, hadj, hrest⟩ := of_decide_eq_true (pure_eq_ok.1 hrun)
  exact ⟨s, s', reached_protectedTwice hs, hzero, hone, .inl hadj, hjoin, hrest⟩

/-- Two maps of different pagers are not joined. -/
theorem joinPreserves_iff_pagers : ∃ s A, Consistent s A ∧ Adjacent (s.map 0) (s.map 1) ∧
    JoinPreserves s 0 1 := by
  have hrun : (do
      let first ← started.mmap 0x10000 0x1000 ⟨true, true, false, false⟩ ⟨false, false⟩
      let second ← first.1.mmap 0x11000 0x1000 ⟨true, true, false, false⟩ ⟨false, false⟩
      let s := second.1
      pure (decide (first.2 = some 0x10000 ∧ second.2 = some 0x11000 ∧ 0 ∈ s.tree.nodes ∧
        1 ∈ s.tree.nodes ∧ (s.map 0).stop = (s.map 1).start ∧ (s.map 0).pager ≠ (s.map 1).pager))) =
      Except.ok true := by decide +kernel
  obtain ⟨⟨s₁, r⟩, hfirst, hrun⟩ := bind_eq_ok.1 hrun
  obtain ⟨⟨s, r'⟩, hsecond, hrun⟩ := bind_eq_ok.1 hrun
  obtain ⟨(rfl : r = _), (rfl : r' = _), hzero, hone, hadj, hpager⟩ :=
    of_decide_eq_true (pure_eq_ok.1 hrun)
  obtain ⟨A₁, hcons₁⟩ := started_consistent.mmap (by decide) (by decide) hfirst (by decide)
  obtain ⟨A, hcons⟩ := hcons₁.mmap (by decide) (by decide) hsecond (by decide)
  exact ⟨s, A, hcons, .inl hadj,
    (joinPreserves_iff hcons hzero hone (.inl hadj)).2 (.inl hpager)⟩

end Maps

end Viengoos
