import Viengoos.Mm.Faults

/-!
# Runs of the memory manager

What holds in every state that `mmap` and the other operations reach, whatever their arguments are:
a range may wrap around, and may end inside a page. The maps of the tree may then be out of order;
every map by itself is still in order, its pager has no fill function, and storage that is in use is
allocated.
-/

namespace Viengoos

open Outcome Function Option List

namespace Anon

variable {w w' : Anon}

/-- **A change of the world** that keeps the pagers. -/
structure Keeps (w w' : Anon) : Prop where
  pagers : w'.pagers = w.pagers
  pager : w'.pager = w.pager
  below : w.Below → w'.Below

theorem Keeps.refl (w : Anon) : Keeps w w := ⟨rfl, rfl, id⟩

theorem Keeps.trans {w'' : Anon} (h : Keeps w w') (h' : Keeps w' w'') : Keeps w w'' :=
  ⟨h'.pagers.trans h.pagers, h'.pager.trans h.pager, h'.below ∘ h.below⟩

theorem Keeps.mdestroy {m : Map} {last : Bool} (hok : mdestroy m last w = .ok w') : Keeps w w' := by
  obtain ⟨_, -, hok⟩ := bind_eq_ok.1 hok
  obtain ⟨_, -, rfl⟩ := bind_pure_eq_ok.1 hok
  refine ⟨rfl, rfl, fun h => ⟨fun {p d} hd => ?_, h.slot⟩⟩
  by_cases hp : p = m.pager
  · subst hp
    simp only [update_self] at hd
    split at hd
    · simp at hd
    · exact h.storage (mem_filter.1 hd).1
  · simp only [update_of_ne hp] at hd
    exact h.storage hd

variable {backward fixed readOnly : Bool} {info : FaultInfo} {r : Option ℕ} {addr hint j p x : ℕ}

theorem Keeps.destroy (hok : destroy p w = .ok w') : Keeps w w' := by
  obtain ⟨_, -, rfl⟩ := bind_pure_eq_ok.1 hok
  exact .refl w

theorem Keeps.restrict {access : MapAccess} (hok : restrict access x w = .ok w') :
    Keeps w w' := by
  obtain rfl := pure_eq_ok.1 hok
  refine ⟨rfl, rfl, fun h => ⟨h.storage, fun {y st strong} hst => ?_⟩⟩
  by_cases hy : y = x
  · subst hy
    simp only [update_self] at hst
    split at hst
    · simp at hst
    · obtain ⟨d, hd, heq⟩ := map_eq_some_iff.1 hst
      obtain ⟨rfl, -⟩ := Prod.mk.inj heq
      exact h.slot hd
  · simp only [update_of_ne hy] at hst
    exact h.slot hst

theorem Keeps.allocate (w : Anon) (p o a : ℕ) (strong : Bool) :
    Keeps w (w.allocate p o a strong) := by
  refine ⟨rfl, rfl, fun h => ⟨fun {q d} hd => ?_, fun {x st strong'} hst => ?_⟩⟩
  · change d.2 < w.objects + 1
    by_cases hq : q = p
    · subst hq
      simp only [Anon.allocate, update_self, mem_cons] at hd
      rcases hd with rfl | hd
      · exact Nat.lt_succ_self _
      · exact Nat.lt_succ_of_lt (h.storage hd)
    · simp only [Anon.allocate, update_of_ne hq] at hd
      exact Nat.lt_succ_of_lt (h.storage hd)
  · change st < w.objects + 1
    rw [slot_allocate] at hst
    split at hst
    · obtain ⟨⟩ := Option.some.inj hst
      exact Nat.lt_succ_self _
    · exact Nat.lt_succ_of_lt (h.slot hst)

theorem Keeps.faultPage {offset i : ℕ}
    {c c' : Anon × List ℕ} (hok : faultPage p readOnly info offset x c i = .ok c') :
    Keeps c.1 c'.1 := by
  rw [Anon.faultPage] at hok
  split at hok
  · split at hok
    · obtain ⟨_, -, rfl⟩ := bind_pure_eq_ok.1 hok
      exact .refl _
    · obtain rfl := pure_eq_ok.1 hok
      exact .refl _
  · obtain rfl := pure_eq_ok.1 hok
    exact .allocate ..

theorem Keeps.provide {offset count : ℕ}
    (hok : provide p readOnly info offset x count w = .ok w') : Keeps w w' := by
  rw [Anon.provide] at hok
  split at hok
  · obtain rfl := pure_eq_ok.1 hok
    exact .refl w
  · obtain ⟨c, hc, rfl⟩ := bind_pure_eq_ok.1 hok
    have hpages : Keeps w c.1 := foldlM_invariant (fun c => Keeps w c.1)
      (fun i _ c c' hstep hc => hc.trans (.faultPage hstep)) hc (.refl w)
    exact ⟨hpages.pagers, hpages.pager, fun h => ⟨(hpages.below h).storage, (hpages.below h).slot⟩⟩

end Anon

namespace Maps

open Anon

variable {s s' : Maps Anon} {id start length last offset : ℕ} {access : MapAccess} {m : Map}

/-- **A map in order by itself**, of a pager that is allocated. -/
structure Sits (s : Maps Anon) (m : Map) : Prop where
  start_lt : m.start < 2 ^ 32
  start_aligned : m.start % pagesize = 0
  pos : 0 < m.length
  length_aligned : m.length % pagesize = 0
  offset_aligned : m.offset % pagesize = 0
  within : m.offset + m.length ≤ s.length m.pager
  pager : m.pager < s.world.pagers

/-- **What holds in every run.** -/
structure Sound (s : Maps Anon) : Prop where
  nodes : ∀ id ∈ s.tree.nodes, id < s.fresh
  sits : ∀ id < s.fresh, Sits s (s.map id)
  words : ∀ p < s.world.pagers, s.length p < 2 ^ 32
  plain : ∀ p < s.world.pagers,
    (s.world.pager p).fill = none ∧ (s.world.pager p).noAlloc = false
  below : s.world.Below

theorem Sound.sitting (h : Sound s) : Sitting s where
  start := fun id hid => ⟨(h.sits id (h.nodes id hid)).start_lt,
    (h.sits id (h.nodes id hid)).start_aligned⟩
  offset := fun id hid => (h.sits id (h.nodes id hid)).offset_aligned
  within := fun id hid => (h.sits id (h.nodes id hid)).within
  words := fun id hid => h.words _ (h.sits id (h.nodes id hid)).pager
  pos := fun id hid => ⟨(h.sits id (h.nodes id hid)).pos,
    (h.sits id (h.nodes id hid)).length_aligned⟩

/-! ### The parts of the operations -/

theorem Sits.congr (h : Sits s m) (hlength : s'.length = s.length)
    (hpagers : s'.world.pagers = s.world.pagers) : Sits s' m :=
  ⟨h.start_lt, h.start_aligned, h.pos, h.length_aligned, h.offset_aligned, hlength ▸ h.within,
    hpagers ▸ h.pager⟩

theorem Sound.searched (h : Sound s) : Sound s.searched :=
  ⟨h.nodes, fun id hid => (h.sits id hid).congr rfl rfl, h.words, h.plain, h.below⟩

/-- A change of the world and of the lists. -/
theorem Sound.keep (h : Sound s) {w : Anon} (hw : Keeps s.world w) (list : ℕ → List ℕ) :
    Sound { s with world := w, list := list } where
  nodes := h.nodes
  sits := fun id hid => (h.sits id hid).congr rfl hw.pagers
  words := fun p hp => h.words p (hw.pagers ▸ hp)
  plain := fun p hp => by
    have hplain := h.plain p (hw.pagers ▸ hp)
    rwa [← hw.pager] at hplain
  below := hw.below h.below

/-- A change of the tree and of one map. -/
theorem Sound.update (h : Sound s) (hm : Sits s m) {tree : SearchTree ℕ} {fresh : ℕ}
    (hfresh : ∀ j < fresh, j < s.fresh ∨ j = id) (htree : ∀ j ∈ tree.nodes, j < fresh) :
    Sound ({ s with tree, fresh }.setMap id m) where
  nodes := htree
  sits := fun j hj => by
    simp only [setMap]
    by_cases hid : j = id
    · subst hid
      rw [update_self]
      exact hm.congr rfl rfl
    · rw [update_of_ne hid]
      exact (h.sits j ((hfresh j hj).resolve_right hid)).congr rfl rfl
  words := h.words
  plain := h.plain
  below := h.below

theorem Sound.setMap (h : Sound s) (hm : Sits s m) : Sound (s.setMap id m) :=
  h.update hm (fun _ => .inl) h.nodes

theorem Sound.alloc (h : Sound s) (hm : Sits s m) :
    Sound ({ s with fresh := s.fresh + 1 }.setMap s.fresh m) :=
  h.update hm (fun j hj => by omega) fun j hj => Nat.lt_succ_of_lt (h.nodes j hj)

theorem Sound.mapInstall (h : Sound s) (hid : id < s.fresh) {b : Bool}
    (hok : s.mapInstall id = .ok (s', b)) : Sound s' ∧ s'.fresh = s.fresh := by
  iterate 5 obtain ⟨_, -, hok⟩ := bind_eq_ok.1 hok
  have hnodes : ∀ j ∈ (s.tree.insert (fun j => (s.map j).compare (s.map id).start
      (s.map id).length) id).2.nodes, j < s.fresh := by
    intro j hj
    rcases SearchTree.mem_of_mem_insert hj with rfl | hj
    · exact hid
    · exact h.nodes j hj
  split at hok
  · next i tree htree =>
    obtain ⟨⟩ := pure_eq_ok.1 hok
    rw [htree] at hnodes
    exact ⟨⟨hnodes, fun j hj => (h.sits j hj).congr rfl rfl, h.words, h.plain, h.below⟩, rfl⟩
  · next i tree htree =>
    obtain ⟨⟩ := pure_eq_ok.1 hok
    rw [htree] at hnodes
    have hsits := h.sits id hid
    have hm : Sits s { s.map id with connected := true } :=
      ⟨hsits.start_lt, hsits.start_aligned, hsits.pos, hsits.length_aligned, hsits.offset_aligned,
        hsits.within, hsits.pager⟩
    exact ⟨(h.update hm (fun _ => .inl) hnodes).keep (.refl _) _, rfl⟩

/-- The two parts of a map that is split on a page. -/
theorem Sits.split (h : Sits s m) (hword : s.length m.pager < 2 ^ 32) (hpos : 0 < offset)
    (hlt : offset < m.length) (haligned : offset % pagesize = 0) :
    Sits s { m with length := offset } ∧
      Sits s { m with start := (m.start + offset) % 2 ^ 32, length := m.length - offset,
                      offset := (m.offset + offset) % 2 ^ 32 } := by
  obtain ⟨hstart, hstart', -, hlength, hoffset, hwithin, hpager⟩ := h
  simp only [pagesize] at *
  refine ⟨⟨hstart, hstart', hpos, haligned, hoffset, ?_, hpager⟩,
    ⟨?_, ?_, ?_, ?_, ?_, ?_, hpager⟩⟩ <;> simp only [pagesize] <;> omega

section

variable (h : Sound s) (hid : id < s.fresh)

include h hid

theorem Sound.mapSplit {second : Option ℕ} (hok : s.mapSplit id offset = .ok (s', second)) :
    Sound s' ∧ s.fresh ≤ s'.fresh ∧ ∀ j ∈ second, j < s'.fresh := by
  rw [Maps.mapSplit] at hok
  split_ifs at hok with hout haligned
  · obtain ⟨⟩ := pure_eq_ok.1 hok
    exact ⟨h, le_rfl, by simp⟩
  · obtain ⟨⟩ := pure_eq_ok.1 hok
    exact ⟨h, le_rfl, by simp⟩
  · obtain ⟨⟨s₁, b⟩, hinstall, hok⟩ := bind_eq_ok.1 hok
    obtain ⟨_, -, hok⟩ := bind_eq_ok.1 hok
    obtain ⟨rfl, rfl⟩ := Prod.mk.inj (pure_eq_ok.1 hok)
    have hsits := h.sits id hid
    obtain ⟨hfirst, hsecond⟩ := hsits.split (h.words _ hsits.pager) (by omega) (by omega)
      (not_not.1 haligned)
    obtain ⟨hsound, hfresh⟩ := ((h.alloc hsecond).setMap (hfirst.congr rfl rfl)).mapInstall
      (Nat.lt_succ_self _) hinstall
    have hfresh : s₁.fresh = s.fresh + 1 := hfresh
    refine ⟨hsound, by omega, fun j hj => ?_⟩
    obtain rfl := mem_some.1 hj
    omega

theorem Sound.mustSplit {second : ℕ} (hok : s.mustSplit id offset = .ok (s', second)) :
    Sound s' ∧ s.fresh ≤ s'.fresh ∧ second < s'.fresh := by
  obtain ⟨⟨s₁, r⟩, hsplit, hok⟩ := bind_eq_ok.1 hok
  obtain ⟨hsound, hfresh, hsecond⟩ := h.mapSplit hid hsplit
  cases r with
  | none => simp at hok
  | some j =>
    obtain ⟨rfl, rfl⟩ := Prod.mk.inj (pure_eq_ok.1 hok)
    exact ⟨hsound, hfresh, hsecond j rfl⟩

theorem Sound.splitBefore (hok : s.splitBefore start id = .ok (s', j)) :
    Sound s' ∧ s.fresh ≤ s'.fresh ∧ j < s'.fresh := by
  rw [Maps.splitBefore] at hok
  split at hok
  · exact h.mustSplit hid hok
  · obtain ⟨⟩ := pure_eq_ok.1 hok
    exact ⟨h, le_rfl, hid⟩

theorem Sound.isolate (hok : s.isolate start last id = .ok (s', j)) :
    Sound s' ∧ s.fresh ≤ s'.fresh ∧ j < s'.fresh := by
  obtain ⟨⟨s₁, k⟩, hbefore, hok⟩ := bind_eq_ok.1 hok
  obtain ⟨hsound, hfresh, hk⟩ := h.splitBefore hid hbefore
  by_cases hafter : (s.map id).last > last
  · simp only [if_pos hafter] at hok
    obtain ⟨⟨s₂, _⟩, hsplit, ⟨⟩⟩ := bind_pure_eq_ok.1 hok
    obtain ⟨hsound', hfresh', -⟩ := hsound.mustSplit hk hsplit
    exact ⟨hsound', hfresh.trans hfresh', hk.trans_le hfresh'⟩
  · simp only [if_neg hafter] at hok
    obtain ⟨⟩ := pure_eq_ok.1 hok
    exact ⟨hsound, hfresh, hk⟩

theorem Sound.mapDisconnect (hok : s.mapDisconnect id = .ok s') :
    Sound s' ∧ s'.fresh = s.fresh := by
  obtain ⟨_, -, rfl⟩ := bind_pure_eq_ok.1 hok
  have hsits := h.sits id hid
  have hm : Sits s { s.map id with connected := false } :=
    ⟨hsits.start_lt, hsits.start_aligned, hsits.pos, hsits.length_aligned, hsits.offset_aligned,
      hsits.within, hsits.pager⟩
  exact ⟨h.update hm (fun _ => .inl) fun j hj => h.nodes j (mem_of_mem_erase hj), rfl⟩

end

theorem Sound.mapDestroy (h : Sound s) (hok : s.mapDestroy backend id = .ok s') : Sound s' := by
  obtain ⟨_, -, hok⟩ := bind_eq_ok.1 hok
  obtain ⟨_, -, hok⟩ := bind_eq_ok.1 hok
  obtain ⟨w, hw, hok⟩ := bind_eq_ok.1 hok
  split at hok
  · obtain ⟨w', hw', rfl⟩ := bind_pure_eq_ok.1 hok
    exact h.keep ((Keeps.mdestroy hw).trans (.destroy hw')) _
  · obtain ⟨_, -, rfl⟩ := bind_pure_eq_ok.1 hok
    exact h.keep (.mdestroy hw) _

/-! ### The operations -/

theorem Sound.toward (h : Sound s) (hj : s.toward backward id = some j) :
    j < s.fresh := by
  refine h.nodes j ?_
  rw [Maps.toward] at hj
  split at hj
  · rw [Maps.prev] at hj
    split at hj
    · simp at hj
    · exact mem_of_getElem? hj
  · exact mem_of_getElem? hj

/-- The loops only add maps, and both start at a map of the tree. -/
theorem Sound.munmapLoop : ∀ {fuel : ℕ} {s s' : Maps Anon} {l l' : List ℕ}
    {next : Option ℕ}, Sound s → (∀ j ∈ next, j < s.fresh) →
    munmapLoop start last backward fuel s l next = .ok (s', l') →
    Sound s' ∧ s.fresh ≤ s'.fresh := by
  intro fuel
  induction fuel with
  | zero =>
    intro s s' l l' next h _ hok
    cases next with
    | none =>
      obtain ⟨⟩ := pure_eq_ok.1 hok
      exact ⟨h, le_rfl⟩
    | some id => simp [Maps.munmapLoop] at hok
  | succ fuel ih =>
    intro s s' l l' next h hnext hok
    cases next with
    | none =>
      obtain ⟨⟩ := pure_eq_ok.1 hok
      exact ⟨h, le_rfl⟩
    | some id =>
      rw [Maps.munmapLoop] at hok
      split at hok
      · obtain ⟨⟩ := pure_eq_ok.1 hok
        exact ⟨h, le_rfl⟩
      · obtain ⟨⟨s₁, j⟩, hisolate, hok⟩ := bind_eq_ok.1 hok
        obtain ⟨s₂, hdisconnect, hok⟩ := bind_eq_ok.1 hok
        obtain ⟨hsound, hfresh, hj⟩ := h.isolate (hnext id rfl) hisolate
        obtain ⟨hsound', hfresh'⟩ := hsound.mapDisconnect hj hdisconnect
        have hle : s.fresh ≤ s₂.fresh := hfresh'.symm ▸ hfresh
        obtain ⟨hs', hle'⟩ := ih hsound' (fun k hk => (h.toward hk).trans_le hle) hok
        exact ⟨hs', hle.trans hle'⟩

theorem Sound.mapFind (h : Sound s) (hfind : s.mapFind start length = some id) : id < s.fresh := by
  obtain ⟨i, -, hid⟩ := bind_eq_some_iff.1 hfind
  exact h.nodes id (mem_of_getElem? hid)

theorem Sound.munmap (h : Sound s) (hok : s.munmap backend start length = .ok s') : Sound s' := by
  rw [Maps.munmap] at hok
  split at hok
  · obtain rfl := pure_eq_ok.1 hok
    exact h.searched
  · next id hfind =>
    obtain ⟨⟨s₁, l₁⟩, hforward, hok⟩ := bind_eq_ok.1 hok
    obtain ⟨⟨s₂, l₂⟩, hbackward, hok⟩ := bind_eq_ok.1 hok
    obtain ⟨hs₁, hle⟩ := h.searched.munmapLoop (fun j hj => by
      obtain rfl := mem_some.1 hj
      exact h.mapFind hfind) hforward
    obtain ⟨hs₂, -⟩ := hs₁.munmapLoop (fun j hj => by
      have hprev : s.searched.toward true id = some j := hj
      exact (h.searched.toward hprev).trans_le hle) hbackward
    exact foldlM_invariant Sound (fun _ _ _ _ hstep hs => hs.mapDestroy hstep) hok hs₂

theorem Sound.setAccess (h : Sound s) (hid : id < s.fresh)
    (hok : s.setAccess backend id access = .ok s') : Sound s' ∧ s'.fresh = s.fresh := by
  have hsits := h.sits id hid
  have hm : Sits s { s.map id with access } :=
    ⟨hsits.start_lt, hsits.start_aligned, hsits.pos, hsits.length_aligned, hsits.offset_aligned,
      hsits.within, hsits.pager⟩
  have hset : Sound (s.setMap id { s.map id with access }) := h.setMap hm
  rw [Maps.setAccess] at hok
  split at hok
  · obtain ⟨w, hw, rfl⟩ := bind_pure_eq_ok.1 hok
    have hkeeps : Keeps s.world w := foldlM_invariant (Keeps s.world)
      (fun i _ w w' hstep hw => hw.trans (.restrict hstep)) hw (.refl _)
    exact ⟨hset.keep hkeeps _, rfl⟩
  · obtain rfl := pure_eq_ok.1 hok
    exact ⟨hset, rfl⟩

theorem Sound.mprotectLoop : ∀ {fuel : ℕ} {s s' : Maps Anon} {next : Option ℕ},
    Sound s → (∀ j ∈ next, j < s.fresh) →
    mprotectLoop backend start last access backward fuel s next = .ok s' →
    Sound s' ∧ s.fresh ≤ s'.fresh := by
  intro fuel
  induction fuel with
  | zero =>
    intro s s' next h _ hok
    cases next with
    | none =>
      obtain rfl := pure_eq_ok.1 hok
      exact ⟨h, le_rfl⟩
    | some id => simp [Maps.mprotectLoop] at hok
  | succ fuel ih =>
    intro s s' next h hnext hok
    cases next with
    | none =>
      obtain rfl := pure_eq_ok.1 hok
      exact ⟨h, le_rfl⟩
    | some id =>
      rw [Maps.mprotectLoop] at hok
      split_ifs at hok
      · obtain rfl := pure_eq_ok.1 hok
        exact ⟨h, le_rfl⟩
      · exact ih h (fun k hk => h.toward hk) hok
      · obtain ⟨⟨s₁, j⟩, hisolate, hok⟩ := bind_eq_ok.1 hok
        obtain ⟨s₂, haccess, hok⟩ := bind_eq_ok.1 hok
        obtain ⟨hsound, hfresh, hj⟩ := h.isolate (hnext id rfl) hisolate
        obtain ⟨hsound', hfresh'⟩ := hsound.setAccess hj haccess
        obtain ⟨hs', hle⟩ := ih hsound' (fun k hk => hsound'.toward hk) hok
        exact ⟨hs', (hfresh.trans_eq hfresh'.symm).trans hle⟩

theorem Sound.mprotect (h : Sound s) (hok : s.mprotect backend start length access = .ok s') :
    Sound s' := by
  rw [Maps.mprotect] at hok
  split at hok
  · obtain rfl := pure_eq_ok.1 hok
    exact h.searched
  · next id hfind =>
    obtain ⟨s₁, hforward, hok⟩ := bind_eq_ok.1 hok
    obtain ⟨hs₁, hle⟩ := h.searched.mprotectLoop (fun j hj => by
      obtain rfl := mem_some.1 hj
      exact h.mapFind hfind) hforward
    exact (hs₁.mprotectLoop (fun j hj => by
      have hprev : s.searched.toward true id = some j := hj
      exact (h.searched.toward hprev).trans_le hle) hok).1

theorem Sound.mapFault {recursive r : Bool} (h : Sound s)
    (hok : s.mapFault x info recursive = .ok (s', r)) : Sound s' := by
  rw [Maps.mapFault] at hok
  split at hok
  · obtain ⟨⟩ := pure_eq_ok.1 hok
    exact h.searched
  · simp only at hok
    split at hok
    · obtain ⟨⟩ := pure_eq_ok.1 hok
      exact h.searched
    · rw [Maps.fault] at hok
      obtain ⟨_, -, hok⟩ := bind_eq_ok.1 hok
      obtain ⟨_, -, hok⟩ := bind_eq_ok.1 hok
      obtain ⟨w, hw, ⟨⟩⟩ := bind_pure_eq_ok.1 hok
      exact h.searched.keep (.provide hw) _

theorem mapArea_lt {t t' : FreeSpace.Spaces} {count : ℕ} (hhint : hint < 2 ^ 32)
    (hok : mapArea t hint count fixed = .ok (t', some start)) : start < 2 ^ 32 := by
  obtain ⟨⟨t₁, alloced⟩, -, hok⟩ := bind_eq_ok.1 hok
  simp only at hok
  split_ifs at hok
  · obtain ⟨-, rfl⟩ : t₁ = t' ∧ hint = start := by simpa using pure_eq_ok.1 hok
    exact hhint
  · simp at hok
  · obtain ⟨⟨t₂, area⟩, -, hok⟩ := bind_eq_ok.1 hok
    cases area with
    | none => simp at hok
    | some area =>
      obtain ⟨addr, -, hok⟩ := bind_eq_ok.1 hok
      obtain ⟨_, hlt, hok⟩ := bind_eq_ok.1 hok
      obtain ⟨_, -, hok⟩ := bind_eq_ok.1 hok
      obtain ⟨-, rfl⟩ : t₂ = t' ∧ addr.prefixBits = start := by simpa using pure_eq_ok.1 hok
      have := require_eq_ok.1 hlt
      omega

theorem Sound.newPager (h : Sound s) (hlength : length < 2 ^ 32) (discardable : Bool) :
    Sound (s.newPager length discardable) where
  nodes := h.nodes
  sits := fun id hid => by
    have hsits := h.sits id hid
    refine ⟨hsits.start_lt, hsits.start_aligned, hsits.pos, hsits.length_aligned,
      hsits.offset_aligned, ?_, Nat.lt_succ_of_lt hsits.pager⟩
    simp only [Maps.newPager, update_of_ne hsits.pager.ne]
    exact hsits.within
  words := fun p hp => by
    simp only [Maps.newPager, update_apply]
    split_ifs with heq
    · exact hlength
    · exact h.words p (lt_of_le_of_ne (Nat.lt_succ_iff.1 hp) heq)
  plain := fun p hp => by
    simp only [Maps.newPager, update_apply]
    split_ifs with heq
    · exact ⟨rfl, rfl⟩
    · exact h.plain p (lt_of_le_of_ne (Nat.lt_succ_iff.1 hp) heq)
  below := ⟨fun {p d} hd => by
    simp only [Maps.newPager, update_apply] at hd
    split_ifs at hd
    · simp at hd
    · exact h.below.storage hd, h.below.slot⟩

theorem Sound.mapCreate (h : Sound s) (hstart : start < 2 ^ 32)
    (hlength : length ≤ s.length p) (hp : p < s.world.pagers)
    (hok : s.mapCreate start length access p 0 = .ok (s', r)) : Sound s' := by
  obtain ⟨⟨s₁, b⟩, hinstall, ⟨⟩⟩ := bind_pure_eq_ok.1 hok
  -- the assertions of `map_install` say that the map is in order
  have hchecks := hinstall
  rw [Maps.mapInstall] at hchecks
  simp only [Maps.setMap, update_self] at hchecks
  obtain ⟨_, hpos, hchecks⟩ := bind_eq_ok.1 hchecks
  obtain ⟨_, haligned, hchecks⟩ := bind_eq_ok.1 hchecks
  obtain ⟨_, haligned', -⟩ := bind_eq_ok.1 hchecks
  have hm : Sits s ⟨false, p, 0, start, length, access⟩ :=
    ⟨hstart, require_eq_ok.1 haligned, require_eq_ok.1 hpos, require_eq_ok.1 haligned', rfl,
      by simpa using hlength, hp⟩
  exact ((h.alloc hm).mapInstall (Nat.lt_succ_self _) hinstall).1

theorem Sound.anonymousPagerAlloc {discardable : Bool}
    (h : Sound s) (hhint : hint < 2 ^ 32) (hlength : length < 2 ^ 32)
    (hok : s.anonymousPagerAlloc hint length access discardable fixed = .ok (s', r)) :
    Sound s' := by
  iterate 3 obtain ⟨_, -, hok⟩ := bind_eq_ok.1 hok
  obtain ⟨⟨spaces, area⟩, harea, hok⟩ := bind_eq_ok.1 hok
  have hkeeps : Keeps s.world { s.world with spaces } :=
    ⟨rfl, rfl, fun hb => ⟨hb.storage, hb.slot⟩⟩
  have hspaces : Sound { s with world := { s.world with spaces } } := h.keep hkeeps _
  cases area with
  | none =>
    obtain ⟨⟩ := pure_eq_ok.1 hok
    exact hspaces
  | some start =>
    obtain ⟨⟨s₁, id⟩, hcreate, hok⟩ := bind_eq_ok.1 hok
    have hsound := (hspaces.newPager hlength discardable).mapCreate (mapArea_lt hhint harea)
      (by simp [Maps.newPager]) (Nat.lt_succ_self _) hcreate
    cases id with
    | none => simp at hok
    | some id =>
      obtain ⟨⟩ := pure_eq_ok.1 hok
      exact hsound

theorem roundUp32_lt (length : ℕ) : roundUp32 length < 2 ^ 32 :=
  (Nat.div_mul_le_self _ _).trans_lt (Nat.mod_lt _ (by decide))

theorem Sound.mmap {prot : Prot} {flags : MmapFlags} (h : Sound s)
    (haddr : addr < 2 ^ 32) (hok : s.mmap addr length prot flags = .ok (s', r)) : Sound s' := by
  rw [Maps.mmap] at hok
  split_ifs at hok
  · obtain ⟨⟩ := pure_eq_ok.1 hok
    exact h
  · obtain ⟨⟩ := pure_eq_ok.1 hok
    exact h
  · obtain ⟨s₁, hroom, hok⟩ := bind_eq_ok.1 hok
    have hsound : Sound s₁ := by
      rw [Maps.makeRoom] at hroom
      split at hroom
      · exact h.munmap hroom
      · obtain rfl := pure_eq_ok.1 hroom
        exact h
    exact hsound.anonymousPagerAlloc ((pageOf_le addr).trans_lt haddr) (roundUp32_lt length) hok

/-! ### Runs -/

/-- The kernel discards storage. -/
def discard (s : Maps Anon) (st : ℕ) : Maps Anon :=
  { s with world := { s.world with discarded := update s.world.discarded st true } }

/-- **The states that are reached** by `mmap`, `munmap`, `mprotect`, faults and discards, and by
pagers that are allocated with a policy of their own. Arguments are words. -/
inductive Reached : Maps Anon → Prop
  | initial (spaces : FreeSpace.Spaces) (shapes : ℕ → ℕ → ℕ → ℕ) :
      Reached (initial spaces shapes)
  | alloc {s s' : Maps Anon} {hint length : ℕ} {access : MapAccess} {discardable fixed : Bool}
      {r : Option ℕ} : Reached s → hint < 2 ^ 32 → length < 2 ^ 32 →
      s.anonymousPagerAlloc hint length access discardable fixed = .ok (s', r) → Reached s'
  | mmap {s s' : Maps Anon} {addr length : ℕ} {prot : Prot} {flags : MmapFlags} {r : Option ℕ} :
      Reached s → addr < 2 ^ 32 → s.mmap addr length prot flags = .ok (s', r) → Reached s'
  | munmap {s s' : Maps Anon} {start length : ℕ} :
      Reached s → s.munmap Anon.backend start length = .ok s' → Reached s'
  | mprotect {s s' : Maps Anon} {start length : ℕ} {access : MapAccess} :
      Reached s → s.mprotect Anon.backend start length access = .ok s' → Reached s'
  | discard {s : Maps Anon} (st : ℕ) : Reached s → Reached (s.discard st)
  | fault {s s' : Maps Anon} {x : ℕ} {info : FaultInfo} {recursive r : Bool} :
      Reached s → s.mapFault x info recursive = .ok (s', r) → Reached s'

/-- A program that starts with the whole address space. -/
def started : Maps Anon := initial FreeSpace.whole fun _ _ _ => 0

theorem Reached.sound (h : Reached s) : Sound s := by
  induction h with
  | initial spaces shapes =>
    exact ⟨fun id hid => absurd hid not_mem_nil, fun id hid => absurd hid (Nat.not_lt_zero _),
      fun p hp => absurd hp (Nat.not_lt_zero _), fun p hp => absurd hp (Nat.not_lt_zero _),
      ⟨fun hd => absurd hd not_mem_nil, fun hst => nomatch hst⟩⟩
  | alloc _ hhint hlength hok ih => exact ih.anonymousPagerAlloc hhint hlength hok
  | mmap _ haddr hok ih => exact ih.mmap haddr hok
  | munmap _ hok ih => exact ih.munmap hok
  | mprotect _ hok ih => exact ih.mprotect hok
  | @discard s st _ ih =>
    have hkeeps : Keeps s.world (s.discard st).world :=
      ⟨rfl, rfl, fun hb => ⟨hb.storage, hb.slot⟩⟩
    exact ih.keep hkeeps _
  | fault _ hok ih => exact ih.mapFault hok

/-- A program that maps pages and writes the first one; a page is made read-only, then writable. -/
def protectedTwice (length addr : ℕ) : Except Fault (Maps Anon) := do
  let (s, _) ← started.mmap 0x10000 length ⟨true, true, false, false⟩ ⟨false, false⟩
  let (s, _) ← s.mapFault 0x10000 ⟨true, false⟩ false
  let s ← s.mprotect Anon.backend addr 0x1000 ⟨true, false⟩
  s.mprotect Anon.backend addr 0x1000 ⟨true, true⟩

theorem reached_protectedTwice {length : ℕ} (h : protectedTwice length addr = .ok s) :
    Reached s := by
  obtain ⟨⟨s₁, _⟩, hmmap, h⟩ := bind_eq_ok.1 h
  obtain ⟨⟨s₂, _⟩, hfault, h⟩ := bind_eq_ok.1 h
  obtain ⟨s₃, hread, hwrite⟩ := bind_eq_ok.1 h
  exact ((((Reached.initial _ _).mmap (by decide) hmmap).fault hfault).mprotect hread).mprotect
    hwrite

/-- The smallest program: it maps one page, and a fault on the page is handled. -/
theorem started_page : ∃ s, started.mmap 0x10000 0x1000 ⟨true, true, false, false⟩ ⟨false, false⟩ =
      .ok (s, some 0x10000) ∧
    s.lookup 0x10000 = some (0, 0, ⟨true, true⟩) ∧ s.world.slot 0x10000 = none ∧
    s.world.stored 0 0 = none ∧ s.world.window (s.length 0) 0 0 0x10000 = (0, 0x10000, 1) ∧
    ∃ s', s.mapFault 0x10000 ⟨true, false⟩ false = .ok (s', true) := by
  have hrun : (do
      let (s, start) ← started.mmap 0x10000 0x1000 ⟨true, true, false, false⟩ ⟨false, false⟩
      let (_, r) ← s.mapFault 0x10000 ⟨true, false⟩ false
      pure (decide (start = some 0x10000 ∧ r = true ∧
        s.lookup 0x10000 = some (0, 0, ⟨true, true⟩) ∧ s.world.slot 0x10000 = none ∧
        s.world.stored 0 0 = none ∧
        s.world.window (s.length 0) 0 0 0x10000 = (0, 0x10000, 1)))) = Except.ok true := by
    decide +kernel
  obtain ⟨⟨s, start⟩, hmmap, hrun⟩ := bind_eq_ok.1 hrun
  obtain ⟨⟨s', r⟩, hfault, hrun⟩ := bind_eq_ok.1 hrun
  obtain ⟨rfl, rfl, hlook, hslot, hstored, hwindow⟩ := of_decide_eq_true (pure_eq_ok.1 hrun)
  exact ⟨s, hmmap, hlook, hslot, hstored, hwindow, s', hfault⟩

end Maps

end Viengoos
