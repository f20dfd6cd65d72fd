import Viengoos.Mm.Split

/-!
# `munmap`

`munmap` goes from a map in the range forward and then backward through the tree, splitting the maps
at the ends of the range. Each step replaces one map of the tree by what is left of it without the
range. Over the whole tree, every map is replaced so; then the parts in the range are destroyed.
-/

namespace Viengoos

open Outcome Function List

namespace Map

variable {start stop : ℕ} {l : List Map}

/-- The part of a map that is unmapped. -/
def cut (start stop : ℕ) (m : Map) : List Map :=
  if m.Meets start stop then [{ m.inside start stop with connected := false }] else []

theorem flatMap_carve (h : ∀ m ∈ l, ¬ m.Meets start stop) : l.flatMap (carve start stop) = l := by
  induction l with
  | nil => rfl
  | cons m l ih =>
    rw [flatMap_cons, ih fun m hm => h m (mem_cons_of_mem _ hm), carve,
      if_neg (h m mem_cons_self), singleton_append]

theorem flatMap_cut (h : ∀ m ∈ l, ¬ m.Meets start stop) : l.flatMap (cut start stop) = [] :=
  flatMap_eq_nil_iff.2 fun m hm => if_neg (h m hm)

end Map

namespace Maps

variable {W : Type} {s s' : Maps W} {id : ℕ} {pre post rest R : List ℕ} {start stop : ℕ}

/-! ### Neighbours -/

theorem Valid.next_eq (h : Valid s) (hl : s.tree.nodes = pre ++ id :: post) :
    s.next id = post.head? := by
  have hpre : id ∉ pre := fun hid => ((h.others hl).1 id hid).2 rfl
  rw [next, hl, idxOf_append_of_notMem hpre, idxOf_cons_self, Nat.add_zero,
    getElem?_append_right (Nat.le_succ _), head?_eq_getElem?]
  simp

theorem Valid.prev_eq (h : Valid s) (hl : s.tree.nodes = pre ++ id :: post) :
    s.prev id = pre.getLast? := by
  have hpre : id ∉ pre := fun hid => ((h.others hl).1 id hid).2 rfl
  have hidx : s.tree.nodes.idxOf id = pre.length := by
    rw [hl, idxOf_append_of_notMem hpre, idxOf_cons_self, Nat.add_zero]
  rcases eq_nil_or_concat' pre with rfl | ⟨pre, a, rfl⟩
  · rw [prev, hidx]
    rfl
  · rw [prev, hidx, hl]
    simp

/-! ### Directions -/

/-- Two parts of the tree, of which a loop comes to the second one later. -/
def join {α : Type} (backward : Bool) (past ahead : List α) : List α :=
  if backward then ahead ++ past else past ++ ahead

/-- A part of the tree in the order of the tree, given in the order of a loop. -/
def straight (backward : Bool) (l : List ℕ) : List ℕ := if backward then l.reverse else l

section Directions

variable {α β : Type} {backward : Bool} {past ahead : List ℕ}

theorem join_assoc (l₁ l₂ l₃ : List α) :
    join backward (join backward l₁ l₂) l₃ = join backward l₁ (join backward l₂ l₃) := by
  cases backward <;> simp [join]

theorem map_join (f : α → β) (l₁ l₂ : List α) :
    (join backward l₁ l₂).map f = join backward (l₁.map f) (l₂.map f) := by
  cases backward <;> simp [join]

theorem flatMap_join (f : α → List β) (l₁ l₂ : List α) :
    (join backward l₁ l₂).flatMap f = join backward (l₁.flatMap f) (l₂.flatMap f) := by
  cases backward <;> simp [join]

theorem mem_join {a : α} {l₁ l₂ : List α} : a ∈ join backward l₁ l₂ ↔ a ∈ l₁ ∨ a ∈ l₂ := by
  cases backward <;> simp [join, or_comm]

theorem perm_join (l₁ l₂ : List α) : (join backward l₁ l₂).Perm (l₁ ++ l₂) := by
  cases backward with
  | false => exact .refl _
  | true => exact perm_append_comm

theorem straight_cons (id : ℕ) (l : List ℕ) :
    straight backward (id :: l) = join backward [id] (straight backward l) := by
  cases backward <;> simp [join, straight]

theorem straight_append (l₁ l₂ : List ℕ) :
    straight backward (l₁ ++ l₂) = join backward (straight backward l₁) (straight backward l₂) := by
  cases backward <;> simp [join, straight]

theorem mem_straight {l : List ℕ} : id ∈ straight backward l ↔ id ∈ l := by
  cases backward <;> simp [straight]

/-- What stands before and after the map that a loop has come to. -/
theorem exists_around (hl : s.tree.nodes = join backward past (straight backward (id :: ahead))) :
    ∃ pre post, s.tree.nodes = pre ++ id :: post ∧
      (∀ l : List ℕ, pre ++ (l ++ post) =
        join backward past (join backward l (straight backward ahead))) ∧
      ∀ P : List ℕ → Prop, P pre → P post → P past ∧ P (straight backward ahead) := by
  cases backward with
  | false => exact ⟨past, ahead, hl, fun l => rfl, fun P h h' => ⟨h, h'⟩⟩
  | true =>
    refine ⟨ahead.reverse, past, by simpa [join, straight] using hl, fun l => ?_,
      fun P h h' => ⟨h', h⟩⟩
    simp [join, straight]

theorem Valid.toward_eq (h : Valid s)
    (hl : s.tree.nodes = join backward past (straight backward (id :: ahead))) :
    s.toward backward id = ahead.head? := by
  cases backward with
  | false => exact h.next_eq hl
  | true =>
    have hl' : s.tree.nodes = ahead.reverse ++ id :: past := by simpa [join, straight] using hl
    have hprev := h.prev_eq hl'
    exact hprev.trans getLast?_reverse

end Directions

/-! ### Maps that were disconnected -/

/-- The maps on `munmap`'s list: they are not in the tree, but still on the lists of their
pagers. -/
structure Removed (s : Maps W) (R : List ℕ) : Prop where
  nodup : R.Nodup
  apart : ∀ id ∈ R, id ∉ s.tree.nodes
  disconnected : ∀ id ∈ R, (s.map id).connected = false
  listed : ∀ id ∈ R, id ∈ s.list (s.map id).pager

theorem Removed.below (h : Valid s) (hR : Removed s R) (hid : id ∈ R) : id < s.fresh :=
  (h.owned _ _ (hR.listed id hid)).1

/-- `map_disconnect`. -/
theorem Valid.mapDisconnect (h : Valid s) (hl : s.tree.nodes = pre ++ id :: post) :
    ∃ s', s.mapDisconnect id = .ok s' ∧ Valid s' ∧ s'.tree.nodes = pre ++ post ∧
      s'.map id = { s.map id with connected := false } ∧ (∀ j, j ≠ id → s'.map j = s.map j) ∧
      s'.fresh = s.fresh ∧ s'.list = s.list ∧ s'.length = s.length ∧ s'.world = s.world := by
  have hmem : id ∈ s.tree.nodes := by simp [hl]
  obtain ⟨hpre, hpost⟩ := h.others hl
  have herase : s.tree.nodes.erase id = pre ++ post := by
    rw [hl, erase_append_right _ fun hid => (hpre id hid).2 rfl, erase_cons_head]
  have hmap : ∀ j, j ≠ id →
      update s.map id { s.map id with connected := false } j = s.map j := fun j hj =>
    update_of_ne hj _ _
  have hpagers : ∀ j, (update s.map id { s.map id with connected := false } j).pager =
      (s.map j).pager := fun j => by
    by_cases hj : j = id
    · rw [hj, update_self]
    · rw [hmap j hj]
  have hsub : (pre ++ post).Sublist s.tree.nodes := by simp [hl]
  have hok : s.mapDisconnect id = .ok ({ s with tree := s.tree.after (pre ++ post) }.setMap id
      { s.map id with connected := false }) := by
    rw [Maps.mapDisconnect, require_of (h.connected hmem), ok_bind, herase]
    rfl
  refine ⟨_, hok,
    ⟨?_, h.nodup.sublist hsub, fun j hj => h.below j (hsub.subset hj), fun j hj => ?_, h.lists,
      fun p j hj => ?_, h.words⟩, rfl, update_self .., hmap, rfl, rfl, rfl, rfl⟩
  · have hrecords : (pre ++ post).map (update s.map id
        { s.map id with connected := false }) = (pre ++ post).map s.map :=
      map_congr_left fun j hj => hmap j
        ((mem_append.1 hj).elim (fun hj => (hpre j hj).2) fun hj => (hpost j hj).2)
    have hlaid : Map.Laid s.length ((pre ++ post).map s.map) := h.laid.sublist (hsub.map _)
    rwa [← hrecords] at hlaid
  · have hlisted := h.listed j (hsub.subset hj)
    rwa [← hpagers] at hlisted
  · have howned := h.owned p j hj
    rwa [← hpagers] at howned

/-! ### `munmap` -/

variable {B : Backend W} {backward : Bool} {I : List Map → W → Prop} {fuel : ℕ}

section Munmap

/-- **One step of `munmap`**: what is left of a map without the range stands in its place. -/
theorem Valid.unmapOne (h : Valid s) (hR : Removed s R) (hl : s.tree.nodes = pre ++ id :: post)
    (hmeets : (s.map id).Meets start stop) (hrange : start < stop) (hbound : stop ≤ 2 ^ 32)
    (hstart : start % pagesize = 0) (hstop : (s.map id).Crosses stop → stop % pagesize = 0) :
    ∃ s₁ id' s' kept, s.isolate start (stop - 1) id = .ok (s₁, id') ∧
      s₁.mapDisconnect id' = .ok s' ∧ Valid s' ∧ Removed s' (id' :: R) ∧
      s'.tree.nodes = pre ++ (kept ++ post) ∧ pre.map s'.map = pre.map s.map ∧
      kept.map s'.map = (s.map id).carve start stop ∧ post.map s'.map = post.map s.map ∧
      [id'].map s'.map = (s.map id).cut start stop ∧ R.map s'.map = R.map s.map ∧
      s'.length = s.length ∧ s'.world = s.world := by
  obtain ⟨s₁, id', left, right, hok, hvalid, hframe, hnodes, hleft, hinside, hright, hid⟩ :=
    h.isolate hl hmeets hrange hbound hstart hstop
  have hnodes' : s₁.tree.nodes = (pre ++ left) ++ id' :: (right ++ post) := by
    rw [hnodes, append_assoc]
  obtain ⟨s', hok', hvalid', hnodes₂, hself, hother, hfresh, hlist, hlength, hworld⟩ :=
    hvalid.mapDisconnect hnodes'
  obtain ⟨hpre, hpost⟩ := h.others hl
  obtain ⟨hpre', hpost'⟩ := hvalid.others hnodes'
  have hsame : ∀ l : List ℕ, (∀ j ∈ l, j ≠ id') → l.map s'.map = l.map s₁.map := fun l hl =>
    map_congr_left fun j hj => hother j (hl j hj)
  have hcarve : (s.map id).carve start stop =
      (s.map id).before start ++ (s.map id).after stop := if_pos hmeets
  have hcut : (s.map id).cut start stop =
      [{ (s.map id).inside start stop with connected := false }] := if_pos hmeets
  -- the maps that were removed before are neither this one nor new
  have hRne : ∀ j ∈ R, j < s.fresh ∧ j ≠ id := fun j hj =>
    ⟨hR.below h hj, fun hji => hR.apart j hj (hji ▸ by simp [hl])⟩
  have hRne' : ∀ j ∈ R, j ≠ id' := fun j hj hji => by
    have := hRne j hj
    omega
  have hRmap : ∀ j ∈ R, s'.map j = s.map j := fun j hj => by
    rw [hother j (hRne' j hj), hframe.map j (hRne j hj).1 (hRne j hj).2]
  refine ⟨s₁, id', s', left ++ right, hok, hok', hvalid', ⟨?_, ?_, ?_, ?_⟩, ?_, ?_, ?_, ?_, ?_,
    map_congr_left hRmap, hlength.trans hframe.length, hworld.trans hframe.world⟩
  · exact nodup_cons.2 ⟨fun hid' => hRne' id' hid' rfl, hR.nodup⟩
  · intro j hj
    rw [hnodes₂]
    rcases mem_cons.1 hj with rfl | hj
    · rw [mem_append]
      rintro (hj | hj)
      · exact (hpre' j hj).2 rfl
      · exact (hpost' j hj).2 rfl
    · intro hin
      have hin' : j ∈ s₁.tree.nodes := by
        rw [hnodes']
        exact ((sublist_cons_self _ _).append_left _).subset hin
      rcases hframe.nodes j hin' with hin | hge
      · exact hR.apart j hj hin
      · exact absurd (hRne j hj).1 (by omega)
  · intro j hj
    rcases mem_cons.1 hj with rfl | hj
    · rw [hself]
    · rw [hRmap j hj]
      exact hR.disconnected j hj
  · intro j hj
    rw [hlist]
    rcases mem_cons.1 hj with rfl | hj
    · rw [hself]
      exact hvalid.listed j (by simp [hnodes])
    · rw [hRmap j hj]
      exact hframe.list _ j (hR.listed j hj)
  · rw [hnodes₂]
    simp
  · rw [hsame pre fun j hj => (hpre' j (mem_append_left _ hj)).2]
    exact map_congr_of_frame hframe.map hpre
  · rw [hsame _ fun j hj => ?_, map_append, hleft, hright, hcarve]
    exact (mem_append.1 hj).elim (fun hj => (hpre' j (mem_append_right _ hj)).2)
      fun hj => (hpost' j (mem_append_left _ hj)).2
  · rw [hsame post fun j hj => (hpost' j (mem_append_right _ hj)).2]
    exact map_congr_of_frame hframe.map hpost
  · rw [hcut, map_singleton, hself, hinside]

/-- What a loop of `munmap` reaches: the maps that it had before it, `old`, were replaced by
`new`. -/
structure Unmaps (start stop : ℕ) (s s' : Maps W) (old new R R' : List ℕ) : Prop where
  valid : Valid s'
  removed : Removed s' R'
  records : new.map s'.map = (old.map s.map).flatMap (Map.carve start stop)
  cut : (R'.map s'.map).Perm ((old.map s.map).flatMap (Map.cut start stop) ++ R.map s.map)
  length : s'.length = s.length
  world : s'.world = s.world

/-- A map outside the range. -/
theorem Valid.outside_iff (h : Valid s) (hid : id ∈ s.tree.nodes) (hrange : start < stop) :
    s.outside start (stop - 1) id = true ↔ ¬ (s.map id).Meets start stop := by
  have hfits := h.fits hid
  have := hfits.lt_stop
  simp only [outside, hfits.last_eq, Bool.or_eq_true, decide_eq_true_eq, Map.Meets]
  omega

/-- A map that a loop can come to: it is not before the range, or not after it. -/
def Near (backward : Bool) (start stop : ℕ) (m : Map) : Prop :=
  if backward then m.start < stop else start < m.stop

/-- A loop can stop at a map outside the range: none of the maps ahead is in the range. -/
theorem Valid.none_ahead {past ahead : List ℕ} (h : Valid s)
    (hl : s.tree.nodes = join backward past (straight backward (id :: ahead)))
    (hnear : Near backward start stop (s.map id)) (hmeets : ¬ (s.map id).Meets start stop) :
    ∀ m ∈ (straight backward (id :: ahead)).map s.map, ¬ m.Meets start stop := by
  have hlt := (h.fits (show id ∈ s.tree.nodes by
    rw [hl, mem_join, mem_straight]
    exact .inr mem_cons_self)).lt_stop
  have hapart := h.apart
  rw [hl] at hapart
  rw [forall_mem_map]
  intro j hj
  rcases mem_cons.1 (mem_straight.1 hj) with rfl | hj'
  · exact hmeets
  simp only [Near, Map.Meets] at hnear hmeets ⊢
  cases backward with
  | false =>
    have hle := (pairwise_cons.1 (pairwise_append.1 hapart).2.1).1 j hj'
    simp only [Bool.false_eq_true, if_false] at hnear
    omega
  | true =>
    simp only [join, straight, if_true, reverse_cons, append_assoc] at hapart
    have hle := (pairwise_append.1 hapart).2.2 j (mem_reverse.2 hj') id (by simp)
    simp only [if_true] at hnear
    omega

/-- The loops of `munmap`. -/
theorem Valid.munmapLoop_unmaps {past ahead : List ℕ} (hrange : start < stop)
    (hbound : stop ≤ 2 ^ 32) (hstart : start % pagesize = 0) (h : Valid s)
    (hR : Removed s R) (hl : s.tree.nodes = join backward past (straight backward ahead))
    (hstop : ∀ j ∈ ahead, (s.map j).Crosses stop → stop % pagesize = 0)
    (hnear : ∀ j ∈ ahead, Near backward start stop (s.map j)) (hfuel : ahead.length < fuel) :
    ∃ s' R' new, munmapLoop start (stop - 1) backward fuel s R ahead.head? = .ok (s', R') ∧
      s'.tree.nodes = join backward past new ∧ past.map s'.map = past.map s.map ∧
      Unmaps start stop s s' (straight backward ahead) new R R' := by
  induction fuel generalizing s past ahead R with
  | zero => omega
  | succ fuel ih =>
    cases ahead with
    | nil =>
      have hnil : straight backward [] = [] := by cases backward <;> rfl
      refine ⟨s, R, [], rfl, hnil ▸ hl, rfl, h, hR, ?_, ?_, rfl, rfl⟩ <;> simp [hnil]
    | cons id ahead =>
      obtain ⟨pre, post, hsplit, hjoin, hparts⟩ := exists_around hl
      have hmem : id ∈ s.tree.nodes := by simp [hsplit]
      rw [head?_cons, munmapLoop]
      by_cases hmeets : (s.map id).Meets start stop
      · rw [if_neg (by rw [h.outside_iff hmem hrange]; exact not_not.2 hmeets)]
        obtain ⟨s₁, id', s₂, kept, hok, hok', hvalid, hR', hnodes, hpre, hkept, hpost, hcut, hRmap,
          hlength, hworld⟩ := h.unmapOne hR hsplit hmeets hrange hbound hstart
          (hstop id (by simp))
        obtain ⟨hpast, hahead⟩ :=
          hparts (fun l => l.map s₂.map = l.map s.map) hpre hpost
        have hsame : ∀ j ∈ ahead, s₂.map j = s.map j := fun j hj =>
          map_inj_left.1 hahead j (mem_straight.2 hj)
        have hnear' : ∀ j ∈ ahead, Near backward start stop (s₂.map j) := fun j hj => by
          rw [hsame j hj]
          exact hnear j (mem_cons_of_mem _ hj)
        have hstop' : ∀ j ∈ ahead, (s₂.map j).Crosses stop → stop % pagesize = 0 := fun j hj => by
          rw [hsame j hj]
          exact hstop j (mem_cons_of_mem _ hj)
        have hnodes₂ : s₂.tree.nodes =
            join backward (join backward past kept) (straight backward ahead) := by
          rw [hnodes, hjoin, join_assoc]
        obtain ⟨s', R', new, hloop, hnodes', hpast', hun⟩ :=
          ih hvalid hR' hnodes₂ hstop' hnear' (by simpa using hfuel)
        have hfinal := map_inj_left.1 hpast'
        refine ⟨s', R', join backward kept new, ?_, by rw [hnodes', join_assoc], ?_, hun.valid,
          hun.removed, ?_, ?_, hun.length.trans hlength, hun.world.trans hworld⟩
        · rw [hok, ok_bind]
          dsimp only
          rw [hok', ok_bind, h.toward_eq hl]
          exact hloop
        · rw [← hpast]
          exact map_congr_left fun j hj => hfinal j (mem_join.2 (.inl hj))
        · have hkept' : kept.map s'.map = kept.map s₂.map :=
            map_congr_left fun j hj => hfinal j (mem_join.2 (.inr hj))
          rw [straight_cons, map_join, hkept', hkept, hun.records, hahead, map_join, flatMap_join]
          simp
        · have hcons : (id' :: R).map s₂.map = (s.map id).cut start stop ++ R.map s.map := by
            rw [← hcut, ← hRmap]
            rfl
          refine hun.cut.trans ?_
          rw [hahead, hcons, straight_cons, map_join, flatMap_join, ← append_assoc]
          refine List.Perm.append_right _ (perm_append_comm.trans ?_)
          simpa using (perm_join _ _).symm
      · rw [if_pos ((h.outside_iff hmem hrange).2 hmeets)]
        have hnone := h.none_ahead hl (hnear id (by simp)) hmeets
        exact ⟨s, R, _, rfl, hl, rfl, h, hR, (Map.flatMap_carve hnone).symm,
          by rw [Map.flatMap_cut hnone]; rfl, rfl, rfl⟩

/-- What the destruction of a map does to the world. -/
def release (B : Backend W) (m : Map) (last : Bool) (w : W) : Except Fault W := do
  let w ← B.destroy m last w
  if last then B.noRefs m.pager w else pure w

/-- `map_destroy` of a map on `munmap`'s list. -/
theorem Valid.mapDestroy {w : W} (h : Valid s) (hR : Removed s (id :: R))
    (hw : release B (s.map id) (s.list (s.map id).pager == [id]) s.world = .ok w) :
    ∃ s', s.mapDestroy B id = .ok s' ∧ Valid s' ∧ Removed s' R ∧ s'.map = s.map ∧
      s'.tree = s.tree ∧ s'.length = s.length ∧ s'.world = w := by
  have hlisted := hR.listed id (by simp)
  have hnil : s.list (s.map id).pager ≠ [] := ne_nil_of_mem hlisted
  have hok : s.mapDestroy B id = .ok { s with
      world := w
      list := update s.list (s.map id).pager ((s.list (s.map id).pager).erase id) } := by
    obtain ⟨w₁, hdestroy, hrefs⟩ := bind_eq_ok.1 hw
    rw [Maps.mapDestroy, require_of (hR.disconnected id (by simp)), ok_bind, require_of hnil,
      ok_bind]
    dsimp only
    rw [hdestroy, ok_bind]
    cases hlast : s.list (s.map id).pager == [id] with
    | true =>
      rw [hlast, if_pos rfl] at hrefs
      have herase : (s.list (s.map id).pager).erase id = [] := by
        rw [beq_iff_eq.1 hlast]
        simp
      rw [if_pos rfl, hrefs, herase]
      rfl
    | false =>
      rw [hlast, if_neg Bool.false_ne_true] at hrefs
      obtain rfl := pure_eq_ok.1 hrefs
      rw [if_neg Bool.false_ne_true, require_of hlisted]
      rfl
  -- the other maps stay on their lists
  have hlist : ∀ p j, j ∈ update s.list (s.map id).pager
      ((s.list (s.map id).pager).erase id) p ↔ j ∈ s.list p ∧ j ≠ id := by
    intro p j
    by_cases hp : p = (s.map id).pager
    · rw [hp, update_self, (h.lists _).mem_erase_iff, and_comm]
    · rw [update_of_ne hp]
      refine ⟨fun hj => ⟨hj, ?_⟩, And.left⟩
      rintro rfl
      exact hp (h.owned p j hj).2.symm
  have hnodup := nodup_cons.1 hR.nodup
  refine ⟨_, hok,
    ⟨h.laid, h.nodup, h.below, fun j hj => ?_, fun p => ?_, fun p j hj => ?_, h.words⟩,
    ⟨hnodup.2, fun j hj => hR.apart j (by simp [hj]), fun j hj => hR.disconnected j (by simp [hj]),
      fun j hj => ?_⟩, rfl, rfl, rfl, rfl⟩
  · refine (hlist _ j).2 ⟨h.listed j hj, ?_⟩
    rintro rfl
    exact hR.apart j (by simp) hj
  · by_cases hp : p = (s.map id).pager
    · subst hp
      simpa using (h.lists _).erase id
    · simpa [hp] using h.lists p
  · exact h.owned p j ((hlist p j).1 hj).1
  · refine (hlist _ j).2 ⟨hR.listed j (by simp [hj]), ?_⟩
    rintro rfl
    exact hnodup.1 hj

/-- The maps on the list are destroyed one after the other. `I` says what the world is like when
there are maps to be destroyed. -/
theorem Valid.destroyAll (h : Valid s) (hR : Removed s R)
    (hB : ∀ m ms last w, I (m :: ms) w → ∃ w', release B m last w = .ok w' ∧ I ms w')
    (hI : I (R.map s.map) s.world) :
    ∃ s', R.foldlM (Maps.mapDestroy B) s = .ok s' ∧ Valid s' ∧ s'.records = s.records ∧
      s'.length = s.length ∧ I [] s'.world := by
  induction R generalizing s with
  | nil => exact ⟨s, rfl, h, rfl, rfl, hI⟩
  | cons id R ih =>
    obtain ⟨w, hw, hI'⟩ := hB _ _ (s.list (s.map id).pager == [id]) _ hI
    obtain ⟨s₁, hok, hvalid, hR', hmap, htree, hlength, rfl⟩ := h.mapDestroy hR hw
    rw [← hmap] at hI'
    obtain ⟨s', hfold, hvalid', hrecords, hlength', hI''⟩ := ih hvalid hR' hI'
    refine ⟨s', ?_, hvalid', ?_, hlength'.trans hlength, hI''⟩
    · rw [foldlM_cons, hok, ok_bind, hfold]
    · rw [hrecords, records, records, htree, hmap]

theorem last32_range (hrange : start < stop) (hbound : stop ≤ 2 ^ 32) :
    last32 start (stop - start) = stop - 1 := by
  rw [last32_eq (by omega) (by omega)]
  omega

/-- **The search for a range.** The maps after the one it finds are not before the range, and those
before it not after it. -/
theorem Valid.mapFind_range (h : Valid s) (hrange : start < stop) (hbound : stop ≤ 2 ^ 32) :
    (∃ pre id post, s.tree.nodes = pre ++ id :: post ∧
        s.mapFind start (stop - start) = some id ∧ (s.map id).start < stop ∧
        (∀ j ∈ id :: post, start < (s.map j).stop) ∧ ∀ j ∈ pre, (s.map j).start < stop) ∨
      s.mapFind start (stop - start) = none ∧ ∀ m ∈ s.records, ¬ m.Meets start stop := by
  rcases h.mapFind_spec start (stop - start) with ⟨pre, id, post, hl, hfind, hover⟩ | ⟨hfind, hnone⟩
  · have hapart := h.apart
    rw [hl, pairwise_append, pairwise_cons] at hapart
    rw [last32_range hrange hbound] at hover
    refine .inl ⟨pre, id, post, hl, hfind, by omega, fun j hj => ?_, fun j hj => ?_⟩
    · rcases mem_cons.1 hj with rfl | hj
      · exact hover.2
      · have hle := hapart.2.1.1 j hj
        exact (hover.2.trans_le hle).trans (h.fits (by simp [hl, hj])).lt_stop
    · have hle := hapart.2.2 j hj id (by simp)
      have hlt := (h.fits (show j ∈ s.tree.nodes by simp [hl, hj])).lt_stop
      omega
  · refine .inr ⟨hfind, fun m hm hmeets => ?_⟩
    obtain ⟨id, hid, rfl⟩ := mem_records.1 hm
    refine hnone id hid ⟨?_, hmeets.2⟩
    rw [last32_range hrange hbound]
    exact Nat.le_sub_one_of_lt hmeets.1

/-- **`munmap`** of a range in the address space: what is left of every map without the range. A
range may end inside a page that is not mapped. -/
theorem Valid.munmap (h : Valid s) (hrange : start < stop)
    (hbound : stop ≤ 2 ^ 32) (hstart : start % pagesize = 0)
    (hstop : ∀ m ∈ s.records, m.Crosses stop → stop % pagesize = 0)
    (hB : ∀ m ms last w, I (m :: ms) w → ∃ w', release B m last w = .ok w' ∧ I ms w')
    (hI : ∀ l : List Map, l.Perm (s.records.flatMap (Map.cut start stop)) → I l s.world) :
    ∃ s', s.munmap B start (stop - start) = .ok s' ∧ Valid s' ∧
      s'.records = s.records.flatMap (Map.carve start stop) ∧ s'.length = s.length ∧
      I [] s'.world := by
  rw [Maps.munmap, last32_range hrange hbound]
  rcases h.mapFind_range hrange hbound with
    ⟨pre, id, post, hl, hfind, -, hbeyond, hbefore⟩ | ⟨hfind, hnone⟩
  · rw [hfind]
    have hs := h.searched
    have hl' : s.searched.tree.nodes = pre ++ id :: post := hl
    have hahead : s.searched.tree.nodes = join false pre (straight false (id :: post)) := hl
    have hfuel : (id :: post).length < s.searched.tree.nodes.length + 1 := by simp [hl']
    have hstop' : ∀ j ∈ pre ++ id :: post, (s.map j).Crosses stop → stop % pagesize = 0 :=
      fun j hj => hstop _ (mem_records.2 ⟨j, hl ▸ hj, rfl⟩)
    obtain ⟨s₁, R₁, rest', hloop, hnodes, hpre, hun⟩ := hs.munmapLoop_unmaps hrange
      hbound hstart ⟨.nil, by simp, by simp, by simp⟩ hahead
      (fun j hj => hstop' j (mem_append_right _ hj)) hbeyond hfuel
    have hsame : ∀ j ∈ pre, s₁.map j = s.map j := map_inj_left.1 hpre
    have hbefore' : ∀ j ∈ pre.reverse, Near true start stop (s₁.map j) := fun j hj => by
      rw [hsame j (mem_reverse.1 hj)]
      exact hbefore j (mem_reverse.1 hj)
    have hstop₁ : ∀ j ∈ pre.reverse, (s₁.map j).Crosses stop → stop % pagesize = 0 := fun j hj => by
      rw [hsame j (mem_reverse.1 hj)]
      exact hstop' j (mem_append_left _ (mem_reverse.1 hj))
    have hnodes₁ : s₁.tree.nodes = join true rest' (straight true pre.reverse) := by
      simpa [join, straight] using hnodes
    have hfuel' : pre.reverse.length < s₁.tree.nodes.length + 1 := by simp [hnodes, join]
    obtain ⟨s₂, R₂, pre', hloop', hnodes', hrest, hun'⟩ := hun.valid.munmapLoop_unmaps hrange hbound
      hstart hun.removed hnodes₁ hstop₁ hbefore' hfuel'
    simp only [straight, Bool.false_eq_true, if_false, if_true, reverse_reverse] at hun hun'
    rw [head?_reverse] at hloop'
    have hrecords : s.records = pre.map s.map ++ (id :: post).map s.map := by
      rw [records, hl, map_append]
    have hperm : (R₂.map s₂.map).Perm (s.records.flatMap (Map.cut start stop)) := by
      refine hun'.cut.trans ?_
      rw [hpre, hrecords, flatMap_append]
      exact (hun.cut.trans (by simp [Maps.searched])).append_left _
    have hworld : s₂.world = s.world := hun'.world.trans hun.world
    obtain ⟨s', hfold, hvalid, hrecords', hlength, hI'⟩ := hun'.valid.destroyAll hun'.removed hB
      (hworld ▸ hI _ hperm)
    refine ⟨s', ?_, hvalid, ?_, hlength.trans (hun'.length.trans hun.length), hI'⟩
    · rw [head?_cons] at hloop
      dsimp only
      rw [hloop, ok_bind]
      rw [hs.prev_eq hl', hloop', ok_bind]
      exact hfold
    · rw [hrecords', records, hnodes', map_join, hun'.records, hrest, hun.records, hpre,
        hrecords, flatMap_append]
      rfl
  · rw [hfind]
    refine ⟨_, rfl, h.searched, ?_, rfl, ?_⟩
    · exact (Map.flatMap_carve hnone).symm
    · exact hI [] (by rw [Map.flatMap_cut hnone])

/-! ### Ranges that end inside a page -/

/-- A map that a range ends in, inside a page, cannot be split there. -/
theorem Valid.isolate_ragged (h : Valid s) (hl : s.tree.nodes = pre ++ id :: post)
    (hbeyond : start < (s.map id).stop) (hrange : start < stop) (hstart : start % pagesize = 0)
    (hcross : (s.map id).Crosses stop) (hstop : stop % pagesize ≠ 0) :
    s.isolate start (stop - 1) id = .error .panic := by
  have hfits := h.fits (show id ∈ s.tree.nodes by simp [hl])
  obtain ⟨hlt, hgt⟩ := hcross
  have hinside := hfits.inside
  obtain ⟨s₁, id₁, left, hok, hvalid, -, hnodes, -, hid, -⟩ := h.splitBefore hl hbeyond hstart
  have hbegin : (if (s.map id).start < start then start else (s.map id).start) =
      max (s.map id).start start := by
    split <;> omega
  have haligned : max (s.map id).start start % pagesize = 0 := by
    rcases max_choice (s.map id).start start with hmax | hmax <;> rw [hmax]
    · exact hfits.start_aligned
    · exact hstart
  rw [Maps.isolate, hok, ok_bind]
  simp only [hbegin, hfits.last_eq]
  have hoffset : (stop - 1 + 2 ^ 32 - max (s.map id).start start + 1) % 2 ^ 32 =
      stop - max (s.map id).start start := by omega
  have hsplit : s₁.mapSplit id₁ (stop - max (s.map id).start start) = .ok (s₁, none) := by
    have hlength : (s₁.map id₁).length = (s.map id).stop - max (s.map id).start start := by
      rw [hid]
      rfl
    rw [Maps.mapSplit, if_neg (by omega), if_pos]
    · rfl
    · simp only [pagesize] at haligned hstop ⊢
      omega
  rw [if_pos (by omega), hoffset, mustSplit, hsplit]
  rfl

/-- The loop of `munmap` forward comes to such a map. -/
theorem Valid.munmapLoop_ragged (hrange : start < stop) (hbound : stop ≤ 2 ^ 32)
    (hstart : start % pagesize = 0) (hstop : stop % pagesize ≠ 0) (h : Valid s)
    (hR : Removed s R) (hl : s.tree.nodes = pre ++ rest)
    (hbeyond : ∀ j ∈ rest, start < (s.map j).stop) (hcross : ∃ j ∈ rest, (s.map j).Crosses stop)
    (hfuel : rest.length < fuel) :
    munmapLoop start (stop - 1) false fuel s R rest.head? = .error .panic := by
  induction fuel generalizing s pre rest R with
  | zero => omega
  | succ fuel ih =>
    cases rest with
    | nil => simp at hcross
    | cons id rest =>
      have hmem : id ∈ s.tree.nodes := by simp [hl]
      have hgt := hbeyond id (by simp)
      obtain ⟨j, hj, hcross⟩ := hcross
      rw [head?_cons, munmapLoop]
      by_cases hself : (s.map id).Crosses stop
      · rw [if_neg (by rw [h.outside_iff hmem hrange]; exact not_not.2 ⟨hself.1, hgt⟩),
          h.isolate_ragged hl hgt hrange hstart hself hstop]
        rfl
      · have hj : j ∈ rest := (mem_cons.1 hj).resolve_left fun heq => hself (heq ▸ hcross)
        have hapart := h.apart
        rw [hl, pairwise_append, pairwise_cons] at hapart
        have hle := hapart.2.1.1 j hj
        have hlt := (h.fits hmem).lt_stop
        have hmeets : (s.map id).Meets start stop := ⟨by have := hcross.1; omega, hgt⟩
        rw [if_neg (by rw [h.outside_iff hmem hrange]; exact not_not.2 hmeets)]
        obtain ⟨s₁, id', s₂, kept, hok, hok', hvalid, hR', hnodes, -, -, hrest, -⟩ :=
          h.unmapOne hR hl hmeets hrange hbound hstart fun hc => absurd hc hself
        have hsame := map_inj_left.1 hrest
        have hnodes₂ : s₂.tree.nodes = (pre ++ kept) ++ rest := by rw [hnodes, append_assoc]
        rw [hok, ok_bind]
        dsimp only
        rw [hok', ok_bind, toward, if_neg Bool.false_ne_true, h.next_eq hl]
        refine ih hvalid hR' hnodes₂ (fun k hk => ?_) ⟨j, hj, ?_⟩ (by simpa using hfuel)
        · rw [hsame k hk]
          exact hbeyond k (mem_cons_of_mem _ hk)
        · rwa [hsame j hj]

/-- **`munmap` panics** where a range ends inside a page that is mapped. -/
theorem Valid.munmap_ragged (h : Valid s) (hrange : start < stop)
    (hbound : stop ≤ 2 ^ 32) (hstart : start % pagesize = 0) (hstop : stop % pagesize ≠ 0)
    (hcross : ∃ m ∈ s.records, m.Crosses stop) :
    s.munmap B start (stop - start) = .error .panic := by
  obtain ⟨m, hm, hcross⟩ := hcross
  obtain ⟨j, hj, rfl⟩ := mem_records.1 hm
  rw [Maps.munmap, last32_range hrange hbound]
  rcases h.mapFind_range hrange hbound with ⟨pre, id, post, hl, hfind, hid, hbeyond, -⟩ | ⟨-, hnone⟩
  · have hs := h.searched
    have hl' : s.searched.tree.nodes = pre ++ id :: post := hl
    have hfuel : (id :: post).length < s.searched.tree.nodes.length + 1 := by simp [hl']
    -- the map that the range ends in is not one of those before
    have hafter : j ∈ id :: post := by
      refine (mem_append.1 (hl ▸ hj)).resolve_left fun hpre => ?_
      have hapart := h.apart
      rw [hl, pairwise_append] at hapart
      have hle := hapart.2.2 j hpre id (by simp)
      have := hcross.2
      omega
    have hloop := hs.munmapLoop_ragged hrange hbound hstart hstop
      (R := []) ⟨.nil, by simp, by simp, by simp⟩ hl' hbeyond ⟨j, hafter, hcross⟩ hfuel
    rw [head?_cons] at hloop
    rw [hfind]
    dsimp only
    rw [hloop]
    rfl
  · exact absurd ⟨hcross.1, hrange.trans hcross.2⟩ (hnone _ hm)

end Munmap

end Maps

end Viengoos
