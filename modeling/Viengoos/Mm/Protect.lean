import Viengoos.Mm.Unmap

/-!
# `mprotect`, and that both are pointwise

`mprotect` goes through the tree as `munmap` does, and replaces every map by parts of it, with the
new access in the range. So both are pointwise: what an address has afterwards depends on what it
had and whether it is in the range.

The end of the range is computed in 32 bits. Where a range does not fit in the address space, it
wraps around, and the maps in the range are not found.
-/

namespace Viengoos

open Outcome List Option

namespace Map

variable {start stop : ℕ} {access : MapAccess} {l : List Map}

/-- The part after a range is not in it. -/
theorem mem_after (m : Map) {a : Map} (ha : a ∈ m.after stop) (hmeets : m.Meets start stop) :
    ¬ a.Meets start stop ∧ start < a.stop := by
  rw [after] at ha
  split at ha
  · next h =>
    obtain rfl := mem_singleton.1 ha
    rw [Meets, slice_stop h.le]
    exact ⟨fun hm => (lt_irrefl _ hm.1), hmeets.2⟩
  · simp at ha

/-- The part before a range is not in it. -/
theorem mem_before (m : Map) {a : Map} (ha : a ∈ m.before start) (hmeets : m.Meets start stop) :
    ¬ a.Meets start stop ∧ a.start < stop := by
  rw [before] at ha
  split at ha
  · next h =>
    obtain rfl := mem_singleton.1 ha
    rw [Meets, slice_stop h.le]
    exact ⟨fun hm => (lt_irrefl _ hm.2), hmeets.1⟩
  · simp at ha

theorem flatMap_recolour (h : ∀ m ∈ l, ¬ m.Meets start stop) :
    l.flatMap (recolour start stop access) = l := by
  induction l with
  | nil => rfl
  | cons m l ih =>
    rw [flatMap_cons, ih fun m hm => h m (mem_cons_of_mem _ hm), recolour,
      if_neg fun hm => h m mem_cons_self hm.1, singleton_append]

end Map

namespace Maps

variable {W : Type} {s s' : Maps W} {id : ℕ} {pre post rest : List ℕ} {start stop : ℕ}

/-! ### `mprotect` -/

section Mprotect

variable {B : Backend W}

section

variable (hB : ∀ a x w, ∃ w', B.restrict a x w = .ok w')

include hB

/-- Setting the access of a map of the tree. -/
theorem Valid.setAccess (h : Valid s) (hl : s.tree.nodes = pre ++ id :: post) (access : MapAccess) :
    ∃ s', s.setAccess B id access = .ok s' ∧ Valid s' ∧
      s'.tree = s.tree ∧ s'.map = Function.update s.map id { s.map id with access } ∧
      s'.length = s.length := by
  have hvalid : Valid (s.setMap id { s.map id with access }) := by
    have hrecords : s.records = pre.map s.map ++ s.map id :: post.map s.map := by
      simp [records, hl]
    have hlaid := hrecords ▸ h.laid
    obtain ⟨hconn, hfits, -⟩ := hlaid.middle
    have hone : Map.Laid s.length [{ s.map id with access }] :=
      ⟨by simpa using hconn, by simpa using ⟨hfits.pos, hfits.start_aligned, hfits.length_aligned,
        hfits.offset_aligned, hfits.inside, hfits.within⟩, pairwise_singleton _ _⟩
    exact h.setMap hl rfl (hlaid.replace hone (by simp [Map.stop]))
  rw [Maps.setAccess]
  split
  · obtain ⟨w, hw⟩ := foldlM_returns
      (fun w i => hB access ((s.map id).start + i * pagesize) w)
      (List.range ((s.map id).length / pagesize)) s.world
    refine ⟨{ s.setMap id { s.map id with access } with world := w }, ?_,
      ⟨hvalid.laid, hvalid.nodup, hvalid.below, hvalid.listed, hvalid.lists, hvalid.owned,
        hvalid.words⟩, rfl, rfl, rfl⟩
    exact (congrArg (· >>= _) hw).trans rfl
  · exact ⟨_, rfl, hvalid, rfl, rfl, rfl⟩

variable (hrange : start < stop) (hbound : stop ≤ 2 ^ 32) (hstart : start % pagesize = 0)
  (hstop : stop % pagesize = 0)

include hrange hbound hstart hstop

/-- **One step of `mprotect`**: the map with the new access in the range stands in its place. -/
theorem Valid.protectOne (h : Valid s) (hl : s.tree.nodes = pre ++ id :: post)
    (hmeets : (s.map id).Meets start stop) (access : MapAccess) :
    ∃ s₁ id' s' left right, s.isolate start (stop - 1) id = .ok (s₁, id') ∧
      s₁.setAccess B id' access = .ok s' ∧ Valid s' ∧
      s'.tree.nodes = pre ++ (left ++ id' :: (right ++ post)) ∧ pre.map s'.map = pre.map s.map ∧
      left.map s'.map = (s.map id).before start ∧
      s'.map id' = { (s.map id).inside start stop with access } ∧
      right.map s'.map = (s.map id).after stop ∧ post.map s'.map = post.map s.map ∧
      s'.length = s.length := by
  obtain ⟨s₁, id', left, right, hok, hvalid, hframe, hnodes, hleft, hinside, hright, hid⟩ :=
    h.isolate hl hmeets hrange hbound hstart fun _ => hstop
  have hnodes' : s₁.tree.nodes = (pre ++ left) ++ id' :: (right ++ post) := by
    rw [hnodes, append_assoc]
  obtain ⟨s', hok', hvalid', htree, hmap, hlength⟩ := hvalid.setAccess hB hnodes' access
  obtain ⟨hpre, hpost⟩ := h.others hl
  obtain ⟨hpre', hpost'⟩ := hvalid.others hnodes'
  have hsame : ∀ l : List ℕ, (∀ j ∈ l, j ≠ id') → l.map s'.map = l.map s₁.map := fun l hl =>
    map_congr_left fun j hj => by rw [hmap, Function.update_of_ne (hl j hj)]
  refine ⟨s₁, id', s', left, right, hok, hok', hvalid', by rw [htree, hnodes], ?_, ?_, ?_, ?_, ?_,
    hlength.trans hframe.length⟩
  · rw [hsame pre fun j hj => (hpre' j (mem_append_left _ hj)).2]
    exact map_congr_of_frame hframe.map hpre
  · rw [hsame left fun j hj => (hpre' j (mem_append_right _ hj)).2, hleft]
  · rw [hmap, Function.update_self, hinside]
  · rw [hsame right fun j hj => (hpost' j (mem_append_left _ hj)).2, hright]
  · rw [hsame post fun j hj => (hpost' j (mem_append_right _ hj)).2]
    exact map_congr_of_frame hframe.map hpost

/-- Such a step of a loop: what is left of the map in front of the loop is not in the range. -/
theorem Valid.protectAhead {backward : Bool} {past ahead : List ℕ} (h : Valid s)
    (hl : s.tree.nodes = join backward past (straight backward (id :: ahead)))
    (hmeets : (s.map id).Meets start stop) {access : MapAccess}
    (haccess : (s.map id).access ≠ access) :
    ∃ s₁ id' s' behind front, s.isolate start (stop - 1) id = .ok (s₁, id') ∧
      s₁.setAccess B id' access = .ok s' ∧ Valid s' ∧
      s'.tree.nodes =
        join backward (join backward past behind) (straight backward (id' :: (front ++ ahead))) ∧
      past.map s'.map = past.map s.map ∧
      (join backward behind (straight backward (id' :: front))).map s'.map =
        (s.map id).recolour start stop access ∧
      (∀ m ∈ front.map s'.map, ¬ m.Meets start stop ∧ Near backward start stop m) ∧
      (straight backward ahead).map s'.map = (straight backward ahead).map s.map ∧
      s'.length = s.length := by
  have hrecolour : (s.map id).recolour start stop access = (s.map id).before start ++
      { (s.map id).inside start stop with access } :: (s.map id).after stop :=
    if_pos ⟨hmeets, haccess⟩
  cases backward with
  | false =>
    obtain ⟨s₁, id', s', left, right, hok, hok', hvalid, hnodes, hpre, hleft, hinside, hright,
      hpost, hlength⟩ := h.protectOne hB hrange hbound hstart hstop hl hmeets access
    refine ⟨s₁, id', s', left, right, hok, hok', hvalid, ?_, hpre, ?_, ?_, hpost, hlength⟩
    · simpa [join, straight] using hnodes
    · simp [join, straight, hrecolour, hleft, hinside, hright]
    · rw [hright]
      exact fun m hm => (s.map id).mem_after hm hmeets
  | true =>
    have hl' : s.tree.nodes = ahead.reverse ++ id :: past := by simpa [join, straight] using hl
    obtain ⟨s₁, id', s', left, right, hok, hok', hvalid, hnodes, hpre, hleft, hinside, hright,
      hpost, hlength⟩ := h.protectOne hB hrange hbound hstart hstop hl' hmeets access
    refine ⟨s₁, id', s', right, left.reverse, hok, hok', hvalid, ?_, hpost, ?_, ?_, hpre, hlength⟩
    · simpa [join, straight] using hnodes
    · simp [join, straight, hrecolour, hleft, hinside, hright]
    · rw [map_reverse, hleft]
      exact fun m hm => (s.map id).mem_before (mem_reverse.1 hm) hmeets

/-- How many maps of a part of the tree are in the range. -/
def inRange (s : Maps W) (start stop : ℕ) (l : List ℕ) : ℕ :=
  (l.map s.map).countP fun m => decide (m.Meets start stop)

/-- The loops of `mprotect`. -/
theorem Valid.mprotectLoop_recolours {backward : Bool} {past ahead : List ℕ} {fuel : ℕ}
    (h : Valid s) (hl : s.tree.nodes = join backward past (straight backward ahead))
    (hnear : ∀ m ∈ ahead.map s.map, Near backward start stop m)
    (hfuel : s.inRange start stop ahead < fuel) (access : MapAccess) :
    ∃ s' new, mprotectLoop B start (stop - 1) access backward fuel s ahead.head? = .ok s' ∧
      Valid s' ∧ s'.tree.nodes = join backward past new ∧ past.map s'.map = past.map s.map ∧
      new.map s'.map =
        ((straight backward ahead).map s.map).flatMap (Map.recolour start stop access) ∧
      s'.length = s.length := by
  induction fuel generalizing s past ahead with
  | zero => omega
  | succ fuel ih =>
    cases ahead with
    | nil => exact ⟨s, straight backward [], rfl, h, hl, rfl, by cases backward <;> rfl, rfl⟩
    | cons id ahead =>
      have hmem : id ∈ s.tree.nodes := by
        rw [hl, mem_join, mem_straight]
        exact .inr mem_cons_self
      rw [head?_cons, mprotectLoop]
      by_cases hmeets : (s.map id).Meets start stop
      · rw [if_neg (by rw [h.outside_iff hmem hrange]; exact not_not.2 hmeets)]
        have hcount : s.inRange start stop (id :: ahead) = s.inRange start stop ahead + 1 := by
          simp [inRange, hmeets]
        rw [map_cons, forall_mem_cons] at hnear
        by_cases haccess : (s.map id).access = access
        · rw [if_pos haccess]
          have hl' : s.tree.nodes =
              join backward (join backward past [id]) (straight backward ahead) := by
            rw [hl, straight_cons, join_assoc]
          obtain ⟨s', new, hloop, hvalid, hnodes, hpast, hnew, hlength⟩ :=
            ih h hl' hnear.2 (by omega)
          have hsame := map_inj_left.1 hpast
          have hone : (s.map id).recolour start stop access = [s.map id] :=
            if_neg fun hm => hm.2 haccess
          refine ⟨s', join backward [id] new, ?_, hvalid, by rw [hnodes, join_assoc], ?_, ?_,
            hlength⟩
          · rw [h.toward_eq hl, hloop]
          · exact map_congr_left fun j hj => hsame j (mem_join.2 (.inl hj))
          · have hid := hsame id (mem_join.2 (.inr (by simp)))
            rw [map_join, hnew, straight_cons, map_join, flatMap_join]
            simp [hid, hone]
        · rw [if_neg haccess]
          obtain ⟨s₁, id', s₂, behind, front, hok, hok', hvalid, hnodes, hpast, hone, hfront,
            hahead, hlength⟩ := h.protectAhead hB hrange hbound hstart hstop hl hmeets haccess
          have hnodes₂ : s₂.tree.nodes = join backward
              (join backward (join backward past behind) [id'])
              (straight backward (front ++ ahead)) := by
            rw [hnodes, straight_cons, join_assoc _ [id']]
          have hsame₂ : ahead.map s₂.map = ahead.map s.map :=
            map_congr_left fun j hj => map_inj_left.1 hahead j (mem_straight.2 hj)
          have hnear' : ∀ m ∈ (front ++ ahead).map s₂.map, Near backward start stop m := by
            rw [map_append, hsame₂]
            intro m hm
            exact (mem_append.1 hm).elim (fun hm => (hfront m hm).2) (hnear.2 m)
          have hnone : (front.map s₂.map).countP (fun m => decide (m.Meets start stop)) = 0 :=
            countP_eq_zero.2 fun m hm => by simpa using (hfront m hm).1
          have hcount' : s₂.inRange start stop (front ++ ahead) = s.inRange start stop ahead := by
            rw [inRange, map_append, countP_append, hnone, Nat.zero_add, hsame₂]
            rfl
          obtain ⟨s', new, hloop, hvalid', hnodes', hpast', hnew, hlength'⟩ :=
            ih hvalid hnodes₂ hnear' (by omega)
          have hsame := map_inj_left.1 hpast'
          have hbehind : behind.map s'.map = behind.map s₂.map :=
            map_congr_left fun j hj => hsame j (by simp [mem_join, hj])
          have hid : s'.map id' = s₂.map id' := hsame id' (by simp [mem_join])
          have hkept : ((straight backward front).map s₂.map).flatMap
              (Map.recolour start stop access) = (straight backward front).map s₂.map :=
            Map.flatMap_recolour (forall_mem_map.2 fun j hj =>
              (hfront _ (mem_map_of_mem (mem_straight.1 hj))).1)
          refine ⟨s', join backward behind (join backward [id'] new), ?_, hvalid', ?_, ?_, ?_,
            hlength'.trans hlength⟩
          · rw [hok, ok_bind]
            dsimp only
            rw [hok', ok_bind, hvalid.toward_eq hnodes, hloop]
          · rw [hnodes', join_assoc, join_assoc]
          · rw [← hpast]
            exact map_congr_left fun j hj => hsame j (by simp [mem_join, hj])
          · have hrest : new.map s'.map = join backward ((straight backward front).map s₂.map)
                (((straight backward ahead).map s.map).flatMap
                  (Map.recolour start stop access)) := by
              rw [hnew, straight_append, map_join, flatMap_join, hahead, hkept]
            simp only [straight_cons, map_join, flatMap_join, map_singleton,
              flatMap_singleton, hrest, hbehind, hid, ← hone, join_assoc]
      · rw [if_pos ((h.outside_iff hmem hrange).2 hmeets)]
        have hnone := h.none_ahead hl (hnear _ (by simp)) hmeets
        exact ⟨s, _, rfl, h, hl, rfl, (Map.flatMap_recolour hnone).symm, rfl⟩

/-- **`mprotect`** of a range in the address space: every map with the new access in the range. -/
theorem Valid.mprotect (h : Valid s) (access : MapAccess) :
    ∃ s', s.mprotect B start (stop - start) access = .ok s' ∧ Valid s' ∧
      s'.records = s.records.flatMap (Map.recolour start stop access) ∧ s'.length = s.length := by
  rw [Maps.mprotect, last32_range hrange hbound]
  rcases h.mapFind_range hrange hbound with
    ⟨pre, id, post, hl, hfind, -, hbeyond, hbefore⟩ | ⟨hfind, hnone⟩
  · rw [hfind]
    have hs := h.searched
    have hl' : s.searched.tree.nodes = pre ++ id :: post := hl
    have hahead : s.searched.tree.nodes = join false pre (straight false (id :: post)) := hl
    have hle : ∀ (t : Maps W) l, t.inRange start stop l ≤ l.length := fun t l =>
      countP_le_length.trans_eq (length_map ..)
    have hfuel : s.searched.inRange start stop (id :: post) < s.searched.tree.nodes.length + 2 := by
      have := hle s.searched (id :: post)
      have := congrArg List.length hl'
      rw [length_append] at this
      omega
    obtain ⟨s₁, rest', hloop, hvalid, hnodes, hpre, hrest, hlength⟩ := hs.mprotectLoop_recolours hB
      hrange hbound hstart hstop hahead (forall_mem_map.2 hbeyond) hfuel access
    have hnodes₁ : s₁.tree.nodes = join true rest' (straight true pre.reverse) := by
      simpa [join, straight] using hnodes
    have hbefore' : ∀ m ∈ pre.reverse.map s₁.map, Near true start stop m := by
      rw [map_reverse, hpre]
      exact fun m hm => forall_mem_map.2 hbefore m (mem_reverse.1 hm)
    have hfuel' : s₁.inRange start stop pre.reverse < s₁.tree.nodes.length + 2 := by
      have := hle s₁ pre.reverse
      rw [hnodes, join, if_neg Bool.false_ne_true, length_append]
      rw [length_reverse] at this
      omega
    obtain ⟨s', pre', hloop', hvalid', hnodes', hrest', hpre', hlength'⟩ :=
      hvalid.mprotectLoop_recolours hB hrange hbound hstart hstop hnodes₁ hbefore' hfuel' access
    rw [head?_reverse] at hloop'
    rw [straight, if_pos rfl, reverse_reverse] at hpre'
    refine ⟨s', ?_, hvalid', ?_, hlength'.trans hlength⟩
    · rw [head?_cons] at hloop
      dsimp only
      rw [hloop, ok_bind, hs.prev_eq hl', hloop']
    · rw [records, hnodes', map_join, hpre', hrest', hrest, hpre, records, hl,
        map_append, flatMap_append]
      rfl
  · rw [hfind]
    exact ⟨_, rfl, h.searched, (Map.flatMap_recolour hnone).symm, rfl⟩

end

end Mprotect

/-! ### Ranges that wrap around -/

section Wraps

variable {B : Backend W} {length : ℕ}

/-- The last address of a range that wraps around. -/
theorem last32_wraps (hlength : length < 2 ^ 32) (hstart : start < 2 ^ 32)
    (hwraps : 2 ^ 32 < start + length) : last32 start length = start + length - 2 ^ 32 - 1 := by
  rw [last32]
  omega

/-- Where a map has the end and the start of a range that wraps around, its second split fails. -/
theorem Valid.isolate_panics (h : Valid s) (hl : s.tree.nodes = pre ++ id :: post)
    (hlength : length < 2 ^ 32) (hwraps : 2 ^ 32 < start + length) (hstart : start < 2 ^ 32)
    (haligned : start % pagesize = 0) (hpos : 0 < length)
    (hover : (s.map id).start ≤ last32 start length ∧ start < (s.map id).stop) :
    s.isolate start (last32 start length) id = .error .panic := by
  have hfits := h.fits (show id ∈ s.tree.nodes by simp [hl])
  have hinside := hfits.inside
  rw [last32_wraps hlength hstart hwraps] at hover ⊢
  have hlt : (s.map id).start < start := by omega
  obtain ⟨s', hok, hvalid, -, -, -, hsecond⟩ := h.mapSplit hl hlt hover.2 haligned
  have hlen : (s'.map s.fresh).length = (s.map id).stop - start := by
    rw [hsecond]
    rfl
  have hoffset : (start + length - 2 ^ 32 - 1 + 2 ^ 32 - start + 1) % 2 ^ 32 = length := by omega
  have hbefore : s.splitBefore start id = .ok (s', s.fresh) := by
    rw [Maps.splitBefore, if_pos hlt, mustSplit, hok]
    rfl
  have hsplit : s'.mapSplit s.fresh length = .ok (s', none) := by
    rw [Maps.mapSplit, if_pos (.inr (by omega))]
    rfl
  rw [Maps.isolate, hbefore, ok_bind]
  simp only [if_pos hlt, hfits.last_eq]
  rw [if_pos (by omega), hoffset, mustSplit, hsplit]
  rfl

/-- `munmap` of a range that wraps around panics where a map has its end and its start, and leaves
the maps otherwise. -/
theorem Valid.munmap_wraps (h : Valid s) (hlength : length < 2 ^ 32)
    (hwraps : 2 ^ 32 < start + length) (hstart : start < 2 ^ 32) (haligned : start % pagesize = 0)
    (hpos : 0 < length) :
    (s.munmap B start length = .ok s.searched ∧
        ∀ m ∈ s.records, ¬ (m.start ≤ last32 start length ∧ start < m.stop)) ∨
      s.munmap B start length = .error .panic ∧
        ∃ m ∈ s.records, m.start ≤ last32 start length ∧ start < m.stop := by
  rw [Maps.munmap]
  rcases h.mapFind_spec start length with ⟨pre, id, post, hl, hfind, hover⟩ | ⟨hfind, hnone⟩
  · rw [hfind]
    have hs := h.searched
    have hpanics := hs.isolate_panics hl hlength hwraps hstart haligned hpos hover
    have hmem : id ∈ s.tree.nodes := by simp [hl]
    have hfits := h.fits hmem
    have houtside : s.searched.outside start (last32 start length) id = false := by
      have hmap : s.searched.map id = s.map id := rfl
      simp only [outside, hmap, hfits.last_eq, Bool.or_eq_false_iff, decide_eq_false_iff_not]
      omega
    refine .inr ⟨?_, _, mem_records.2 ⟨id, hmem, rfl⟩, hover⟩
    dsimp only
    rw [munmapLoop, houtside, if_neg Bool.false_ne_true, hpanics]
    rfl
  · rw [hfind]
    refine .inl ⟨rfl, fun m hm => ?_⟩
    obtain ⟨id, hid, rfl⟩ := mem_records.1 hm
    exact hnone id hid

end Wraps

/-! ### Pointwise -/

section Pointwise

variable {B : Backend W} {length : ℕ}

/-- **`munmap` is pointwise**: no address of the range is mapped afterwards, every other one has
what it had, and the maps do not overlap. -/
def MunmapPointwise (B : Backend W) (s : Maps W) (start length : ℕ) : Prop :=
  ∃ s', s.munmap B start length = .ok s' ∧ Valid s' ∧ ∀ x < 2 ^ 32,
    s'.lookup x = if start ≤ x ∧ x < start + length then none else s.lookup x

/-- **`mprotect` is pointwise**: every mapped address of the range has the new access afterwards and
the pager and the offset that it had, every other one has what it had, and the maps do not
overlap. -/
def MprotectPointwise (B : Backend W) (s : Maps W) (start length : ℕ) (access : MapAccess) : Prop :=
  ∃ s', s.mprotect B start length access = .ok s' ∧ Valid s' ∧ ∀ x < 2 ^ 32,
    s'.lookup x = if start ≤ x ∧ x < start + length then
      (s.lookup x).map fun p => (p.1, p.2.1, access) else s.lookup x

/-- The callbacks return. -/
structure Backend.Returns (B : Backend W) : Prop where
  destroy : ∀ m last w, ∃ w', B.destroy m last w = .ok w'
  noRefs : ∀ p w, ∃ w', B.noRefs p w = .ok w'
  restrict : ∀ a x w, ∃ w', B.restrict a x w = .ok w'

theorem Backend.Returns.release (hB : Backend.Returns B) (m : Map) (last : Bool) (w : W) :
    ∃ w', release B m last w = .ok w' := by
  obtain ⟨w₁, h₁⟩ := hB.destroy m last w
  rw [Maps.release, h₁, ok_bind]
  cases last with
  | true => exact hB.noRefs m.pager w₁
  | false => exact ⟨w₁, rfl⟩

theorem Valid.munmapPointwise (hB : Backend.Returns B) (h : Valid s) (hpos : 0 < length)
    (hfits : start + length ≤ 2 ^ 32) (hstart : start % pagesize = 0)
    (hlength : length % pagesize = 0) : MunmapPointwise B s start length := by
  have hstop : (start + length) % pagesize = 0 := by rw [Nat.add_mod, hstart, hlength, Nat.zero_mod]
  obtain ⟨s', hok, hvalid, hrecords, -⟩ := h.munmap (I := fun _ _ => True) (by omega) hfits hstart
    (fun _ _ _ => hstop) (fun m ms last w _ => (hB.release m last w).imp fun _ hw => ⟨hw, trivial⟩)
    fun _ _ => trivial
  rw [Nat.add_sub_cancel_left] at hok
  refine ⟨s', hok, hvalid, fun x hx => ext fun p => ?_⟩
  rw [hvalid.lookup_eq_some hx, hrecords, Map.has_flatMap]
  simp only [Map.has_carve]
  split
  · next hin => simp [hin]
  · next hout =>
    rw [h.lookup_eq_some hx]
    simp only [hout, not_false_eq_true, true_and]
    rfl

theorem Valid.mprotectPointwise (hB : Backend.Returns B) (h : Valid s) (hpos : 0 < length)
    (hfits : start + length ≤ 2 ^ 32) (hstart : start % pagesize = 0)
    (hlength : length % pagesize = 0) (access : MapAccess) :
    MprotectPointwise B s start length access := by
  have hstop : (start + length) % pagesize = 0 := by rw [Nat.add_mod, hstart, hlength, Nat.zero_mod]
  have hrange : start < start + length := by omega
  obtain ⟨s', hok, hvalid, hrecords, -⟩ := h.mprotect hB.restrict hrange hfits hstart hstop access
  rw [Nat.add_sub_cancel_left] at hok
  refine ⟨s', hok, hvalid, fun x hx => ext fun p => ?_⟩
  rw [hvalid.lookup_eq_some hx, hrecords, Map.has_flatMap]
  simp only [Map.has_recolour hrange]
  split
  · next hin =>
    rw [map_eq_some_iff]
    simp only [h.lookup_eq_some hx, Map.Has]
    constructor
    · rintro ⟨m, hm, hcovers, hp⟩
      exact ⟨_, ⟨m, hm, hcovers, rfl⟩, hp.symm⟩
    · rintro ⟨_, ⟨m, hm, hcovers, rfl⟩, hp⟩
      exact ⟨m, hm, hcovers, hp.symm⟩
  · next hout =>
    rw [h.lookup_eq_some hx]
    simp only [Map.Has, eq_comm (a := p)]

/-- **`munmap` and `mprotect` are pointwise** if and only if the range fits in the address space or
none of its addresses is mapped. -/
theorem pointwise_iff (hB : Backend.Returns B) (h : Valid s) (hstart : start % pagesize = 0)
    (hstart' : start < 2 ^ 32) (hpos : 0 < length) (hlength : length % pagesize = 0)
    (hlength' : length < 2 ^ 32) :
    (MunmapPointwise B s start length ∧ ∀ access, MprotectPointwise B s start length access) ↔
      start + length ≤ 2 ^ 32 ∨ ∀ x < 2 ^ 32, start ≤ x → s.lookup x = none := by
  have hsame : ∀ x < 2 ^ 32, s.searched.lookup x = s.lookup x := fun x hx =>
    ext fun p => (h.searched.lookup_eq_some hx).trans (h.lookup_eq_some hx).symm
  constructor
  · rintro ⟨⟨s', hok, hvalid, hlook⟩, -⟩
    refine or_iff_not_imp_left.2 fun hwraps x hx hle => ?_
    rcases h.munmap_wraps (B := B) hlength' (by omega) hstart' hstart hpos with
      ⟨hsearched, -⟩ | ⟨hpanic, -⟩
    · obtain rfl := Except.ok.inj (hok.symm.trans hsearched)
      rw [← hsame x hx, hlook x hx, if_pos ⟨hle, by omega⟩]
    · rw [hpanic] at hok
      simp at hok
  · rintro (hfits | hnone)
    · exact ⟨h.munmapPointwise hB hpos hfits hstart hlength,
        h.mprotectPointwise hB hpos hfits hstart hlength⟩
    · -- nothing is found, and nothing changes
      have hfind : s.mapFind start length = none := by
        rcases h.mapFind_spec start length with ⟨pre, id, post, hl, -, hover⟩ | ⟨hfind, -⟩
        · have hfits := h.fits (show id ∈ s.tree.nodes by simp [hl])
          have hinside := hfits.inside
          have hlt := hfits.lt_stop
          have hhas : Map.Has s.records (max (s.map id).start start) _ :=
            ⟨_, mem_records.2 ⟨id, by simp [hl], rfl⟩, ⟨le_max_left _ _, by omega⟩, rfl⟩
          rw [← h.lookup_eq_some (by omega), hnone _ (by omega) (le_max_right _ _)] at hhas
          simp at hhas
        · exact hfind
      refine ⟨⟨s.searched, ?_, h.searched, fun x hx => ?_⟩,
        fun access => ⟨s.searched, ?_, h.searched, fun x hx => ?_⟩⟩
      · rw [Maps.munmap, hfind]
        rfl
      · rw [hsame x hx]
        split
        · next hin => exact hnone x hx hin.1
        · rfl
      · rw [Maps.mprotect, hfind]
        rfl
      · rw [hsame x hx]
        split
        · next hin => rw [hnone x hx hin.1, map_none]
        · rfl

/-- Callbacks that do nothing. -/
def idle : Backend Unit := ⟨fun _ _ w => .ok w, fun _ w => .ok w, fun _ _ w => .ok w⟩

theorem idle_returns : Backend.Returns idle := ⟨fun _ _ w => ⟨w, rfl⟩, fun _ w => ⟨w, rfl⟩,
  fun _ _ w => ⟨w, rfl⟩⟩

/-- Three pages are mapped near the top of the address space of a process. -/
def threePages : Maps Unit where
  map _ := ⟨true, 0, 0, 0xb0000000, 0x3000, ⟨true, true⟩⟩
  tree := ⟨[0], fun _ _ _ => 0⟩
  fresh := 1
  list p := if p = 0 then [0] else []
  length _ := 0x3000
  world := ()

theorem threePages_valid : Valid threePages where
  laid := ⟨by simp [records, threePages], by
    simp only [records, threePages, map_cons, map_nil, mem_singleton, forall_eq]
    exact ⟨by decide, by decide, by decide, by decide, by decide, by decide⟩,
    pairwise_singleton _ _⟩
  nodup := by simp [threePages]
  below := by simp [threePages]
  listed := by simp [threePages]
  lists p := by simp only [threePages]; split <;> simp
  owned p id hid := by
    simp only [threePages] at hid ⊢
    split at hid
    · next hp => exact ⟨by simpa using hid, hp.symm⟩
    · simp at hid
  words _ := show 0x3000 < 2 ^ 32 by decide

/-- **A range that wraps around**: `munmap` returns, and the pages are still mapped. -/
theorem munmap_wraps_mapped : Valid threePages ∧
    ∃ s', threePages.munmap idle 0xb0000000 0x60000000 = .ok s' ∧
      s'.lookup 0xb0000000 = some (0, 0, ⟨true, true⟩) :=
  ⟨threePages_valid, _, rfl, rfl⟩

/-- The page in the middle is unmapped, which splits the map, and protected. -/
theorem pointwise_iff_threePages :
    (∃ s', threePages.munmap idle 0xb0001000 0x1000 = .ok s' ∧ s'.tree.nodes.length = 2) ∧
      MunmapPointwise idle threePages 0xb0001000 0x1000 ∧
      ∀ access, MprotectPointwise idle threePages 0xb0001000 0x1000 access :=
  ⟨⟨_, rfl, rfl⟩, (pointwise_iff idle_returns threePages_valid (by decide) (by decide) (by decide)
    (by decide) (by decide)).2 (.inl (by decide))⟩

end Pointwise

end Maps

end Viengoos
