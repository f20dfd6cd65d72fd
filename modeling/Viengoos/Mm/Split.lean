import Viengoos.Mm.Layout

/-!
# Finding and splitting maps

The map database is *valid* when the maps of the tree are laid out in its order and every one of
them is on the list of its pager. A lookup then finds the map that covers an address. A split cuts
one map in two and changes no other one, so that after the splits of `munmap` and `mprotect` the
parts of a map before, in and after a range stand in its place.
-/

namespace Viengoos

open Outcome Function List

theorem last32_eq {start length : ℕ} (hpos : 0 < length) (h : start + length ≤ 2 ^ 32) :
    last32 start length = start + length - 1 := by
  rw [last32]
  omega

namespace Map

variable {m : Map} {len start length : ℕ}

theorem Fits.last_eq (h : m.Fits len) : m.last = m.stop - 1 := last32_eq h.pos h.inside

theorem Fits.lt_stop (h : m.Fits len) : m.start < m.stop := Nat.lt_add_of_pos_right h.pos

theorem compare_eq_lt : m.compare start length = .lt ↔ last32 start length < m.start := by
  rw [Map.compare]
  split
  · simp [*]
  · split <;> simp [*]

theorem compare_eq_gt (h : m.Fits len) :
    m.compare start length = .gt ↔ m.start ≤ last32 start length ∧ m.stop ≤ start := by
  have hpos := h.lt_stop
  rw [Map.compare, h.last_eq]
  split
  · simp
    omega
  · split <;> simp <;> omega

theorem compare_eq_eq (h : m.Fits len) :
    m.compare start length = .eq ↔ m.start ≤ last32 start length ∧ start < m.stop := by
  have hpos := h.lt_stop
  rw [Map.compare, h.last_eq]
  split
  · simp
    omega
  · split <;> simp <;> omega

end Map

namespace Maps

variable {W : Type} {s s' s'' : Maps W} {id : ℕ} {pre post : List ℕ}

/-- The maps of the tree in order. -/
def records (s : Maps W) : List Map := s.tree.nodes.map s.map

/-- **The database is valid.** -/
structure Valid (s : Maps W) : Prop where
  laid : Map.Laid s.length s.records
  nodup : s.tree.nodes.Nodup
  below : ∀ id ∈ s.tree.nodes, id < s.fresh
  listed : ∀ id ∈ s.tree.nodes, id ∈ s.list (s.map id).pager
  lists : ∀ p, (s.list p).Nodup
  owned : ∀ p, ∀ id ∈ s.list p, id < s.fresh ∧ (s.map id).pager = p
  words : ∀ p, s.length p < 2 ^ 32

/-- **What an address has**, as `map_fault` finds it. -/
def lookup (s : Maps W) (x : ℕ) : Option (ℕ × ℕ × MapAccess) :=
  (s.mapFind x 1).map fun id => (s.map id).place x

/-! ### Finding -/

theorem mem_records {m : Map} : m ∈ s.records ↔ ∃ id ∈ s.tree.nodes, s.map id = m := by
  simp [records]

section

variable (h : Valid s)

include h

theorem Valid.fits (hid : id ∈ s.tree.nodes) : (s.map id).Fits (s.length (s.map id).pager) :=
  h.laid.fits _ (mem_records.2 ⟨id, hid, rfl⟩)

theorem Valid.connected (hid : id ∈ s.tree.nodes) : (s.map id).connected = true :=
  h.laid.connected _ (mem_records.2 ⟨id, hid, rfl⟩)

theorem Valid.apart : s.tree.nodes.Pairwise fun a b => (s.map a).stop ≤ (s.map b).start :=
  pairwise_map.1 h.laid.apart

theorem Valid.searched : Valid s.searched :=
  ⟨h.laid, h.nodup, h.below, h.listed, h.lists, h.owned, h.words⟩

/-- The maps are ordered for every search. -/
theorem Valid.ordered (start length : ℕ) :
    SearchTree.Ordered (fun id => (s.map id).compare start length) s.tree.nodes := by
  refine h.apart.imp_of_mem fun {a b} ha hb hab => ?_
  have ha := h.fits ha
  have hb := h.fits hb
  have := ha.lt_stop
  have := hb.lt_stop
  rw [Map.compare_eq_lt, Map.compare_eq_lt, Map.compare_eq_gt ha, Map.compare_eq_gt hb]
  omega

/-- `map_find` finds a map that overlaps with the region, if there is one. -/
theorem Valid.mapFind_spec (start length : ℕ) :
    (∃ pre id post, s.tree.nodes = pre ++ id :: post ∧ s.mapFind start length = some id ∧
        (s.map id).start ≤ last32 start length ∧ start < (s.map id).stop) ∨
      s.mapFind start length = none ∧ ∀ id ∈ s.tree.nodes,
        ¬ ((s.map id).start ≤ last32 start length ∧ start < (s.map id).stop) := by
  rcases SearchTree.find_spec (h.ordered start length) with
    ⟨pre, id, post, hl, hfind, hid⟩ | ⟨hfind, hnone⟩
  · have hmem : id ∈ s.tree.nodes := by simp [hl]
    refine .inl ⟨pre, id, post, hl, ?_, (Map.compare_eq_eq (h.fits hmem)).1 hid⟩
    rw [mapFind, hfind, Option.bind_some, hl]
    simp
  · refine .inr ⟨by rw [mapFind, hfind, Option.bind_none], fun id hid hover => ?_⟩
    exact hnone id hid ((Map.compare_eq_eq (h.fits hid)).2 hover)

/-- A lookup finds what the maps of the tree give to the address. -/
theorem Valid.lookup_eq_some {x : ℕ} (hx : x < 2 ^ 32) {p : ℕ × ℕ × MapAccess} :
    s.lookup x = some p ↔ Map.Has s.records x p := by
  have hlast : last32 x 1 = x := by
    rw [last32]
    omega
  rw [lookup]
  rcases h.mapFind_spec x 1 with ⟨pre, id, post, hl, hfind, hover⟩ | ⟨hfind, hnone⟩
  · rw [hlast] at hover
    have hmem : s.map id ∈ s.records := mem_records.2 ⟨id, by simp [hl], rfl⟩
    rw [hfind, Option.map_some, Option.some_inj]
    constructor
    · exact fun hp => ⟨_, hmem, hover, hp⟩
    · rintro ⟨m, hm, hcovers, hp⟩
      rwa [h.laid.unique hmem hm hover hcovers]
  · rw [hlast] at hnone
    rw [hfind, Option.map_none]
    refine iff_of_false (by simp) ?_
    rintro ⟨m, hm, hcovers, -⟩
    obtain ⟨id, hid, rfl⟩ := mem_records.1 hm
    exact hnone id hid hcovers

end

/-! ### Splitting -/

/-- What the operations on one map leave: the other maps that are allocated, and the lists, which
may get longer. -/
structure Frame (s s' : Maps W) (id : ℕ) : Prop where
  map : ∀ j < s.fresh, j ≠ id → s'.map j = s.map j
  fresh : s.fresh ≤ s'.fresh
  list : ∀ p, ∀ j ∈ s.list p, j ∈ s'.list p
  nodes : ∀ j ∈ s'.tree.nodes, j ∈ s.tree.nodes ∨ s.fresh ≤ j
  length : s'.length = s.length
  world : s'.world = s.world

theorem Frame.refl (s : Maps W) (id : ℕ) : Frame s s id :=
  ⟨fun _ _ _ => rfl, le_rfl, fun _ _ h => h, fun _ => .inl, rfl, rfl⟩

theorem Frame.trans {j : ℕ} (h : Frame s s' id) (h' : Frame s' s'' j) (hj : j = id ∨ s.fresh ≤ j) :
    Frame s s'' id where
  map k hk hne := by
    rw [h'.map k (hk.trans_le h.fresh) (by omega), h.map k hk hne]
  fresh := h.fresh.trans h'.fresh
  list p k hk := h'.list p k (h.list p k hk)
  nodes k hk := by
    rcases h'.nodes k hk with hk | hk
    · exact h.nodes k hk
    · exact .inr (h.fresh.trans hk)
  length := h'.length.trans h.length
  world := h'.world.trans h.world

/-- The records of a part of the tree in which no map was changed. -/
theorem map_congr_of_frame {l : List ℕ} (h : ∀ j < s.fresh, j ≠ id → s'.map j = s.map j)
    (hl : ∀ j ∈ l, j < s.fresh ∧ j ≠ id) : l.map s'.map = l.map s.map :=
  map_congr_left fun j hj => h j (hl j hj).1 (hl j hj).2

/-- The other maps of the tree. -/
theorem Valid.others (h : Valid s) (hl : s.tree.nodes = pre ++ id :: post) :
    (∀ j ∈ pre, j < s.fresh ∧ j ≠ id) ∧ ∀ j ∈ post, j < s.fresh ∧ j ≠ id := by
  have hnodup := h.nodup
  rw [hl, nodup_middle, nodup_cons, mem_append, not_or] at hnodup
  refine ⟨fun j hj => ⟨h.below j (by simp [hl, hj]), ?_⟩,
    fun j hj => ⟨h.below j (by simp [hl, hj]), ?_⟩⟩
  · rintro rfl
    exact hnodup.1.1 hj
  · rintro rfl
    exact hnodup.1.2 hj

/-- A map is allocated. -/
theorem Valid.alloc (h : Valid s) (m : Map) :
    Valid ({ s with fresh := s.fresh + 1 }.setMap s.fresh m) := by
  have hmap : ∀ j < s.fresh, update s.map s.fresh m j = s.map j := fun j hj =>
    update_of_ne hj.ne _ _
  refine ⟨?_, h.nodup, fun j hj => (h.below j hj).trans (Nat.lt_succ_self _), fun j hj => ?_,
    h.lists, fun p j hj => ?_, h.words⟩
  · have hrecords : s.tree.nodes.map (update s.map s.fresh m) = s.records :=
      map_congr_left fun j hj => hmap j (h.below j hj)
    rw [records, setMap, hrecords]
    exact h.laid
  · have hlisted := h.listed j hj
    rwa [← hmap j (h.below j hj)] at hlisted
  · obtain ⟨hlt, hpager⟩ := h.owned p j hj
    rw [← hmap j hlt] at hpager
    exact ⟨hlt.trans (Nat.lt_succ_self _), hpager⟩

/-- A map of the tree is changed. -/
theorem Valid.setMap (h : Valid s) (hl : s.tree.nodes = pre ++ id :: post) {m : Map}
    (hpager : m.pager = (s.map id).pager)
    (hlaid : Map.Laid s.length (pre.map s.map ++ m :: post.map s.map)) : Valid (s.setMap id m) := by
  have hpagers : ∀ j, (update s.map id m j).pager = (s.map j).pager := fun j => by
    by_cases hj : j = id
    · rw [hj, update_self, hpager]
    · rw [update_of_ne hj]
  obtain ⟨hpre, hpost⟩ := h.others hl
  refine ⟨?_, h.nodup, h.below, fun j hj => ?_, h.lists, fun p j hj => ?_, h.words⟩
  · have hother : ∀ j < s.fresh, j ≠ id → (s.setMap id m).map j = s.map j := fun j _ hj =>
      update_of_ne hj _ _
    have hself : (s.setMap id m).map id = m := update_self ..
    rw [records, show (s.setMap id m).tree.nodes = pre ++ id :: post from hl, map_append,
      map_cons, map_congr_of_frame hother hpre, map_congr_of_frame hother hpost, hself]
    exact hlaid
  · have hlisted := h.listed j hj
    rwa [← hpagers] at hlisted
  · have howned := h.owned p j hj
    rwa [← hpagers] at howned

/-- The database with a map installed, at its place in the tree. -/
def installed (s : Maps W) (id : ℕ) (nodes : List ℕ) : Maps W :=
  { s with
    tree := s.tree.after nodes
    map := update s.map id { s.map id with connected := true }
    list := update s.list (s.map id).pager (id :: s.list (s.map id).pager) }

/-- `map_install` of a map between maps that are before and maps that are after. -/
theorem Valid.mapInstall (h : Valid s) (hl : s.tree.nodes = pre ++ post) (hlaid : Map.Laid s.length
      (pre.map s.map ++ { s.map id with connected := true } :: post.map s.map))
    (hid : id < s.fresh) (hnodes : id ∉ s.tree.nodes) (hlists : ∀ p, id ∉ s.list p) :
    s.mapInstall id = .ok (s.installed id (pre ++ id :: post), true) ∧
      Valid (s.installed id (pre ++ id :: post)) := by
  obtain ⟨-, hfits, hbefore, hafter⟩ := hlaid.middle
  have hlt : (s.map id).start < (s.map id).stop := hfits.lt_stop
  have hlast : last32 (s.map id).start (s.map id).length = (s.map id).stop - 1 := hfits.last_eq
  refine ⟨?_, ?_⟩
  · have hless : ∀ j ∈ pre, (s.map j).compare (s.map id).start (s.map id).length = .gt := by
      intro j hj
      have hj' := h.fits (show j ∈ s.tree.nodes by simp [hl, hj])
      have := hj'.lt_stop
      have : (s.map j).stop ≤ (s.map id).start := hbefore _ (mem_map_of_mem hj)
      rw [Map.compare_eq_gt hj', hlast]
      omega
    have hgreater : ∀ j ∈ post, (s.map j).compare (s.map id).start (s.map id).length = .lt := by
      intro j hj
      have : (s.map id).stop ≤ (s.map j).start := hafter _ (mem_map_of_mem hj)
      rw [Map.compare_eq_lt, hlast]
      omega
    have hwithin : ((s.map id).offset + (s.map id).length) % 2 ^ 32 ≤ s.length (s.map id).pager :=
      (Nat.mod_le _ _).trans hfits.within
    rw [Maps.mapInstall, require_of hfits.pos, ok_bind, require_of hfits.start_aligned, ok_bind,
      require_of hfits.length_aligned, ok_bind, require_of hfits.offset_aligned, ok_bind,
      require_of hwithin, ok_bind, SearchTree.insert_between hl hless hgreater]
    rfl
  · have hother : ∀ j, j ≠ id → (s.installed id (pre ++ id :: post)).map j = s.map j :=
      fun j hj => update_of_ne hj _ _
    have hpagers : ∀ j, ((s.installed id (pre ++ id :: post)).map j).pager = (s.map j).pager := by
      intro j
      by_cases hj : j = id
      · subst hj
        simp [installed]
      · rw [hother j hj]
    have hlist : ∀ p j, j ∈ (s.installed id (pre ++ id :: post)).list p ↔
        j ∈ s.list p ∨ j = id ∧ p = (s.map id).pager := by
      intro p j
      by_cases hp : p = (s.map id).pager
      · subst hp
        simp [installed, or_comm]
      · simp [installed, hp]
    have hnode : ∀ j ∈ pre ++ id :: post, j = id ∨ j ∈ s.tree.nodes := fun j hj => by
      rw [hl]
      rcases mem_append.1 hj with hj | hj
      · exact .inr (mem_append_left _ hj)
      · exact (mem_cons.1 hj).imp_right (mem_append_right _)
    refine ⟨?_, ?_, fun j hj => ?_, fun j hj => ?_, fun p => ?_, fun p j hj => ?_, h.words⟩
    · have hpre : pre.map (s.installed id (pre ++ id :: post)).map = pre.map s.map :=
        map_congr_left fun j hj => hother j fun hji => hnodes (by simp [hl, ← hji, hj])
      have hpost : post.map (s.installed id (pre ++ id :: post)).map = post.map s.map :=
        map_congr_left fun j hj => hother j fun hji => hnodes (by simp [hl, ← hji, hj])
      have hself : (s.installed id (pre ++ id :: post)).map id =
          { s.map id with connected := true } := update_self ..
      have hrecords : (s.installed id (pre ++ id :: post)).records =
          pre.map s.map ++ { s.map id with connected := true } :: post.map s.map := by
        rw [← hpre, ← hpost, ← hself]
        exact map_append.trans (congrArg _ (map_cons ..))
      rwa [hrecords]
    · have hnodup := h.nodup
      rw [hl] at hnodup hnodes
      exact nodup_middle.2 (nodup_cons.2 ⟨hnodes, hnodup⟩)
    · rcases hnode j hj with rfl | hj
      · exact hid
      · exact h.below j hj
    · rw [hlist, hpagers]
      rcases hnode j hj with rfl | hj
      · exact .inr ⟨rfl, rfl⟩
      · exact .inl (h.listed j hj)
    · by_cases hp : p = (s.map id).pager
      · subst hp
        simpa [installed] using ⟨hlists _, h.lists _⟩
      · simpa [installed, hp] using h.lists p
    · rw [hlist] at hj
      rw [hpagers]
      rcases hj with hj | ⟨rfl, rfl⟩
      · exact h.owned p j hj
      · exact ⟨hid, rfl⟩

/-- **A split** cuts one map in two. -/
theorem Valid.mapSplit (h : Valid s) (hl : s.tree.nodes = pre ++ id :: post) {x : ℕ}
    (hlt : (s.map id).start < x) (hgt : x < (s.map id).stop) (hx : x % pagesize = 0) :
    ∃ s', s.mapSplit id (x - (s.map id).start) = .ok (s', some s.fresh) ∧ Valid s' ∧
      Frame s s' id ∧ s'.tree.nodes = pre ++ id :: s.fresh :: post ∧
      s'.map id = (s.map id).slice (s.map id).start x ∧
      s'.map s.fresh = (s.map id).slice x (s.map id).stop := by
  have hmem : id ∈ s.tree.nodes := by simp [hl]
  have hfits := h.fits hmem
  have hconn := h.connected hmem
  have hne : id ≠ s.fresh := (h.below id hmem).ne
  obtain ⟨hpre, hpost⟩ := h.others hl
  have hrecords : s.records = pre.map s.map ++ s.map id :: post.map s.map := by
    simp [records, hl]
  have hcut := (hrecords ▸ h.laid).cut hlt hgt hx
  -- the database before the second part is installed
  let s₀ := { s with fresh := s.fresh + 1 }.setMap s.fresh ((s.map id).slice x (s.map id).stop)
  let s₁ := s₀.setMap id ((s.map id).slice (s.map id).start x)
  have hother₀ : ∀ j < s.fresh, j ≠ id → s₀.map j = s.map j := fun j hj _ => by
    simp [s₀, Maps.setMap, hj.ne]
  have hother : ∀ j < s.fresh, j ≠ id → s₁.map j = s.map j := fun j hj hji => by
    simp [s₁, s₀, Maps.setMap, hji, hj.ne]
  have hfirst : s₁.map id = (s.map id).slice (s.map id).start x := by simp [s₁, Maps.setMap]
  have hsecond : s₁.map s.fresh = (s.map id).slice x (s.map id).stop := by
    simp [s₁, s₀, Maps.setMap, hne.symm]
  have hvalid : Valid s₁ := by
    refine (h.alloc _).setMap hl ?_ ?_
    · simp [Maps.setMap, hne, Map.slice]
    · rw [map_congr_of_frame hother₀ hpre, map_congr_of_frame hother₀ hpost]
      exact hcut.sublist (by simp)
  have hl₁ : s₁.tree.nodes = (pre ++ [id]) ++ post := by
    rw [append_assoc]
    exact hl
  have hsecond' : { s₁.map s.fresh with connected := true } =
      (s.map id).slice x (s.map id).stop := by
    rw [hsecond, ← hconn]
    rfl
  have hlaid : Map.Laid s₁.length ((pre ++ [id]).map s₁.map ++
      { s₁.map s.fresh with connected := true } :: post.map s₁.map) := by
    rw [hsecond', map_append, map_singleton, hfirst, append_assoc,
      map_congr_of_frame hother hpre, map_congr_of_frame hother hpost]
    exact hcut
  obtain ⟨hinstall, hvalid'⟩ := hvalid.mapInstall hl₁ hlaid (Nat.lt_succ_self _)
    (fun hin => (h.below _ hin).ne rfl) fun p hin => (h.owned p _ hin).1.ne rfl
  refine ⟨_, ?_, hvalid', ⟨fun j hj hji => ?_, Nat.le_succ _, fun p j hj => ?_, fun j hj => ?_, rfl,
    rfl⟩, ?_, ?_, ?_⟩
  · have hstop : (s.map id).stop = (s.map id).start + (s.map id).length := rfl
    have hword := h.words (s.map id).pager
    have hwithin := hfits.within
    have hinside := hfits.inside
    have hoffset : (x - (s.map id).start) % pagesize = 0 := by
      have := hfits.start_aligned
      simp only [pagesize] at hx this ⊢
      omega
    have hrec : ({ s.map id with length := x - (s.map id).start } : Map) =
        (s.map id).slice (s.map id).start x := by simp [Map.slice]
    have hrec' : ({ s.map id with
          start := ((s.map id).start + (x - (s.map id).start)) % 2 ^ 32
          length := (s.map id).length - (x - (s.map id).start)
          offset := ((s.map id).offset + (x - (s.map id).start)) % 2 ^ 32 } : Map) =
        (s.map id).slice x (s.map id).stop := by
      simp only [Map.slice, Map.mk.injEq, true_and, and_true]
      omega
    rw [Maps.mapSplit, if_neg (by omega), if_neg (not_not.2 hoffset), hrec, hrec']
    exact (congrArg (· >>= _) hinstall).trans rfl
  · exact (update_of_ne hj.ne _ _).trans (hother j hj hji)
  · have hlist : (s₁.installed s.fresh ((pre ++ [id]) ++ s.fresh :: post)).list =
        update s.list (s₁.map s.fresh).pager
          (s.fresh :: s.list (s₁.map s.fresh).pager) := rfl
    rw [hlist]
    by_cases hp : p = (s₁.map s.fresh).pager
    · rw [hp, update_self]
      exact mem_cons_of_mem _ (hp ▸ hj)
    · rwa [update_of_ne hp]
  · have hj : j ∈ (pre ++ [id]) ++ s.fresh :: post := hj
    rw [hl]
    simp only [mem_append, mem_cons, not_mem_nil, or_false] at hj ⊢
    rcases hj with (hj | hj) | hj | hj
    · exact .inl (.inl hj)
    · exact .inl (.inr (.inl hj))
    · exact .inr hj.ge
    · exact .inl (.inr (.inr hj))
  · exact append_assoc ..
  · exact (update_of_ne hne _ _).trans hfirst
  · exact (update_self ..).trans hsecond'

/-! ### The part of a map in a range -/

section Isolate

variable {start stop : ℕ}

/-- The first split: where the map starts before the range. -/
theorem Valid.splitBefore (h : Valid s) (hl : s.tree.nodes = pre ++ id :: post)
    (hgt : start < (s.map id).stop) (hstart : start % pagesize = 0) :
    ∃ s' id' left, s.splitBefore start id = .ok (s', id') ∧ Valid s' ∧ Frame s s' id ∧
      s'.tree.nodes = pre ++ (left ++ id' :: post) ∧ left.map s'.map = (s.map id).before start ∧
      s'.map id' = (s.map id).slice (max (s.map id).start start) (s.map id).stop ∧
      (id' = id ∨ s.fresh ≤ id') := by
  by_cases hlt : (s.map id).start < start
  · obtain ⟨s', hok, hvalid, hframe, hnodes, hfirst, hsecond⟩ := h.mapSplit hl hlt hgt hstart
    refine ⟨s', s.fresh, [id], ?_, hvalid, hframe, hnodes, ?_, ?_, .inr le_rfl⟩
    · rw [Maps.splitBefore, if_pos hlt, mustSplit, hok]
      rfl
    · rw [Map.before, if_pos hlt, map_singleton, hfirst]
    · rw [hsecond, max_eq_right hlt.le]
  · refine ⟨s, id, [], if_neg hlt, h, .refl s id, hl, ?_, ?_, .inl rfl⟩
    · rw [Map.before, if_neg hlt, map_nil]
    · rw [max_eq_left (by omega), Map.slice_self]

/-- **Isolating the part of a map in a range**: the parts before, in and after the range stand in
the place of the map. -/
theorem Valid.isolate (h : Valid s) (hl : s.tree.nodes = pre ++ id :: post)
    (hmeets : (s.map id).Meets start stop) (hrange : start < stop) (hbound : stop ≤ 2 ^ 32)
    (hstart : start % pagesize = 0) (hstop : (s.map id).Crosses stop → stop % pagesize = 0) :
    ∃ s' id' left right, s.isolate start (stop - 1) id = .ok (s', id') ∧ Valid s' ∧ Frame s s' id ∧
      s'.tree.nodes = pre ++ (left ++ id' :: (right ++ post)) ∧
      left.map s'.map = (s.map id).before start ∧ s'.map id' = (s.map id).inside start stop ∧
      right.map s'.map = (s.map id).after stop ∧ (id' = id ∨ s.fresh ≤ id') := by
  have hfits := h.fits (show id ∈ s.tree.nodes by simp [hl])
  have hinside := hfits.inside
  obtain ⟨hlt, hgt⟩ := hmeets
  obtain ⟨s₁, id₁, left, hok, hvalid, hframe, hnodes, hleft, hid, hid₁⟩ :=
    h.splitBefore hl hgt hstart
  have hbegin : (if (s.map id).start < start then start else (s.map id).start) =
      max (s.map id).start start := by
    split <;> omega
  rw [Maps.isolate, hok, ok_bind]
  simp only [hbegin, hfits.last_eq]
  by_cases hafter : stop < (s.map id).stop
  · rw [if_pos (by omega)]
    have hnodes' : s₁.tree.nodes = (pre ++ left) ++ id₁ :: post := by
      rw [hnodes, append_assoc]
    have hstart₁ : (s₁.map id₁).start = max (s.map id).start start := by
      rw [hid]
      rfl
    have hstop₁ : (s₁.map id₁).stop = (s.map id).stop := by
      rw [hid, Map.slice_stop (by omega)]
    obtain ⟨s', hok', hvalid', hframe', hnodes₂, hfirst, hsecond⟩ := hvalid.mapSplit hnodes'
      (x := stop) (by omega) (by omega) (hstop ⟨hlt, hafter⟩)
    have hoffset : (stop - 1 + 2 ^ 32 - max (s.map id).start start + 1) % 2 ^ 32 =
        stop - (s₁.map id₁).start := by
      omega
    refine ⟨s', id₁, left, [s₁.fresh], ?_, hvalid', hframe.trans hframe' hid₁, ?_, ?_, ?_, ?_, hid₁⟩
    · rw [hoffset, mustSplit, hok']
      rfl
    · rw [hnodes₂]
      simp
    · rw [← hleft]
      exact map_congr_of_frame hframe'.map fun j hj =>
        (hvalid.others hnodes').1 j (mem_append_right _ hj)
    · rw [hfirst, hstart₁, hid, Map.slice_slice (le_max_left _ _) le_rfl, Map.inside,
        min_eq_right hafter.le]
    · rw [Map.after, if_pos hafter, map_singleton, hsecond, hstop₁, hid,
        Map.slice_slice (le_max_left _ _) (by omega)]
  · rw [if_neg (by omega)]
    refine ⟨s₁, id₁, left, [], rfl, hvalid, hframe, hnodes, hleft, ?_, ?_, hid₁⟩
    · rw [hid, Map.inside, min_eq_left (by omega)]
    · rw [Map.after, if_neg hafter, map_nil]

end Isolate

end Maps

end Viengoos
