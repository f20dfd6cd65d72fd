import Viengoos.Kernel.Records
import Viengoos.Lib.DoublyLinked

/-!
# Lists made of capabilities

An activity's folios, and its children, are on doubly linked lists whose links are capabilities:
the head is in the activity, the links are in the elements (`CapList`). A link can be followed only
while it is **fresh**, that is, while the object it names is in memory and has the version it
names. `Chained` says that all links of the lists are fresh and that they represent given lists;
following a fresh link changes nothing but marks on descriptors (`Noted`).

* `Chained.unlink` and `Chained.link` — what `folio_free`, `activity_destroy` and `folio_parent` do
  to the links is to take an element out, or to put one in front.
-/

namespace Viengoos

open Outcome DoublyLinked Function List Finset

/-- The object a capability names, unless it is void. -/
def Cap.target (c : Cap) : Option ℕ := if c.type = .void then none else some c.oid

/-- What an activity's account for folios consists of: whom it counts for, its count and quota,
and whether it is being destroyed. -/
def Activity.account (g : Activity) : List ℕ × ℤ × ℕ × Bool :=
  (g.ancestors, g.folioCount, g.quota, g.dying)

namespace Kernel

variable {c : Cap} {G : Cap → Prop} {p q : CapPtr} {U : CapPtr → Prop} {d : Desc} {s : Kernel}
  {o y : ℕ}

theorem AccountsOnly.account {t : Kernel} (h : AccountsOnly s t) (a : ℕ) :
    (t.activity a).account = (s.activity a).account := by
  rw [h.activity a]
  rfl

theorem write_account (s : Kernel) (p : CapPtr) (c : Cap) (a : ℕ) :
    ((s.write p c).activity a).account = (s.activity a).account := by
  cases p with
  | activityFolios b | activityParent b | activityChildren b | activitySiblingNext b
  | activitySiblingPrev b =>
    by_cases hb : a = b
    · subst hb
      simp [write, modifyActivity, Activity.account]
    · simp [write, modifyActivity, hb]
  | _ => rfl

/-! ### Fresh capabilities -/

/-- A capability is **fresh**: it is void, or names an object in memory by its version. -/
def Fresh (s : Kernel) (c : Cap) : Prop :=
  c.type = .void ∨ ∃ d, s.desc c.oid = some d ∧ d.version = c.version ∧
    CapType.compatible c.type d.type = true

/-- A step that leaves all capabilities, types and versions, and the accounts of activities for
folios. -/
structure Noted (s t : Kernel) : Prop where
  desc : ∀ o, (t.desc o).map Desc.record = (s.desc o).map Desc.record
  read : ∀ p, t.read p = s.read p
  account : ∀ a, (t.activity a).account = (s.activity a).account
  allocated : t.allocated = s.allocated

theorem Noted.trans {t r : Kernel} (h : Noted s t) (h' : Noted t r) : Noted s r where
  desc o := (h'.desc o).trans (h.desc o)
  read p := (h'.read p).trans (h.read p)
  account a := (h'.account a).trans (h.account a)
  allocated := h'.allocated.trans h.allocated

theorem Noted.refl (s : Kernel) : Noted s s := ⟨fun _ => rfl, fun _ => rfl, fun _ => rfl, rfl⟩

/-- A change of a descriptor that keeps type and version, beyond frame accounting. -/
theorem Noted.setDesc {t : Kernel} {d' : Desc} (h : AccountsOnly s t)
    (hd : s.desc o = some d) (hrecord : d'.record = d.record) :
    Noted s (t.setDesc o (some d')) where
  desc := (Kept.setDesc h hd hrecord).desc
  read p := by rw [setDesc_read, h.read]
  account a := h.account a
  allocated := h.allocated

theorem objectFindSoft_noted (s : Kernel) (activity o : ℕ) (policy : ObjectPolicy) :
    Noted s (s.objectFindSoft activity o policy).1 := by
  cases hd : s.desc o with
  | none =>
    rw [objectFindSoft_of_none hd]
    exact .refl s
  | some d =>
    obtain ⟨t, ht, heq⟩ := objectFindSoft_spec hd activity policy
    obtain ⟨htype, hversion, -⟩ := foundDesc_fields d activity policy
    rw [heq]
    exact .setDesc ht hd (Prod.ext htype hversion)

/-- The record of a descriptor, from the descriptor in an earlier state. -/
theorem desc_of_record {t : Kernel}
    (h : (t.desc o).map Desc.record = (s.desc o).map Desc.record) (hd : s.desc o = some d) :
    ∃ d', t.desc o = some d' ∧ d'.type = d.type ∧ d'.version = d.version := by
  rw [hd, Option.map_some, Option.map_eq_some_iff] at h
  obtain ⟨d', hd', hrecord⟩ := h
  obtain ⟨htype, hversion⟩ := Prod.mk.inj hrecord
  exact ⟨d', hd', htype, hversion⟩

theorem Fresh.congr {t : Kernel} (h : s.Fresh c) (hdesc : ∀ o, c.target = some o →
      (t.desc o).map Desc.record = (s.desc o).map Desc.record) : t.Fresh c := by
  rcases h with hvoid | ⟨d, hd, hversion, hcompat⟩
  · exact .inl hvoid
  · by_cases hvoid : c.type = .void
    · exact .inl hvoid
    obtain ⟨d', hd', htype', hversion'⟩ :=
      desc_of_record (hdesc c.oid (by simp [Cap.target, hvoid])) hd
    exact .inr ⟨d', hd', hversion'.trans hversion, by rwa [htype']⟩

/-- **Following a fresh link**: the object it names comes back, and the step leaves no traces but
marks on its descriptor. -/
theorem capToObject_of_fresh (hfresh : s.Fresh (s.read p)) (activity : ℕ) :
    ∃ t, Noted s t ∧ s.capToObject activity p = .ok (t, (s.read p).target) := by
  by_cases hvoid : (s.read p).type = .void
  · refine ⟨s, .refl s, ?_⟩
    simp only [capToObject, hvoid, if_true, Cap.target]
    rfl
  · obtain ⟨d, hd, hversion, hcompat⟩ := hfresh.resolve_left hvoid
    have hnoted := objectFindSoft_noted s activity (s.read p).oid (s.read p).policy
    obtain ⟨d', hd', htype', hversion'⟩ := desc_of_record (hnoted.desc _) hd
    refine ⟨_, hnoted, ?_⟩
    simp only [capToObject, hvoid, if_false, objectFind_of_some hd, ok_bind, checkVersion, hd',
      hversion', hversion, htype', hcompat, Cap.target, ne_eq, not_true_eq_false,
      require_of (show True from trivial)]
    rfl

theorem capToObject_fresh {t : Kernel} {activity : ℕ} {r : Option ℕ}
    (hfresh : s.Fresh (s.read p)) (h : s.capToObject activity p = .ok (t, r)) :
    Noted s t ∧ r = (s.read p).target := by
  obtain ⟨u, hnoted, hu⟩ := capToObject_of_fresh hfresh activity
  obtain ⟨⟩ := Except.ok.inj (h.symm.trans hu)
  exact ⟨hnoted, rfl⟩

/-! ### Families of lists -/

end Kernel

/-- Where the links of a family of lists are. -/
structure CapList where
  head : ℕ → CapPtr
  next : ℕ → CapPtr
  prev : ℕ → CapPtr
  head_holder : ∀ a, (head a).holder = some a
  next_holder : ∀ x, (next x).holder = some x
  prev_holder : ∀ x, (prev x).holder = some x
  head_ne_next : ∀ a x, head a ≠ next x
  head_ne_prev : ∀ a x, head a ≠ prev x
  next_ne_prev : ∀ x y, next x ≠ prev y

namespace CapList

/-- The folios of an activity. -/
def folios : CapList where
  head := .activityFolios
  next := .folioNext
  prev := .folioPrev
  head_holder _ := rfl
  next_holder _ := rfl
  prev_holder _ := rfl
  head_ne_next _ _ := nofun
  head_ne_prev _ _ := nofun
  next_ne_prev _ _ := nofun

/-- The children of an activity. -/
def children : CapList where
  head := .activityChildren
  next := .activitySiblingNext
  prev := .activitySiblingPrev
  head_holder _ := rfl
  next_holder _ := rfl
  prev_holder _ := rfl
  head_ne_next _ _ := nofun
  head_ne_prev _ _ := nofun
  next_ne_prev _ _ := nofun

variable (F : CapList)

theorem head_ne {a b : ℕ} (h : a ≠ b) : F.head a ≠ F.head b := fun heq =>
  h (Option.some.inj ((F.head_holder a).symm.trans ((congrArg _ heq).trans (F.head_holder b))))

theorem next_ne {x : ℕ} (h : x ≠ y) : F.next x ≠ F.next y := fun heq =>
  h (Option.some.inj ((F.next_holder x).symm.trans ((congrArg _ heq).trans (F.next_holder y))))

theorem prev_ne {x : ℕ} (h : x ≠ y) : F.prev x ≠ F.prev y := fun heq =>
  h (Option.some.inj ((F.prev_holder x).symm.trans ((congrArg _ heq).trans (F.prev_holder y))))

/-- The links between the elements. -/
def links (s : Kernel) : Links ℕ where
  next x := (s.read (F.next x)).target
  prev x := (s.read (F.prev x)).target

theorem links_write_next (s : Kernel) (x : ℕ) (c : Cap) :
    F.links (s.write (F.next x) c) = (F.links s).setNext x c.target := by
  have hself := s.read_write_self (CapPtr.stored_of_holder (F.next_holder x)) c
  simp only [links, Links.setNext, Links.mk.injEq]
  refine ⟨funext fun y => ?_, funext fun y => ?_⟩
  · by_cases hy : y = x
    · subst hy
      rw [hself, update_self]
    · rw [s.read_write_of_ne (F.next_ne hy), update_of_ne hy]
  · rw [s.read_write_of_ne (F.next_ne_prev x y).symm]

theorem links_write_prev (s : Kernel) (x : ℕ) (c : Cap) :
    F.links (s.write (F.prev x) c) = (F.links s).setPrev x c.target := by
  have hself := s.read_write_self (CapPtr.stored_of_holder (F.prev_holder x)) c
  simp only [links, Links.setPrev, Links.mk.injEq]
  refine ⟨funext fun y => ?_, funext fun y => ?_⟩
  · rw [s.read_write_of_ne (F.next_ne_prev y x)]
  · by_cases hy : y = x
    · subst hy
      rw [hself, update_self]
    · rw [s.read_write_of_ne (F.prev_ne hy), update_of_ne hy]

theorem links_write_head (s : Kernel) (a : ℕ) (c : Cap) :
    F.links (s.write (F.head a) c) = F.links s := by
  simp only [links, s.read_write_of_ne (F.head_ne_next a _).symm,
    s.read_write_of_ne (F.head_ne_prev a _).symm]

/-- Take element `x` off the list of `owner`, given its neighbours. -/
def unlinked (s : Kernel) (owner x : ℕ) (prev next : Option ℕ) : Kernel :=
  let s := match prev with
    | some p => s.write (F.next p) (s.read (F.next x))
    | none => s.write (F.head owner) (s.read (F.next x))
  let s := match next with
    | some n => s.write (F.prev n) (s.read (F.prev x))
    | none => s
  (s.voidCap (F.next x)).voidCap (F.prev x)

/-- A pointer that is not one of the family's. -/
def Apart (q : CapPtr) : Prop := ∀ x, q ≠ F.head x ∧ q ≠ F.next x ∧ q ≠ F.prev x

/-- Put element `x` in front of the list of `owner`, given the old head. -/
def linked (s : Kernel) (owner x : ℕ) (head : Option ℕ) : Kernel :=
  let s := match head with
    | some h => s.write (F.prev h) (s.objectToCap x)
    | none => s
  let s := s.write (F.next x) (s.read (F.head owner))
  let s := s.voidCap (F.prev x)
  s.write (F.head owner) (s.objectToCap x)

@[simp] theorem target_voided (c : Cap) : ({ c with type := .void } : Cap).target = none := rfl

theorem read_head_write (t : Kernel) (b p : ℕ) (c : Cap) :
    (t.write (F.next p) c).read (F.head b) = t.read (F.head b) ∧
      (t.write (F.prev p) c).read (F.head b) = t.read (F.head b) :=
  ⟨t.read_write_of_ne (F.head_ne_next b p) c, t.read_write_of_ne (F.head_ne_prev b p) c⟩

theorem Apart.read_write (hq : F.Apart q) (t : Kernel) (a : ℕ) (c : Cap) :
    (t.write (F.head a) c).read q = t.read q ∧ (t.write (F.next a) c).read q = t.read q ∧
      (t.write (F.prev a) c).read q = t.read q :=
  ⟨t.read_write_of_ne (hq a).1 c, t.read_write_of_ne (hq a).2.1 c, t.read_write_of_ne (hq a).2.2 c⟩

section

variable (s : Kernel) (owner x : ℕ)

include s owner x

theorem links_unlinked (head prev next : Option ℕ) :
    F.links (F.unlinked s owner x prev next) =
      (((((F.links s).redirect head prev ((F.links s).next x)).1.setPrevOf next
        ((F.links s).prev x)).setNext x none).setPrev x none) := by
  have hprev : ∀ p c, (s.write (F.next p) c).read (F.prev x) = s.read (F.prev x) := fun p c =>
    s.read_write_of_ne (F.next_ne_prev p x).symm c
  have hprev' : ∀ c, (s.write (F.head owner) c).read (F.prev x) = s.read (F.prev x) := fun c =>
    s.read_write_of_ne (F.head_ne_prev owner x).symm c
  cases prev <;> cases next <;>
    simp only [unlinked, Kernel.voidCap, links_write_next, links_write_prev, links_write_head,
      target_voided, Links.redirect, Links.setPrevOf, hprev, hprev'] <;> rfl

theorem read_head_unlinked (prev next : Option ℕ) :
    ((F.unlinked s owner x prev next).read (F.head owner)).target =
        ((F.links s).redirect (s.read (F.head owner)).target prev ((F.links s).next x)).2 ∧
      ∀ b ≠ owner, (F.unlinked s owner x prev next).read (F.head b) = s.read (F.head b) := by
  have hself : ∀ c, (s.write (F.head owner) c).read (F.head owner) = c := fun c =>
    s.read_write_self (CapPtr.stored_of_holder (F.head_holder owner)) c
  refine ⟨?_, fun b hb => ?_⟩
  · cases prev <;> cases next <;>
      simp only [unlinked, Kernel.voidCap, read_head_write, hself, Links.redirect] <;> rfl
  · have hother : ∀ c, (s.write (F.head owner) c).read (F.head b) = s.read (F.head b) := fun c =>
      s.read_write_of_ne (F.head_ne hb) c
    cases prev <;> cases next <;>
      simp only [unlinked, Kernel.voidCap, read_head_write, hother]

@[simp] theorem unlinked_desc (prev next : Option ℕ) :
    (F.unlinked s owner x prev next).desc = s.desc := by
  cases prev <;> cases next <;> simp only [unlinked, Kernel.voidCap, Kernel.write_desc]

theorem read_unlinked_of_apart (prev next : Option ℕ) (hq : F.Apart q) :
    (F.unlinked s owner x prev next).read q = s.read q := by
  cases prev <;> cases next <;> simp only [unlinked, Kernel.voidCap, hq.read_write]

theorem unlinked_account (prev next : Option ℕ) (a : ℕ) :
    ((F.unlinked s owner x prev next).activity a).account = (s.activity a).account := by
  cases prev <;> cases next <;> simp only [unlinked, Kernel.voidCap, Kernel.write_account]

theorem unlinked_allocated (prev next : Option ℕ) :
    (F.unlinked s owner x prev next).allocated = s.allocated := by
  cases prev <;> cases next <;> simp only [unlinked, Kernel.voidCap, Kernel.write_allocated]

theorem read_linked_of_apart (head : Option ℕ) (hq : F.Apart q) :
    (F.linked s owner x head).read q = s.read q := by
  cases head <;> simp only [linked, Kernel.voidCap, hq.read_write]

theorem linked_account (head : Option ℕ) (a : ℕ) :
    ((F.linked s owner x head).activity a).account = (s.activity a).account := by
  cases head <;> simp only [linked, Kernel.voidCap, Kernel.write_account]

theorem linked_allocated (head : Option ℕ) : (F.linked s owner x head).allocated = s.allocated := by
  cases head <;> simp only [linked, Kernel.voidCap, Kernel.write_allocated]

@[simp] theorem linked_desc (head : Option ℕ) : (F.linked s owner x head).desc = s.desc := by
  cases head <;> simp only [linked, Kernel.voidCap, Kernel.write_desc]

end

/-- A capability made for an object depends on its descriptor only. -/
theorem objectToCap_congr {s t : Kernel} (h : t.desc = s.desc) (x : ℕ) :
    t.objectToCap x = s.objectToCap x := by
  simp only [Kernel.objectToCap, h]

theorem links_linked (s : Kernel) (owner x : ℕ) (head : Option ℕ) :
    F.links (F.linked s owner x head) =
      (((F.links s).setPrevOf head (s.objectToCap x).target).setNext x
        (s.read (F.head owner)).target).setPrev x none := by
  cases head <;>
    simp only [linked, Kernel.voidCap, links_write_next, links_write_prev, links_write_head,
      target_voided, Links.setPrevOf, read_head_write]

theorem read_head_linked (s : Kernel) (owner x : ℕ) (head : Option ℕ) :
    (F.linked s owner x head).read (F.head owner) = s.objectToCap x ∧
      ∀ b ≠ owner, (F.linked s owner x head).read (F.head b) = s.read (F.head b) := by
  have hstored := CapPtr.stored_of_holder (F.head_holder owner)
  refine ⟨?_, fun b hb => ?_⟩
  · refine (Kernel.read_write_self _ hstored _).trans (objectToCap_congr ?_ x)
    cases head <;> simp only [Kernel.voidCap, Kernel.write_desc]
  · have hother : ∀ (t : Kernel) c, (t.write (F.head owner) c).read (F.head b) =
        t.read (F.head b) := fun t c => t.read_write_of_ne (F.head_ne hb) c
    cases head <;> simp only [linked, Kernel.voidCap, read_head_write, hother]

/-- The pointers that lists `L` of the activities `T` are made of. -/
def Uses (T : Finset ℕ) (L : ℕ → List ℕ) (p : CapPtr) : Prop :=
  ∃ a ∈ T, p = F.head a ∨ ∃ x ∈ L a, p = F.next x ∨ p = F.prev x

end CapList

namespace Kernel

/-- **The lists are in order**: the capabilities represent the lists `L` of the activities `T`, and
all of them are fresh. -/
structure Chained (F : CapList) (T : Finset ℕ) (L : ℕ → List ℕ) (s : Kernel) : Prop where
  list : ∀ a ∈ T, IsList (F.links s) (s.read (F.head a)).target (L a)
  nodup : ∀ a ∈ T, (L a).Nodup
  apart : ∀ a ∈ T, ∀ b ∈ T, ∀ x, x ∈ L a → x ∈ L b → a = b
  fresh : ∀ p, F.Uses T L p → s.Fresh (s.read p)
  resident : ∀ a ∈ T, (s.desc a).isSome = true ∧ ∀ x ∈ L a, (s.desc x).isSome = true

namespace Chained

variable {F : CapList} {T : Finset ℕ} {L : ℕ → List ℕ} {s t : Kernel} {a x : ℕ}

/-- The links lead to elements. -/
theorem target_mem (h : Chained F T L s) (hp : F.Uses T L p)
    (hy : (s.read p).target = some y) : ∃ a ∈ T, y ∈ L a := by
  obtain ⟨a, ha, rfl | ⟨x, hx, rfl | rfl⟩⟩ := hp
  · rw [(h.list a ha).head_eq] at hy
    exact ⟨a, ha, mem_of_head? hy⟩
  · exact ⟨a, ha, (h.list a ha).next_mem hx hy⟩
  · exact ⟨a, ha, (h.list a ha).prev_mem hx hy⟩

/-- What leaves the links, and what they lead to, leaves the lists. -/
theorem congr (h : Chained F T L s) (hread : ∀ p, F.Uses T L p → t.read p = s.read p)
    (hdesc : ∀ o, o ∈ T ∨ (∃ a ∈ T, o ∈ L a) →
      (t.desc o).map Desc.record = (s.desc o).map Desc.record) : Chained F T L t := by
  have hsome : ∀ o, o ∈ T ∨ (∃ a ∈ T, o ∈ L a) → (s.desc o).isSome = true →
      (t.desc o).isSome = true := fun o ho hs => by
    obtain ⟨d, hd⟩ := Option.isSome_iff_exists.1 hs
    obtain ⟨d', hd', -⟩ := desc_of_record (hdesc o ho) hd
    simp [hd']
  refine ⟨fun a ha => ?_, h.nodup, h.apart, fun p hp => ?_, fun a ha => ⟨?_, fun x hx => ?_⟩⟩
  · rw [hread _ ⟨a, ha, .inl rfl⟩]
    refine (h.list a ha).congr fun x hx => ?_
    simp only [CapList.links, hread _ ⟨a, ha, .inr ⟨x, hx, .inl rfl⟩⟩,
      hread _ ⟨a, ha, .inr ⟨x, hx, .inr rfl⟩⟩, and_self]
  · rw [hread p hp]
    exact (h.fresh p hp).congr fun o ho => hdesc o (.inr (h.target_mem hp ho))
  · exact hsome a (.inl ha) (h.resident a ha).1
  · exact hsome x (.inr ⟨a, ha, hx⟩) ((h.resident a ha).2 x hx)

theorem noted (h : Chained F T L s) (hnoted : Noted s t) : Chained F T L t :=
  h.congr (fun p _ => hnoted.read p) fun o _ => hnoted.desc o

/-- An activity without elements joins. -/
theorem joined (h : Chained F T L t) (ho : o ∉ T) (hvoid : (t.read (F.head o)).type = .void)
    (hsome : (t.desc o).isSome = true) : Chained F (insert o T) (update L o []) t := by
  have hold : ∀ b ∈ T, update L o [] b = L b := fun b hb =>
    update_of_ne (ne_of_mem_of_not_mem hb ho) ..
  have hmem : ∀ b ∈ insert o T, ∀ x ∈ update L o [] b, b ∈ T ∧ x ∈ L b := by
    intro b hb x hx
    rcases mem_insert.1 hb with rfl | hb
    · simp at hx
    · exact ⟨hb, hold b hb ▸ hx⟩
  refine ⟨fun b hb => ?_, fun b hb => ?_, fun b hb c hc x hx hx' => ?_, ?_, fun b hb => ?_⟩
  · rcases mem_insert.1 hb with rfl | hb
    · simp [Cap.target, hvoid, IsList, Seg]
    · rw [hold b hb]
      exact h.list b hb
  · rcases mem_insert.1 hb with rfl | hb
    · simp
    · rw [hold b hb]
      exact h.nodup b hb
  · obtain ⟨hb, hxb⟩ := hmem b hb x hx
    obtain ⟨hc, hxc⟩ := hmem c hc x hx'
    exact h.apart b hb c hc x hxb hxc
  · rintro p ⟨b, hb, rfl | ⟨x, hx, hp⟩⟩
    · rcases mem_insert.1 hb with rfl | hb
      · exact .inl hvoid
      · exact h.fresh _ ⟨b, hb, .inl rfl⟩
    · obtain ⟨hb, hxb⟩ := hmem b hb x hx
      exact h.fresh p ⟨b, hb, .inr ⟨x, hxb, hp⟩⟩
  · refine ⟨?_, fun x hx => ?_⟩
    · rcases mem_insert.1 hb with rfl | hb
      · exact hsome
      · exact (h.resident b hb).1
    · obtain ⟨hb, hxb⟩ := hmem b hb x hx
      exact (h.resident b hb).2 x hxb

/-- Fewer activities. -/
theorem mono (h : Chained F T L s) {T' : Finset ℕ} (hT : T' ⊆ T) : Chained F T' L s where
  list a ha := h.list a (hT ha)
  nodup a ha := h.nodup a (hT ha)
  apart a ha b hb := h.apart a (hT ha) b (hT hb)
  fresh p := fun ⟨a, ha, hp⟩ => h.fresh p ⟨a, hT ha, hp⟩
  resident a ha := h.resident a (hT ha)

/-- What the written capabilities and the old ones have in common, the new ones have. -/
theorem forall_read_write {G : Cap → Prop} {U : CapPtr → Prop} (h : ∀ p, U p → G (s.read p))
    {q : CapPtr} {c : Cap} (hc : G c) : ∀ p, U p → G ((s.write q c).read p) := fun p hp => by
  rcases read_write s q p c with heq | heq
  · rw [heq]
    exact h p hp
  · rwa [heq]

/-- Freshness is about descriptors, so that a list of writes keeps it. -/
theorem fresh_unlinked {U : CapPtr → Prop} (h : ∀ p, U p → s.Fresh (s.read p)) {y : ℕ}
    (hnext : U (F.next x)) (hprev : U (F.prev x)) (prev next : Option ℕ) :
    ∀ p, U p → s.Fresh ((F.unlinked s y x prev next).read p) := by
  have hfirst : ∀ p, U p → s.Fresh ((match prev with
      | some p => s.write (F.next p) (s.read (F.next x))
      | none => s.write (F.head y) (s.read (F.next x)) : Kernel).read p) := by
    cases prev <;> exact forall_read_write h (h _ hnext)
  refine forall_read_write (forall_read_write ?_ (.inl rfl)) (.inl rfl)
  cases next with
  | none => exact hfirst
  | some n => exact forall_read_write hfirst (hfirst _ hprev)

/-- **Taking an element out.** -/
theorem unlink (h : Chained F T L s) (ha : a ∈ T) (hx : x ∈ L a) :
    Chained F T (update L a ((L a).erase x))
      (F.unlinked s a x (s.read (F.prev x)).target (s.read (F.next x)).target) := by
  obtain ⟨l₁, l₂, hl⟩ := append_of_mem hx
  have hnodup : (l₁ ++ x :: l₂).Nodup := hl ▸ h.nodup a ha
  have hlist : IsList (F.links s) (s.read (F.head a)).target (l₁ ++ x :: l₂) := hl ▸ h.list a ha
  have hx₁ : x ∉ l₁ := fun hx₁ => (nodup_append.1 hnodup).2.2 x hx₁ x (.head _) rfl
  have herase : (L a).erase x = l₁ ++ l₂ := by
    rw [hl, erase_append_right _ hx₁, erase_cons_head]
  have hsub : ∀ b, ∀ y ∈ update L a ((L a).erase x) b, y ∈ L b := fun b y hy => by
    by_cases hb : b = a
    · subst hb
      rw [update_self] at hy
      exact mem_of_mem_erase hy
    · rwa [update_of_ne hb] at hy
  have huses : ∀ p, F.Uses T (update L a ((L a).erase x)) p → F.Uses T L p := by
    rintro p ⟨b, hb, hp | ⟨y, hy, hp⟩⟩
    · exact ⟨b, hb, .inl hp⟩
    · exact ⟨b, hb, .inr ⟨y, hsub b y hy, hp⟩⟩
  set head := (s.read (F.head a)).target with hhead
  obtain ⟨hremove, hothers⟩ := hlist.remove hnodup
  -- the writes are a removal, after which the links of `x` itself are cleared
  have hkeep : ((F.links s).redirect head ((F.links s).prev x) ((F.links s).next x)).1.next x =
      (F.links s).next x := by
    refine redirect_next_of_ne ?_
    rw [hlist.links.1]
    exact getLast?_ne_of_notMem hx₁
  have hlinks : ∀ y ≠ x,
      (F.links (F.unlinked s a x (s.read (F.prev x)).target (s.read (F.next x)).target)).next y =
        ((F.links s).remove head x).1.next y ∧
      (F.links (F.unlinked s a x (s.read (F.prev x)).target (s.read (F.next x)).target)).prev y =
        ((F.links s).remove head x).1.prev y := fun y hy => by
    rw [F.links_unlinked s a x head]
    simp only [Links.remove, hkeep, redirect_prev]
    exact ⟨update_of_ne hy .., update_of_ne hy ..⟩
  obtain ⟨hheadA, hheadB⟩ := F.read_head_unlinked s a x (s.read (F.prev x)).target
    (s.read (F.next x)).target
  refine ⟨fun b hb => ?_, fun b hb => ?_, fun b hb c hc y hy hy' => ?_, fun p hp => ?_,
    fun b hb => ?_⟩
  · by_cases hba : b = a
    · subst hba
      rw [update_self, herase, hheadA]
      refine hremove.congr fun y hy => hlinks y ?_
      rintro rfl
      exact (nodup_middle.1 hnodup |> nodup_cons.1).1 hy
    · rw [update_of_ne hba, hheadB b hba]
      refine (h.list b hb).congr fun y hy => ?_
      have hya : y ∉ L a := fun hya => hba (h.apart b hb a ha y hy hya)
      obtain ⟨hn, hp⟩ := hlinks y fun hyx => hya (hyx ▸ hx)
      obtain ⟨hn', hp'⟩ := hothers y (hl ▸ hya)
      exact ⟨hn.trans hn', hp.trans hp'⟩
  · by_cases hba : b = a
    · subst hba
      rw [update_self]
      exact (h.nodup b hb).erase x
    · rw [update_of_ne hba]
      exact h.nodup b hb
  · exact h.apart b hb c hc y (hsub b y hy) (hsub c y hy')
  · have hfresh := fresh_unlinked (U := F.Uses T L) h.fresh (y := a)
      ⟨a, ha, .inr ⟨x, hx, .inl rfl⟩⟩ ⟨a, ha, .inr ⟨x, hx, .inr rfl⟩⟩
      (s.read (F.prev x)).target (s.read (F.next x)).target p (huses p hp)
    exact hfresh.congr fun o _ => by rw [CapList.unlinked_desc]
  · rw [CapList.unlinked_desc]
    exact ⟨(h.resident b hb).1, fun y hy => (h.resident b hb).2 y (hsub b y hy)⟩

theorem fresh_objectToCap (hd : s.desc x = some d) : s.Fresh (s.objectToCap x) := by
  refine .inr ⟨d, ?_, ?_, ?_⟩ <;> simp [objectToCap, hd, objectDescToCap, CapType.compatible]

/-- A capability that is overwritten need not have been one of them. -/
theorem forall_read_write_of_ne {G : Cap → Prop} {U : CapPtr → Prop} {q : CapPtr} {c : Cap}
    (h : ∀ p, U p → p ≠ q → G (s.read p)) (hq : q.stored = true) (hc : G c) :
    ∀ p, U p → G ((s.write q c).read p) := fun p hp => by
  by_cases hpq : p = q
  · rwa [hpq, s.read_write_self hq]
  · rw [s.read_write_of_ne hpq]
    exact h p hp hpq

theorem fresh_linked {U : CapPtr → Prop}
    (h : ∀ p, U p → p ≠ F.prev x → p ≠ F.next x → s.Fresh (s.read p)) {d : Desc}
    (hd : s.desc x = some d) {y : ℕ} (hhead : U (F.head y)) (head : Option ℕ) :
    ∀ p, U p → s.Fresh ((F.linked s y x head).read p) := by
  have hcap : ∀ {t : Kernel}, t.desc = s.desc → s.Fresh (t.objectToCap x) := fun ht => by
    rw [CapList.objectToCap_congr ht]
    exact fresh_objectToCap hd
  have hfirst : ∀ p, (U p ∧ p ≠ F.prev x) ∧ p ≠ F.next x → s.Fresh ((match head with
      | some h => s.write (F.prev h) (s.objectToCap x)
      | none => s : Kernel).read p) := by
    cases head with
    | none => exact fun p hp => h p hp.1.1 hp.1.2 hp.2
    | some o => exact forall_read_write (fun p hp => h p hp.1.1 hp.1.2 hp.2) (hcap rfl)
  refine forall_read_write ?_ (hcap ?_)
  · refine forall_read_write_of_ne (fun p hp hpx => ?_)
      (CapPtr.stored_of_holder (F.prev_holder x)) (.inl rfl)
    refine forall_read_write_of_ne (U := fun p => U p ∧ p ≠ F.prev x)
      (fun p hp hpx => hfirst p ⟨hp, hpx⟩) (CapPtr.stored_of_holder (F.next_holder x)) ?_ p
      ⟨hp, hpx⟩
    exact hfirst _ ⟨⟨hhead, F.head_ne_prev y x⟩, F.head_ne_next y x⟩
  · cases head <;> simp only [Kernel.voidCap, Kernel.write_desc]

/-- **Putting an element in front.** -/
theorem link (h : Chained F T L s) (ha : a ∈ T) (hx : ∀ b ∈ T, x ∉ L b) {d : Desc}
    (hd : s.desc x = some d) (hvoid : d.type ≠ .void) :
    Chained F T (update L a (x :: L a))
      (F.linked s a x (s.read (F.head a)).target) := by
  have htarget : (s.objectToCap x).target = some x := by
    simp [objectToCap, hd, objectDescToCap, Cap.target, hvoid]
  have hhead := (h.list a ha).head_eq
  have hlist : IsList (F.links s) (s.read (F.head a)).target ([] ++ L a) := h.list a ha
  obtain ⟨hinsert, hothers⟩ := hlist.insert (h.nodup a ha) (hx a ha)
  have hlinks : F.links (F.linked s a x (s.read (F.head a)).target) =
      ((F.links s).insert (s.read (F.head a)).target none (L a).head? x).1 := by
    rw [F.links_linked, htarget, ← hhead]
    cases (s.read (F.head a)).target <;> rfl
  obtain ⟨hheadA, hheadB⟩ := F.read_head_linked s a x (s.read (F.head a)).target
  have hmem : ∀ b, ∀ y ∈ update L a (x :: L a) b, b = a ∧ y = x ∨ y ∈ L b := by
    intro b y hy
    by_cases hb : b = a
    · subst hb
      rw [update_self] at hy
      exact (List.mem_cons.1 hy).imp_left fun hyx => ⟨rfl, hyx⟩
    · rw [update_of_ne hb] at hy
      exact .inr hy
  refine ⟨fun b hb => ?_, fun b hb => ?_, fun b hb c hc y hy hy' => ?_, fun p hp => ?_,
    fun b hb => ?_⟩
  · rw [hlinks]
    by_cases hba : b = a
    · subst hba
      rw [update_self, hheadA, htarget]
      exact hinsert
    · rw [update_of_ne hba, hheadB b hba]
      refine (h.list b hb).congr fun y hy => hothers y ?_
      simp only [List.nil_append, List.mem_cons, not_or]
      exact ⟨fun hyx => hx b hb (hyx ▸ hy), fun hya => hba (h.apart b hb a ha y hy hya)⟩
  · by_cases hba : b = a
    · subst hba
      rw [update_self]
      exact List.nodup_cons.2 ⟨hx b hb, h.nodup b hb⟩
    · rw [update_of_ne hba]
      exact h.nodup b hb
  · rcases hmem b y hy with ⟨hba, hyx⟩ | hyb <;> rcases hmem c y hy' with ⟨hca, hyx'⟩ | hyc
    · exact hba.trans hca.symm
    · exact absurd (hyx ▸ hyc) (hx c hc)
    · exact absurd (hyx' ▸ hyb) (hx b hb)
    · exact h.apart b hb c hc y hyb hyc
  · have hold : ∀ p, F.Uses T (update L a (x :: L a)) p → p ≠ F.prev x → p ≠ F.next x →
        s.Fresh (s.read p) := by
      rintro q ⟨b, hb, hq | ⟨y, hy, hq⟩⟩ hprev hnext
      · exact h.fresh q ⟨b, hb, .inl hq⟩
      · rcases hmem b y hy with ⟨-, rfl⟩ | hyb
        · exact (hq.elim hnext hprev).elim
        · exact h.fresh q ⟨b, hb, .inr ⟨y, hyb, hq⟩⟩
    have hfresh := fresh_linked hold hd (y := a) ⟨a, ha, .inl rfl⟩ (s.read (F.head a)).target p hp
    exact hfresh.congr fun o _ => by rw [CapList.linked_desc]
  · rw [CapList.linked_desc]
    refine ⟨(h.resident b hb).1, fun y hy => ?_⟩
    rcases hmem b y hy with ⟨-, rfl⟩ | hyb
    · simp [hd]
    · exact (h.resident b hb).2 y hyb

end Chained

end Kernel

end Viengoos
