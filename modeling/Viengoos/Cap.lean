import Viengoos.AddrTrans

/-!
# Capabilities

`struct vg_cap` and the parts of `viengoos/cap.h` that compute on it: the strong and weak types,
and `vg_cap_copy_x`, which decides what a copy stores. The copy is cut where the source cuts it:
`copySubpage` (the narrowing check), `copyGuard`, `copyType`, then `changesTranslation`, which
the kernel consults before it stores, and `copyStore`, which may still refuse the word.
-/

namespace Viengoos

open AddrTrans

/-- `enum vg_cap_type`. -/
inductive CapType
  | void
  | page
  | rpage
  | cappage
  | rcappage
  | folio
  | activity
  | activityControl
  | thread
  | messenger
  | rmessenger
deriving DecidableEq, Repr

namespace CapType

/-- `vg_cap_type_weak_p`. -/
def weakP : CapType → Bool
  | rpage | rcappage | activity | rmessenger => true
  | _ => false

/-- `vg_cap_type_weaken`: types without a weak form become void. -/
def weaken : CapType → CapType
  | page | rpage => rpage
  | cappage | rcappage => rcappage
  | activityControl | activity => activity
  | messenger | rmessenger => rmessenger
  | _ => void

/-- `vg_cap_type_strengthen`. -/
def strengthen : CapType → CapType
  | page | rpage => page
  | cappage | rcappage => cappage
  | activityControl | activity => activityControl
  | messenger | rmessenger => messenger
  | t => t

/-- `vg_cap_types_compatible`: the two types can designate the same object. -/
def compatible (a b : CapType) : Bool :=
  a == b || (a == page && b == rpage) || (a == rpage && b == page) ||
    (a == cappage && b == rcappage) || (a == rcappage && b == cappage) ||
    (a == activity && b == activityControl) || (a == activityControl && b == activity) ||
    (a == messenger && b == rmessenger) || (a == rmessenger && b == messenger)

/-- A type gives **no more authority** than another: it is that type, its weak form, or void. -/
def NoStronger (t u : CapType) : Prop := t = u ∨ t = u.weaken ∨ t = void

instance (t u : CapType) : Decidable (NoStronger t u) :=
  inferInstanceAs (Decidable (t = u ∨ t = u.weaken ∨ t = void))

theorem strengthen_eq_self {t : CapType} (h : t.weakP = false) : t.strengthen = t := by
  cases t <;> simp_all [weakP, strengthen]

end CapType

/-- `struct vg_object_policy`. -/
structure ObjectPolicy where
  discardable : Bool
  priority : BitVec 7
deriving DecidableEq, Repr

/-- `VG_OBJECT_POLICY_DEFAULT`. -/
def ObjectPolicy.default : ObjectPolicy := ⟨false, 0⟩

/-- `struct vg_cap_properties`. -/
structure CapProperties where
  policy : ObjectPolicy
  addrTrans : AddrTrans
deriving DecidableEq, Repr

/-- `struct vg_cap` as the kernel compiles it. In the user-space build the field `oid` stands for
the shadow object, which plays the same part there. -/
structure Cap where
  version : Fin (2 ^ 20)
  discardable : Bool
  priority : BitVec 7
  addrTrans : AddrTrans
  type : CapType
  oid : ℕ
deriving DecidableEq, Repr

namespace Cap

/-- `VG_CAP_VOID`, which is also what a zeroed slot holds. -/
def void : Cap := ⟨0, false, 0, .void, .void, 0⟩

@[simp] theorem void_type : void.type = .void := rfl
@[simp] theorem void_addrTrans : void.addrTrans = .void := rfl

/-- `VG_CAP_POLICY_GET`. -/
def policy (c : Cap) : ObjectPolicy := ⟨c.discardable, c.priority⟩

/-- `VG_CAP_PROPERTIES_GET`. -/
def properties (c : Cap) : CapProperties := ⟨c.policy, c.addrTrans⟩

/-- The slots of the designated object that a translation through the capability can select. -/
def InWindow (c : Cap) (i : ℕ) : Prop :=
  c.addrTrans.subpageOffset ≤ i ∧ i < c.addrTrans.subpageOffset + c.addrTrans.subpageSize

instance (c : Cap) (i : ℕ) : Decidable (c.InWindow i) :=
  inferInstanceAs (Decidable (_ ∧ _))

/-! ### `vg_cap_copy_x` -/

/-- `VG_CAP_COPY_COPY_ADDR_TRANS_SUBPAGE`. -/
def copyAddrTransSubpage (flags : ℕ) : Bool := flags.testBit 0

/-- `VG_CAP_COPY_COPY_ADDR_TRANS_GUARD`. -/
def copyAddrTransGuard (flags : ℕ) : Bool := flags.testBit 1

/-- `VG_CAP_COPY_COPY_SOURCE_GUARD`. -/
def copySourceGuard (flags : ℕ) : Bool := flags.testBit 2

/-- `VG_CAP_COPY_WEAKEN`. -/
def copyWeaken (flags : ℕ) : Bool := flags.testBit 3

/-- `VG_CAP_COPY_DISCARDABLE_SET`. -/
def copyDiscardableSet (flags : ℕ) : Bool := flags.testBit 4

/-- `VG_CAP_COPY_PRIORITY_SET`. -/
def copyPrioritySet (flags : ℕ) : Bool := flags.testBit 5

/-- The first slot of a window and the slot after its last, by the integer arithmetic of the
narrowing check. -/
def windowStart (subpage subpages : ℕ) : ℕ := subpage * (256 / subpages)

@[inherit_doc windowStart]
def windowEnd (subpage subpages : ℕ) : ℕ := (subpage + 1) * (256 / subpages)

/-- The subpage and number of subpages the copy will carry: the source's, or with
`COPY_ADDR_TRANS_SUBPAGE` those of `props`, which must **narrow** the source's window. -/
def copySubpage (source : Cap) (flags : ℕ) (props : CapProperties) : Option (ℕ × ℕ) :=
  let subpage := source.addrTrans.subpage
  let subpages := source.addrTrans.subpages
  let psubpage := props.addrTrans.subpage
  let psubpages := props.addrTrans.subpages
  if copyAddrTransSubpage flags then
    if psubpages ≠ 1 ∧ source.type ≠ .cappage ∧ source.type ≠ .rcappage then none
    else if windowStart subpage subpages ≤ windowStart psubpage psubpages ∧
        windowEnd psubpage psubpages ≤ windowEnd subpage subpages then
      some (psubpage, psubpages)
    else none
  else some (subpage, subpages)

/-- The guard and its depth the copy will carry: the target's, unless the flags ask for that of
`props` or of the source. -/
def copyGuard (target source : Cap) (flags : ℕ) (props : CapProperties) : ℕ × ℕ :=
  if copyAddrTransGuard flags then (props.addrTrans.guard, props.addrTrans.guardBits)
  else if copySourceGuard flags then (source.addrTrans.guard, source.addrTrans.guardBits)
  else (target.addrTrans.guard, target.addrTrans.guardBits)

/-- The type the copy will carry. -/
def copyType (source : Cap) (flags : ℕ) : CapType :=
  if copyWeaken flags then source.type.weaken else source.type

/-- Whether the kernel shoots down the target before it stores the copy. -/
def changesTranslation (target source : Cap) (flags : ℕ) (props : CapProperties)
    (sub : ℕ × ℕ) : Bool :=
  target.oid ≠ source.oid || target.version ≠ source.version ||
    sub.1 ≠ target.addrTrans.subpage || sub.2 ≠ target.addrTrans.subpages ||
    copyGuard target source flags props ≠
      (target.addrTrans.guard, target.addrTrans.guardBits) ||
    copyType source flags ≠ target.type

/-- The end of `vg_cap_copy_x`: encode guard and subpage, then overwrite the target. -/
def copyStore (target source : Cap) (flags : ℕ) (props : CapProperties) (sub : ℕ × ℕ) :
    Option Cap :=
  let g := copyGuard target source flags props
  (AddrTrans.setGuardSubpage g.1 g.2 sub.1 sub.2).map fun word =>
    { source with
      addrTrans := word
      type := copyType source flags
      discardable :=
        if copyDiscardableSet flags then props.policy.discardable else source.discardable
      priority := if copyPrioritySet flags then props.policy.priority else source.priority }

/-- `vg_cap_copy_x` as far as it computes the new value of the target; `none` where it answers
false. -/
def copyX (target source : Cap) (flags : ℕ) (props : CapProperties) : Option Cap :=
  (copySubpage source flags props).bind (copyStore target source flags props)

/-- `vg_cap_copy_simple`: `vg_cap_copy_x` with the source's policy, which is flags
`DISCARDABLE_SET | PRIORITY_SET` and the source's properties. -/
def copySimple (target source : Cap) : Option Cap := copyX target source (16 + 32) source.properties

/-! ### What a copy stores -/

theorem copyGuard_lt (target source : Cap) (flags : ℕ) (props : CapProperties) :
    (copyGuard target source flags props).2 < 64 := by
  unfold copyGuard
  split
  · exact guardBits_lt
  · split <;> exact guardBits_lt

variable {target source c : Cap} {flags i : ℕ} {props : CapProperties} {sub : ℕ × ℕ}

/-- **Inversion of the store**: every field of the stored capability. -/
theorem copyStore_spec (h : copyStore target source flags props sub = some c) :
    c.oid = source.oid ∧ c.version = source.version ∧ c.type = copyType source flags ∧
      c.discardable =
        (if copyDiscardableSet flags then props.policy.discardable else source.discardable) ∧
      c.priority =
        (if copyPrioritySet flags then props.policy.priority else source.priority) ∧
      c.addrTrans.guard = (copyGuard target source flags props).1 ∧
      c.addrTrans.guardBits = (copyGuard target source flags props).2 ∧
      c.addrTrans.subpage = sub.1 ∧ c.addrTrans.subpages = sub.2 ∧
      c.addrTrans.subpagesLog2.val ≤ 8 := by
  obtain ⟨word, hword, rfl⟩ := Option.map_eq_some_iff.1 h
  obtain ⟨hg, hb, hp, hn, hl, -, -⟩ :=
    setGuardSubpage_spec (copyGuard_lt target source flags props) hword
  exact ⟨rfl, rfl, rfl, rfl, rfl, hg, hb, hp, hn, hl⟩

theorem copyX_eq_some :
    copyX target source flags props = some c ↔
      ∃ sub, copySubpage source flags props = some sub ∧
        copyStore target source flags props sub = some c :=
  Option.bind_eq_some_iff

/-- A well-formed window in the arithmetic of the narrowing check. -/
theorem windowStart_eq {a : AddrTrans} (h : a.subpagesLog2.val ≤ 8) :
    windowStart a.subpage a.subpages = a.subpageOffset ∧
      windowEnd a.subpage a.subpages = a.subpageOffset + a.subpageSize := by
  have hsize : 256 / a.subpages = a.subpageSize := by
    rw [← subpages_mul_size h]
    exact Nat.mul_div_cancel_left _ (Nat.two_pow_pos _)
  simp only [windowStart, windowEnd, hsize, subpageOffset, Nat.add_mul, Nat.one_mul,
    and_self]

/-- **A copy never widens**: the stored window lies inside the source's. -/
theorem copyStore_window (hsub : copySubpage source flags props = some sub)
    (h : copyStore target source flags props sub = some c) (hi : c.InWindow i) :
    source.InWindow i := by
  obtain ⟨-, -, -, -, -, -, -, hp, hn, hl⟩ := copyStore_spec h
  have hwin : windowStart source.addrTrans.subpage source.addrTrans.subpages ≤
        windowStart c.addrTrans.subpage c.addrTrans.subpages ∧
      windowEnd c.addrTrans.subpage c.addrTrans.subpages ≤
        windowEnd source.addrTrans.subpage source.addrTrans.subpages := by
    rw [hp, hn]
    dsimp only [copySubpage] at hsub
    split at hsub
    · split at hsub
      · simp at hsub
      · split at hsub
        · next hnarrow =>
          obtain rfl := Option.some.inj hsub
          exact hnarrow
        · simp at hsub
    · obtain rfl := Option.some.inj hsub
      exact ⟨le_rfl, le_rfl⟩
  obtain ⟨hcs, hce⟩ := windowStart_eq hl
  have hpos : 0 < c.addrTrans.subpageSize := Nat.two_pow_pos _
  -- a source with more than 256 subpages has an empty window by this arithmetic
  have hlog : source.addrTrans.subpagesLog2.val ≤ 8 := by
    by_contra hgt
    have hzero : 256 / source.addrTrans.subpages = 0 := by
      have h8 : (2 : ℕ) ^ 8 < 2 ^ source.addrTrans.subpagesLog2.val :=
        Nat.pow_lt_pow_right Nat.one_lt_two (by omega)
      exact Nat.div_eq_of_lt h8
    rw [hce, windowEnd, hzero, Nat.mul_zero] at hwin
    omega
  obtain ⟨hss, hse⟩ := windowStart_eq hlog
  rw [hcs, hce, hss, hse] at hwin
  exact ⟨hwin.1.trans hi.1, hi.2.trans_le hwin.2⟩

/-- The window of a capability with one subpage. -/
theorem inWindow_of_subpages_eq_one (h : c.addrTrans.subpages = 1) :
    c.InWindow i ↔ i < 256 := by
  have hlog : c.addrTrans.subpagesLog2.val = 0 := by
    rw [subpages] at h
    simpa using h
  simp [InWindow, subpageOffset, subpage, subpageSize,
    subpageSizeLog2, hlog, Nat.mod_one]

theorem inWindow_congr {a b : Cap} (hp : a.addrTrans.subpage = b.addrTrans.subpage)
    (hn : a.addrTrans.subpages = b.addrTrans.subpages) : a.InWindow i ↔ b.InWindow i := by
  have hlog : a.addrTrans.subpagesLog2.val = b.addrTrans.subpagesLog2.val :=
    Nat.pow_right_injective le_rfl hn
  simp only [InWindow, subpageOffset, subpageSize, subpageSizeLog2,
    hp, hlog]

/-- **Only a cappage's window is narrowed.** -/
theorem copyStore_whole (hsub : copySubpage source flags props = some sub)
    (h : copyStore target source flags props sub = some c) (hcap : source.type ≠ .cappage)
    (hrcap : source.type ≠ .rcappage) (hi : source.InWindow i) : c.InWindow i := by
  obtain ⟨-, -, -, -, -, -, -, hp, hn, -⟩ := copyStore_spec h
  have hwindow := fun {j} => copyStore_window hsub h (i := j)
  dsimp only [copySubpage] at hsub
  split at hsub
  · split at hsub
    · simp at hsub
    · next hone =>
      split at hsub
      · obtain rfl := Option.some.inj hsub
        have hone : c.addrTrans.subpages = 1 :=
          hn.trans (by_contra fun hne => hone ⟨hne, hcap, hrcap⟩)
        -- the copy has all 256 slots, so the source has no others
        have hfirst := hwindow ((inWindow_of_subpages_eq_one hone).2 (show 0 < 256 by decide))
        have hsize : source.addrTrans.subpageSize ≤ 2 ^ 8 :=
          Nat.pow_le_pow_right Nat.zero_lt_two (Nat.sub_le ..)
        rw [inWindow_of_subpages_eq_one hone]
        simp only [InWindow] at hfirst hi
        omega
      · simp at hsub
  · obtain rfl := Option.some.inj hsub
    exact (inWindow_congr hp hn).2 hi

end Cap

end Viengoos
