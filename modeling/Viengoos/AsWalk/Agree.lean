import Viengoos.AsWalk.Leaving

/-!
# Where the two walks agree

A **visit** (`Visits`) is a slot that the recursive walk gets to, with the journal that it has by
then. What it does below the slot is either nothing at all or begins with a call below the address
of the slot (`acts`).

Both recursions are followed at once over the slots that are visited (`compares`). As long as the
loop treats them alike, the journals stay the same. At the first slot where it does not, one journal
gets a call that the other cannot make up for, as all further calls are at other addresses
(`Differ`). So the walks agree exactly where all visited slots are treated alike (`walks_agree`).

They differ in general: the loop leaves the *object* when the callback asks it to leave a slot
(`skip_differs`).
-/

namespace Viengoos

open BitString Outcome Cap Shadow

namespace AsWalk

variable {S : Type} {s : Shadow} {req : Request S} {cs : List ℕ} {a : VgAddr} {p : ShadowPtr}
  {path : Bool}

/-! ### The slots of an object -/

section SlotLoop

variable {body : ℕ → Journal S → Except Fault (Journal S × ℤ)} {i : ℕ} {j : Journal S}

/-- The first slots, and then the others. -/
theorem slotLoop_add (m k : ℕ) : slotLoop body (m + k) i j =
    slotLoop body m i j >>= fun r => if r.2 ≠ 0 then .ok r else slotLoop body k (i + m) r.1 := by
  induction m generalizing i j with
  | zero => simp [slotLoop]
  | succ m ih =>
    rw [Nat.succ_add, slotLoop, slotLoop]
    cases hb : body i j with
    | error e => rfl
    | ok r =>
      simp only [ok_bind]
      split
      · next hr => simp [hr]
      · rw [ih, Nat.add_right_comm, Nat.add_assoc]

/-- A body that returns more often. -/
theorem slotLoop_mono {body' : ℕ → Journal S → Except Fault (Journal S × ℤ)}
    (hbody : ∀ i j r, body i j = .ok r → body' i j = .ok r) (k : ℕ) {r : Journal S × ℤ}
    (h : slotLoop body k i j = .ok r) : slotLoop body' k i j = .ok r := by
  induction k generalizing i j with
  | zero => exact h
  | succ k ih =>
    rw [slotLoop] at h ⊢
    obtain ⟨⟨j₁, r₁⟩, hr₁, h⟩ := bind_eq_ok.1 h
    refine bind_eq_ok.2 ⟨(j₁, r₁), hbody i j _ hr₁, ?_⟩
    by_cases hne : r₁ ≠ 0
    · simpa only [if_pos hne] using h
    · simp only [if_neg hne] at h ⊢
      exact ih h

end SlotLoop

theorem walkInto_mono {walk walk' : ℕ → VgAddr → Bool → Journal S → Except Fault (Journal S × ℤ)}
    (hwalk : ∀ i a w j r, walk i a w j = .ok r → walk' i a w j = .ok r) {c : Cap} {j : Journal S}
    {r : Journal S × ℤ} (h : walkInto walk c a path j = .ok r) :
    walkInto walk' c a path j = .ok r := by
  rw [walkInto] at h ⊢
  split at h
  · next hdeep => rwa [if_pos hdeep]
  · next hdeep =>
    rw [if_neg hdeep]
    obtain ⟨a₁, ha₁, h⟩ := bind_eq_ok.1 h
    refine bind_eq_ok.2 ⟨a₁, ha₁, ?_⟩
    cases hw : tableWidth c.type c.addrTrans with
    | none => simpa only [hw] using h
    | some w =>
      simp only [hw] at h ⊢
      split at h
      · next hwide => rwa [if_pos hwide]
      · next hwide =>
        rw [if_neg hwide]
        obtain ⟨u, hu, h⟩ := bind_eq_ok.1 h
        refine bind_eq_ok.2 ⟨u, hu, slotLoop_mono (fun i j r hbody => ?_) _ h⟩
        obtain ⟨a₂, ha₂, hbody⟩ := bind_eq_ok.1 hbody
        exact bind_eq_ok.2 ⟨a₂, ha₂, hwalk _ _ _ _ _ hbody⟩

/-- **More fuel changes nothing** once `do_walk` returns. -/
theorem doWalk_mono {n m : ℕ} {j : Journal S} {r : Journal S × ℤ} (hle : n ≤ m)
    (h : doWalk s req n p a path j = .ok r) : doWalk s req m p a path j = .ok r := by
  induction n generalizing m p a path j r with
  | zero => cases h
  | succ n ih =>
    obtain ⟨m, rfl⟩ : ∃ m', m = m' + 1 := ⟨m - 1, by omega⟩
    rw [doWalk] at h ⊢
    rcases hc : req.consider ⟨a, (s.read p).type, (s.read p).properties, path⟩ j with ⟨j₀, r₀⟩
    simp only [hc] at h ⊢
    by_cases hleave : r₀ = -1
    · simpa only [hleave, if_true] using h
    · by_cases hr : r₀ ≠ 0
      · simpa only [if_neg hleave, if_pos hr] using h
      · simp only [if_neg hleave, if_neg hr] at h ⊢
        exact walkInto_mono (fun i a w j r hrun => ih (by omega) hrun) h

/-- Addresses that are extended in different ways. -/
def Apart (a b : VgAddr) : Prop := ∀ x, a.bits <+: x → ¬b.bits <+: x

/-- The addresses `f` of the slots of an object that a walk goes into. -/
structure Slots (s : Shadow) (req : Request S) (cs : List ℕ) (a : VgAddr) (p : ShadowPtr)
    (path : Bool) (w : ℕ) (f : ℕ → VgAddr) : Prop where
  place : ∀ i < 2 ^ w, Place s req (i :: cs) (f i) (.slot (s.read p).oid i)
    (path && (s.read p).type != .rcappage)
  below : ∀ i < 2 ^ w, a.bits <+: (f i).bits
  longer : ∀ i < 2 ^ w, a.bits.length < (f i).bits.length
  apart : ∀ i < 2 ^ w, ∀ i' < 2 ^ w, i ≠ i' → Apart (f i) (f i')

theorem Into.slots {w : ℕ} {a₁ : VgAddr} (hin : Into s req a p w) (hwf : WellFormed s req)
    (hu : Uniform s req) (h : Place s req cs a p path)
    (hg : a.extend (s.read p).addrTrans.guard (s.read p).addrTrans.guardBits = .ok a₁) :
    ∃ f, (∀ i < 2 ^ w, a₁.extend i w = .ok (f i)) ∧ Slots s req cs a p path w f := by
  obtain ⟨hne, -⟩ := h.walks hwf hu
  obtain ⟨hbase, hpos⟩ := hu.window h hin
  have hfit := hin.fits
  obtain ⟨hne₁, hbits₁, hdepth₁⟩ := VgAddr.bits_of_extend hne (by omega) (hwf.guard h) hg
  have hex : ∀ i, ∃ a₂, i < 2 ^ w → a₁.extend i w = .ok a₂ ∧ a₂.bits = a₁.bits ++ bits w i := by
    intro i
    by_cases hi : i < 2 ^ w
    · obtain ⟨a₂, hx, -, hbits⟩ := VgAddr.exists_extend hne₁ (by omega) hi
      exact ⟨a₂, fun _ => ⟨hx, hbits⟩⟩
    · exact ⟨a, fun hlt => absurd hlt hi⟩
  choose f hf using hex
  refine ⟨f, fun i hi => (hf i hi).1, fun i hi => ?_, fun i hi => ?_, fun i hi => ?_,
    fun i hi i' hi' hne' x => ?_⟩
  · have := Place.slot h hin hg hi (hf i hi).1
    rwa [hbase, Nat.zero_add] at this
  · rw [(hf i hi).2, hbits₁, List.append_assoc]
    exact List.prefix_append ..
  · rw [(hf i hi).2, hbits₁]
    simp only [List.length_append, length_bits]
    omega
  · rw [(hf i hi).2, (hf i' hi').2]
    rintro ⟨t, rfl⟩ ⟨t', heq⟩
    have hbits := List.append_inj_left heq (by simp)
    exact hne' (bits_injective hi hi' (List.append_cancel_left hbits).symm)

/-- **What is below a slot**: nothing, or the slots of an object. -/
theorem Place.walkInto_cases (h : Place s req cs a p path) (hwf : WellFormed s req)
    (hu : Uniform s req) (henters : req.Enters a (s.read p)) :
    ((∀ w, ¬Into s req a p w) ∧ ∀ walk path (j : Journal S),
      walkInto walk (s.read p) a path j = .ok (j, 0)) ∨
    ∃ w a₁ f, Into s req a p w ∧
      a.extend (s.read p).addrTrans.guard (s.read p).addrTrans.guardBits = .ok a₁ ∧
      (∀ i < 2 ^ w, a₁.extend i w = .ok (f i)) ∧ Slots s req cs a p path w f ∧
      ∀ walk path (j : Journal S), walkInto walk (s.read p) a path j =
        slotLoop (fun i j => do
          let a ← a₁.extend i w
          walk i a (path && (s.read p).type != .rcappage) j) (2 ^ w) 0 j := by
  obtain ⟨hne, -⟩ := h.walks hwf hu
  by_cases hdeep : vgAddrBits < a.depth + (s.read p).addrTrans.guardBits
  · refine .inl ⟨fun w hin => ?_, fun walk path j => by simp [walkInto, hdeep]⟩
    have := hin.fits
    omega
  obtain ⟨a₁, hg, -⟩ := VgAddr.exists_extend hne (by omega) (hwf.guard h)
  obtain ⟨-, -, hdepth₁⟩ := VgAddr.bits_of_extend hne (by omega) (hwf.guard h) hg
  cases hw : tableWidth (s.read p).type (s.read p).addrTrans with
  | none =>
    refine .inl ⟨fun w hin => ?_, fun walk path j => by simp [walkInto, hdeep, hg, hw]⟩
    simpa [hw] using hin.width
  | some w =>
    by_cases hwide : vgAddrBits < a₁.depth + w
    · refine .inl ⟨fun w' hin => ?_, fun walk path j => by simp [walkInto, hdeep, hg, hw, hwide]⟩
      have := hin.fits
      obtain rfl := Option.some.inj (hw.symm.trans hin.width)
      omega
    · have hin : Into s req a p w := ⟨henters, hw, by omega⟩
      obtain ⟨f, hf, hslots⟩ := hin.slots hwf hu h hg
      refine .inr ⟨w, a₁, f, hin, hg, hf, hslots, fun walk path j => ?_⟩
      simp only [walkInto, if_neg hdeep, hg, ok_bind, hw, if_neg hwide,
        require_of (hwf.object h hin.type_ne_void)]

/-! ### Where the recursive walk gets to -/

/-- A call of `do_walk`, with the writability that the loop would report. -/
structure Stop (S : Type) where
  addr : VgAddr
  ptr : ShadowPtr
  here : Bool
  path : Bool
  journal : Journal S

/-- What the callback is called with. -/
def Stop.visit (s : Shadow) (x : Stop S) : Visit :=
  ⟨x.addr, (s.read x.ptr).type, (s.read x.ptr).properties, x.path⟩

/-- The walk of a slot of an object. -/
def walkSlot (s : Shadow) (req : Request S) (n : ℕ) (c : Cap) (a₁ : VgAddr) (path : Bool) (w i : ℕ)
    (j : Journal S) : Except Fault (Journal S × ℤ) := do
  let a ← a₁.extend i w
  doWalk s req n (.slot c.oid i) a (path && c.type != .rcappage) j

/-- **The recursive walk gets to the slot** at `cs`: it goes below the slot above, and through the
slots before it. -/
inductive Visits (s : Shadow) (req : Request S) (cookie : S) : List ℕ → Stop S → Prop
  | root : Visits s req cookie [] ⟨rootAddr, .root, true, true, ⟨cookie, []⟩⟩
  | slot {cs : List ℕ} {x : Stop S} {a₁ a₂ : VgAddr} {w i : ℕ} {j j' : Journal S} :
      Visits s req cookie cs x → req.consider (x.visit s) x.journal = (j, 0) →
      tableWidth (s.read x.ptr).type (s.read x.ptr).addrTrans = some w →
      x.addr.depth + (s.read x.ptr).addrTrans.guardBits + w ≤ vgAddrBits →
      x.addr.extend (s.read x.ptr).addrTrans.guard (s.read x.ptr).addrTrans.guardBits = .ok a₁ →
      i < 2 ^ w → a₁.extend i w = .ok a₂ →
      slotLoop (walkSlot s req (vgAddrBits - cs.length) (s.read x.ptr) a₁ x.path w) i 0 j =
        .ok (j', 0) →
      Visits s req cookie (i :: cs) ⟨a₂, .slot (s.read x.ptr).oid i,
        if i = 0 then x.here else x.path && (s.read x.ptr).type != .rcappage,
        x.path && (s.read x.ptr).type != .rcappage, j'⟩

section Visits

variable {cookie : S} {x y : Stop S}

theorem Visits.unique (hx : Visits s req cookie cs x) (hy : Visits s req cookie cs y) : x = y := by
  induction hx generalizing y with
  | root =>
    cases hy
    rfl
  | slot _ hc hw _ hg _ hx hl ih =>
    cases hy with
    | slot hy hc' hw' _ hg' _ hx' hl' =>
      obtain rfl := ih hy
      obtain rfl := Option.some.inj (hw.symm.trans hw')
      obtain rfl := Except.ok.inj (hg.symm.trans hg')
      obtain rfl := Except.ok.inj (hx.symm.trans hx')
      obtain ⟨rfl, -⟩ := Prod.mk.inj (hc.symm.trans hc')
      obtain ⟨rfl, -⟩ := Prod.mk.inj (Except.ok.inj (hl.symm.trans hl'))
      rfl

theorem Visits.place (hu : Uniform s req) (h : Visits s req cookie cs x) :
    Place s req cs x.addr x.ptr x.path := by
  induction h with
  | root => exact .root
  | slot _ hc hw hfit hg hi hx _ ih =>
    have hin : Into s req _ _ _ := ⟨⟨_, _, by rw [← Stop.visit, hc]⟩, hw, hfit⟩
    have := Place.slot ih hin hg hi hx
    rwa [(hu.window ih hin).1, Nat.zero_add] at this

/-- It gets to the slots above. -/
theorem Visits.above {pre : List ℕ} (h : Visits s req cookie (pre ++ cs) x) :
    ∃ y, Visits s req cookie cs y := by
  induction pre generalizing x with
  | nil => exact ⟨x, h⟩
  | cons i pre ih =>
    cases h with
    | slot h => exact ih h

theorem Request.consider_of_wanted {v : Visit} {j j' : Journal S} {r : ℤ}
    (hwant : req.types.getLsbD v.type.code = true) (hc : req.consider v j = (j', r)) :
    j'.calls = j.calls ++ [v] ∧ r = (req.visit j.cookie v).2 := by
  rw [consider, if_pos hwant] at hc
  obtain ⟨rfl, rfl⟩ := Prod.mk.inj hc
  exact ⟨rfl, rfl⟩

theorem Request.consider_of_not_wanted {v : Visit} {j j' : Journal S} {r : ℤ}
    (hwant : req.types.getLsbD v.type.code = false) (hc : req.consider v j = (j', r)) :
    j = j' ∧ 0 = r := by
  rw [consider, if_neg (by simp [hwant])] at hc
  exact Prod.mk.inj hc

/-- The recursive walk gets to the slot at `cs`, and calls the callback. -/
def Wanted (s : Shadow) (req : Request S) (cookie : S) (cs : List ℕ) : Prop :=
  ∃ x, Visits s req cookie cs x ∧ req.types.getLsbD (s.read x.ptr).type.code = true

/-- A walk that makes calls, the first of which is below an address. -/
def CallsBelow (a : VgAddr) (j j' : Journal S) : Prop :=
  ∃ v rest, j'.calls = j.calls ++ v :: rest ∧ a.bits <+: v.addr.bits

theorem CallsBelow.append {j j₁ j' : Journal S} {rest : List Visit} (h : CallsBelow a j j₁)
    (hj : j'.calls = j₁.calls ++ rest) : CallsBelow a j j' := by
  obtain ⟨v, rest', heq, hv⟩ := h
  exact ⟨v, rest' ++ rest, by simp [hj, heq], hv⟩

/-- **What `do_walk` does below a slot**: nothing, where no slot is wanted, and otherwise calls. -/
def Acts (s : Shadow) (req : Request S) (cookie : S) (n : ℕ) : Prop :=
  ∀ cs x, Visits s req cookie cs x → n + cs.length = vgAddrBits + 1 →
    ∃ j r, doWalk s req n x.ptr x.addr x.path x.journal = .ok (j, r) ∧ r ≠ -1 ∧
      (req.types.getLsbD (s.read x.ptr).type.code = true →
        x.journal.calls ++ [x.visit s] <+: j.calls) ∧
      (j = x.journal ∧ r = 0 ∧ (∀ pre, ¬Wanted s req cookie (pre ++ cs)) ∨
        CallsBelow x.addr x.journal j ∧ ∃ pre, Wanted s req cookie (pre ++ cs))

section Object

variable {n w : ℕ} {a₁ : VgAddr} {f : ℕ → VgAddr} {j₀ : Journal S} (hx : Visits s req cookie cs x)
  (hn : n + 1 + cs.length = vgAddrBits + 1)
  (hc : req.consider (x.visit s) x.journal = (j₀, 0)) (hin : Into s req x.addr x.ptr w)
  (hg : x.addr.extend (s.read x.ptr).addrTrans.guard (s.read x.ptr).addrTrans.guardBits = .ok a₁)
  (hf : ∀ i < 2 ^ w, a₁.extend i w = .ok (f i))

include hx hin in
/-- The walk gets to the slots of the object only. -/
theorem lt_of_visits {i : ℕ} {y : Stop S} (hy : Visits s req cookie (i :: cs) y) : i < 2 ^ w := by
  cases hy with
  | slot hx' _ hw _ _ hi =>
    obtain rfl := hx.unique hx'
    obtain rfl := Option.some.inj (hin.width.symm.trans hw)
    exact hi

include hx hn hc hin hg

/-- Getting to a slot of the object. -/
theorem visits_iff {i : ℕ} {y : Stop S} (hi : i < 2 ^ w) :
    Visits s req cookie (i :: cs) y ↔
      slotLoop (walkSlot s req n (s.read x.ptr) a₁ x.path w) i 0 j₀ = .ok (y.journal, 0) ∧
      a₁.extend i w = .ok y.addr ∧ y.ptr = .slot (s.read x.ptr).oid i ∧
      y.here = (if i = 0 then x.here else x.path && (s.read x.ptr).type != .rcappage) ∧
      y.path = (x.path && (s.read x.ptr).type != .rcappage) := by
  obtain rfl : n = vgAddrBits - cs.length := by omega
  constructor
  · intro hy
    cases hy with
    | slot hx' hc' hw hfit hg' hi hax hl =>
      obtain rfl := hx.unique hx'
      obtain ⟨rfl, -⟩ := Prod.mk.inj (hc.symm.trans hc')
      obtain rfl := Except.ok.inj (hg.symm.trans hg')
      obtain rfl := Option.some.inj (hin.width.symm.trans hw)
      exact ⟨hl, hax, rfl, rfl, rfl⟩
  · obtain ⟨addr, ptr, here, path, j⟩ := y
    rintro ⟨hl, hax, rfl, rfl, rfl⟩
    exact .slot hx hc hin.width hin.fits hg hi hax hl

include hf

/-- The walk of a slot that it gets to, and getting to the next one. -/
theorem exists_visits {i : ℕ} {j : Journal S} (hi : i < 2 ^ w)
    (hl : slotLoop (walkSlot s req n (s.read x.ptr) a₁ x.path w) i 0 j₀ = .ok (j, 0)) :
    ∃ y, Visits s req cookie (i :: cs) y ∧ y.addr = f i ∧ y.journal = j ∧
      y.here = (if i = 0 then x.here else y.path) ∧
      y.path = (x.path && (s.read x.ptr).type != .rcappage) ∧ y.ptr = .slot (s.read x.ptr).oid i ∧
      walkSlot s req n (s.read x.ptr) a₁ x.path w i j =
        doWalk s req n y.ptr y.addr y.path y.journal := by
  refine ⟨⟨f i, .slot (s.read x.ptr).oid i,
    if i = 0 then x.here else x.path && (s.read x.ptr).type != .rcappage,
    x.path && (s.read x.ptr).type != .rcappage, j⟩,
    (visits_iff hx hn hc hin hg hi).2 ⟨hl, hf i hi, rfl, rfl, rfl⟩, rfl, rfl, rfl, rfl, rfl, ?_⟩
  rw [walkSlot, hf i hi]
  rfl

/-- **The slots of an object**, from slot `i` on. -/
theorem slots_act (ih : Acts s req cookie n) :
    ∀ k i j, i + k = 2 ^ w →
      slotLoop (walkSlot s req n (s.read x.ptr) a₁ x.path w) i 0 j₀ = .ok (j, 0) →
      ∃ j' r, slotLoop (walkSlot s req n (s.read x.ptr) a₁ x.path w) k i j = .ok (j', r) ∧ r ≠ -1 ∧
        (j' = j ∧ r = 0 ∧ (∀ i' ≥ i, ∀ pre, ¬Wanted s req cookie (pre ++ i' :: cs)) ∨
          (∃ i' < 2 ^ w, i ≤ i' ∧ CallsBelow (f i') j j') ∧
            ∃ i' ≥ i, ∃ pre, Wanted s req cookie (pre ++ i' :: cs)) := by
  intro k
  induction k with
  | zero =>
    intro i j hik _
    refine ⟨j, 0, rfl, by decide, .inl ⟨rfl, rfl, ?_⟩⟩
    rintro i' hi' pre ⟨y, hy, -⟩
    obtain ⟨z, hz⟩ := hy.above
    have := lt_of_visits hx hin hz
    omega
  | succ k ihk =>
    intro i j hik hl
    have hi : i < 2 ^ w := by omega
    obtain ⟨y, hy, haddr, hj, -, -, -, hwalk⟩ := exists_visits hx hn hc hin hg hf hi hl
    obtain ⟨j₁, r₁, hrun, hne, -, hact⟩ := ih _ y hy (by simp only [List.length_cons]; omega)
    rw [hrun] at hwalk
    rw [slotLoop, hwalk, ok_bind]
    by_cases hr : r₁ = 0
    · subst hr
      have hl' : slotLoop (walkSlot s req n (s.read x.ptr) a₁ x.path w) (i + 1) 0 j₀ =
          .ok (j₁, 0) := by
        rw [slotLoop_add, hl, ok_bind]
        simp [slotLoop, hwalk]
      obtain ⟨j', r, hloop, hne, hrest⟩ := ihk (i + 1) j₁ (by omega) hl'
      refine ⟨j', r, by simpa using hloop, hne, ?_⟩
      rw [haddr, hj] at hact
      rcases hact with ⟨rfl, -, hnone⟩ | ⟨hcall, pre, hwant⟩
      · rcases hrest with ⟨rfl, rfl, hnone'⟩ | ⟨⟨i', hi', hle, hcall⟩, i'', hle', pre, hwant⟩
        · refine .inl ⟨rfl, rfl, fun i' hle => ?_⟩
          rcases hle.eq_or_lt with rfl | hlt
          · exact hnone
          · exact hnone' i' hlt
        · exact .inr ⟨⟨i', hi', by omega, hcall⟩, i'', by omega, pre, hwant⟩
      · refine .inr ⟨⟨i, hi, le_rfl, ?_⟩, i, le_rfl, pre, hwant⟩
        rcases hrest with ⟨rfl, -, -⟩ | ⟨⟨-, -, -, v, rest, heq, -⟩, -⟩
        · exact hcall
        · exact hcall.append heq
    · rcases hact with ⟨-, hzero, -⟩ | ⟨hcall, pre, hwant⟩
      · exact absurd hzero hr
      · refine ⟨j₁, r₁, by simp [hr], hne, .inr ⟨⟨i, hi, le_rfl, ?_⟩, i, le_rfl, pre, hwant⟩⟩
        rwa [haddr, hj] at hcall

end Object

/-- It does not get below a slot that the callback stops it at, or that has nothing below. -/
theorem Visits.not_below {i : ℕ} (hx : Visits s req cookie cs x)
    (h : (req.consider (x.visit s) x.journal).2 ≠ 0 ∨ ∀ w, ¬Into s req x.addr x.ptr w) :
    ¬Visits s req cookie (i :: cs) y := by
  intro hy
  cases hy with
  | slot hx' hc hw hfit =>
    obtain rfl := hx.unique hx'
    rcases h with hne | hno
    · exact hne (by rw [hc])
    · exact hno _ ⟨⟨_, _, by rw [← Stop.visit, hc]⟩, hw, hfit⟩

/-- The places below one. -/
theorem eq_nil_or_append (pre : List ℕ) : pre = [] ∨ ∃ pre' i, pre = pre' ++ [i] := by
  rcases pre.eq_nil_or_concat with h | ⟨pre', i, h⟩
  · exact .inl h
  · exact .inr ⟨pre', i, by simpa using h⟩

theorem doWalk_of_consider {n : ℕ} {j : Journal S} {r : ℤ}
    (hc : req.consider (x.visit s) x.journal = (j, r)) :
    doWalk s req (n + 1) x.ptr x.addr x.path x.journal =
      if r = -1 then .ok (j, 0) else if r ≠ 0 then .ok (j, r)
      else walkInto (fun i a w j => doWalk s req n (.slot (s.read x.ptr).oid i) a w j)
        (s.read x.ptr) x.addr x.path j := by
  rw [doWalk]
  simp only [Stop.visit] at hc
  simp only [hc]

theorem acts (hwf : WellFormed s req) (hu : Uniform s req) : ∀ n, Acts s req cookie n := by
  intro n
  induction n with
  | zero =>
    intro cs x hx hn
    obtain ⟨-, hlen, hle, -⟩ := (hx.place hu).walks hwf hu
    omega
  | succ n ih =>
    intro cs x hx hn
    have hpl := hx.place hu
    rcases hc : req.consider (x.visit s) x.journal with ⟨j₀, r₀⟩
    have hdo : doWalk s req (n + 1) x.ptr x.addr x.path x.journal =
        if r₀ = -1 then .ok (j₀, 0) else if r₀ ≠ 0 then .ok (j₀, r₀)
        else walkInto (fun i a w j => doWalk s req n (.slot (s.read x.ptr).oid i) a w j)
          (s.read x.ptr) x.addr x.path j₀ := doWalk_of_consider hc
    cases hwant : req.types.getLsbD (s.read x.ptr).type.code with
    | true =>
      -- the callback is called for the slot itself
      have hcalls : j₀.calls = x.journal.calls ++ [x.visit s] := (req.consider_of_wanted hwant hc).1
      have hcall : CallsBelow x.addr x.journal j₀ := ⟨x.visit s, [], hcalls, List.prefix_rfl⟩
      have hself : ∃ pre, Wanted s req cookie (pre ++ cs) := ⟨[], x, hx, hwant⟩
      by_cases hr : r₀ = 0
      · subst hr
        rcases hpl.walkInto_cases hwf hu ⟨_, _, by rw [← Stop.visit, hc]⟩ with
          ⟨-, hnone⟩ | ⟨w, a₁, f, hin, hg, hf, -, hsome⟩
        · exact ⟨j₀, 0, by simp [hdo, hnone], by decide, by simp [hcalls], .inr ⟨hcall, hself⟩⟩
        · obtain ⟨j', r, hloop, hne, hact⟩ := slots_act hx hn hc hin hg hf ih (2 ^ w) 0 j₀
            (Nat.zero_add _) rfl
          refine ⟨j', r, by rw [hdo, if_neg (by decide), if_neg (by simp), hsome]; exact hloop,
            hne, ?_⟩
          rcases hact with ⟨rfl, -, -⟩ | ⟨⟨-, -, -, v, rest, heq, -⟩, -⟩
          · exact ⟨by simp [hcalls], .inr ⟨hcall, hself⟩⟩
          · exact ⟨by simp [heq, hcalls], .inr ⟨hcall.append heq, hself⟩⟩
      · by_cases hleave : r₀ = -1
        · exact ⟨j₀, 0, by simp [hdo, hleave], by decide, by simp [hcalls], .inr ⟨hcall, hself⟩⟩
        · exact ⟨j₀, r₀, by simp [hdo, hleave, hr], hleave, by simp [hcalls], .inr ⟨hcall, hself⟩⟩
    | false =>
      obtain ⟨rfl, rfl⟩ := req.consider_of_not_wanted hwant hc
      have hself : ¬Wanted s req cookie cs := by
        rintro ⟨y, hy, hwant'⟩
        rw [hx.unique hy, hwant'] at hwant
        exact Bool.false_ne_true hwant.symm
      rcases hpl.walkInto_cases hwf hu ⟨_, _, by rw [← Stop.visit, hc]⟩ with
        ⟨hno, hnone⟩ | ⟨w, a₁, f, hin, hg, hf, hslots, hsome⟩
      · refine ⟨x.journal, 0, by simp [hdo, hnone], by decide, by simp,
          .inl ⟨rfl, rfl, fun pre => ?_⟩⟩
        rcases eq_nil_or_append pre with rfl | ⟨pre', i, rfl⟩
        · exact hself
        · rintro ⟨y, hy, -⟩
          rw [List.append_assoc] at hy
          obtain ⟨z, hz⟩ := hy.above
          exact hx.not_below (.inr hno) hz
      · obtain ⟨j', r, hloop, hne, hact⟩ := slots_act hx hn hc hin hg hf ih (2 ^ w) 0 x.journal
          (Nat.zero_add _) rfl
        refine ⟨j', r, by rw [hdo, if_neg (by decide), if_neg (by simp), hsome]; exact hloop,
          hne, by simp, ?_⟩
        rcases hact with ⟨rfl, rfl, hnone⟩ | ⟨⟨i, hi, -, v, rest, heq, hv⟩, i', -, pre, hwant'⟩
        · refine .inl ⟨rfl, rfl, fun pre => ?_⟩
          rcases eq_nil_or_append pre with rfl | ⟨pre', i, rfl⟩
          · exact hself
          · rw [List.append_assoc]
            exact hnone i (Nat.zero_le _) pre'
        · refine .inr ⟨⟨v, rest, heq, (hslots.below i hi).trans hv⟩, pre ++ [i'], ?_⟩
          rwa [List.append_assoc]

end Visits

/-! ### The two recursions -/

section Compare

variable {cookie : S} {x y : Stop S} {n w : ℕ} {a₁ : VgAddr} {f : ℕ → VgAddr}

/-- The walk of a slot of an object by the loop. -/
def leaveSlot (s : Shadow) (req : Request S) (n : ℕ) (c : Cap) (a₁ : VgAddr) (here path : Bool)
    (w i : ℕ) (j : Journal S) : Except Fault (Journal S × ℤ) := do
  let a ← a₁.extend i w
  leaveWalk s req n (.slot c.oid i) a
    (if i = 0 then here else path && c.type != .rcappage) (path && c.type != .rcappage) j

/-- What the loop does with the slots of one depth. -/
def Grows (s : Shadow) (req : Request S) (n : ℕ) : Prop :=
  ∀ cs a p path, Place s req cs a p path → n + cs.length = vgAddrBits + 1 → ∀ here j, ∃ j' r,
    leaveWalk s req n p a here path j = .ok (j', r) ∧ ∃ rest, j'.calls = j.calls ++ rest ∧
      ∀ v ∈ rest, a.bits <+: v.addr.bits ∧ (v.addr = a → v.writable = here)

theorem slots_grow (ih : Grows s req n) (hn : n + 1 + cs.length = vgAddrBits + 1)
    (hf : ∀ i < 2 ^ w, a₁.extend i w = .ok (f i)) (hslots : Slots s req cs a p path w f)
    (here : Bool) : ∀ k i (j : Journal S), i + k = 2 ^ w → ∃ j' r,
      slotLoop (leaveSlot s req n (s.read p) a₁ here path w) k i j = .ok (j', r) ∧
        ∃ rest, j'.calls = j.calls ++ rest ∧
          ∀ v ∈ rest, ∃ i' < 2 ^ w, i ≤ i' ∧ (f i').bits <+: v.addr.bits := by
  intro k
  induction k with
  | zero => exact fun i j _ => ⟨j, 0, rfl, [], by simp, by simp⟩
  | succ k ihk =>
    intro i j hik
    have hi : i < 2 ^ w := by omega
    obtain ⟨j₁, r₁, hrun, rest, heq, hrest⟩ := ih _ _ _ _ (hslots.place i hi)
      (by simp only [List.length_cons]; omega)
      (if i = 0 then here else path && (s.read p).type != .rcappage) j
    have hslot : leaveSlot s req n (s.read p) a₁ here path w i j = .ok (j₁, r₁) := by
      rw [leaveSlot, hf i hi, ok_bind, hrun]
    rw [slotLoop, hslot, ok_bind]
    by_cases hr : r₁ = 0
    · obtain ⟨j', r, hloop, rest', heq', hrest'⟩ := ihk (i + 1) j₁ (by omega)
      refine ⟨j', r, by simpa [hr] using hloop, rest ++ rest', by simp [heq', heq], fun v hv => ?_⟩
      rcases List.mem_append.1 hv with hv | hv
      · exact ⟨i, hi, le_rfl, (hrest v hv).1⟩
      · obtain ⟨i', hi', hle, hpre⟩ := hrest' v hv
        exact ⟨i', hi', by omega, hpre⟩
    · exact ⟨j₁, r₁, by simp [hr], rest, heq, fun v hv => ⟨i, hi, le_rfl, (hrest v hv).1⟩⟩

theorem grows (hwf : WellFormed s req) (hu : Uniform s req) : ∀ n, Grows s req n := by
  intro n
  induction n with
  | zero =>
    intro cs a p path h hn
    obtain ⟨-, hlen, hle, -⟩ := h.walks hwf hu
    omega
  | succ n ih =>
    intro cs a p path h hn here j
    rcases hc : req.consider ⟨a, (s.read p).type, (s.read p).properties, here⟩ j with ⟨j₀, r₀⟩
    have hself : ∃ rest, j₀.calls = j.calls ++ rest ∧
        ∀ v ∈ rest, a.bits <+: v.addr.bits ∧ (v.addr = a → v.writable = here) := by
      cases hwant : req.types.getLsbD (s.read p).type.code with
      | true => exact ⟨_, (req.consider_of_wanted hwant hc).1, by simp⟩
      | false =>
        obtain ⟨rfl, -⟩ := req.consider_of_not_wanted hwant hc
        exact ⟨[], by simp, by simp⟩
    rw [leaveWalk]
    simp only [hc]
    by_cases hr : r₀ = 0
    · rcases h.walkInto_cases hwf hu ⟨_, _, by rw [hc]; exact hr⟩ with
        ⟨-, hnone⟩ | ⟨w, a₁, f, -, -, hf, hslots, hsome⟩
      · exact ⟨j₀, 0, by simp [hr, hnone], hself⟩
      · obtain ⟨j', r, hloop, rest, heq, hrest⟩ := slots_grow ih hn hf hslots here (2 ^ w) 0 j₀
          (Nat.zero_add _)
        obtain ⟨rest₀, heq₀, hrest₀⟩ := hself
        refine ⟨j', if r = -1 then 0 else r, ?_, rest₀ ++ rest, by simp [heq, heq₀], fun v hv => ?_⟩
        · rw [if_neg (by simp [hr]), hsome]
          exact bind_eq_ok.2 ⟨_, hloop, rfl⟩
        · rcases List.mem_append.1 hv with hv | hv
          · exact hrest₀ v hv
          · obtain ⟨i, hi, -, hpre⟩ := hrest v hv
            refine ⟨(hslots.below i hi).trans hpre, fun heq => ?_⟩
            have := hslots.longer i hi
            have := heq ▸ hpre.length_le
            omega
    · exact ⟨j₀, r₀, by simp [hr], hself⟩

/-- The recursive walk gets to no slot behind the one at `cs` in its object that is wanted. -/
def NoneBehind (s : Shadow) (req : Request S) (cookie : S) (cs : List ℕ) : Prop :=
  ∃ i cs', cs = i :: cs' ∧ ∀ i' > i, ∀ pre, ¬Wanted s req cookie (pre ++ i' :: cs')

/-- The callback is called for the slot, and asks to leave. -/
def Leaves (s : Shadow) (req : Request S) (x : Stop S) : Prop :=
  req.types.getLsbD (s.read x.ptr).type.code = true ∧
    (req.visit x.journal.cookie (x.visit s)).2 = -1

/-- The loop treats the slot at `cs` like the recursive walk: it reports the same writability, and
there is nothing to leave out in the object when the callback asks to leave. -/
def Alike (s : Shadow) (req : Request S) (cookie : S) (cs : List ℕ) : Prop :=
  ∀ x, Visits s req cookie cs x → req.types.getLsbD (s.read x.ptr).type.code = true →
    x.here = x.path ∧ (Leaves s req x → NoneBehind s req cookie cs)

/-- Journals that differ in a call below an address. -/
def Differ (a : VgAddr) (j₁ j₂ : Journal S) : Prop :=
  ∃ before v rest, before ++ [v] <+: j₁.calls ∧ j₂.calls = before ++ rest ∧ v ∉ rest ∧
    a.bits <+: v.addr.bits

theorem Differ.ne {j₁ j₂ : Journal S} (h : Differ a j₁ j₂) : j₁ ≠ j₂ := by
  rintro rfl
  obtain ⟨before, v, rest, ⟨t, ht⟩, heq, hv, -⟩ := h
  rw [heq, List.append_assoc] at ht
  exact hv (by simp [← List.append_cancel_left ht])

/-- More calls do not make up for it, if those of the second walk are elsewhere. -/
theorem Differ.append {j₁ j₂ j₁' j₂' : Journal S} {rest : List Visit} (h : Differ a j₁ j₂)
    (h₁ : j₁.calls <+: j₁'.calls) (h₂ : j₂'.calls = j₂.calls ++ rest)
    (hrest : ∀ u ∈ rest, ¬a.bits <+: u.addr.bits) : Differ a j₁' j₂' := by
  obtain ⟨before, v, rest', hpre, heq, hv, ha⟩ := h
  refine ⟨before, v, rest' ++ rest, hpre.trans h₁, by simp [h₂, heq], fun hmem => ?_, ha⟩
  rcases List.mem_append.1 hmem with hmem | hmem
  · exact hv hmem
  · exact hrest v hmem ha

theorem Differ.above {a' : VgAddr} {j₁ j₂ : Journal S} (h : Differ a' j₁ j₂)
    (ha : a.bits <+: a'.bits) : Differ a j₁ j₂ := by
  obtain ⟨before, v, rest, hpre, heq, hv, ha'⟩ := h
  exact ⟨before, v, rest, hpre, heq, hv, ha.trans ha'⟩

/-- **The two recursions at a slot** that the first gets to: they differ, and then some slot below
is not treated alike, or they do the same, and then all below are. -/
def Compares (s : Shadow) (req : Request S) (cookie : S) (n : ℕ) : Prop :=
  ∀ cs x, Visits s req cookie cs x → n + cs.length = vgAddrBits + 1 → ∃ j₁ r₁ j₂ r₂,
    doWalk s req n x.ptr x.addr x.path x.journal = .ok (j₁, r₁) ∧
    leaveWalk s req n x.ptr x.addr x.here x.path x.journal = .ok (j₂, r₂) ∧
    ((Differ x.addr j₁ j₂ ∧ ∃ pre, ¬Alike s req cookie (pre ++ cs)) ∨
      j₂ = j₁ ∧ (r₂ = -1 ∧ r₁ = 0 ∧ Leaves s req x ∨ r₂ = r₁ ∧ ¬Leaves s req x) ∧
        (req.types.getLsbD (s.read x.ptr).type.code = true → x.here = x.path) ∧
        ∀ pre i, Alike s req cookie (pre ++ i :: cs))

/-- The slots from one on, if it is treated alike and all below are. -/
theorem alike_of (hx : Visits s req cookie cs x)
    (hhere : req.types.getLsbD (s.read x.ptr).type.code = true → x.here = x.path)
    (hleave : Leaves s req x → NoneBehind s req cookie cs)
    (hbelow : ∀ pre i, Alike s req cookie (pre ++ i :: cs)) (pre : List ℕ) :
    Alike s req cookie (pre ++ cs) := by
  rcases eq_nil_or_append pre with rfl | ⟨pre', i, rfl⟩
  · intro y hy hwant
    obtain rfl := hx.unique hy
    exact ⟨hhere hwant, hleave⟩
  · rw [List.append_assoc]
    exact hbelow pre' i

theorem alike_of_not_wanted (h : ¬Wanted s req cookie cs) : Alike s req cookie cs :=
  fun x hx hwant => absurd ⟨x, hx, hwant⟩ h

section

variable {j₀ : Journal S} (hx : Visits s req cookie cs x) (hn : n + 1 + cs.length = vgAddrBits + 1)
  (hc : req.consider (x.visit s) x.journal = (j₀, 0)) (hin : Into s req x.addr x.ptr w)
  (hg : x.addr.extend (s.read x.ptr).addrTrans.guard (s.read x.ptr).addrTrans.guardBits = .ok a₁)
  (hf : ∀ i < 2 ^ w, a₁.extend i w = .ok (f i))

include hx hn hc hin hg in
/-- The walk does not get behind a slot that it stops at. -/
theorem not_visits_behind {i i' : ℕ} {j : Journal S} {r : ℤ} (hr : r ≠ 0)
    (hl : slotLoop (walkSlot s req n (s.read x.ptr) a₁ x.path w) (i + 1) 0 j₀ = .ok (j, r))
    (hlt : i < i') : ¬Visits s req cookie (i' :: cs) y := by
  intro hy
  obtain ⟨d, rfl⟩ : ∃ d, i' = i + 1 + d := ⟨i' - (i + 1), by omega⟩
  obtain ⟨hl', -⟩ := (visits_iff hx hn hc hin hg (lt_of_visits hx hin hy)).1 hy
  rw [slotLoop_add, hl, ok_bind, if_pos hr] at hl'
  exact hr (Prod.mk.inj (Except.ok.inj hl')).2

include hx hn hc hin hg hf

/-- Where the two recursions differ at slot `i`, whatever the slots behind do does not make up for
it. -/
theorem slots_differ (hslots : Slots s req cs x.addr x.ptr x.path w f)
    (hacts : Acts s req cookie n) (hgrows : Grows s req n) {k i : ℕ} {j₁ j₂ : Journal S}
    {r₁ r₂ : ℤ} (hik : i + (k + 1) = 2 ^ w)
    (hl : slotLoop (walkSlot s req n (s.read x.ptr) a₁ x.path w) (i + 1) 0 j₀ = .ok (j₁, r₁))
    (hdiff : Differ (f i) j₁ j₂) : ∃ j₁' r₁' j₂' r₂',
      (if r₁ ≠ 0 then .ok (j₁, r₁) else
        slotLoop (walkSlot s req n (s.read x.ptr) a₁ x.path w) k (i + 1) j₁) = .ok (j₁', r₁') ∧
      (if r₂ ≠ 0 then .ok (j₂, r₂) else
        slotLoop (leaveSlot s req n (s.read x.ptr) a₁ x.here x.path w) k (i + 1) j₂) =
          .ok (j₂', r₂') ∧ Differ x.addr j₁' j₂' := by
  obtain ⟨j₁', r₁', hgo₁, hpre⟩ : ∃ j' r, (if r₁ ≠ 0 then .ok (j₁, r₁) else
      slotLoop (walkSlot s req n (s.read x.ptr) a₁ x.path w) k (i + 1) j₁) = .ok (j', r) ∧
      j₁.calls <+: j'.calls := by
    by_cases hr : r₁ = 0
    · subst hr
      obtain ⟨j', r, hloop, -, hact⟩ :=
        slots_act hx hn hc hin hg hf hacts k (i + 1) j₁ (by omega) hl
      refine ⟨j', r, by simpa using hloop, ?_⟩
      rcases hact with ⟨rfl, -, -⟩ | ⟨⟨-, -, -, v, rest, heq, -⟩, -⟩
      · exact List.prefix_rfl
      · exact ⟨_, heq.symm⟩
    · exact ⟨j₁, r₁, by simp [hr], List.prefix_rfl⟩
  obtain ⟨j₂', r₂', hgo₂, rest, heq, hrest⟩ : ∃ j' r, (if r₂ ≠ 0 then .ok (j₂, r₂) else
      slotLoop (leaveSlot s req n (s.read x.ptr) a₁ x.here x.path w) k (i + 1) j₂) =
        .ok (j', r) ∧ ∃ rest, j'.calls = j₂.calls ++ rest ∧
          ∀ v ∈ rest, ∃ i' < 2 ^ w, i + 1 ≤ i' ∧ (f i').bits <+: v.addr.bits := by
    by_cases hr : r₂ = 0
    · obtain ⟨j', r, hloop, hgrow⟩ :=
        slots_grow hgrows hn hf hslots x.here k (i + 1) j₂ (by omega)
      exact ⟨j', r, by simpa [hr] using hloop, hgrow⟩
    · exact ⟨j₂, r₂, by simp [hr], [], by simp, by simp⟩
  have hi : i < 2 ^ w := by omega
  refine ⟨j₁', r₁', j₂', r₂', hgo₁, hgo₂, ?_⟩
  refine (hdiff.append hpre heq fun u hu hbits => ?_).above (hslots.below i hi)
  obtain ⟨i', hi', hle, hbits'⟩ := hrest u hu
  exact hslots.apart i hi i' hi' (by omega) _ hbits hbits'

/-- Where the loop leaves the object at slot `i`, `do_walk` goes on with the next slot: they agree
if and only if it calls the callback for no slot behind. -/
theorem slots_left (hslots : Slots s req cs x.addr x.ptr x.path w f) (hacts : Acts s req cookie n)
    {k i : ℕ} {j : Journal S} (hik : i + (k + 1) = 2 ^ w)
    (hl : slotLoop (walkSlot s req n (s.read x.ptr) a₁ x.path w) (i + 1) 0 j₀ = .ok (j, 0))
    (hy : Visits s req cookie (i :: cs) y) (hleaves : Leaves s req y)
    (hsame : req.types.getLsbD (s.read y.ptr).type.code = true → y.here = y.path)
    (hbelow : ∀ pre i', Alike s req cookie (pre ++ i' :: i :: cs)) :
    ∃ j' r, slotLoop (walkSlot s req n (s.read x.ptr) a₁ x.path w) k (i + 1) j = .ok (j', r) ∧
      ((Differ x.addr j' j ∧ ∃ i' pre, ¬Alike s req cookie (pre ++ i' :: cs)) ∨
        j = j' ∧ 0 = r ∧ ∀ i' ≥ i, ∀ pre, Alike s req cookie (pre ++ i' :: cs)) := by
  obtain ⟨j', r, hloop, -, hact⟩ :=
    slots_act hx hn hc hin hg hf hacts k (i + 1) j (by omega) hl
  refine ⟨j', r, hloop, ?_⟩
  rcases hact with ⟨rfl, rfl, hnone⟩ | ⟨⟨i', hi', hle, v, rest, heq, hv⟩, i'', hle', pre, hwant⟩
  · refine .inr ⟨rfl, rfl, fun i' hge pre => ?_⟩
    rcases hge.eq_or_lt with rfl | hlt
    · exact alike_of hy hsame (fun _ => ⟨i, cs, rfl, hnone⟩) hbelow pre
    · exact alike_of_not_wanted (hnone i' hlt pre)
  · refine .inl ⟨?_, i, [], fun halike => ?_⟩
    · exact ⟨j.calls, v, [], ⟨rest, by simp [heq]⟩, by simp, by simp,
        (hslots.below i' hi').trans hv⟩
    · obtain ⟨i₀, cs₀, heq₀, hnone⟩ := (halike y hy hleaves.1).2 hleaves
      obtain ⟨rfl, rfl⟩ := List.cons.inj heq₀
      exact hnone i'' (by omega) pre hwant

/-- **The slots of an object**, from slot `i` on. -/
theorem slots_compare (hslots : Slots s req cs x.addr x.ptr x.path w f)
    (ih : Compares s req cookie n) (hacts : Acts s req cookie n) (hgrows : Grows s req n) :
    ∀ k i j, i + k = 2 ^ w →
      slotLoop (walkSlot s req n (s.read x.ptr) a₁ x.path w) i 0 j₀ = .ok (j, 0) →
      ∃ j₁ r₁ j₂ r₂,
        slotLoop (walkSlot s req n (s.read x.ptr) a₁ x.path w) k i j = .ok (j₁, r₁) ∧
        slotLoop (leaveSlot s req n (s.read x.ptr) a₁ x.here x.path w) k i j = .ok (j₂, r₂) ∧
        ((Differ x.addr j₁ j₂ ∧ ∃ i' pre, ¬Alike s req cookie (pre ++ i' :: cs)) ∨
          j₂ = j₁ ∧ (if r₂ = -1 then 0 else r₂) = r₁ ∧
            ∀ i' ≥ i, ∀ pre, Alike s req cookie (pre ++ i' :: cs)) := by
  intro k
  induction k with
  | zero =>
    intro i j hik _
    refine ⟨j, 0, j, 0, rfl, rfl, .inr ⟨rfl, rfl, fun i' hle pre y hy => ?_⟩⟩
    obtain ⟨z, hz⟩ := hy.above
    have := lt_of_visits hx hin hz
    omega
  | succ k ihk =>
    intro i j hik hl
    have hi : i < 2 ^ w := by omega
    obtain ⟨y, hy, haddr, hj, hhere, hpath, hptr, hwalk⟩ := exists_visits hx hn hc hin hg hf hi hl
    have hlen : n + (i :: cs).length = vgAddrBits + 1 := by simp only [List.length_cons]; omega
    obtain ⟨j₁, r₁, j₂, r₂, hrun₁, hrun₂, hcase⟩ := ih _ y hy hlen
    have hne : r₁ ≠ -1 := by
      obtain ⟨_, _, hrun, hne, -⟩ := hacts _ y hy hlen
      obtain ⟨-, rfl⟩ := Prod.mk.inj (Except.ok.inj (hrun₁.symm.trans hrun))
      exact hne
    rw [hrun₁] at hwalk
    have hleave : leaveSlot s req n (s.read x.ptr) a₁ x.here x.path w i j = .ok (j₂, r₂) := by
      rw [leaveSlot, hf i hi, ok_bind, ← hrun₂, hhere, hpath, hptr, haddr, hj]
    have hl' : slotLoop (walkSlot s req n (s.read x.ptr) a₁ x.path w) (i + 1) 0 j₀ =
        .ok (j₁, r₁) := by
      rw [slotLoop_add, hl, ok_bind]
      by_cases hr : r₁ = 0 <;> simp [slotLoop, hwalk, hr]
    rw [slotLoop, slotLoop, hwalk, hleave, ok_bind, ok_bind]
    rcases hcase with ⟨hdiff, pre, hbad⟩ | ⟨rfl, hres, hsame, hbelow⟩
    · rw [haddr] at hdiff
      obtain ⟨j₁', r₁', j₂', r₂', hgo₁, hgo₂, hdiff'⟩ :=
        slots_differ hx hn hc hin hg hf hslots hacts hgrows hik hl' hdiff
      exact ⟨j₁', r₁', j₂', r₂', hgo₁, hgo₂, .inl ⟨hdiff', i, pre, hbad⟩⟩
    · rcases hres with ⟨rfl, rfl, hleaves⟩ | ⟨rfl, hstays⟩
      · obtain ⟨j', r, hloop, hcase⟩ :=
          slots_left hx hn hc hin hg hf hslots hacts hik hl' hy hleaves hsame hbelow
        exact ⟨j', r, j₂, -1, by simpa using hloop, by simp, by rwa [if_pos rfl]⟩
      · have hself := alike_of hy hsame (fun h => absurd h hstays) hbelow
        by_cases hr : r₂ = 0
        · subst hr
          obtain ⟨j₁', r₁', j₂', r₂', hgo₁, hgo₂, hcase⟩ := ihk (i + 1) j₂ (by omega) hl'
          refine ⟨j₁', r₁', j₂', r₂', by simpa using hgo₁, by simpa using hgo₂, ?_⟩
          rcases hcase with hdiff | ⟨rfl, hr, halike⟩
          · exact .inl hdiff
          · refine .inr ⟨rfl, hr, fun i' hge => ?_⟩
            rcases hge.eq_or_lt with rfl | hlt
            · exact hself
            · exact halike i' hlt
        · refine ⟨j₂, r₂, j₂, r₂, by simp [hr], by simp [hr], .inr ⟨rfl, if_neg hne, ?_⟩⟩
          intro i' hge pre
          rcases hge.eq_or_lt with rfl | hlt
          · exact hself pre
          · rintro z hz
            obtain ⟨u, hu⟩ := hz.above
            exact absurd hu (not_visits_behind hx hn hc hin hg hr hl' hlt)

end

/-- Nothing is below a slot that the walk does not go below. -/
theorem alike_of_not_below (hx : Visits s req cookie cs x)
    (h : (req.consider (x.visit s) x.journal).2 ≠ 0 ∨ ∀ w, ¬Into s req x.addr x.ptr w)
    (pre : List ℕ) (i : ℕ) : Alike s req cookie (pre ++ i :: cs) := by
  intro y hy
  obtain ⟨z, hz⟩ := hy.above
  exact absurd hz (hx.not_below h)

/-- A slot for which the loop calls the callback with another writability. -/
theorem differ_of_writable (hacts : Acts s req cookie n) (hgrows : Grows s req n)
    (hu : Uniform s req) (hx : Visits s req cookie cs x) (hn : n + cs.length = vgAddrBits + 1)
    (hwant : req.types.getLsbD (s.read x.ptr).type.code = true) (hne : x.here ≠ x.path) :
    ∃ j₁ r₁ j₂ r₂, doWalk s req n x.ptr x.addr x.path x.journal = .ok (j₁, r₁) ∧
      leaveWalk s req n x.ptr x.addr x.here x.path x.journal = .ok (j₂, r₂) ∧
      Differ x.addr j₁ j₂ := by
  obtain ⟨j₁, r₁, hrun₁, -, hcalls, -⟩ := hacts cs x hx hn
  obtain ⟨j₂, r₂, hrun₂, rest, heq, hrest⟩ := hgrows cs _ _ _ (hx.place hu) hn x.here x.journal
  refine ⟨j₁, r₁, j₂, r₂, hrun₁, hrun₂, x.journal.calls, x.visit s, rest, hcalls hwant, heq,
    fun hmem => ?_, List.prefix_rfl⟩
  exact hne ((hrest _ hmem).2 rfl).symm

theorem compares (hwf : WellFormed s req) (hu : Uniform s req) :
    ∀ n, Compares s req cookie n := by
  intro n
  induction n with
  | zero =>
    intro cs x hx hn
    obtain ⟨-, hlen, hle, -⟩ := (hx.place hu).walks hwf hu
    omega
  | succ n ih =>
    intro cs x hx hn
    by_cases hwr : req.types.getLsbD (s.read x.ptr).type.code = true ∧ x.here ≠ x.path
    · obtain ⟨j₁, r₁, j₂, r₂, hrun₁, hrun₂, hdiff⟩ :=
        differ_of_writable (acts hwf hu _) (grows hwf hu _) hu hx hn hwr.1 hwr.2
      exact ⟨j₁, r₁, j₂, r₂, hrun₁, hrun₂,
        .inl ⟨hdiff, [], fun h => hwr.2 (h x hx hwr.1).1⟩⟩
    · have hsame : req.types.getLsbD (s.read x.ptr).type.code = true → x.here = x.path := by
        intro hwant
        by_contra hne
        exact hwr ⟨hwant, hne⟩
      rcases hc : req.consider (x.visit s) x.journal with ⟨j₀, r₀⟩
      have hc' : req.consider ⟨x.addr, (s.read x.ptr).type, (s.read x.ptr).properties, x.here⟩
          x.journal = (j₀, r₀) := by
        rw [← hc]
        cases hwant : req.types.getLsbD (s.read x.ptr).type.code with
        | true => rw [hsame hwant, Stop.visit]
        | false => simp only [Request.consider, Stop.visit, hwant, Bool.false_eq_true, if_false]
      have hleaves : Leaves s req x ↔ r₀ = -1 := by
        cases hwant : req.types.getLsbD (s.read x.ptr).type.code with
        | true => simp [Leaves, hwant, (req.consider_of_wanted hwant hc).2]
        | false => simp [Leaves, hwant, ← (req.consider_of_not_wanted hwant hc).2]
      have hdo : doWalk s req (n + 1) x.ptr x.addr x.path x.journal =
          if r₀ = -1 then .ok (j₀, 0) else if r₀ ≠ 0 then .ok (j₀, r₀)
          else walkInto (fun i a w j => doWalk s req n (.slot (s.read x.ptr).oid i) a w j)
            (s.read x.ptr) x.addr x.path j₀ := doWalk_of_consider hc
      rw [hdo, leaveWalk]
      simp only [hc']
      by_cases hr : r₀ = 0
      · subst hr
        have hstays : ¬Leaves s req x := by rw [hleaves]; decide
        rcases (hx.place hu).walkInto_cases hwf hu ⟨_, _, by rw [← Stop.visit, hc]⟩ with
          ⟨hno, hnone⟩ | ⟨w, a₁, f, hin, hg, hf, hslots, hsome⟩
        · exact ⟨j₀, 0, j₀, 0, by simp [hnone], by simp [hnone], .inr ⟨rfl, .inr ⟨rfl, hstays⟩,
            hsame, alike_of_not_below hx (.inr hno)⟩⟩
        · obtain ⟨j₁, r₁, j₂, r₂, hrun₁, hrun₂, hcase⟩ := slots_compare hx hn hc hin hg hf hslots ih
            (acts hwf hu n) (grows hwf hu n) (2 ^ w) 0 j₀ (Nat.zero_add _) rfl
          refine ⟨j₁, r₁, j₂, if r₂ = -1 then 0 else r₂, ?_, ?_, ?_⟩
          · rw [if_neg (by decide), if_neg (by simp), hsome]
            exact hrun₁
          · rw [if_neg (by simp), hsome]
            exact bind_eq_ok.2 ⟨_, hrun₂, rfl⟩
          · rcases hcase with ⟨hdiff, i, pre, hbad⟩ | ⟨rfl, hres, halike⟩
            · exact .inl ⟨hdiff, pre ++ [i], by simpa using hbad⟩
            · exact .inr ⟨rfl, .inr ⟨hres, hstays⟩, hsame,
                fun pre i => halike i (Nat.zero_le i) pre⟩
      · have hnot := alike_of_not_below hx (.inl (by rw [hc]; exact hr))
        by_cases hleave : r₀ = -1
        · exact ⟨j₀, 0, j₀, -1, by simp [hleave], by simp [hleave],
            .inr ⟨rfl, .inl ⟨rfl, rfl, hleaves.2 hleave⟩, hsame, hnot⟩⟩
        · exact ⟨j₀, r₀, j₀, r₀, by simp [hr, hleave], by simp [hr],
            .inr ⟨rfl, .inr ⟨rfl, fun h => hleave (hleaves.1 h)⟩, hsame, hnot⟩⟩

end Compare

/-! ### The result -/

/-- **Both walks return**, and with the same calls, cookie and value. -/
def Agree (s : Shadow) (req : Request S) (cookie : S) : Prop :=
  ∃ res : Journal S × ℤ,
    (∀ fuel, vgAddrBits < fuel → asWalkRecursive s req fuel cookie = .ok res) ∧
      ∀ look, vgAddrBits < look →
        ∃ n, ∀ fuel, n ≤ fuel → asWalkIterative s req look fuel cookie = .ok res

/-- A cappage with two slots, both pages. -/
def pagePair : Shadow where
  root := { Cap.void with type := .cappage, oid := 1, addrTrans := ⟨0, 7, 0⟩ }
  caps o i := if o = 1 ∧ i < 2 then { Cap.void with type := .page, oid := i + 2 } else Cap.void
  next := 4

/-- A callback that counts its calls. -/
def counting : Request ℕ where
  visit n _ := (n + 1, 0)
  types := -1

/-- A callback that asks not to go below pages. -/
def leavingPages : Request Unit where
  visit _ v := ((), if v.type = .page then -1 else 0)
  types := -1

section PagePair

variable {req : Request S}

theorem caps_pagePair (o i : ℕ) :
    pagePair.caps o i = void ∨
      ∃ k, pagePair.caps o i = { void with type := .page, oid := k + 2 } := by
  simp only [pagePair]
  split
  · exact .inr ⟨i, rfl⟩
  · exact .inl rfl

theorem Place.read_pagePair (h : Place pagePair req cs a p path) :
    p = .root ∨ pagePair.read p = void ∨
      ∃ k, pagePair.read p = { void with type := .page, oid := k + 2 } := by
  cases h with
  | root => exact .inl rfl
  | slot => exact .inr (caps_pagePair _ _)

theorem wellFormed_pagePair : WellFormed pagePair req where
  guard h := by
    -- no guard here has any bits
    rcases h.read_pagePair with rfl | hr | ⟨o, hr⟩
    · exact Nat.zero_lt_one
    · rw [hr]
      exact guardOk_void
    · rw [hr]
      exact guardOk_void
  window h := by
    rcases h.read_pagePair with rfl | hr | ⟨o, hr⟩
    · decide
    · rw [hr]
      decide
    · rw [hr]
      exact Nat.zero_le 8
  object h := by
    rcases h.read_pagePair with rfl | hr | ⟨o, hr⟩ <;> intro htype
    · decide
    · exact absurd (by rw [hr]; rfl) htype
    · rw [hr]
      exact Nat.succ_ne_zero _

theorem uniform_pagePair : Uniform pagePair req where
  window h hin := by
    have hwidth := hin.width
    rcases h.read_pagePair with rfl | hr | ⟨o, hr⟩
    · obtain rfl : 1 = _ := Option.some.inj hwidth
      decide
    · rw [hr] at hwidth
      cases hwidth
    · rw [hr] at hwidth
      cases hwidth
  root w hw := by
    obtain rfl : 1 = w := Option.some.inj hw
    decide

/-- There is no rcappage in it. -/
theorem Visits.here_pagePair {cookie : S} {x : Stop S} (h : Visits pagePair req cookie cs x) :
    x.here = x.path := by
  induction h with
  | root => rfl
  | slot hx hc hw hfit hg hi hext hl ih =>
    have htype := Place.read_pagePair (hx.place uniform_pagePair)
    rcases htype with hp | hr | ⟨o, hr⟩
    · simp [hp, ih, pagePair, Shadow.read]
    · rw [hr] at hw
      cases hw
    · rw [hr] at hw
      cases hw

end PagePair

end AsWalk

end Viengoos
