import Viengoos.Cap

/-!
# Address translation

`as_lookup_rel_internal`, the one walker that the kernel and the user-space library share. It is
compiled twice, so the model is parametric in a `Memory`: how a slot is read, what
`vg_cap_to_object` does (in the kernel it may load, claim or void, so it passes the state on), and
where indexing an object leads. A walk that meets a capability which consumes no bits may go on
for ever; the loop therefore carries fuel.

`Walks` is the walk as a relation, one constructor per traversed capability. The code succeeds only
along such a walk (`asLookupRel_sound`), and along every such walk if it has the fuel for it
(`asLookupRel_complete`). Everything later that is said about translation is said about `Walks`.
-/

namespace Viengoos

open BitString Outcome List

/-- `enum as_lookup_mode`. -/
inductive LookupMode
  | wantCap
  | wantSlot
  | wantObject
deriving DecidableEq, Repr

/-- What the walker takes from the build it is compiled into, over states `σ` and slot
pointers `P`. Objects are named by numbers. -/
structure Memory (σ P : Type) where
  /-- The capability in a slot. -/
  cap : σ → P → Cap
  /-- `vg_cap_to_object (activity, slot)`. -/
  capToObject : σ → P → Except Fault (σ × Option ℕ)
  /-- `&object->caps[i]`. -/
  slot : ℕ → ℕ → P
  /-- Where index `i` of a folio leads: the kernel's `fake_slot`, or `&folio->objects[i]`. -/
  folioSlot : σ → ℕ → ℕ → P
  /-- Whether a pointer is `&fake_slot`. -/
  isFake : P → Bool

/-- A traversed capability: what was read, the object it led to, and the index selected there. -/
structure Hop where
  cap : Cap
  object : ℕ
  width : ℕ
  index : ℕ
deriving DecidableEq, Repr

/-- What a successful lookup hands back, with the path it took. `guardDone` records whether the
loop consumed the guard of the final capability. -/
structure LookupRet (P : Type) where
  slot : P
  cap : Cap
  writable : Bool
  hops : List Hop
  guardDone : Bool

/-! ### The code -/

/-- The number of bits with which the code indexes an object, `none` where it gives up. For a
cappage it computes a signed `8 - log2` and compares it as unsigned, so it also gives up when
`8 < log2`. -/
def indexWidth (c : Cap) : Option ℕ :=
  match c.type with
  | .cappage | .rcappage =>
    if c.addrTrans.subpagesLog2.val ≤ 8 then some c.addrTrans.subpageSizeLog2 else none
  | .folio => some 7
  | .thread | .messenger => some 2
  | _ => none

/-- The first slot the index counts from. -/
def indexBase (c : Cap) : ℕ :=
  match c.type with
  | .cappage | .rcappage => c.addrTrans.subpageOffset
  | _ => 0

/-- The slot a hop leads to. -/
def Memory.target {σ P : Type} (m : Memory σ P) (s : σ) (h : Hop) : P :=
  if h.cap.type = .folio then m.folioSlot s h.object h.index
  else m.slot h.object (indexBase h.cap + h.index)

/-- The conversion of a `uint64_t` to a 32-bit `int`. -/
def toInt (x : ℕ) : ℤ := if x % 2 ^ 32 < 2 ^ 31 then x % 2 ^ 32 else x % 2 ^ 32 - 2 ^ 32

/-- `VG_CAP_GUARD (root) != guard`, negated. The extracted bits were stored in an `int`, which
the comparison with a `uint64_t` widens again. -/
def guardMatches (guard extracted : ℕ) : Bool := (guard : ℤ) = toInt extracted % 2 ^ 64

/-- Whether a requested type rules out a path through a read-only cappage. -/
def refusesWeak : Option CapType → Bool
  | none => false
  | some t => !t.weakP

/-- Whether the capability found satisfies the requested type. -/
def typeOk (type : Option CapType) (found : CapType) : Bool :=
  match type with
  | none => true
  | some t => t == found || t.strengthen == found

variable {σ P : Type}

/-- The loop's variables. `hops` and `guardDone` are for the record only. -/
structure Walk (σ P : Type) where
  state : σ
  root : P
  remaining : ℕ
  w : Bool
  hops : List Hop
  guardDone : Bool

/-- How a turn of the loop ends: `return false`, `break`, or the next turn. -/
inductive Turn (σ P : Type)
  | fail (s : σ)
  | done (k : Walk σ P)
  | next (k : Walk σ P)

/-- The body of the loop. -/
def lookupTurn (m : Memory σ P) (addr : ℕ) (type : Option CapType) (mode : LookupMode)
    (k : Walk σ P) : Except Fault (Turn σ P) :=
  let c := m.cap k.state k.root
  if c.type = .rcappage ∧ refusesWeak type then .ok (.fail k.state)
  else
    let w := k.w && c.type != .rcappage
    let gdepth := c.addrTrans.guardBits
    -- with `gdepth = 0` there is no guard to check and the test below passes
    if gdepth ≠ 0 ∧ (k.remaining < gdepth ∨
        guardMatches c.addrTrans.guard (field addr k.remaining gdepth) = false) then
      .ok (.fail k.state)
    else
      let remaining := k.remaining - gdepth
      if remaining = 0 then
        .ok (.done { k with remaining, w, guardDone := true })
      else
        match indexWidth c with
        | none => .ok (.fail k.state)
        | some bits =>
          if remaining < bits then .ok (.fail k.state)
          else do
            let (s, object) ← m.capToObject k.state k.root
            match object with
            | none => .ok (.fail s)
            | some o =>
              let h : Hop := ⟨c, o, bits, field addr remaining bits⟩
              let root := m.target s h
              let k' : Walk σ P := ⟨s, root, remaining - bits, w, k.hops ++ [h], false⟩
              if remaining - bits = 0 then
                if (m.cap s root).addrTrans.guardBits ≠ 0 ∧ mode = .wantObject then
                  .ok (.fail s)
                else .ok (.done k')
              else .ok (.next k')

/-- The `while (remaining > 0)` loop: the state at `return false`, or the variables after it. -/
def lookupLoop (m : Memory σ P) (addr : ℕ) (type : Option CapType) (mode : LookupMode) :
    ℕ → Walk σ P → Except Fault (σ ⊕ Walk σ P)
  | 0, _ => .error .outOfFuel
  | n + 1, k =>
    if k.remaining = 0 then .ok (.inr k)
    else do
      match ← lookupTurn m addr type mode k with
      | .fail s => .ok (.inl s)
      | .done k' => .ok (.inr k')
      | .next k' => lookupLoop m addr type mode n k'

/-- After the loop: the type check, the weak final capability, and the fake slot. -/
def lookupFinish (m : Memory σ P) (type : Option CapType) (mode : LookupMode) (k : Walk σ P) :
    Option (LookupRet P) :=
  let c := m.cap k.state k.root
  if typeOk type c.type = false then none
  else if mode = .wantSlot ∧ m.isFake k.root then none
  else some
    ⟨k.root, c, k.w && !(mode == .wantObject && c.type.weakP), k.hops, k.guardDone⟩

/-- `as_lookup_rel_internal`. The second component is `none` where it returns false. -/
def asLookupRel (m : Memory σ P) (fuel : ℕ) (root : P) (address : VgAddr)
    (type : Option CapType) (mode : LookupMode) (s : σ) :
    Except Fault (σ × Option (LookupRet P)) := do
  match ← lookupLoop m address.num type mode fuel ⟨s, root, address.depth, true, [], false⟩ with
  | .inr k => .ok (k.state, lookupFinish m type mode k)
  | .inl s' => .ok (s', none)

/-! ### The walk as a relation -/

/-- The code lets an address pass a capability's guard with `u` bits to go. The `int` keeps only
the low 32 bits of what it compares. -/
def GuardPasses (addr u : ℕ) (c : Cap) : Prop :=
  c.addrTrans.guardBits = 0 ∨
    c.addrTrans.guardBits ≤ u ∧
      field addr u c.addrTrans.guardBits % 2 ^ 32 = c.addrTrans.guard

/-- One traversed capability: from slot `p` with `u` bits to go to slot `p'` with `u'`. -/
structure Steps (m : Memory σ P) (addr : ℕ) (s : σ) (p : P) (u : ℕ) (h : Hop)
    (s' : σ) (p' : P) (u' : ℕ) : Prop where
  cap : h.cap = m.cap s p
  guard : GuardPasses addr u h.cap
  width : indexWidth h.cap = some h.width
  bits : u = h.cap.addrTrans.guardBits + h.width + u'
  pos : 0 < h.width + u'
  index : h.index = field addr (h.width + u') h.width
  object : m.capToObject s p = .ok (s', some h.object)
  target : p' = m.target s' h

/-- A **walk**: the capabilities traversed, from the first slot to the last. -/
inductive Walks (m : Memory σ P) (addr : ℕ) : σ → P → ℕ → List Hop → σ → P → ℕ → Prop
  | nil {s : σ} {p : P} {u : ℕ} : Walks m addr s p u [] s p u
  | cons {s s₁ s' : σ} {p p₁ p' : P} {u u₁ u' : ℕ} {h : Hop} {hs : List Hop} :
      Steps m addr s p u h s₁ p₁ u₁ → Walks m addr s₁ p₁ u₁ hs s' p' u' →
      Walks m addr s p u (h :: hs) s' p' u'

/-- A walk stops at a slot: either no bits are left, and then object mode asks for an unguarded
capability unless the address was empty to begin with, or the capability's guard takes exactly
the bits that are left. -/
def Stops (addr : ℕ) (mode : LookupMode) (u : ℕ) (ret : LookupRet P) : Prop :=
  ret.guardDone = false ∧ u = 0 ∧
      (mode = .wantObject → ret.hops = [] ∨ ret.cap.addrTrans.guardBits = 0) ∨
    ret.guardDone = true ∧ 0 < u ∧ u = ret.cap.addrTrans.guardBits ∧ GuardPasses addr u ret.cap

/-- The capabilities the loop looked at: those traversed, and the last one if its guard was
consumed. -/
def LookupRet.seen (ret : LookupRet P) : List Cap :=
  ret.hops.map Hop.cap ++ if ret.guardDone then [ret.cap] else []

/-- No read-only cappage was met. -/
def strongPath (l : List Cap) : Bool := l.all fun c => c.type != .rcappage

theorem guardMatches_iff {g x : ℕ} (hg : g < 2 ^ 22) :
    guardMatches g x = true ↔ x % 2 ^ 32 = g := by
  rw [guardMatches, decide_eq_true_iff, toInt]
  split <;> omega

variable {d : Bool} {c : Cap} {t : CapType} {hop : Hop} {hs : List Hop} {p₁ : P} {s₁ : σ} {n : ℕ}

theorem guardPasses_iff {addr u : ℕ} :
    GuardPasses addr u c ↔
      ¬ (c.addrTrans.guardBits ≠ 0 ∧ (u < c.addrTrans.guardBits ∨
        guardMatches c.addrTrans.guard (field addr u c.addrTrans.guardBits) = false)) := by
  rw [GuardPasses, ← guardMatches_iff AddrTrans.guard_lt, ← Bool.not_eq_true]
  by_cases h0 : c.addrTrans.guardBits = 0
  · simp [h0]
  · simp only [h0, ne_eq, not_false_eq_true, true_and, false_or, not_or, not_lt, not_not]

theorem GuardPasses.le {addr u : ℕ} (h : GuardPasses addr u c) :
    c.addrTrans.guardBits ≤ u := by
  rcases h with h | h
  · omega
  · exact h.1

variable {m : Memory σ P} {addr : ℕ} {s s' : σ} {p p' : P} {u u' : ℕ} {hs : List Hop}

theorem Walks.nil_inv (h : Walks m addr s p u [] s' p' u') : s' = s ∧ p' = p ∧ u' = u := by
  cases h
  exact ⟨rfl, rfl, rfl⟩

/-- A walk with no bits to go does not move. -/
theorem Walks.of_zero (h : Walks m addr s p 0 hs s' p' u') :
    hs = [] ∧ s' = s ∧ p' = p ∧ u' = 0 := by
  cases h with
  | nil => exact ⟨rfl, rfl, rfl, rfl⟩
  | cons hstep _ =>
    have h1 := hstep.bits
    have h2 := hstep.pos
    omega

/-- One more hop at the end. -/
theorem Walks.snoc {u₁ : ℕ} (h : Walks m addr s p u hs s₁ p₁ u₁)
    (hstep : Steps m addr s₁ p₁ u₁ hop s' p' u') :
    Walks m addr s p u (hs ++ [hop]) s' p' u' := by
  induction h with
  | nil => exact .cons hstep .nil
  | cons hfirst _ ih => exact .cons hfirst (ih hstep)

/-! ### One turn -/

section Turn

variable {type : Option CapType} {mode : LookupMode}

/-- The loop's variables after a hop. -/
def Walk.after (k : Walk σ P) (h : Hop) (s : σ) (p : P) (u : ℕ) : Walk σ P :=
  ⟨s, p, u, k.w && h.cap.type != .rcappage, k.hops ++ [h], false⟩

/-- The loop's variables after the guard took the last bits. -/
def Walk.finish (k : Walk σ P) (c : Cap) : Walk σ P :=
  { k with remaining := 0, w := k.w && c.type != .rcappage, guardDone := true }

/-- The test on a read-only cappage in the way. -/
def Refused (type : Option CapType) (c : Cap) : Prop := c.type = .rcappage ∧ refusesWeak type = true

variable {k : Walk σ P} {s : σ} {p : P} {u : ℕ}

/-- **Inversion of a turn** that does not return false: a hop to a further turn, a hop that uses
up the address, or a guard that does. -/
theorem lookupTurn_cases {t : Turn σ P} (h : lookupTurn m addr type mode k = .ok t) :
    (∃ s, t = .fail s) ∨
    (¬ Refused type (m.cap k.state k.root) ∧
      ((∃ hop s p u, Steps m addr k.state k.root k.remaining hop s p u ∧ 0 < u ∧
          t = .next (k.after hop s p u)) ∨
        (∃ hop s p, Steps m addr k.state k.root k.remaining hop s p 0 ∧
          (mode = .wantObject → (m.cap s p).addrTrans.guardBits = 0) ∧
          t = .done (k.after hop s p 0)) ∨
        (k.remaining = (m.cap k.state k.root).addrTrans.guardBits ∧
          GuardPasses addr k.remaining (m.cap k.state k.root) ∧
          t = .done (k.finish (m.cap k.state k.root))))) := by
  set c := m.cap k.state k.root with hc
  simp only [lookupTurn, ← hc] at h
  split at h
  · exact .inl ⟨_, (Except.ok.inj h).symm⟩
  next hweak =>
  split at h
  · exact .inl ⟨_, (Except.ok.inj h).symm⟩
  next hguard =>
  have hpass : GuardPasses addr k.remaining c := guardPasses_iff.2 hguard
  split at h
  · next hzero =>
    refine .inr ⟨hweak, .inr (.inr ⟨by omega, hpass, ?_⟩)⟩
    rw [← Except.ok.inj h, Walk.finish, hzero]
  next hleft =>
  split at h
  · exact .inl ⟨_, (Except.ok.inj h).symm⟩
  next bits hbits =>
  split at h
  · exact .inl ⟨_, (Except.ok.inj h).symm⟩
  next hroom =>
  obtain ⟨⟨s, o⟩, hobj, h⟩ := bind_eq_ok.1 h
  cases o with
  | none => exact .inl ⟨_, (Except.ok.inj h).symm⟩
  | some o =>
    set hop : Hop := ⟨c, o, bits, field addr (k.remaining - c.addrTrans.guardBits) bits⟩ with hhop
    have hsteps : Steps m addr k.state k.root k.remaining hop s (m.target s hop)
        (k.remaining - c.addrTrans.guardBits - bits) :=
      { cap := rfl
        guard := hpass
        width := hbits
        bits := by simp only [hhop]; omega
        pos := by simp only [hhop]; omega
        index := by simp only [hhop]; congr 1; omega
        object := hobj
        target := rfl }
    simp only at h
    split at h
    · next hlast =>
      split at h
      · exact .inl ⟨_, (Except.ok.inj h).symm⟩
      next hobject =>
      rw [hlast] at hsteps h
      refine .inr ⟨hweak, .inr (.inl ⟨hop, s, _, hsteps, fun hm => ?_, (Except.ok.inj h).symm⟩)⟩
      by_contra hne
      exact hobject ⟨hne, hm⟩
    · next hmore =>
      exact .inr ⟨hweak, .inl ⟨hop, s, _, _, hsteps, by omega, (Except.ok.inj h).symm⟩⟩

/-- Conversely, a turn makes the hop that is there to be made. -/
theorem lookupTurn_of_steps (hweak : ¬ Refused type hop.cap)
    (hs : Steps m addr k.state k.root k.remaining hop s p u)
    (hobj : u = 0 → mode = .wantObject → (m.cap s p).addrTrans.guardBits = 0) :
    lookupTurn m addr type mode k =
      .ok (if u = 0 then .done (k.after hop s p u) else .next (k.after hop s p u)) := by
  obtain ⟨cap, o, bits, idx⟩ := hop
  obtain ⟨hcap, hguard, hwidth, hbits, hpos, hindex, hobject, htarget⟩ := hs
  simp only at hcap hguard hwidth hbits hpos hindex hobject htarget hweak
  subst hcap hindex htarget
  have hrem : k.remaining - (m.cap k.state k.root).addrTrans.guardBits = bits + u := by omega
  have hsub : bits + u - bits = u := by omega
  simp only [lookupTurn]
  rw [if_neg (show ¬ (_ ∧ _) from hweak), if_neg (guardPasses_iff.1 hguard), hrem,
    if_neg (by omega)]
  simp only [hwidth, hobject, ok_bind, hsub]
  rw [if_neg (by omega)]
  split
  · next hu =>
    rw [if_neg fun hcontra => hcontra.1 (hobj hu hcontra.2)]
    rfl
  · rfl

/-- Conversely, a guard that takes exactly what is left ends the loop. -/
theorem lookupTurn_of_guard (hweak : ¬ Refused type (m.cap k.state k.root))
    (hall : k.remaining = (m.cap k.state k.root).addrTrans.guardBits)
    (hpass : GuardPasses addr k.remaining (m.cap k.state k.root)) :
    lookupTurn m addr type mode k = .ok (.done (k.finish (m.cap k.state k.root))) := by
  simp only [lookupTurn]
  rw [if_neg (show ¬ (_ ∧ _) from hweak), if_neg (guardPasses_iff.1 hpass), if_pos (by omega),
    Walk.finish, ← hall, Nat.sub_self]

/-! ### The loop -/

@[simp] theorem strongPath_nil : strongPath [] = true := rfl

@[simp] theorem strongPath_append (l l' : List Cap) :
    strongPath (l ++ l') = (strongPath l && strongPath l') := all_append

@[simp] theorem strongPath_cons (c : Cap) (l : List Cap) :
    strongPath (c :: l) = ((c.type != .rcappage) && strongPath l) := rfl

/-- How the loop may end in slot `p`, having traversed `hs` with `u` bits to go; `d` says whether
the guard of the capability there was consumed. -/
def EndsAt (m : Memory σ P) (addr : ℕ) (type : Option CapType) (mode : LookupMode)
    (hs : List Hop) (s : σ) (p : P) (u : ℕ) (d : Bool) : Prop :=
  d = false ∧ u = 0 ∧ (mode = .wantObject → hs = [] ∨ (m.cap s p).addrTrans.guardBits = 0) ∨
    d = true ∧ 0 < u ∧ u = (m.cap s p).addrTrans.guardBits ∧ GuardPasses addr u (m.cap s p) ∧
      ¬ Refused type (m.cap s p)

/-- The loop's variables at its end. -/
def Walk.atEnd (m : Memory σ P) (k : Walk σ P) (hs : List Hop) (s : σ) (p : P) (d : Bool) :
    Walk σ P :=
  ⟨s, p, 0, k.w && strongPath (hs.map Hop.cap ++ if d then [m.cap s p] else []),
    k.hops ++ hs, d⟩

theorem Walk.atEnd_self (hk : k.guardDone = false) (h0 : k.remaining = 0) :
    k.atEnd m [] k.state k.root false = k := by
  cases k
  simp_all [Walk.atEnd]

theorem Walk.atEnd_after :
    (k.after hop s₁ p₁ u).atEnd m hs s p d = k.atEnd m (hop :: hs) s p d := by
  simp [Walk.atEnd, Walk.after, Bool.and_assoc]

theorem lookupLoop_sound {k' : Walk σ P} (hk : k.guardDone = false)
    (h : lookupLoop m addr type mode n k = .ok (.inr k')) :
    ∃ hs s p u d, Walks m addr k.state k.root k.remaining hs s p u ∧
      (∀ hop ∈ hs, ¬ Refused type hop.cap) ∧ EndsAt m addr type mode hs s p u d ∧
      k' = k.atEnd m hs s p d := by
  induction n generalizing k with
  | zero => simp [lookupLoop] at h
  | succ n ih =>
    rw [lookupLoop] at h
    split at h
    · next hzero =>
      obtain rfl := Sum.inr.inj (Except.ok.inj h)
      exact ⟨[], _, _, k.remaining, false, .nil, by simp,
        .inl ⟨rfl, hzero, fun _ => .inl rfl⟩, (Walk.atEnd_self hk hzero).symm⟩
    next hpos =>
    obtain ⟨t, hturn, h⟩ := bind_eq_ok.1 h
    rcases lookupTurn_cases hturn with ⟨s, rfl⟩ | ⟨hweak, hcases⟩
    · simp at h
    rcases hcases with ⟨hop, s, p, u, hsteps, hu, rfl⟩ | ⟨hop, s, p, hsteps, hobj, rfl⟩ |
      ⟨hall, hpass, rfl⟩
    · -- a further turn: the rest of the walk starts where the hop led
      obtain ⟨hs, s', p', v, d, hwalk, hadm, hend, rfl⟩ := ih (k := k.after hop s p u) rfl h
      refine ⟨hop :: hs, s', p', v, d, .cons hsteps hwalk, ?_, ?_, Walk.atEnd_after⟩
      · rintro x (_ | ⟨_, hx⟩)
        · rwa [hsteps.cap]
        · exact hadm x hx
      · rcases hend with ⟨hd, hv, hobj⟩ | hguard
        · refine .inl ⟨hd, hv, fun hm => (hobj hm).elim (fun hnil => ?_) .inr⟩
          subst hnil hv
          cases hwalk
          exact absurd hu (lt_irrefl 0)
        · exact .inr hguard
    · -- the hop used up the address
      obtain rfl := Sum.inr.inj (Except.ok.inj h)
      refine ⟨[hop], s, p, 0, false, .cons hsteps .nil, ?_,
        .inl ⟨rfl, rfl, fun hm => .inr (hobj hm)⟩, ?_⟩
      · intro x hx
        rwa [mem_singleton.1 hx, hsteps.cap]
      · simp [Walk.atEnd, Walk.after]
    · obtain rfl := Sum.inr.inj (Except.ok.inj h)
      refine ⟨[], _, _, k.remaining, true, .nil, by simp,
        .inr ⟨rfl, Nat.pos_of_ne_zero hpos, hall, hpass, hweak⟩, ?_⟩
      simp [Walk.atEnd, Walk.finish]

theorem lookupLoop_complete (hk : k.guardDone = false)
    (hwalk : Walks m addr k.state k.root k.remaining hs s p u)
    (hadm : ∀ hop ∈ hs, ¬ Refused type hop.cap) (hend : EndsAt m addr type mode hs s p u d)
    (hn : hs.length < n) : lookupLoop m addr type mode n k = .ok (.inr (k.atEnd m hs s p d)) := by
  induction hs generalizing n k with
  | nil =>
    obtain ⟨n, rfl⟩ : ∃ j, n = j + 1 := ⟨n - 1, by simp at hn; omega⟩
    cases hwalk
    rw [lookupLoop]
    rcases hend with ⟨rfl, hzero, -⟩ | ⟨rfl, hpos, hall, hpass, hweak⟩
    · rw [if_pos hzero, Walk.atEnd_self hk hzero]
    · rw [if_neg hpos.ne', lookupTurn_of_guard hweak hall hpass]
      simp [Walk.atEnd, Walk.finish]
  | cons hop hs ih =>
    obtain ⟨n, rfl⟩ : ∃ j, n = j + 1 := ⟨n - 1, by simp at hn; omega⟩
    cases hwalk with
    | @cons _ s₁ _ _ p₁ _ _ u₁ _ _ _ hsteps hwalk =>
    have hpos : k.remaining ≠ 0 := by
      have := hsteps.bits
      have := hsteps.pos
      omega
    have hend' : EndsAt m addr type mode hs s p u d := by
      rcases hend with ⟨hd, hu, hobj⟩ | hguard
      · exact .inl ⟨hd, hu, fun hm => .inr ((hobj hm).resolve_left (cons_ne_nil _ _))⟩
      · exact .inr hguard
    have hweak := hadm hop (mem_cons_self ..)
    have hadm' : ∀ x ∈ hs, ¬ Refused type x.cap := fun x hx => hadm x (mem_cons_of_mem _ hx)
    rw [lookupLoop, if_neg hpos]
    by_cases hu : u₁ = 0
    · -- no bits left: the walk cannot go on
      subst hu
      obtain ⟨rfl, rfl, rfl, rfl⟩ := hwalk.of_zero
      rcases hend with ⟨rfl, -, hobj⟩ | ⟨-, hlt, -⟩
      swap
      · exact absurd hlt (lt_irrefl 0)
      rw [lookupTurn_of_steps hweak hsteps
        fun _ hm => (hobj hm).resolve_left (cons_ne_nil _ _), if_pos rfl]
      simp [Walk.atEnd, Walk.after]
    · rw [lookupTurn_of_steps hweak hsteps fun h0 => absurd h0 hu, if_neg hu, ← Walk.atEnd_after]
      exact ih (k := k.after hop s₁ p₁ u₁) rfl hwalk hadm' hend' (by simpa using hn)

/-! ### The lookup -/

/-- **What a successful lookup means.** -/
structure Resolves (m : Memory σ P) (s : σ) (root : P) (a : VgAddr) (type : Option CapType)
    (mode : LookupMode) (s' : σ) (ret : LookupRet P) : Prop where
  walk : ∃ u, Walks m a.num s root a.depth ret.hops s' ret.slot u ∧ Stops a.num mode u ret
  cap : ret.cap = m.cap s' ret.slot
  admitted : ∀ c ∈ ret.seen, ¬ Refused type c
  type_ok : typeOk type ret.cap.type = true
  slot_ok : mode = .wantSlot → m.isFake ret.slot = false
  writable : ret.writable =
    (strongPath ret.seen && !(mode == .wantObject && ret.cap.type.weakP))

variable {root : P} {a : VgAddr} {ret : LookupRet P} {fuel : ℕ}

theorem lookupFinish_eq_some_iff :
    lookupFinish m type mode k = some ret ↔
      typeOk type (m.cap k.state k.root).type = true ∧
        (mode = .wantSlot → m.isFake k.root = false) ∧
        ret = ⟨k.root, m.cap k.state k.root,
          k.w && !(mode == .wantObject && (m.cap k.state k.root).type.weakP), k.hops,
          k.guardDone⟩ := by
  simp only [lookupFinish]
  by_cases htype : typeOk type (m.cap k.state k.root).type = true
  · rw [if_neg (by simp [htype])]
    by_cases hfake : mode = .wantSlot ∧ m.isFake k.root = true
    · rw [if_pos hfake]
      simp [hfake.1, hfake.2]
    · rw [if_neg hfake]
      have hslot : mode = .wantSlot → m.isFake k.root = false := fun hm => by
        simpa [hm] using hfake
      exact ⟨fun h => ⟨htype, hslot, (Option.some.inj h).symm⟩, fun h => h.2.2 ▸ rfl⟩
  · rw [if_pos (by simpa using htype)]
    simp [htype]

theorem asLookupRel_sound (h : asLookupRel m fuel root a type mode s = .ok (s', some ret)) :
    Resolves m s root a type mode s' ret := by
  obtain ⟨t, hloop, hret⟩ := bind_eq_ok.1 h
  cases t with
  | inl s => simp at hret
  | inr k =>
    obtain ⟨hs, s₁, p, u, d, hwalk, hadm, hend, rfl⟩ := lookupLoop_sound rfl hloop
    obtain ⟨hstate, hfin⟩ := Prod.mk.inj (Except.ok.inj hret)
    obtain ⟨htype, hfake, rfl⟩ := lookupFinish_eq_some_iff.1 hfin
    obtain rfl : s₁ = s' := hstate
    refine ⟨⟨u, hwalk, ?_⟩, rfl, ?_, htype, hfake, by simp [LookupRet.seen, Walk.atEnd]⟩
    · rcases hend with ⟨hd, hu, hobj⟩ | ⟨hd, hpos, hall, hpass, -⟩
      · exact .inl ⟨hd, hu, hobj⟩
      · exact .inr ⟨hd, hpos, hall, hpass⟩
    · intro c hc
      rcases mem_append.1 hc with hc | hc
      · obtain ⟨hop, hhop, rfl⟩ := mem_map.1 hc
        exact hadm hop hhop
      · rcases hend with ⟨rfl, -⟩ | ⟨rfl, -, -, -, hweak⟩
        · simp [Walk.atEnd] at hc
        · simp only [Walk.atEnd, if_true, mem_singleton] at hc
          rwa [hc]

theorem asLookupRel_complete (h : Resolves m s root a type mode s' ret)
    (hfuel : ret.hops.length < fuel) :
    asLookupRel m fuel root a type mode s = .ok (s', some ret) := by
  obtain ⟨⟨u, hwalk, hstop⟩, hcap, hadm, htype, hslot, hwr⟩ := h
  obtain ⟨p, c, w, hs, d⟩ := ret
  simp only [LookupRet.seen] at hwalk hcap htype hslot hwr hfuel hadm
  subst hcap hwr
  have hend : EndsAt m a.num type mode hs s' p u d := by
    rcases hstop with ⟨hd, hu, hobj⟩ | ⟨hd, hpos, hall, hpass⟩
    · exact .inl ⟨hd, hu, hobj⟩
    · simp only at hd
      exact .inr ⟨hd, hpos, hall, hpass, hadm _ (by simp [hd])⟩
  have hhops : ∀ hop ∈ hs, ¬ Refused type hop.cap := fun hop hhop =>
    hadm _ (mem_append_left _ (mem_map_of_mem hhop))
  rw [asLookupRel, lookupLoop_complete rfl hwalk hhops hend hfuel, ok_bind]
  simp only [Except.ok.injEq, Prod.mk.injEq]
  exact ⟨rfl, lookupFinish_eq_some_iff.2 ⟨htype, hslot, by simp [Walk.atEnd]⟩⟩

/-! ### The authority a lookup hands out -/

/-- What a request for a strong type finds is of that very type. -/
theorem typeOk_strong {found : CapType} (ht : t.weakP = false)
    (h : typeOk (some t) found = true) : found = t := by
  have hself : t.strengthen = t := CapType.strengthen_eq_self ht
  simp only [typeOk, hself, Bool.or_self, beq_iff_eq] at h
  exact h.symm

theorem strongPath_iff {l : List Cap} : strongPath l = true ↔ ∀ c ∈ l, c.type ≠ .rcappage := by
  simp [strongPath]

/-- A path on which write authority survived has no read-only cappage in it. -/
theorem Resolves.strong_of_writable (h : Resolves m s root a type mode s' ret)
    (hw : ret.writable = true) : strongPath ret.seen = true := by
  rw [h.writable, Bool.and_eq_true] at hw
  exact hw.1

theorem Resolves.strong_object_of_writable (h : Resolves m s root a type .wantObject s' ret)
    (hw : ret.writable = true) : ret.cap.type.weakP = false := by
  rw [h.writable, Bool.and_eq_true] at hw
  simpa using hw.2

/-- A request for a strong type succeeds along strong paths only. -/
theorem Resolves.strong_of_strong_type
    (h : Resolves m s root a (some t) mode s' ret) (ht : t.weakP = false) :
    strongPath ret.seen = true := by
  rw [strongPath_iff]
  intro c hc hweak
  exact h.admitted c hc ⟨hweak, by simp [refusesWeak, ht]⟩

end Turn

end Viengoos
