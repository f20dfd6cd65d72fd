import Viengoos.Ipc.FutexWords

/-!
# `FUTEX_WAKE_OP`

The request changes one word and wakes waiters of two futexes: some of the first in any case, some
of the second if a comparison holds of the word's old value. What it is for is `WakeOpRight`, in
terms of the queues' lists; `wakeOp_right_iff` says when the server does that.

A call of `wake` that is to move nobody either wakes the first waiter that matches, after which this
waiter is blocked, or does not return. Since the server always replies 0, this is all that is needed
of the loop.
-/

namespace Viengoos

open Outcome List

variable {W : Type}

/-! ### Waking without moving -/

variable {s : Ipc W} {fuel object offset offset1 : ℕ} {toRequeue toWake : ℤ}

section WakeOp

variable {M : Machine W}

variable {s s' : Ipc W} {m offset2 : ℕ} {L : ℕ → List ℕ}

/-- An activation blocks nobody and unblocks nobody. -/
theorem activateIf_blocked {wanted : Bool} (h : activateIf M wanted s m = .ok s') (x : ℕ) :
    (s'.messenger x).blocked = (s.messenger x).blocked := by
  unfold activateIf at h
  split at h
  · obtain ⟨⟨t, started⟩, hdeliver, hret⟩ := bind_eq_ok.1 h
    obtain rfl : t = s' := pure_eq_ok.1 hret
    obtain ⟨-, -, hdeliver⟩ := bind_eq_ok.1 hdeliver
    obtain ⟨-, -, hdeliver⟩ := bind_eq_ok.1 hdeliver
    split at hdeliver
    · rw [← (Prod.mk.inj (pure_eq_ok.1 hdeliver)).1]
    · obtain ⟨q, -, hret⟩ := bind_eq_ok.1 hdeliver
      rw [← (Prod.mk.inj (pure_eq_ok.1 hret)).1]
      by_cases hx : x = m
      · subst hx
        simp [Ipc.setReason, Ipc.modify]
      · simp [Ipc.setReason, Ipc.modify, hx]
    · rw [← (Prod.mk.inj (pure_eq_ok.1 hdeliver)).1]
  · rw [pure_eq_ok.1 h]

/-- A waiter that is woken was not blocked, and is so with the message in it. -/
theorem wakeWaiter_blocked (h : wakeWaiter M s m = .ok s') :
    (s.messenger m).blocked = false ∧ (s'.messenger m).blocked = true ∧
      ∀ x, (s.messenger x).blocked = true → (s'.messenger x).blocked = true := by
  obtain ⟨q, -, h⟩ := bind_eq_ok.1 h
  obtain ⟨⟨t, loaded⟩, hload, h⟩ := bind_eq_ok.1 h
  obtain ⟨_, hloaded, hret⟩ := bind_eq_ok.1 h
  obtain rfl : t = s' := pure_eq_ok.1 hret
  obtain rfl : loaded = true := require_eq_ok.1 hloaded
  by_cases hb : (s.messenger m).blocked = true
  · rw [messengerMessageLoad, load_refused (s := { s with queues := q }) (by simp) hb] at hload
    simp at hload
  · unfold messengerMessageLoad messengerLoadInternal at hload
    rw [require_of (by simp), ok_bind, if_neg hb] at hload
    obtain ⟨w, -, hload⟩ := bind_eq_ok.1 hload
    obtain ⟨u, hboth, hret⟩ := bind_eq_ok.1 hload
    obtain rfl : u = t := (Prod.mk.inj (pure_eq_ok.1 hret)).1
    obtain ⟨u', hact, hret⟩ := bind_eq_ok.1 hboth
    obtain rfl : u' = u := pure_eq_ok.1 hret
    refine ⟨by simpa using hb, ?_, fun x hx => ?_⟩
    · rw [activateIf_blocked hact]
      simp [Ipc.noteTransfer, Ipc.setBlocked, Ipc.modify]
    · rw [activateIf_blocked hact]
      by_cases hxm : x = m
      · simp [Ipc.noteTransfer, Ipc.setBlocked, Ipc.modify, hxm]
      · simpa [Ipc.noteTransfer, Ipc.setBlocked, Ipc.modify, hxm] using hx

/-- Without an object to move waiters to, none is moved. -/
theorem requeueWaiter_none :
    requeueWaiter none offset2 s m ≠ .ok s' := by
  intro h
  obtain ⟨q, -, h⟩ := bind_eq_ok.1 h
  cases h

/-- The loop that only wakes unblocks nobody. -/
theorem wakeLoop_blocked {count c : ℤ} {next : Option ℕ}
    (h : wakeLoop M offset1 toWake none offset2 fuel s count toRequeue next = .ok (s', c)) {x : ℕ}
    (hx : (s.messenger x).blocked = true) : (s'.messenger x).blocked = true := by
  induction fuel generalizing s count toRequeue next with
  | zero =>
    cases next with
    | none => rwa [← (Prod.mk.inj (pure_eq_ok.1 h)).1]
    | some m => cases h
  | succ fuel ih =>
    cases next with
    | none => rwa [← (Prod.mk.inj (pure_eq_ok.1 h)).1]
    | some m =>
      obtain ⟨next, -, h⟩ := bind_eq_ok.1 h
      split at h
      · split at h
        · obtain ⟨t, hwake, h⟩ := bind_eq_ok.1 h
          have ht := (wakeWaiter_blocked hwake).2.2 x hx
          split at h
          · rwa [← (Prod.mk.inj (pure_eq_ok.1 h)).1]
          · exact ih h ht
        · obtain ⟨t, hmove, -⟩ := bind_eq_ok.1 h
          exact absurd hmove requeueWaiter_none
      · exact ih h hx

/-- **The first waiter that matches**: the loop is to wake it, or does not return, and it is blocked
in the end, as it was not before. -/
theorem wakeLoop_first {o : ℕ} {kept rest : List ℕ}
    {count c : ℤ} (hL : Represents s.queues L) (hl : L o = kept ++ rest)
    (hm : m ∈ (rest.filter (s.waitsAt offset1)).head?)
    (h : wakeLoop M offset1 toWake none offset2 fuel s count toRequeue rest.head? = .ok (s', c)) :
    count < toWake ∧ (s.messenger m).blocked = false ∧ (s'.messenger m).blocked = true := by
  induction rest generalizing kept fuel with
  | nil => simp at hm
  | cons x rest ih =>
    cases fuel with
    | zero => cases h
    | succ fuel =>
      rw [head?_cons] at h
      by_cases hx : s.waitsAt offset1 x = true
      · obtain rfl : x = m := by simpa [hx] using hm
        by_cases hcount : count < toWake
        · rw [wakeLoop_wake hL hl hx hcount] at h
          obtain ⟨t, hwake, h⟩ := bind_eq_ok.1 h
          obtain ⟨hbefore, hafter, -⟩ := wakeWaiter_blocked hwake
          refine ⟨hcount, hbefore, ?_⟩
          split at h
          · rwa [← (Prod.mk.inj (pure_eq_ok.1 h)).1]
          · exact wakeLoop_blocked h hafter
        · rw [wakeLoop_move hL hl hx hcount] at h
          obtain ⟨t, hmove, -⟩ := bind_eq_ok.1 h
          exact absurd hmove requeueWaiter_none
      · rw [Bool.not_eq_true] at hx
        rw [wakeLoop_skip hL hl hx] at h
        have hl' : L o = (kept ++ [x]) ++ rest := by simp [hl]
        exact ih hl' (by simpa [hx] using hm) h

/-! ### What the request is for -/

/-- The waiters of a futex, in queue order. -/
def futexWaiters (s : Ipc W) (L : ℕ → List ℕ) (object offset : ℕ) : List ℕ :=
  (L object).filter (s.waitsAt offset)

/-- **The first `n` waiters of a futex are woken**, or all if there are less: each in its turn, and
they leave the queue. Nobody else is woken or moved. -/
structure Woken (M : Machine W) (s : Ipc W) (L : ℕ → List ℕ) (object offset n : ℕ) (s' : Ipc W)
    (L' : ℕ → List ℕ) : Prop where
  run : ((futexWaiters s L object offset).take n).foldlM (wakeWaiter M) s = .ok s'
  represents : Represents s'.queues L'
  lists : ∀ x, s.queues.type x ≠ some .thread →
    L' x = (L x).filter (· ∉ (futexWaiters s L object offset).take n)
  others : ∀ x ∉ (futexWaiters s L object offset).take n, s'.messenger x = s.messenger x

/-- Nobody is woken where nobody waits, or nobody is to be woken. -/
theorem Woken.none {n : ℕ} (hL : Represents s.queues L)
    (h : (futexWaiters s L object offset).take n = []) :
    Woken M s L object offset n s L where
  run := by rw [h]; rfl
  represents := hL
  lists x _ := by simp [h]
  others x _ := rfl

theorem Woken.eq_of_none {L' : ℕ → List ℕ} {n : ℕ}
    (hw : Woken M s L object offset n s' L') (h : (futexWaiters s L object offset).take n = []) :
    s' = s := by
  have hrun := hw.run
  rw [h] at hrun
  exact (pure_eq_ok.1 hrun).symm

section Request

variable (M : Machine W) (resolve : ℕ → Except FutexErrno ℕ) (frame : ℕ → ℕ) (junk : Bool)
  (r : FutexArgs) (reply : Option ℕ) (ipc : Ipc W) (L : ℕ → List ℕ) (memory : ByteMemory)
  (object1 object2 : ℕ) (op : FutexOp) (cmp : FutexCmp)

/-- The second word before the request. -/
def FutexArgs.oldval : BitVec 32 := BitVec.ofNat 32 (memory.le (vaddr frame object2 r.offset2) 4)

/-- Memory with the second word as the operation makes it. -/
def FutexArgs.changed : ByteMemory :=
  memory.putLe (vaddr frame object2 r.offset2) 4
    (op.apply (r.oldval frame memory object2) r.val3.oparg).toNat

/-- The number of waiters of the second futex that may be woken. -/
def FutexArgs.limit2 : ℕ :=
  if cmp.holds (r.oldval frame memory object2) r.val3.cmparg then r.val2.toInt.toNat else 0

/-- **What `FUTEX_WAKE_OP` is for.** It changes the second word by the operation, wakes up to `val1`
waiters of the first futex and, if the comparison holds of the old value, up to `val2` waiters of
the second. It wakes and moves nobody else, and the reply is the number of those woken. -/
def WakeOpRight : Prop :=
  ∃ s₁ L₁ s₂ L₂ n,
    Woken M ipc L object1 r.offset1 r.val1.toInt.toNat s₁ L₁ ∧
    Woken M s₁ L₁ object2 r.offset2 (r.limit2 frame memory object2 cmp) s₂ L₂ ∧
    ∀ fuel ≥ n, ∃ touched, futex M resolve frame fuel junk r reply ⟨ipc, memory, []⟩ =
      (.ok (.count
        (((futexWaiters ipc L object1 r.offset1).take r.val1.toInt.toNat).length +
          ((futexWaiters s₁ L₁ object2 r.offset2).take
            (r.limit2 frame memory object2 cmp)).length)),
      ⟨s₂, r.changed frame memory object2 op, touched⟩)

/-- The store is right: an OR of numbers that share no bit is their sum. -/
def StoreRight : Prop := op = .or → r.oldval frame memory object2 &&& r.val3.oparg = 0

/-- When it works: the store is right and there is nobody to wake. -/
structure WakeOpClear : Prop where
  store : StoreRight frame r memory object2 op
  first : futexWaiters ipc L object1 r.offset1 = []
  second : cmp.holds (r.oldval frame memory object2) r.val3.cmparg = true →
    futexWaiters ipc L object2 r.offset2 = []

end Request

/-! ### What the server does -/

theorem add_eq_or_iff {w : ℕ} {x y : BitVec w} : x + y = x ||| y ↔ x &&& y = 0 := by
  refine ⟨fun h => ?_, fun h => BitVec.add_eq_or_of_and_eq_zero x y h⟩
  -- What `y` adds to `x` in the disjunction is `y` without the bits of `x`.
  have hout : x ||| y = x + (y &&& ~~~x) := by
    rw [BitVec.add_eq_or_of_and_eq_zero x (y &&& ~~~x) (by ext i; cases hx : x[i] <;> simp [hx])]
    ext i
    cases hx : x[i] <;> simp [hx]
  have hsplit : y = (y &&& ~~~x) + (x &&& y) := by
    rw [BitVec.add_eq_or_of_and_eq_zero (y &&& ~~~x) (x &&& y)
      (by ext i; cases hx : x[i] <;> simp [hx])]
    ext i
    cases hx : x[i] <;> simp [hx]
  have hsum : x + (y &&& ~~~x) + (x &&& y) = x + (y &&& ~~~x) := by
    rw [BitVec.add_assoc, ← hsplit, h, hout]
  simpa using hsum

/-- What is stored is right except for an OR. -/
theorem FutexOp.stored_eq_iff {op : FutexOp} {old arg : BitVec 32} :
    op.stored old arg = op.apply old arg ↔ (op = .or → old &&& arg = 0) := by
  cases op with
  | or => simpa [stored, apply] using add_eq_or_iff
  | set | add | andn | xor => simp [stored, apply]

/-- A word that is stored can be read back, so different words make different memories. -/
theorem putLe_word_inj {b : ByteMemory} {a : ℕ} {v v' : BitVec 32} :
    b.putLe a 4 v.toNat = b.putLe a 4 v'.toNat ↔ v = v' := by
  refine ⟨fun h => ?_, fun h => h ▸ rfl⟩
  have hread : ∀ x : BitVec 32, (b.putLe a 4 x.toNat).le a 4 = x.toNat := fun x =>
    ByteMemory.le_putLe x.isLt
  exact BitVec.eq_of_toNat_eq (by rw [← hread v, h, hread v'])

variable {resolve : ℕ → Except FutexErrno ℕ} {frame : ℕ → ℕ} {junk : Bool}
  {r : FutexArgs} {reply : Option ℕ} {ipc : Ipc W} {L : ℕ → List ℕ} {memory : ByteMemory}
  {object1 object2 : ℕ} {op : FutexOp} {cmp : FutexCmp} {fuel : ℕ}

/-- Both calls of `wake` return, if the request is answered; and the answer is 0. -/
theorem futexWakeBoth_eq_ok {comparison : Bool} {s s' : FutexState W} {x : FutexReply}
    (h : futexWakeBoth M fuel r object1 object2 comparison s = (.ok x, s')) :
    x = .count 0 ∧ s'.memory = s.memory ∧ ∃ t c,
      wake M fuel s.ipc 1 object1 r.offset1 0 none 0 = .ok (t, c) ∧
      if comparison then
        ∃ c', wake M fuel t r.val2.toInt object2 r.offset2 0 none 0 = .ok (s'.ipc, c')
      else s'.ipc = t := by
  simp only [futexWakeBoth, FutexState.wake] at h
  cases hfirst : wake M fuel s.ipc 1 object1 r.offset1 0 none 0 with
  | error e => simp [hfirst] at h
  | ok y =>
    obtain ⟨t, c⟩ := y
    simp only [hfirst, futexWakeSecond, FutexState.wake] at h
    cases comparison with
    | false =>
      obtain ⟨hx, rfl⟩ := Prod.mk.inj h
      exact ⟨(Except.ok.inj hx).symm, rfl, t, c, rfl, rfl⟩
    | true =>
      cases hsecond : wake M fuel t r.val2.toInt object2 r.offset2 0 none 0 with
      | error e => simp [hsecond, Except.map] at h
      | ok z =>
        simp only [hsecond, Except.map] at h
        obtain ⟨hx, rfl⟩ := Prod.mk.inj h
        exact ⟨(Except.ok.inj hx).symm, rfl, t, c, rfl, z.2, hsecond⟩

/-- A call of `wake` where nobody waits. -/
theorem wake_of_none (hL : Represents s.queues L)
    (h : futexWaiters s L object offset = []) (hfuel : (L object).length ≤ fuel) (toWake : ℤ) :
    wake M fuel s toWake object offset 0 none 0 = .ok (s, 0) := by
  rw [wake, hL.head_eq, ok_bind]
  refine wakeLoop_none hL (nil_append _).symm (fun x hx => ?_) hfuel
  have := filter_eq_nil_iff.1 h x hx
  simpa using this

/-- A call of `wake` that returns and finds a waiter is to wake it, and does. -/
theorem wake_of_some {s' : Ipc W} {m : ℕ} {c : ℤ}
    (hL : Represents s.queues L) (hm : m ∈ (futexWaiters s L object offset).head?)
    (h : wake M fuel s toWake object offset 0 none 0 = .ok (s', c)) :
    0 < toWake ∧ (s.messenger m).blocked = false ∧ (s'.messenger m).blocked = true := by
  rw [wake, hL.head_eq, ok_bind] at h
  exact wakeLoop_first hL (nil_append _).symm hm h

section Answered

variable (h1 : resolve (r.addr1 / pagesize) = .ok object1)
  (h2 : resolve (r.addr2 / pagesize) = .ok object2)
  (hr : FutexOperation.ofCode r.op = some .wakeOp) (hop : r.val3.op = some op)
  (hcmp : r.val3.cmp = some cmp)

include h1 h2 hr hop hcmp

/-- The request `FUTEX_WAKE_OP` with an operation and a comparison that exist. -/
theorem futex_wakeOp_eq {s : FutexState W} :
    futex M resolve frame fuel junk r reply s =
      futexWakeBoth M fuel r object1 object2
        (cmp.holds (r.oldval frame s.memory object2) r.val3.cmparg)
        ((s.read (vaddr frame object2 r.offset2)).write (vaddr frame object2 r.offset2)
          (op.stored (r.oldval frame s.memory object2) r.val3.oparg)) := by
  simp only [futex, hr, h1, futexWakeOp, h2, hcmp, FutexState.update, hop, Option.map_some,
    Option.getD_some]
  rfl

/-- Whatever becomes of the waking, the second word is what the operation makes of it exactly if the
store is right. -/
theorem futex_wakeOp_memory :
    (futex M resolve frame fuel junk r reply ⟨ipc, memory, []⟩).2.memory =
        r.changed frame memory object2 op ↔ StoreRight frame r memory object2 op := by
  have hkept : ∀ s : FutexState W, ∀ b, (futexWakeBoth M fuel r object1 object2 b s).2.memory =
      s.memory := fun s b => funext fun a => (touches_futexWakeBoth b).kept s a (by simp)
  rw [futex_wakeOp_eq h1 h2 hr hop hcmp, hkept]
  simp only [FutexState.write, FutexState.read, FutexArgs.changed, putLe_word_inj]
  exact FutexOp.stored_eq_iff

theorem WakeOpClear.right (hL : Represents ipc.queues L)
    (h : WakeOpClear frame r ipc L memory object1 object2 op cmp) :
    WakeOpRight M resolve frame junk r reply ipc L memory object1 object2 op cmp := by
  have hfirst : (futexWaiters ipc L object1 r.offset1).take r.val1.toInt.toNat = [] := by
    simp [h.first]
  have hsecond : (futexWaiters ipc L object2 r.offset2).take
      (r.limit2 frame memory object2 cmp) = [] := by
    unfold FutexArgs.limit2
    split
    · next hholds => simp [h.second hholds]
    · simp
  refine ⟨ipc, L, ipc, L, max (L object1).length (L object2).length, Woken.none hL hfirst,
    Woken.none hL hsecond, fun fuel hfuel => ?_⟩
  have hfuel1 : (L object1).length ≤ fuel := (le_max_left _ _).trans hfuel
  have hfuel2 : (L object2).length ≤ fuel := (le_max_right _ _).trans hfuel
  have hstore := FutexOp.stored_eq_iff.2 h.store
  rw [futex_wakeOp_eq h1 h2 hr hop hcmp, hfirst, hsecond]
  simp only [futexWakeBoth, FutexState.wake, FutexState.write, FutexState.read,
    wake_of_none hL h.first hfuel1, futexWakeSecond]
  refine ⟨[] ++ range' (vaddr frame object2 r.offset2) 4 ++
    range' (vaddr frame object2 r.offset2) 4, ?_⟩
  split
  · next hholds =>
    rw [wake_of_none hL (h.second hholds) hfuel2]
    simp [FutexArgs.changed, hstore, Except.map]
  · simp [FutexArgs.changed, hstore]

theorem WakeOpRight.clear (hL : Represents ipc.queues L)
    (hpage : ipc.queues.type object2 ≠ some .thread)
    (h : WakeOpRight M resolve frame junk r reply ipc L memory object1 object2 op cmp) :
    WakeOpClear frame r ipc L memory object1 object2 op cmp := by
  obtain ⟨s₁, L₁, s₂, L₂, n, hwoken1, hwoken2, hrun⟩ := h
  obtain ⟨touched, hrun⟩ := hrun (max n (L object1).length) (le_max_left ..)
  have hstore := (futex_wakeOp_memory (M := M) h1 h2 hr hop hcmp).1 (by rw [hrun])
  rw [futex_wakeOp_eq h1 h2 hr hop hcmp] at hrun
  obtain ⟨hzero, -, t, c, hfirst, hsecond⟩ := futexWakeBoth_eq_ok hrun
  -- The reply is 0, so nobody was to be woken, and the messengers are as before.
  have hcounts := FutexReply.count.inj hzero
  have hnone1 : (futexWaiters ipc L object1 r.offset1).take r.val1.toInt.toNat = [] :=
    length_eq_zero_iff.1 (by omega)
  have hnone2 : (futexWaiters s₁ L₁ object2 r.offset2).take
      (r.limit2 frame memory object2 cmp) = [] := length_eq_zero_iff.1 (by omega)
  obtain rfl := hwoken1.eq_of_none hnone1
  obtain rfl := hwoken2.eq_of_none hnone2
  have hempty : futexWaiters s₂ L object1 r.offset1 = [] := by
    by_contra hne
    obtain ⟨m, hm⟩ := Option.ne_none_iff_exists'.1 (mt head?_eq_none_iff.1 hne)
    obtain ⟨-, hbefore, hafter⟩ := wake_of_some hL hm hfirst
    have hend : (s₂.messenger m).blocked = true := by
      split at hsecond
      · obtain ⟨c', hsecond⟩ := hsecond
        obtain ⟨next, -, hloop⟩ := bind_eq_ok.1 hsecond
        exact wakeLoop_blocked hloop hafter
      · rwa [show s₂ = t from hsecond]
    rw [hbefore] at hend
    cases hend
  refine ⟨hstore, hempty, fun hholds => ?_⟩
  by_contra hne
  rw [if_pos hholds] at hsecond
  obtain ⟨c', hsecond⟩ := hsecond
  have hstays : t = s₂ := by
    have hsame := wake_of_none (M := M) hL hempty (le_max_right n _) 1
    exact (Prod.mk.inj (Except.ok.inj (hfirst.symm.trans hsame))).1
  rw [hstays] at hsecond
  have hlist : L₁ object2 = L object2 := by
    rw [hwoken1.lists object2 hpage, hnone1]
    simp
  obtain ⟨m, hm⟩ := Option.ne_none_iff_exists'.1 (mt head?_eq_none_iff.1 hne)
  obtain ⟨hlimit, -⟩ := wake_of_some hL hm hsecond
  rw [futexWaiters, hlist, FutexArgs.limit2, if_pos hholds] at hnone2
  rcases take_eq_nil_iff.1 hnone2 with hzero | hnil
  · omega
  · exact hne hnil

end Answered

end WakeOp

/-- **`FUTEX_WAKE_OP`.** For every request with an operation and a comparison that exist, all words,
limits and queues, it does what it is for exactly if the store is right and nobody is waiting who
might be woken: it wakes one waiter of the first futex whatever `val1` is, it stops on a waiter of
the second if `val2` is not positive, and it always replies 0. Apart from the waiters, the store is
right unless it is an OR of numbers that share a bit. -/
theorem wakeOp_right_iff {M : Machine W} {resolve : ℕ → Except FutexErrno ℕ} {frame : ℕ → ℕ}
    {junk : Bool} {r : FutexArgs} {reply : Option ℕ} {ipc : Ipc W} {L : ℕ → List ℕ}
    {memory : ByteMemory} {object1 object2 : ℕ} {op : FutexOp} {cmp : FutexCmp}
    (hL : Represents ipc.queues L) (h1 : resolve (r.addr1 / pagesize) = .ok object1)
    (h2 : resolve (r.addr2 / pagesize) = .ok object2)
    (hpage : ipc.queues.type object2 = some .page)
    (hr : FutexOperation.ofCode r.op = some .wakeOp) (hop : r.val3.op = some op)
    (hcmp : r.val3.cmp = some cmp) :
    (WakeOpRight M resolve frame junk r reply ipc L memory object1 object2 op cmp ↔
        WakeOpClear frame r ipc L memory object1 object2 op cmp) ∧
      ∀ fuel, ((futex M resolve frame fuel junk r reply ⟨ipc, memory, []⟩).2.memory =
          r.changed frame memory object2 op ↔ StoreRight frame r memory object2 op) :=
  ⟨⟨fun h => h.clear h1 h2 hr hop hcmp hL (by simp [hpage]),
    fun h => h.right h1 h2 hr hop hcmp hL⟩, fun _ => futex_wakeOp_memory h1 h2 hr hop hcmp⟩

/-- The request to store -1 in the second word, if nobody waits for it. -/
theorem wakeOp_right_storeAt :
    WakeOpRight threadless .ok id false { storeAt 24 with addr1 := 4 * pagesize } none twoWaiters
      twoWaitersLists (fun _ => 0) 4 4 .set .eq := by
  refine (wakeOp_right_iff twoWaiters_represents rfl rfl rfl rfl rfl rfl).1.2
    ⟨?_, rfl, fun _ => rfl⟩
  rintro ⟨⟩

/-- A request with an OR of 1 to a word that is 1, and limits 2 and 0, for two futexes with two
waiters on the first. -/
def orOne : FutexArgs where
  addr1 := 4 * pagesize + 16
  op := 2
  val1 := 2
  timeout := false
  val2 := 0
  addr2 := 5 * pagesize
  val3 := 0x20001001

/-- The word becomes 2, one of the two waiters is woken, and the reply is 0. -/
theorem orOne_wrong :
    ¬ WakeOpRight threadless .ok id false orOne none twoWaiters twoWaitersLists
        (fun a => if a = 5 * pagesize then 1 else 0) 4 5 .or .eq ∧
      (futex threadless .ok id 8 false orOne none
        ⟨twoWaiters, fun a => if a = 5 * pagesize then 1 else 0, []⟩).1 = .ok (.count 0) ∧
      (futex threadless .ok id 8 false orOne none
        ⟨twoWaiters, fun a => if a = 5 * pagesize then 1 else 0, []⟩).2.word (5 * pagesize) =
          2 := by
  refine ⟨fun h => ?_, rfl, by decide +kernel⟩
  have hclear := h.clear rfl rfl rfl rfl rfl twoWaiters_represents (by decide)
  exact absurd hclear.first (by decide)

end Viengoos
