import Viengoos.Ipc.Messenger

/-!
# Futexes

`wake` of `server.c`, which wakes waiters of one futex and moves others to a second one, while it
goes through the very queue it takes them from. A futex is a page and an offset in it; its waiters
are the messengers on the page's wait queue that wait for this offset.

The waiters it should wake and move are known beforehand: the first ones of the queue that match
(`WakeArgs.woken`, `WakeArgs.moved`). `WakeArgs.Clear` says when `wake` handles exactly these. It
does not where it is to do nothing but finds a waiter, which it moves all the same; where it moves
waiters within one futex and meets a waiter it has moved before; where a waiter does not take the
message that wakes it; and where a waiter was moved before and is not on `futex_waiters` any more.
-/

namespace Viengoos

open Outcome Function List

variable {W : Type}

/-- The messenger waits for the futex at an offset. -/
def Ipc.waitsAt (s : Ipc W) (offset : ℕ) (m : ℕ) : Bool :=
  (s.messenger m).waitReason == .futex && (s.messenger m).waitReasonArg == offset

theorem Ipc.reason_of_waitsAt {s : Ipc W} {offset m : ℕ} (h : s.waitsAt offset m = true) :
    (s.messenger m).waitReason = .futex := by
  simpa using (Bool.and_eq_true_iff.1 h).1

def Ipc.setArg (s : Ipc W) (m arg : ℕ) : Ipc W :=
  s.modify m fun g => { g with waitReasonArg := arg }

section Code

variable (M : Machine W)

/-- Take a waiter off its queue and send it the message that wakes it. -/
def wakeWaiter (s : Ipc W) (m : ℕ) : Except Fault (Ipc W) := do
  let queues ← objectWaitQueueUnlink s.queues (s.messenger m).waitReason m
  let (s, loaded) ← messengerMessageLoad M { s with queues := queues } m
  require (loaded = true) .panic
  pure s

/-- Take a waiter off its queue and let it wait for another futex. Without an object, which is what
the calls that only wake pass, this is a failed assertion. -/
def requeueWaiter (object2 : Option ℕ) (offset2 : ℕ) (s : Ipc W) (m : ℕ) :
    Except Fault (Ipc W) := do
  let queues ← objectWaitQueueUnlink s.queues (s.messenger m).waitReason m
  let s := { s with queues := queues }.setArg m offset2
  match object2 with
  | none => throw .assertion
  | some object2 => do
    let queues ← objectWaitQueueEnqueue s.queues object2 m
    pure { s with queues := queues }

/-- The loop of `wake`. The next waiter is fetched before the body runs. -/
def wakeLoop (offset1 : ℕ) (toWake : ℤ) (object2 : Option ℕ) (offset2 : ℕ) :
    ℕ → Ipc W → (count toRequeue : ℤ) → Option ℕ → Except Fault (Ipc W × ℤ)
  | _, s, count, _, none => pure (s, count)
  | 0, _, _, _, some _ => throw .outOfFuel
  | fuel + 1, s, count, toRequeue, some m => do
    let next ← objectWaitQueueNext s.queues m
    if s.waitsAt offset1 m then
      if count < toWake then do
        let s ← wakeWaiter M s m
        if count + 1 = toWake ∧ toRequeue = 0 then pure (s, count + 1)
        else wakeLoop offset1 toWake object2 offset2 fuel s (count + 1) toRequeue next
      else do
        let s ← requeueWaiter object2 offset2 s m
        if toRequeue - 1 = 0 then pure (s, count + 1)
        else wakeLoop offset1 toWake object2 offset2 fuel s (count + 1) (toRequeue - 1) next
    else wakeLoop offset1 toWake object2 offset2 fuel s count toRequeue next

/-- `wake`. -/
def wake (fuel : ℕ) (s : Ipc W) (toWake : ℤ) (object1 offset1 : ℕ) (toRequeue : ℤ)
    (object2 : Option ℕ) (offset2 : ℕ) : Except Fault (Ipc W × ℤ) := do
  wakeLoop M offset1 toWake object2 offset2 fuel s 0 toRequeue
    (← objectWaitQueueHead s.queues object1)

end Code

/-! ### One waiter -/

section Waiter

variable {M : Machine W} {s : Ipc W} {L : ℕ → List ℕ} {o m : ℕ} {pre post : List ℕ}

/-- The state after a waiter was handled: it is off `futex_waiters`, and the other messengers stay
as they are. -/
structure Handles (s : Ipc W) (s' : Ipc W) (L' : ℕ → List ℕ) (m : ℕ) : Prop where
  type : s'.queues.type = s.queues.type
  represents : Represents s'.queues L'
  others : ∀ x, x ≠ m → s'.messenger x = s.messenger x
  attached : s'.queues.attached = update s.queues.attached m false

theorem Handles.attached_of_ne {s' : Ipc W} {L' : ℕ → List ℕ} {x : ℕ} (h : Handles s s' L' m)
    (hx : x ≠ m) : s'.queues.attached x = s.queues.attached x := by
  rw [h.attached, update_of_ne hx]

section

variable (h : Represents s.queues L) (hl : L o = pre ++ m :: post)
  (hreason : (s.messenger m).waitReason = .futex)

include h hl hreason

/-- A waiter that takes messages and is on `futex_waiters` is woken. -/
theorem wakeWaiter_spec (hM : M.Proper s.queues.type) (hattached : s.queues.attached m = true)
    (hblocked : (s.messenger m).blocked = false) :
    ∃ s' L', wakeWaiter M s m = .ok s' ∧ Handles s s' L' m ∧
      ∀ p, s.queues.type p ≠ some .thread → L' p = update L o (pre ++ post) p := by
  have hm : m ∈ L o := by simp [hl]
  obtain ⟨q, hunlink, htype, -, hq', hq⟩ := h.unlink hl (iff_of_true hattached hreason)
  have hout := h.not_mem_unlink hl
  obtain ⟨w, hcopy⟩ := hM.copy s.world m none
  -- The messenger is blocked with the message in it when its thread is activated.
  obtain ⟨s', L', hact, hs'⟩ := Represents.activateIf (M := M)
    (s := ({ s with queues := q }.setBlocked m true).noteTransfer w m none)
    (by rw [← htype] at hM; exact hM) hq
    (show q.type m = _ by rw [htype]; exact h.messenger o m hm)
    (by simp [Ipc.noteTransfer, Ipc.setBlocked, Ipc.modify])
    (show (s.messenger m).activateOnReceive = true → _ from fun _ => hq.queued_eq_false hout)
  have hload : messengerMessageLoad M { s with queues := q } m = .ok (s', true) := by
    unfold messengerMessageLoad messengerLoadInternal
    rw [require_of (by simp), ok_bind, if_neg (by simp [hblocked])]
    have hflag : ((({ s with queues := q }.setBlocked m true).noteTransfer w m
        none).messenger m).activateOnReceive = (s.messenger m).activateOnReceive := by
      simp [Ipc.noteTransfer, Ipc.setBlocked, Ipc.modify]
    simp only [show ({ s with queues := q }.setBlocked m true).world = s.world from rfl, hcopy,
      ok_bind, activateBoth, hflag, hact]
    rfl
  refine ⟨s', L', ?_, ?_⟩
  · unfold wakeWaiter
    rw [hunlink, ok_bind, hload, ok_bind]
    rfl
  · have hothers : ∀ x, x ≠ m → (({ s with queues := q }.setBlocked m true).noteTransfer w m
        none).messenger x = s.messenger x := fun x hx => by
      simp [Ipc.noteTransfer, Ipc.setBlocked, Ipc.modify, hx]
    rcases hs' with ⟨rfl, rfl⟩ | ⟨-, hs'⟩
    · exact ⟨⟨htype, hq, hothers, hq'⟩, fun _ _ => rfl⟩
    · refine ⟨⟨hs'.type.trans htype, hs'.represents, fun x hx => ?_, hs'.attached.trans hq'⟩,
        fun p hp => ?_⟩
      · exact (hs'.others x hx).trans (hothers x hx)
      · exact hs'.lists p (show q.type p ≠ _ by rw [htype]; exact hp)

/-- A waiter that is not on `futex_waiters` stops the kernel. -/
theorem wakeWaiter_detached (hattached : s.queues.attached m = false) :
    wakeWaiter M s m = .error .assertion := by
  rw [wakeWaiter, hreason, h.unlink_detached hl hattached]
  rfl

/-- A waiter on `futex_waiters` is moved to the futex at an offset of the page `p`. -/
theorem requeueWaiter_spec (hattached : s.queues.attached m = true) {p : ℕ}
    (hp : s.queues.type p ≠ none) (offset2 : ℕ) :
    ∃ s', requeueWaiter (some p) offset2 s m = .ok s' ∧
      Handles s s' (update (update L o (pre ++ post)) p
        (update L o (pre ++ post) p ++ [m])) m ∧
      s'.messenger m = { s.messenger m with waitReasonArg := offset2 } := by
  have hm : m ∈ L o := by simp [hl]
  obtain ⟨q, hunlink, htype, -, hout, hq⟩ := h.unlink hl (iff_of_true hattached hreason)
  obtain ⟨q', henq, htype', hsame, hq'⟩ := hq.enqueue (o := p) (m := m)
    (by rw [htype]; exact h.messenger o m hm) (by rw [htype]; exact hp) (h.not_mem_unlink hl)
  refine ⟨{ s.setArg m offset2 with queues := q' }, ?_,
    ⟨htype'.trans htype, hq', fun x hx => ?_, hsame.trans hout⟩, ?_⟩
  · unfold requeueWaiter
    rw [hunlink, ok_bind]
    dsimp only
    rw [show (Ipc.setArg { s with queues := q } m offset2).queues = q from rfl, henq]
    rfl
  · exact update_of_ne hx ..
  · exact update_self ..

theorem requeueWaiter_detached (hattached : s.queues.attached m = false) (object2 : Option ℕ)
    (offset2 : ℕ) : requeueWaiter object2 offset2 s m = .error .assertion := by
  rw [requeueWaiter, hreason, h.unlink_detached hl hattached]
  rfl

end

end Waiter

/-! ### The loop -/

variable {n x : ℕ} {L' : ℕ → List ℕ}

section Loop

variable {M : Machine W} {s s' : Ipc W} {L : ℕ → List ℕ} {o m offset1 offset2 p : ℕ}
  {toWake count toRequeue : ℤ} {kept rest back : List ℕ} {object2 : Option ℕ}

section

variable (h : Represents s.queues L) (hl : L o = kept ++ m :: rest)

include h hl

/-- The loop passes over a waiter that does not match. -/
theorem wakeLoop_skip (hm : s.waitsAt offset1 m = false) (fuel : ℕ) :
    wakeLoop M offset1 toWake object2 offset2 (fuel + 1) s count toRequeue (some m) =
      wakeLoop M offset1 toWake object2 offset2 fuel s count toRequeue rest.head? := by
  simp [wakeLoop, h.next_eq hl, hm]

/-- The loop wakes a waiter that matches. -/
theorem wakeLoop_wake (hm : s.waitsAt offset1 m = true) (hcount : count < toWake) (fuel : ℕ) :
    wakeLoop M offset1 toWake object2 offset2 (fuel + 1) s count toRequeue (some m) =
      wakeWaiter M s m >>= fun s =>
        if count + 1 = toWake ∧ toRequeue = 0 then pure (s, count + 1)
        else wakeLoop M offset1 toWake object2 offset2 fuel s (count + 1) toRequeue rest.head? := by
  simp [wakeLoop, h.next_eq hl, hm, hcount]

/-- The loop moves a waiter that matches. -/
theorem wakeLoop_move (hm : s.waitsAt offset1 m = true) (hcount : ¬ count < toWake) (fuel : ℕ) :
    wakeLoop M offset1 toWake object2 offset2 (fuel + 1) s count toRequeue (some m) =
      requeueWaiter object2 offset2 s m >>= fun s =>
        if toRequeue - 1 = 0 then pure (s, count + 1)
        else wakeLoop M offset1 toWake object2 offset2 fuel s (count + 1) (toRequeue - 1)
          rest.head? := by
  simp [wakeLoop, h.next_eq hl, hm, hcount]

end

variable {fuel r w : ℕ} {l : List ℕ} {c : ℤ}

/-- The loop goes to the end if nobody matches. -/
theorem wakeLoop_none (h : Represents s.queues L) (hl : L o = kept ++ rest)
    (hrest : ∀ x ∈ rest, s.waitsAt offset1 x = false) (hfuel : rest.length ≤ fuel) :
    wakeLoop M offset1 toWake object2 offset2 fuel s count toRequeue rest.head? =
      .ok (s, count) := by
  induction rest generalizing kept fuel with
  | nil => cases fuel <;> rfl
  | cons m rest ih =>
    obtain ⟨fuel, rfl⟩ : ∃ n, fuel = n + 1 := ⟨fuel - 1, by simp at hfuel; omega⟩
    rw [head?_cons, wakeLoop_skip h hl (hrest m (mem_cons_self ..))]
    have hl' : L o = (kept ++ [m]) ++ rest := by simp [hl]
    exact ih hl' (fun x hx => hrest x (mem_cons_of_mem m hx)) (by simpa using hfuel)

/-- Handling one waiter does not change whom the others wait for. -/
theorem Handles.waitsAt (h : Handles s s' L' m) (hx : x ≠ m)
    (offset : ℕ) : s'.waitsAt offset x = s.waitsAt offset x := by
  rw [Ipc.waitsAt, Ipc.waitsAt, h.others x hx]

theorem Handles.filter_waitsAt (h : Handles s s' L' m) (hm : m ∉ l)
    (offset : ℕ) : l.filter (s'.waitsAt offset) = l.filter (s.waitsAt offset) :=
  filter_congr fun _ hx => h.waitsAt (fun e => hm (e ▸ hx)) offset

/-- The loop does not meet a waiter it has moved: it moves to another futex, or it is done before
it gets there, or the one waiter it moves is the last of the queue, where the loop ends. -/
def NoReturn (s : Ipc W) (o offset1 p offset2 : ℕ) (rest back : List ℕ) (r : ℕ) : Prop :=
  ((∀ x ∈ back, s.waitsAt offset1 x = false) ∧ (p = o → offset2 ≠ offset1)) ∨
  r ≤ (rest.filter (s.waitsAt offset1)).length ∨
  (back = [] ∧ rest.dropLast.filter (s.waitsAt offset1) = [])

/-- The loop goes on from a waiter that it does not move. -/
theorem NoReturn.skip (h : NoReturn s o offset1 p offset2 (m :: rest) back r)
    (hmatch : s.waitsAt offset1 m = false) : NoReturn s o offset1 p offset2 rest back r := by
  rcases h with hother | hle | ⟨rfl, hlast⟩
  · exact .inl hother
  · exact .inr (.inl (by simpa [hmatch] using hle))
  · refine .inr (.inr ⟨rfl, ?_⟩)
    cases rest with
    | nil => rfl
    | cons x rest => simpa [hmatch] using hlast

/-- The loop goes on from a waiter that it moves, which then comes last if it stays on the page. -/
theorem NoReturn.move (h : NoReturn s o offset1 p offset2 (m :: rest) back (r + 1))
    (hmatch : s.waitsAt offset1 m = true) (hs' : Handles s s' L' m)
    (hself : s'.messenger m = { s.messenger m with waitReasonArg := offset2 })
    (hrest : m ∉ rest) (hback : m ∉ back) (hend : ¬(p = o ∧ rest ++ back = [])) :
    NoReturn s' o offset1 p offset2 rest (if p = o then back ++ [m] else back) r := by
  rcases h with ⟨hother, hne⟩ | hle | ⟨rfl, hlast⟩
  · refine .inl ⟨fun y hy => ?_, hne⟩
    by_cases hy' : y ∈ back
    · rw [hs'.waitsAt (fun e => hback (e ▸ hy')), hother y hy']
    · -- the waiter itself waits for the other futex now
      have hpo : p = o := by
        by_contra hpo
        exact hy' (by rwa [if_neg hpo] at hy)
      obtain rfl : y = m := by simpa [hpo, hy'] using hy
      simp [Ipc.waitsAt, hself, hne hpo]
  · refine .inr (.inl ?_)
    rw [filter_cons_of_pos hmatch, length_cons] at hle
    rw [hs'.filter_waitsAt hrest]
    omega
  · cases rest with
    | cons y rest => simp [hmatch] at hlast
    | nil => exact .inl (by simp_all)

/-- **The loop moves waiters.** The queue is what the loop has passed, `kept`, what it has not seen,
`rest`, and, where it moves waiters within one page, those it has moved, `back`. -/
theorem wakeLoop_moves (h : Represents s.queues L) (hp : s.queues.type p ≠ none)
    (hl : L o = kept ++ (rest ++ back)) (hl' : rest.filter (s.waitsAt offset1) = l)
    (hcount : ¬ count < toWake) (hr : 0 < r)
    (hreturn : NoReturn s o offset1 p offset2 rest back r)
    (hattached : ∀ m ∈ l.take r, s.queues.attached m = true) :
    ∃ s' n, (l.take r).foldlM (requeueWaiter (some p) offset2) s = .ok s' ∧
      ∀ fuel ≥ n, wakeLoop M offset1 toWake (some p) offset2 fuel s count r (rest ++ back).head? =
        .ok (s', count + (l.take r).length) := by
  induction rest generalizing s L kept back count r l with
  | nil =>
    subst hl'
    refine ⟨s, back.length, by simp [pure, Except.pure], fun fuel hfuel => ?_⟩
    have hnone : ∀ x ∈ back, s.waitsAt offset1 x = false := by
      rcases hreturn with ⟨hback, -⟩ | hle | ⟨rfl, -⟩
      · exact hback
      · simp at hle
        omega
      · simp
    rw [wakeLoop_none h hl hnone hfuel]
    simp
  | cons m rest ih =>
    have hnodup := h.nodup o
    rw [hl, cons_append, nodup_middle, nodup_cons] at hnodup
    have hmrest : m ∉ rest := fun hm => hnodup.1 (by simp [hm])
    have hmback : m ∉ back := fun hm => hnodup.1 (by simp [hm])
    cases hmatch : s.waitsAt offset1 m with
    | false =>
      have hfilter : (m :: rest).filter (s.waitsAt offset1) = rest.filter (s.waitsAt offset1) := by
        simp [hmatch]
      have hl₁ : L o = (kept ++ [m]) ++ (rest ++ back) := by simp [hl]
      obtain ⟨s', n, hmoves, hloop⟩ := ih h hp hl₁ (hfilter.symm.trans hl') hcount hr
        (hreturn.skip hmatch) hattached
      refine ⟨s', n + 1, hmoves, fun fuel hfuel => ?_⟩
      obtain ⟨fuel, rfl⟩ : ∃ k, fuel = k + 1 := ⟨fuel - 1, by omega⟩
      rw [cons_append, head?_cons, wakeLoop_skip h (by rw [hl, cons_append]) hmatch]
      exact hloop fuel (by omega)
    | true =>
      obtain ⟨l, rfl, hrest⟩ : ∃ k, l = m :: k ∧ rest.filter (s.waitsAt offset1) = k :=
        ⟨_, by rw [← hl', filter_cons_of_pos hmatch], rfl⟩
      obtain ⟨r, rfl⟩ : ∃ k, r = k + 1 := ⟨r - 1, by omega⟩
      rw [take_succ_cons] at hattached ⊢
      obtain ⟨s₁, hmove, hs₁, hself⟩ := requeueWaiter_spec h (by rw [hl, cons_append])
        (Ipc.reason_of_waitsAt hmatch) (hattached m (mem_cons_self ..)) hp offset2
      have hkeep := (hs₁.filter_waitsAt hmrest offset1).trans hrest
      have hattached' : ∀ x ∈ l.take r, s₁.queues.attached x = true := by
        intro x hx
        have hxm : x ≠ m := by
          rintro rfl
          exact hmrest (mem_filter.1 (hrest ▸ mem_of_mem_take hx)).1
        rw [hs₁.attached_of_ne hxm]
        exact hattached x (mem_cons_of_mem m hx)
      -- What is left to do after this waiter, for the state it leaves.
      have hgo : ∃ s' n, (l.take r).foldlM (requeueWaiter (some p) offset2) s₁ = .ok s' ∧
          ∀ fuel ≥ n, (if (((r + 1 : ℕ) : ℤ) - 1) = 0 then pure (s₁, count + 1)
            else wakeLoop M offset1 toWake (some p) offset2 fuel s₁ (count + 1)
              (((r + 1 : ℕ) : ℤ) - 1) (rest ++ back).head?) =
            .ok (s', count + 1 + (l.take r).length) := by
        rcases Nat.eq_zero_or_pos r with rfl | hr'
        · exact ⟨s₁, 0, by simp [pure, Except.pure], fun fuel _ => by simp [pure, Except.pure]⟩
        have hnext : (((r + 1 : ℕ) : ℤ) - 1) = r := by omega
        simp only [hnext, Int.natCast_eq_zero, hr'.ne', if_false]
        have hcount' : ¬ count + 1 < toWake := by omega
        have hp' : s₁.queues.type p ≠ none := by rw [hs₁.type]; exact hp
        by_cases hend : p = o ∧ rest ++ back = []
        · -- The waiter was the last of the queue: the loop ends, though it is there again.
          obtain ⟨rfl, rfl⟩ := append_eq_nil_iff.1 hend.2
          obtain rfl := hrest
          exact ⟨s₁, 0, by simp [pure, Except.pure], fun fuel _ => by
            cases fuel <;> simp [wakeLoop]⟩
        have hl₁ : update (update L o (kept ++ (rest ++ back))) p
            (update L o (kept ++ (rest ++ back)) p ++ [m]) o =
            kept ++ (rest ++ if p = o then back ++ [m] else back) := by
          split
          · next hpo => simp [hpo]
          · next hpo => rw [update_of_ne (Ne.symm hpo), update_self]
        obtain ⟨s', n, hmoves, hloop⟩ := ih hs₁.represents hp' hl₁ hkeep hcount' hr'
          (hreturn.move hmatch hs₁ hself hmrest hmback hend) hattached'
        refine ⟨s', n, hmoves, fun fuel hfuel => ?_⟩
        rw [← hloop fuel hfuel]
        congr 1
        split
        · next hpo =>
          rw [← append_assoc, head?_append_of_ne_nil _ fun hnil => hend ⟨hpo, hnil⟩]
        · rfl
      obtain ⟨s', n, hmoves, hloop⟩ := hgo
      refine ⟨s', n + 1, ?_, fun fuel hfuel => ?_⟩
      · rw [foldlM_cons, hmove, ok_bind, hmoves]
      · obtain ⟨fuel, rfl⟩ : ∃ k, fuel = k + 1 := ⟨fuel - 1, by omega⟩
        rw [cons_append, head?_cons,
          wakeLoop_move h (by rw [hl, cons_append]) hmatch hcount, hmove, ok_bind,
          hloop fuel (by omega)]
        simp only [length_cons, Nat.cast_add, Nat.cast_one]
        congr 2
        ring

/-- As `NoReturn`, for a loop that first wakes `w` waiters. -/
def NoReturnAfter (s : Ipc W) (o offset1 p offset2 : ℕ) (rest : List ℕ) (w r : ℕ) : Prop :=
  (p = o → offset2 ≠ offset1) ∨
  r ≤ ((rest.filter (s.waitsAt offset1)).drop w).length ∨
  ∀ m ∈ ((rest.filter (s.waitsAt offset1)).drop w).head?, rest.getLast? = some m

/-- A list has no match before its last element just if its first match is its last element. -/
theorem filter_dropLast_eq_nil_iff {q : ℕ → Bool} (hl : l.Nodup) :
    l.dropLast.filter q = [] ↔ ∀ m ∈ (l.filter q).head?, l.getLast? = some m := by
  rcases eq_nil_or_concat' l with rfl | ⟨l, z, rfl⟩
  · simp
  rw [dropLast_concat, getLast?_concat, filter_append]
  refine ⟨fun hnil m hm => ?_, fun h => ?_⟩
  · rw [hnil, nil_append] at hm
    rw [mem_singleton.1 (mem_filter.1 (mem_of_mem_head? hm)).1]
  · by_contra hne
    obtain ⟨x, hx⟩ : ∃ x, (l.filter q).head? = some x := ⟨_, head?_eq_some_head hne⟩
    have hz : z = x := by simpa using h x (by rw [head?_append, hx]; rfl)
    have hxl : x ∈ l := (mem_filter.1 (mem_of_mem_head? hx)).1
    exact (nodup_append.1 hl).2.2 x hxl z (by simp) hz.symm

theorem getLast?_of_suffix {l' : List ℕ} (h : l' <:+ l) (hm : m ∈ l') :
    l'.getLast? = l.getLast? := by
  obtain ⟨u, rfl⟩ := h
  exact (getLast?_append_of_ne_nil _ (ne_nil_of_mem hm)).symm

variable (offset2 toRequeue object2) in
/-- **The loop wakes waiters**: it goes on from the state in which they are woken, with what it has
not seen, or it ends there if no more is to be done. -/
theorem wakeLoop_wakes (hM : M.Proper s.queues.type) (h : Represents s.queues L)
    (ho : s.queues.type o ≠ some .thread) (hl : L o = kept ++ rest)
    (hl' : rest.filter (s.waitsAt offset1) = l) (htoWake : toWake = count + w)
    (hready : ∀ m ∈ l.take w,
      s.queues.attached m = true ∧ (s.messenger m).blocked = false) :
    ∃ t L' kept' rest' k, (l.take w).foldlM (wakeWaiter M) s = .ok t ∧
      Represents t.queues L' ∧ t.queues.type = s.queues.type ∧
      (∀ x ∉ l.take w, t.queues.attached x = s.queues.attached x) ∧ L' o = kept' ++ rest' ∧
      rest' <:+ rest ∧ rest'.filter (t.waitsAt offset1) = l.drop w ∧
      ∀ fuel, wakeLoop M offset1 toWake object2 offset2 (fuel + k) s count toRequeue rest.head? =
        if (0 < w ∧ w ≤ l.length) ∧ toRequeue = 0 then .ok (t, count + (l.take w).length)
        else wakeLoop M offset1 toWake object2 offset2 fuel t (count + (l.take w).length) toRequeue
          rest'.head? := by
  induction rest generalizing s L kept count w l with
  | nil =>
    subst hl'
    refine ⟨s, L, kept, [], 0, by simp [pure, Except.pure], h, rfl, fun _ _ => rfl, hl, suffix_rfl,
      by simp, fun fuel => ?_⟩
    rw [if_neg (by simp; omega)]
    simp
  | cons m rest ih =>
    rcases Nat.eq_zero_or_pos w with rfl | hw
    · exact ⟨s, L, kept, m :: rest, 0, by simp [pure, Except.pure], h, rfl, fun _ _ => rfl, hl,
        suffix_rfl, by simpa using hl', fun fuel => by simp⟩
    have hnodup := h.nodup o
    rw [hl, nodup_middle, nodup_cons] at hnodup
    have hmrest : m ∉ rest := fun hm => hnodup.1 (by simp [hm])
    cases hmatch : s.waitsAt offset1 m with
    | false =>
      rw [filter_cons_of_neg (by simp [hmatch])] at hl'
      have hl₁ : L o = (kept ++ [m]) ++ rest := by simp [hl]
      obtain ⟨t, L', kept', rest', k, hwakes, ht, htype, hkept, hlt, hsuffix, hdrop, hloop⟩ :=
        ih hM h ho hl₁ hl' htoWake hready
      refine ⟨t, L', kept', rest', k + 1, hwakes, ht, htype, hkept, hlt,
        hsuffix.trans (suffix_cons ..), hdrop, fun fuel => ?_⟩
      rw [head?_cons, ← Nat.add_assoc, wakeLoop_skip h hl hmatch]
      exact hloop fuel
    | true =>
      obtain ⟨l, rfl, hrest⟩ : ∃ k, l = m :: k ∧ rest.filter (s.waitsAt offset1) = k :=
        ⟨_, by rw [← hl', filter_cons_of_pos hmatch], rfl⟩
      obtain ⟨w, rfl⟩ : ∃ k, w = k + 1 := ⟨w - 1, by omega⟩
      rw [take_succ_cons] at hready
      obtain ⟨hattached, hblocked⟩ := hready m (mem_cons_self ..)
      obtain ⟨s₁, L₁, hwake, hs₁, hlists⟩ := wakeWaiter_spec h hl (Ipc.reason_of_waitsAt hmatch) hM
        hattached hblocked
      have hl₁ : L₁ o = kept ++ rest := by rw [hlists o ho, update_self]
      have htoWake' : toWake = count + 1 + w := by omega
      obtain ⟨t, L', kept', rest', k, hwakes, ht, htype, hkept, hlt, hsuffix, hdrop, hloop⟩ := ih
        (by rw [hs₁.type]; exact hM) hs₁.represents (by rw [hs₁.type]; exact ho) hl₁
        ((hs₁.filter_waitsAt hmrest offset1).trans hrest) htoWake'
        (fun x hx => by
          have hxm : x ≠ m := by
            rintro rfl
            exact hmrest (mem_filter.1 (hrest ▸ mem_of_mem_take hx)).1
          rw [hs₁.others x hxm, hs₁.attached_of_ne hxm]
          exact hready x (mem_cons_of_mem m hx))
      rw [take_succ_cons, drop_succ_cons]
      refine ⟨t, L', kept', rest', k + 1, ?_, ht, htype.trans hs₁.type, fun x hx => ?_, hlt,
        hsuffix.trans (suffix_cons ..), hdrop, fun fuel => ?_⟩
      · rw [foldlM_cons, hwake, ok_bind, hwakes]
      · rw [mem_cons, not_or] at hx
        rw [hkept x hx.2, hs₁.attached_of_ne hx.1]
      · have hsum : count + ((m :: l.take w).length : ℕ) = count + 1 + (l.take w).length := by
          rw [length_cons]
          push_cast
          ring
        rw [head?_cons, ← Nat.add_assoc, wakeLoop_wake h hl hmatch (by omega), hwake, ok_bind,
          hsum, length_cons]
        by_cases hdone : w = 0 ∧ toRequeue = 0
        · -- This waiter is the last one, and none is to be moved.
          obtain ⟨rfl, rfl⟩ := hdone
          obtain rfl : s₁ = t := by simpa using hwakes
          rw [if_pos ⟨by omega, rfl⟩, if_pos ⟨by omega, rfl⟩]
          simp [pure, Except.pure]
        · rw [if_neg (by omega), hloop fuel]
          exact if_congr (by omega) rfl rfl

/-- What `NoReturnAfter` says of what is left when the waiters were woken. -/
theorem NoReturnAfter.noReturn {t : Ipc W} {rest' : List ℕ} (hnodup : rest'.Nodup)
    (hsuffix : rest' <:+ rest)
    (hdrop : rest'.filter (t.waitsAt offset1) = (rest.filter (s.waitsAt offset1)).drop w)
    (h : NoReturnAfter s o offset1 p offset2 rest w r) :
    NoReturn t o offset1 p offset2 rest' [] r := by
  rw [NoReturnAfter, ← hdrop] at h
  rcases h with hne | hle | hlast
  · exact .inl ⟨by simp, hne⟩
  · exact .inr (.inl hle)
  · refine .inr (.inr ⟨rfl, (filter_dropLast_eq_nil_iff hnodup).2 fun m hm => ?_⟩)
    rw [← hlast m hm, getLast?_of_suffix hsuffix (mem_filter.1 (mem_of_mem_head? hm)).1]

/-- **The whole loop** wakes waiters, and then moves some. -/
theorem wakeLoop_handles (hM : M.Proper s.queues.type) (h : Represents s.queues L)
    (ho : s.queues.type o ≠ some .thread) (hl : L o = kept ++ rest)
    (hl' : rest.filter (s.waitsAt offset1) = l) (htoWake : toWake = count + w)
    (hbusy : l ≠ [] → 0 < w ∨ 0 < r) (hobject2 : 0 < r → ∃ p, object2 = some p)
    (hp : ∀ p, object2 = some p → s.queues.type p ≠ none)
    (hready : ∀ m ∈ l.take w, s.queues.attached m = true ∧ (s.messenger m).blocked = false)
    (hattached : ∀ m ∈ (l.drop w).take r, s.queues.attached m = true)
    (hreturn : ∀ p, object2 = some p → NoReturnAfter s o offset1 p offset2 rest w r) :
    ∃ s₁ s' n, (l.take w).foldlM (wakeWaiter M) s = .ok s₁ ∧
      ((l.drop w).take r).foldlM (requeueWaiter object2 offset2) s₁ = .ok s' ∧
      ∀ fuel ≥ n, wakeLoop M offset1 toWake object2 offset2 fuel s count r rest.head? =
        .ok (s', count + (l.take w).length + ((l.drop w).take r).length) := by
  obtain ⟨t, L', kept', rest', k, hwakes, ht, htype, hkept, hlt, hsuffix, hdrop, hloop⟩ :=
    wakeLoop_wakes offset2 r object2 hM h ho hl hl' htoWake hready
  have hfuel : ∀ {n fuel : ℕ}, n + k ≤ fuel → ∃ j ≥ n, fuel = j + k := fun {n fuel} hn =>
    ⟨fuel - k, by omega, by omega⟩
  by_cases hnone : rest'.filter (t.waitsAt offset1) = []
  · -- Nobody is left to be moved.
    rw [← hdrop, hnone]
    refine ⟨t, t, rest'.length + k, hwakes, by simp [pure, Except.pure], fun fuel hle => ?_⟩
    obtain ⟨fuel, hle', rfl⟩ := hfuel hle
    have hend : ∀ x ∈ rest', t.waitsAt offset1 x = false := fun x hx => by
      simpa using filter_eq_nil_iff.1 hnone x hx
    rw [hloop fuel, wakeLoop_none ht hlt hend hle', ite_self]
    simp
  · have hlt' : w < l.length := by
      by_contra hle
      exact hnone (hdrop.trans (drop_eq_nil_of_le (by omega)))
    have hlen : (l.take w).length = w := length_take_of_le hlt'.le
    rcases Nat.eq_zero_or_pos r with rfl | hr
    · have hw : 0 < w := (hbusy (ne_nil_of_length_pos (by omega))).resolve_right (by omega)
      refine ⟨t, t, 0 + k, hwakes, by simp [pure, Except.pure], fun fuel hle => ?_⟩
      obtain ⟨fuel, -, rfl⟩ := hfuel hle
      rw [hloop fuel, if_pos ⟨⟨hw, hlt'.le⟩, rfl⟩]
      simp
    · obtain ⟨p, rfl⟩ := hobject2 hr
      have hnodup : rest'.Nodup := (nodup_append.1 (hlt ▸ ht.nodup o)).2.1
      have hcount : ¬ count + (l.take w).length < toWake := by
        omega
      have hl₁ : L' o = kept' ++ (rest' ++ []) := by simpa using hlt
      have hreturn' := hreturn p rfl
      have hattached' : ∀ m ∈ (l.drop w).take r, t.queues.attached m = true := by
        intro m hm
        have hlnodup : l.Nodup := hl' ▸ (nodup_append.1 (hl ▸ h.nodup o)).2.1.filter _
        rw [← take_append_drop w l, nodup_append] at hlnodup
        rw [hkept m fun hw => hlnodup.2.2 m hw m (mem_of_mem_take hm) rfl]
        exact hattached m hm
      obtain ⟨s', n, hmoves, hrun⟩ := wakeLoop_moves (M := M) ht
        (by rw [htype]; exact hp p rfl) hl₁ hdrop hcount hr
        (hreturn'.noReturn hnodup hsuffix (by rw [hdrop, hl'])) hattached'
      refine ⟨t, s', n + k, hwakes, hmoves, fun fuel hle => ?_⟩
      obtain ⟨fuel, hle', rfl⟩ := hfuel hle
      rw [hloop fuel, if_neg (by omega)]
      simpa using hrun fuel hle'

/-! ### What becomes of the queues -/

/-- Taking one waiter out is filtering it out. -/
theorem Represents.update_eq_filter {q : WaitQueues} (h : Represents q L)
    (hl : L o = kept ++ m :: rest) (x : ℕ) :
    update L o (kept ++ rest) x = (L x).filter (· ≠ m) := by
  have hkeep : ∀ l : List ℕ, m ∉ l → l.filter (· ≠ m) = l := fun l hm =>
    filter_eq_self.2 fun y hy => by simpa using fun e : y = m => hm (e ▸ hy)
  by_cases hx : x = o
  · subst hx
    have hnodup := h.nodup x
    rw [hl, nodup_middle, nodup_cons] at hnodup
    have hout := hnodup.1
    rw [mem_append, not_or] at hout
    rw [update_self, hl, filter_append, filter_cons_of_neg (by simp),
      hkeep kept hout.1, hkeep rest hout.2]
  · rw [update_of_ne hx]
    exact (hkeep _ fun hm => hx (h.disjoint x o m hm (by simp [hl]))).symm

theorem filter_ne_filter_not_mem (l l' : List ℕ) (m : ℕ) :
    (l.filter (· ≠ m)).filter (· ∉ l') = l.filter (· ∉ m :: l') := by
  rw [filter_filter]
  exact filter_congr fun x _ => by simp [Bool.and_comm]

/-- The waiters of the page `o` that are woken are on `futex_waiters`, take messages, and leave its
queue; other pages and other messengers do not change. -/
theorem foldlM_wakeWaiter (hM : M.Proper s.queues.type) (h : Represents s.queues L)
    (ho : s.queues.type o ≠ some .thread) (hl : l ⊆ L o) (hnodup : l.Nodup)
    (hreason : ∀ m ∈ l, (s.messenger m).waitReason = .futex)
    (hrun : l.foldlM (wakeWaiter M) s = .ok s') :
    (∀ m ∈ l, s.queues.attached m = true ∧ (s.messenger m).blocked = false) ∧
    ∃ L', Represents s'.queues L' ∧ s'.queues.type = s.queues.type ∧
      (∀ x, s.queues.type x ≠ some .thread → L' x = (L x).filter (· ∉ l)) ∧
      ∀ x ∉ l, s'.messenger x = s.messenger x ∧ s'.queues.attached x = s.queues.attached x := by
  induction l generalizing s L with
  | nil =>
    obtain rfl : s = s' := by simpa using hrun
    exact ⟨by simp, L, h, rfl, by simp, fun _ _ => ⟨rfl, rfl⟩⟩
  | cons m l ih =>
    obtain ⟨hml, hnodup⟩ := nodup_cons.1 hnodup
    obtain ⟨kept, rest, hsplit⟩ := append_of_mem (hl (mem_cons_self ..))
    obtain ⟨t, hwake, hrest⟩ := bind_eq_ok.1 (foldlM_cons (f := wakeWaiter M) ▸ hrun)
    have hm : (s.messenger m).blocked = false := by
      by_contra hblocked
      obtain ⟨q, -, hload⟩ := bind_eq_ok.1 hwake
      rw [messengerMessageLoad, load_refused (by simp) (by simpa using hblocked), ok_bind] at hload
      simp [require, bind, Except.bind] at hload
    have hfutex := hreason m (mem_cons_self ..)
    have hattached : s.queues.attached m = true := by
      by_contra hout
      rw [wakeWaiter_detached h hsplit hfutex (by simpa using hout)] at hwake
      cases hwake
    obtain ⟨t', L₁, hwake', ht, hlists⟩ := wakeWaiter_spec h hsplit hfutex hM hattached hm
    obtain rfl : t' = t := Except.ok.inj (hwake'.symm.trans hwake)
    have hL₁ : ∀ x, s.queues.type x ≠ some .thread → L₁ x = (L x).filter (· ≠ m) :=
      fun x hx => (hlists x hx).trans (h.update_eq_filter hsplit x)
    have hne : ∀ x ∈ l, x ≠ m := fun x hx e => hml (e ▸ hx)
    obtain ⟨hready, L', hL', htype, hfilter, hothers⟩ := ih (by rw [ht.type]; exact hM)
      ht.represents (by rw [ht.type]; exact ho)
      (fun x hx => by
        rw [hL₁ o ho, mem_filter]
        exact ⟨hl (mem_cons_of_mem m hx), by simpa using hne x hx⟩)
      hnodup
      (fun x hx => by
        rw [ht.others x (hne x hx)]
        exact hreason x (mem_cons_of_mem m hx)) hrest
    refine ⟨fun x hx => ?_, L', hL', htype.trans ht.type, fun x hx => ?_, fun x hx => ?_⟩
    · rcases mem_cons.1 hx with rfl | hx
      · exact ⟨hattached, hm⟩
      · rw [← ht.others x (hne x hx), ← ht.attached_of_ne (hne x hx)]
        exact hready x hx
    · rw [hfilter x (by rw [ht.type]; exact hx), hL₁ x hx, filter_ne_filter_not_mem]
    · rw [mem_cons, not_or] at hx
      rw [(hothers x hx.2).1, (hothers x hx.2).2, ht.others x hx.1, ht.attached_of_ne hx.1]
      exact ⟨rfl, rfl⟩

/-- The waiters of the page `o` that are moved are on `futex_waiters`, and go to the end of the
queue of the page `p`. -/
theorem foldlM_requeueWaiter (h : Represents s.queues L) (hp : s.queues.type p ≠ none)
    (hl : l ⊆ L o) (hnodup : l.Nodup) (hreason : ∀ m ∈ l, (s.messenger m).waitReason = .futex)
    (hrun : l.foldlM (requeueWaiter (some p) offset2) s = .ok s') :
    (∀ m ∈ l, s.queues.attached m = true) ∧
      Represents s'.queues (fun x => (L x).filter (· ∉ l) ++ if x = p then l else []) ∧
      s'.queues.type = s.queues.type ∧
      (∀ x ∉ l, s'.messenger x = s.messenger x) ∧
      ∀ x ∈ l, s'.messenger x = { s.messenger x with waitReasonArg := offset2 } := by
  induction l generalizing s L with
  | nil =>
    obtain rfl : s = s' := by simpa using hrun
    exact ⟨by simp, by simpa using h, rfl, fun _ _ => rfl, by simp⟩
  | cons m l ih =>
    obtain ⟨hml, hnodup⟩ := nodup_cons.1 hnodup
    obtain ⟨kept, rest, hsplit⟩ := append_of_mem (hl (mem_cons_self ..))
    have hfutex := hreason m (mem_cons_self ..)
    have hattached : s.queues.attached m = true := by
      by_contra hout
      rw [foldlM_cons, requeueWaiter_detached h hsplit hfutex (by simpa using hout)] at hrun
      cases hrun
    obtain ⟨t, hmove, ht, hself⟩ := requeueWaiter_spec h hsplit hfutex hattached hp offset2
    have hne : ∀ x ∈ l, x ≠ m := fun x hx e => hml (e ▸ hx)
    have hL₁ : ∀ x, update (update L o (kept ++ rest)) p
        (update L o (kept ++ rest) p ++ [m]) x =
        (L x).filter (· ≠ m) ++ if x = p then [m] else [] := by
      intro x
      by_cases hx : x = p
      · subst hx
        rw [update_self, h.update_eq_filter hsplit, if_pos rfl]
      · rw [update_of_ne hx, h.update_eq_filter hsplit, if_neg hx, append_nil]
    rw [foldlM_cons, hmove, ok_bind] at hrun
    obtain ⟨hready, hL', htype, hothers, hmoved⟩ := ih ht.represents (by rw [ht.type]; exact hp)
      (fun x hx => by
        rw [hL₁ o, mem_append, mem_filter]
        exact .inl ⟨hl (mem_cons_of_mem m hx), by simpa using hne x hx⟩)
      hnodup
      (fun x hx => by
        rw [ht.others x (hne x hx)]
        exact hreason x (mem_cons_of_mem m hx)) hrun
    refine ⟨fun x hx => ?_, ?_, htype.trans ht.type, fun x hx => ?_, fun x hx => ?_⟩
    · rcases mem_cons.1 hx with rfl | hx
      · exact hattached
      · rw [← ht.attached_of_ne (hne x hx)]
        exact hready x hx
    · refine cast (congrArg _ (funext fun x => ?_)) hL'
      rw [hL₁ x, filter_append, filter_ne_filter_not_mem]
      by_cases hx : x = p
      · simp [hx, hml]
      · simp [hx]
    · rw [mem_cons, not_or] at hx
      rw [hothers x hx.2, ht.others x hx.1]
    · rcases mem_cons.1 hx with rfl | hx
      · rw [hothers x hml, hself]
      · rw [hmoved x hx, ht.others x (hne x hx)]

/-! ### Where the loop goes wrong -/

/-- The count never goes down. -/
theorem wakeLoop_count_le {next : Option ℕ}
    (hrun : wakeLoop M offset1 toWake object2 offset2 fuel s count toRequeue next = .ok (s', c)) :
    count ≤ c := by
  induction fuel generalizing s count toRequeue next with
  | zero =>
    cases next with
    | none => exact (Prod.mk.inj (Except.ok.inj hrun)).2.le
    | some m => simp [wakeLoop, throw, throwThe, MonadExceptOf.throw] at hrun
  | succ fuel ih =>
    cases next with
    | none => exact (Prod.mk.inj (Except.ok.inj hrun)).2.le
    | some m =>
      rw [wakeLoop, bind_eq_ok] at hrun
      obtain ⟨next', -, hrun⟩ := hrun
      split_ifs at hrun
      · obtain ⟨t, -, hrest⟩ := bind_eq_ok.1 hrun
        have := (Prod.mk.inj (Except.ok.inj hrest)).2
        omega
      · obtain ⟨t, -, hrest⟩ := bind_eq_ok.1 hrun
        have := ih hrest
        omega
      · obtain ⟨t, -, hrest⟩ := bind_eq_ok.1 hrun
        have := (Prod.mk.inj (Except.ok.inj hrest)).2
        omega
      · obtain ⟨t, -, hrest⟩ := bind_eq_ok.1 hrun
        have := ih hrest
        omega
      · exact ih hrun

/-- A loop that has woken enough moves a waiter that matches, whatever is left to move. -/
theorem wakeLoop_count_lt (h : Represents s.queues L) (hl : L o = kept ++ rest)
    (hcount : ¬ count < toWake) (hmatch : rest.filter (s.waitsAt offset1) ≠ [])
    (hrun : wakeLoop M offset1 toWake object2 offset2 fuel s count toRequeue rest.head? =
      .ok (s', c)) : count < c := by
  induction rest generalizing kept fuel with
  | nil => simp at hmatch
  | cons m rest ih =>
    cases fuel with
    | zero => simp [wakeLoop, throw, throwThe, MonadExceptOf.throw] at hrun
    | succ fuel =>
      rw [head?_cons] at hrun
      cases hm : s.waitsAt offset1 m with
      | false =>
        rw [wakeLoop_skip h hl hm] at hrun
        have hl' : L o = (kept ++ [m]) ++ rest := by simp [hl]
        exact ih hl' (by simpa [hm] using hmatch) hrun
      | true =>
        rw [wakeLoop_move h hl hm hcount, bind_eq_ok] at hrun
        obtain ⟨t, -, hrest⟩ := hrun
        split_ifs at hrest
        · have := (Prod.mk.inj (Except.ok.inj hrest)).2
          omega
        · have := wakeLoop_count_le hrest
          omega

/-- **A loop that moves waiters within one futex meets them again** if it is to move more than
there are, unless the one it moves is the last of the queue. They are not on `futex_waiters` any
more, and the kernel stops. -/
theorem wakeLoop_returns (h : Represents s.queues L) (ho : s.queues.type o ≠ none)
    (hl : L o = kept ++ (rest ++ back)) (hcount : ¬ count < toWake) (hr : 0 < r)
    (hmore : (rest.filter (s.waitsAt offset1)).length < r)
    (hback : ∀ x ∈ back, s.waitsAt offset1 x = true ∧ s.queues.attached x = false)
    (hmeets : back ≠ [] ∨ rest.dropLast.filter (s.waitsAt offset1) ≠ []) :
    wakeLoop M offset1 toWake (some o) offset1 fuel s count r (rest ++ back).head? ≠
      .ok (s', c) := by
  induction rest generalizing s L kept back count r fuel with
  | nil =>
    intro hrun
    obtain ⟨m, back, rfl⟩ := exists_cons_of_ne_nil (show back ≠ [] by simpa using hmeets)
    cases fuel with
    | zero => simp [wakeLoop, throw, throwThe, MonadExceptOf.throw] at hrun
    | succ fuel =>
      obtain ⟨hm, hout⟩ := hback m (mem_cons_self ..)
      rw [nil_append] at hl hrun
      rw [head?_cons, wakeLoop_move h hl hm hcount,
        requeueWaiter_detached h hl (Ipc.reason_of_waitsAt hm) hout] at hrun
      cases hrun
  | cons m rest ih =>
    intro hrun
    cases fuel with
    | zero => simp [wakeLoop, throw, throwThe, MonadExceptOf.throw] at hrun
    | succ fuel =>
      have hnodup := h.nodup o
      rw [hl, cons_append, nodup_middle, nodup_cons] at hnodup
      have hmrest : m ∉ rest := fun hm => hnodup.1 (by simp [hm])
      have hmback : m ∉ back := fun hm => hnodup.1 (by simp [hm])
      have hl' : L o = kept ++ m :: (rest ++ back) := by rw [hl, cons_append]
      rw [cons_append, head?_cons] at hrun
      cases hm : s.waitsAt offset1 m with
      | false =>
        have hfilter : (m :: rest).filter (s.waitsAt offset1) =
            rest.filter (s.waitsAt offset1) := by simp [hm]
        rw [hfilter] at hmore
        rw [wakeLoop_skip h hl' hm] at hrun
        have hl₁ : L o = (kept ++ [m]) ++ (rest ++ back) := by simp [hl]
        refine ih h ho hl₁ hcount hr hmore hback ?_ hrun
        refine hmeets.imp id fun hne => ?_
        cases rest with
        | nil => simp at hne
        | cons x rest => simpa [hm] using hne
      | true =>
        have hfilter : (m :: rest).filter (s.waitsAt offset1) =
            m :: rest.filter (s.waitsAt offset1) := by simp [hm]
        have hfutex := Ipc.reason_of_waitsAt hm
        rw [hfilter, length_cons] at hmore
        rw [wakeLoop_move h hl' hm hcount] at hrun
        by_cases hattached : s.queues.attached m = true
        · obtain ⟨t, hmove, ht, hself⟩ := requeueWaiter_spec h hl' hfutex hattached ho offset1
          have hkeep := ht.filter_waitsAt hmrest offset1
          rw [hmove, ok_bind, if_neg (by omega)] at hrun
          have hr' : (r : ℤ) - 1 = ((r - 1 : ℕ) : ℤ) := by omega
          -- The waiter was not the last of the queue, so it is met behind the others.
          have hne : rest ++ back ≠ [] := by
            intro hnil
            obtain ⟨rfl, rfl⟩ := append_eq_nil_iff.1 hnil
            simp at hmeets
          have hnext : (rest ++ back).head? = (rest ++ (back ++ [m])).head? := by
            rw [← append_assoc, head?_append_of_ne_nil _ hne]
          rw [hnext, hr'] at hrun
          have hl₁ : update (update L o (kept ++ (rest ++ back))) o
              (update L o (kept ++ (rest ++ back)) o ++ [m]) o =
              kept ++ (rest ++ (back ++ [m])) := by simp
          refine ih ht.represents (by rw [ht.type]; exact ho) hl₁ (by omega) (by omega)
            (by rw [hkeep]; omega) (fun x hx => ?_) (.inl (by simp)) hrun
          rcases mem_append.1 hx with hx | hx
          · have hxm : x ≠ m := fun e => hmback (e ▸ hx)
            rw [ht.waitsAt hxm, ht.attached_of_ne hxm]
            exact hback x hx
          · rw [mem_singleton.1 hx, ht.attached, update_self]
            simp [Ipc.waitsAt, hself, hfutex]
        · rw [requeueWaiter_detached h hl' hfutex (by simpa using hattached)] at hrun
          cases hrun

/-- The same for a loop that wakes waiters first. -/
theorem wakeLoop_wakes_returns (hM : M.Proper s.queues.type) (h : Represents s.queues L)
    (ho : s.queues.type o ≠ some .thread) (ho' : s.queues.type o ≠ none) (hl : L o = kept ++ rest)
    (hl' : rest.filter (s.waitsAt offset1) = l) (htoWake : toWake = count + w)
    (hready : ∀ m ∈ l.take w, s.queues.attached m = true ∧ (s.messenger m).blocked = false)
    (hmore : (l.drop w).length < r) (hm : m ∈ (l.drop w).head?) (hlast : rest.getLast? ≠ some m) :
    ¬∀ fuel ≥ n, wakeLoop M offset1 toWake (some o) offset1 fuel s count r rest.head? =
      .ok (s', c) := by
  intro hrun
  obtain ⟨t, L', kept', rest', k, -, ht, htype, -, hlt, hsuffix, hdrop, hloop⟩ :=
    wakeLoop_wakes offset1 r (some o) hM h ho hl hl' htoWake hready
  rw [← hdrop] at hmore hm
  have hnodup : rest'.Nodup := (nodup_append.1 (hlt ▸ ht.nodup o)).2.1
  have hmem := mem_of_mem_head? hm
  have hmeets : rest'.dropLast.filter (t.waitsAt offset1) ≠ [] := by
    rw [Ne, filter_dropLast_eq_nil_iff hnodup]
    refine fun hall => hlast ?_
    rw [← hall m hm, getLast?_of_suffix hsuffix (mem_filter.1 hmem).1]
  have hlen := congrArg List.length hdrop
  have hpos := length_pos_of_mem hmem
  rw [length_drop] at hlen
  have hrun' := (hloop n).symm.trans (hrun (n + k) (by omega))
  rw [if_neg (by omega)] at hrun'
  have hl₁ : L' o = kept' ++ (rest' ++ []) := by simpa using hlt
  rw [length_take_of_le (by omega), ← append_nil rest'] at hrun'
  exact wakeLoop_returns ht (by rw [htype]; exact ho') hl₁ (by omega) (by omega) hmore (by simp)
    (.inr hmeets) hrun'

end Loop

/-! ### Waking -/

/-- The arguments of `wake`. Without an object to move waiters to, `object2` is null. -/
structure WakeArgs where
  toWake : ℕ
  object1 : ℕ
  offset1 : ℕ
  toRequeue : ℕ
  object2 : Option ℕ
  offset2 : ℕ

namespace WakeArgs

variable (a : WakeArgs) (M : Machine W) (s : Ipc W) (L : ℕ → List ℕ)

/-- The waiters of the first futex, in queue order. -/
def waiters : List ℕ := (L a.object1).filter (s.waitsAt a.offset1)

/-- Those to be woken: the first ones. -/
def woken : List ℕ := (a.waiters s L).take a.toWake

/-- Those to be moved: the next ones. -/
def moved : List ℕ := ((a.waiters s L).drop a.toWake).take a.toRequeue

/-- The objects are pages, and there is one to move waiters to. -/
structure Valid (type : ℕ → Option CapType) : Prop where
  object1 : type a.object1 = some .page
  object2 : ∀ p, a.object2 = some p → type p = some .page
  given : 0 < a.toRequeue → ∃ p, a.object2 = some p

/-- **What `wake` is for.** It returns the number of waiters woken and moved; the state is the one
after waking the first, in order, and moving the next, in order. The others stay in their queues
and as they are, and those moved wait for the second futex, behind its waiters. -/
def Right : Prop :=
  ∃ s₁ s' L' n,
    (a.woken s L).foldlM (wakeWaiter M) s = .ok s₁ ∧
    (a.moved s L).foldlM (requeueWaiter a.object2 a.offset2) s₁ = .ok s' ∧
    (∀ fuel ≥ n, wake M fuel s a.toWake a.object1 a.offset1 a.toRequeue a.object2 a.offset2 =
      .ok (s', (a.woken s L).length + (a.moved s L).length)) ∧
    Represents s'.queues L' ∧
    (∀ x, s.queues.type x ≠ some .thread →
      L' x = (L x).filter (· ∉ a.woken s L ++ a.moved s L) ++
        if a.object2 = some x then a.moved s L else []) ∧
    (∀ x ∉ a.woken s L ++ a.moved s L, s'.messenger x = s.messenger x) ∧
    ∀ x ∈ a.moved s L, s'.messenger x = { s.messenger x with waitReasonArg := a.offset2 }

/-- When it works: there is something to do or nobody waits; those to be woken or moved are on
`futex_waiters`, as they are if they were not moved before; those to be woken take a message; and if
waiters are to be moved within one futex, then not more than there are, or only the last one of the
queue. -/
structure Clear : Prop where
  busy : a.waiters s L ≠ [] → 0 < a.toWake ∨ 0 < a.toRequeue
  attached : ∀ m ∈ a.woken s L ++ a.moved s L, s.queues.attached m = true
  unblocked : ∀ m ∈ a.woken s L, (s.messenger m).blocked = false
  noReturn : ∀ p, a.object2 = some p →
    NoReturnAfter s a.object1 a.offset1 p a.offset2 (L a.object1) a.toWake a.toRequeue

variable {a M s L}

theorem waiters_subset : a.waiters s L ⊆ L a.object1 := fun _ hx => (mem_filter.1 hx).1

theorem nodup_waiters (h : Represents s.queues L) : (a.waiters s L).Nodup :=
  (h.nodup a.object1).filter _

theorem woken_subset : a.woken s L ⊆ L a.object1 :=
  fun _ hx => waiters_subset (mem_of_mem_take hx)

theorem moved_subset : a.moved s L ⊆ L a.object1 :=
  fun _ hx => waiters_subset (mem_of_mem_drop (mem_of_mem_take hx))

theorem reason_of_mem_waiters (hx : x ∈ a.waiters s L) : (s.messenger x).waitReason = .futex :=
  Ipc.reason_of_waitsAt (mem_filter.1 hx).2

/-- Nobody is both woken and moved. -/
theorem not_mem_woken (h : Represents s.queues L) (hx : x ∈ a.moved s L) :
    x ∉ a.woken s L := by
  have hnodup := nodup_waiters (a := a) h
  rw [← take_append_drop a.toWake (a.waiters s L), nodup_append] at hnodup
  exact fun hw => hnodup.2.2 x hw x (mem_of_mem_take hx) rfl

section

variable (hM : M.Proper s.queues.type) (h : Represents s.queues L) (ha : a.Valid s.queues.type)

include hM h ha

/-- **The waiters that are handled** were on `futex_waiters`, and those woken took a message; and
the queues afterwards. -/
theorem spec_of_runs {s₁ s' : Ipc W} (hwakes : (a.woken s L).foldlM (wakeWaiter M) s = .ok s₁)
    (hmoves : (a.moved s L).foldlM (requeueWaiter a.object2 a.offset2) s₁ = .ok s') :
    (∀ m ∈ a.woken s L, s.queues.attached m = true ∧ (s.messenger m).blocked = false) ∧
    (∀ m ∈ a.moved s L, s.queues.attached m = true) ∧
    ∃ L', Represents s'.queues L' ∧
      (∀ x, s.queues.type x ≠ some .thread →
        L' x = (L x).filter (· ∉ a.woken s L ++ a.moved s L) ++
          if a.object2 = some x then a.moved s L else []) ∧
      (∀ x ∉ a.woken s L ++ a.moved s L, s'.messenger x = s.messenger x) ∧
      ∀ x ∈ a.moved s L, s'.messenger x = { s.messenger x with waitReasonArg := a.offset2 } := by
  have ho : s.queues.type a.object1 ≠ some .thread := by simp [ha.object1]
  obtain ⟨hready, L₁, hL₁, htype, hlists, hothers⟩ := foldlM_wakeWaiter hM h ho woken_subset
    ((nodup_waiters h).sublist (take_sublist ..))
    (fun m hm => reason_of_mem_waiters (mem_of_mem_take hm)) hwakes
  refine ⟨hready, ?_⟩
  rcases Nat.eq_zero_or_pos a.toRequeue with hzero | hpos
  · have hnone : a.moved s L = [] := by simp [moved, hzero]
    rw [hnone] at hmoves
    obtain rfl : s₁ = s' := by simpa using hmoves
    refine ⟨by simp [hnone], L₁, hL₁, ?_, ?_, ?_⟩
    · simpa [hnone] using hlists
    · simpa [hnone] using fun x hx => (hothers x hx).1
    · simp [hnone]
  · obtain ⟨p, hp⟩ := ha.given hpos
    rw [hp] at hmoves
    have hsub : a.moved s L ⊆ L₁ a.object1 := by
      intro x hx
      rw [hlists _ ho, mem_filter]
      exact ⟨moved_subset hx, by simpa using not_mem_woken h hx⟩
    have hnodup : (a.moved s L).Nodup :=
      (nodup_waiters h).sublist ((take_sublist ..).trans (drop_sublist ..))
    obtain ⟨hattached, hL', -, hothers', hmoved⟩ := foldlM_requeueWaiter hL₁
      (by rw [htype, ha.object2 p hp]; simp) hsub hnodup
      (fun m hm => by
        rw [(hothers m (not_mem_woken h hm)).1]
        exact reason_of_mem_waiters (mem_of_mem_drop (mem_of_mem_take hm))) hmoves
    refine ⟨fun x hx => ?_, _, hL', fun x hx => ?_, fun x hx => ?_, fun x hx => ?_⟩
    · rw [← (hothers x (not_mem_woken h hx)).2]
      exact hattached x hx
    · have hif : (if x = p then a.moved s L else []) =
          if a.object2 = some x then a.moved s L else [] := by
        simp [hp, eq_comm]
      rw [hlists x hx, hif, filter_filter]
      congr 1
      exact filter_congr fun y _ => by simp [Bool.and_comm]
    · rw [mem_append, not_or] at hx
      rw [hothers' x hx.2, (hothers x hx.1).1]
    · rw [hmoved x hx, (hothers x (not_mem_woken h hx)).1]

/-- Where nothing is in the way `wake` does what it is for. -/
theorem Clear.right (hclear : a.Clear s L) : a.Right M s L := by
  have hpages : ∀ p, a.object2 = some p → s.queues.type p ≠ none := by
    intro p hp
    simp [ha.object2 p hp]
  have hwake : ∀ fuel, wake M fuel s a.toWake a.object1 a.offset1 a.toRequeue a.object2 a.offset2 =
      wakeLoop M a.offset1 a.toWake a.object2 a.offset2 fuel s 0 a.toRequeue
        (L a.object1).head? := by
    intro fuel
    rw [wake, h.head_eq, ok_bind]
  have htoWake : (a.toWake : ℤ) = 0 + a.toWake := by simp
  obtain ⟨s₁, s', n, hwakes, hmoves, hloop⟩ := wakeLoop_handles hM h (by simp [ha.object1])
    (nil_append _).symm rfl htoWake hclear.busy ha.given hpages
    (fun m hm => ⟨hclear.attached m (mem_append_left _ hm), hclear.unblocked m hm⟩)
    (fun m hm => hclear.attached m (mem_append_right _ hm)) hclear.noReturn
  obtain ⟨-, -, L', hL', hlists, hothers, hmoved⟩ := spec_of_runs hM h ha hwakes hmoves
  refine ⟨s₁, s', L', n, hwakes, hmoves, fun fuel hfuel => ?_, hL', hlists, hothers, hmoved⟩
  rw [hwake fuel, hloop fuel hfuel]
  simp [woken, moved, waiters]

/-- Where something is in the way it does not. -/
theorem Right.clear (hright : a.Right M s L) : a.Clear s L := by
  obtain ⟨s₁, s', L', n, hwakes, hmoves, hrun, -⟩ := hright
  have hloop : ∀ fuel ≥ n, wakeLoop M a.offset1 a.toWake a.object2 a.offset2 fuel s 0 a.toRequeue
      (L a.object1).head? = .ok (s', (a.woken s L).length + (a.moved s L).length) := by
    intro fuel hfuel
    rw [← hrun fuel hfuel, wake, h.head_eq, ok_bind]
  obtain ⟨hready, hattached, -⟩ := spec_of_runs hM h ha hwakes hmoves
  refine ⟨fun hne => ?_, fun m hm => ?_, fun m hm => (hready m hm).2, fun p hp => ?_⟩
  · by_contra hidle
    obtain ⟨hw, hr⟩ : a.toWake = 0 ∧ a.toRequeue = 0 := by omega
    have hlt := wakeLoop_count_lt h (nil_append _).symm (by simp [hw]) hne (hloop n le_rfl)
    simp [woken, moved, hw, hr] at hlt
  · rcases mem_append.1 hm with hm | hm
    · exact (hready m hm).1
    · exact hattached m hm
  · by_contra hreturns
    rw [NoReturnAfter, not_or, not_or, not_le] at hreturns
    obtain ⟨hsame, hmore, hfirst⟩ := hreturns
    push Not at hsame hfirst
    obtain ⟨hpo, hoffset⟩ := hsame
    obtain ⟨m, hm, hlast⟩ := hfirst
    subst hpo
    rw [hp, hoffset] at hloop
    exact wakeLoop_wakes_returns hM h (by simp [ha.object1]) (by simp [ha.object1])
      (nil_append _).symm rfl (by simp) hready hmore hm hlast hloop

theorem right_iff_clear : a.Right M s L ↔ a.Clear s L :=
  ⟨fun hright => hright.clear hM h ha, fun hclear => hclear.right hM h ha⟩

end

end WakeArgs

/-! ### A small system -/

/-- The messengers 1 and 2 wait, in this order, for the futex at offset 16 of the page 4, as after
`FUTEX_WAIT`; the page 5 has no waiters. -/
def twoWaiters : Ipc Unit where
  queues :=
    { type := fun o => if o = 0 then some .folio else if o < 4 then some .messenger else some .page
      waited := fun o => o == 4
      first := fun _ => 1
      queued := fun m => m == 1 || m == 2
      links := ⟨fun m => if m = 1 then 2 else 4, fun m => if m = 1 then 2 else 1,
        fun m => m == 1, fun m => m == 2⟩
      attached := fun m => m == 1 || m == 2 }
  messenger _ := { Messenger.zero with waitReasonArg := 16 }
  world := ()
  delivered := []

/-- The lists its queues store. -/
def twoWaitersLists (o : ℕ) : List ℕ := if o = 4 then [1, 2] else []

theorem twoWaiters_represents : Represents twoWaiters.queues twoWaitersLists where
  stores o := by
    by_cases ho : o = 4
    · subst ho
      refine ⟨?_, ?_, ?_⟩
      · exact isChain_cons_cons.2 ⟨⟨rfl, rfl, rfl, rfl⟩, List.IsChain.singleton 2⟩
      · simp [twoWaitersLists, twoWaiters]
      · simp [twoWaitersLists, twoWaiters]
    · simpa [twoWaitersLists, ho] using Ring.stores_nil
  waited o := by by_cases ho : o = 4 <;> simp [twoWaiters, twoWaitersLists, ho]
  first o := by by_cases ho : o = 4 <;> simp [twoWaiters, twoWaitersLists, ho]
  queued m := by
    constructor
    · intro h
      exact ⟨4, by simpa [twoWaiters, twoWaitersLists] using h⟩
    · rintro ⟨o, h⟩
      by_cases ho : o = 4
      · simpa [twoWaiters, twoWaitersLists, ho] using h
      · simp [twoWaitersLists, ho] at h
  nodup o := by by_cases ho : o = 4 <;> simp [twoWaitersLists, ho]
  disjoint o o' m h h' := by
    by_cases ho : o = 4 <;> by_cases ho' : o' = 4 <;> simp_all [twoWaitersLists]
  messenger o m h := by
    by_cases ho : o = 4
    · have hm : m = 1 ∨ m = 2 := by simpa [twoWaitersLists, ho] using h
      rcases hm with rfl | rfl <;> rfl
    · simp [twoWaitersLists, ho] at h
  object o h := by
    by_cases ho : o = 4
    · subst ho
      decide
    · simp [twoWaitersLists, ho] at h
  attached m h := ⟨4, by simpa [twoWaiters, twoWaitersLists] using h⟩

end Viengoos
