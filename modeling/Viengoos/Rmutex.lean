import Viengoos.Lib.Runs

/-!
# The recursive mutex of `hurd/rmutex.h`

Any number of threads call `ss_rmutex_lock`, `ss_rmutex_trylock` and `ss_rmutex_unlock` on one
recursive mutex, and their steps mix in any order. A step is one operation on the meta-lock (the
mutex that protects the fields), the whole part that runs under the meta-lock, or a futex call. The
meta-lock is taken to be a lock; what `hurd/mutex.h` makes of it is the subject of another module.

What the mutex is for is `RecLock`: an owner and a depth. Two steps of `ss_rmutex_trylock` spoil it.
It gives up when another thread is at the meta-lock, even if the caller owns the mutex; and when it
finds the mutex owned by another thread it returns without giving back the meta-lock. The result
says that in runs without such steps, and without a depth that does not fit the counter, the mutex
behaves as a `RecLock` and the meta-lock is always given back; and that every such step breaks this.
-/

namespace Viengoos

/-! ### What the mutex is for -/

/-- **A recursive lock**: free, or an owner and how often it has to unlock. -/
abbrev RecLock (T : Type) := Option (T × ℕ)

namespace RecLock

variable {T : Type} [DecidableEq T]

/-- A thread locks, which it can do if the lock is free or its own. -/
def lock (a : RecLock T) (t : T) : Option (RecLock T) :=
  match a with
  | none => some (some (t, 1))
  | some (u, d) => if u = t then some (some (t, d + 1)) else none

/-- The owner unlocks. -/
def unlock (a : RecLock T) : RecLock T :=
  match a with
  | some (u, d + 2) => some (u, d + 1)
  | some (_, 1) | some (_, 0) | none => none

end RecLock

/-! ### The code -/

/-- Where a thread is, by the next step it makes. -/
inductive RmutexPc
  /-- Outside. -/
  | idle
  /-- At the meta-lock in `ss_rmutex_lock`. -/
  | lockEnter
  /-- It has the meta-lock in `ss_rmutex_lock`. -/
  | lockBody
  /-- About to give back the meta-lock and return. -/
  | lockLeave
  /-- About to give back the meta-lock and wait for a change of the count it has seen. -/
  | waitLeave (count : ℤ)
  /-- About to call `futex_wait`. -/
  | futexWait (count : ℤ)
  /-- Asleep in `futex_wait`. -/
  | asleep
  /-- At the meta-lock in `ss_rmutex_unlock`. -/
  | unlockEnter
  /-- It has the meta-lock in `ss_rmutex_unlock`. -/
  | unlockBody
  /-- About to give back the meta-lock, and then perhaps to wake a waiter. -/
  | unlockLeave (wake : Bool)
  /-- About to call `futex_wake`. -/
  | waking
  /-- At the meta-lock in `ss_rmutex_trylock`. -/
  | tryEnter
  /-- It has the meta-lock in `ss_rmutex_trylock`. -/
  | tryBody
  /-- About to give back the meta-lock and return true. -/
  | tryLeave
deriving DecidableEq, Repr

/-- Between taking the meta-lock and giving it back. -/
def RmutexPc.Critical : RmutexPc → Prop
  | lockBody | lockLeave | waitLeave _ | unlockBody | unlockLeave _ | tryBody | tryLeave => True
  | idle | lockEnter | .futexWait _ | asleep | unlockEnter | waking | tryEnter => False

/-- What an `int` holds after a calculation. -/
def wrapInt (x : ℤ) : ℤ := (x + 2 ^ 31) % 2 ^ 32 - 2 ^ 31

/-- The count after one more lock of the owner. Negative means there may be waiters. -/
def deepen (count : ℤ) : ℤ := wrapInt (if 0 < count then count + 1 else count - 1)

/-- `struct ss_rmutex` and the threads. `lock` is the holder of the meta-lock. -/
structure Rmutex (T : Type) where
  lock : Option T
  count : ℤ
  owner : Option T
  pc : T → RmutexPc

/-- What can happen. -/
inductive RmutexAction (T : Type)
  /-- A thread calls `ss_rmutex_lock`. -/
  | lock (t : T)
  /-- A thread calls `ss_rmutex_trylock`. -/
  | trylock (t : T)
  /-- A thread calls `ss_rmutex_unlock`. -/
  | unlock (t : T)
  /-- A thread makes its next step. -/
  | run (t : T)
  /-- A thread calls `futex_wake`, which wakes a sleeper, if there is one. -/
  | wake (t : T) (woken : Option T)
  /-- A sleeper wakes up for no reason. -/
  | spurious (t : T)

namespace Rmutex

open RmutexPc

variable {T : Type} [DecidableEq T]

/-- `SS_RMUTEX_INIT`, with nobody using it. -/
def init : Rmutex T := ⟨none, 0, none, fun _ => idle⟩

/-- A thread goes on from somewhere else. -/
def goto (s : Rmutex T) (t : T) (p : RmutexPc) : Rmutex T :=
  { s with pc := Function.update s.pc t p }

/-- **The next step** of a thread. None means that it waits for the meta-lock, or that an assertion
fails. -/
def next (s : Rmutex T) (t : T) : Option (Rmutex T) :=
  match s.pc t with
  | idle | asleep | waking => none
  | lockEnter => if s.lock = none then some ({ s with lock := some t }.goto t lockBody) else none
  | lockBody =>
    if s.owner = some t then
      if s.count = 0 then none else some ({ s with count := deepen s.count }.goto t lockLeave)
    else if s.owner = none then
      if s.count ≠ 0 then none else some ({ s with count := 1, owner := some t }.goto t lockLeave)
    else if s.count = 0 then none
    else
      -- Note that there are waiters.
      let count := if 0 < s.count then -s.count else s.count
      some ({ s with count := count }.goto t (waitLeave count))
  | lockLeave | tryLeave => some ({ s with lock := none }.goto t idle)
  | waitLeave c => some ({ s with lock := none }.goto t (.futexWait c))
  | .futexWait c => some (s.goto t (if s.count = c then asleep else lockEnter))
  | unlockEnter =>
    if s.lock = none then some ({ s with lock := some t }.goto t unlockBody) else none
  | unlockBody =>
    if s.owner ≠ some t ∨ s.count = 0 then none
    else
      let count := if 0 < s.count then s.count - 1 else s.count + 1
      some ({ s with count := count, owner := if count = 0 then none else s.owner }.goto t
        (unlockLeave (count == 0 && decide (s.count < 0))))
  | unlockLeave wake => some ({ s with lock := none }.goto t (if wake then waking else idle))
  | tryEnter =>
    if s.lock = none then some ({ s with lock := some t }.goto t tryBody)
    -- Busy: return false.
    else some (s.goto t idle)
  | tryBody =>
    if s.owner = some t then
      if s.count = 0 then none else some ({ s with count := deepen s.count }.goto t tryLeave)
    else if s.owner = none then
      if s.count ≠ 0 then none else some ({ s with count := 1, owner := some t }.goto t tryLeave)
    else if s.count = 0 then none
    -- It returns false, and keeps the meta-lock.
    else some (s.goto t idle)

/-- `s` goes to `s'` by an action. Only the owner calls `ss_rmutex_unlock`, as that asserts. -/
inductive Step : Rmutex T → RmutexAction T → Rmutex T → Prop
  | lock {s : Rmutex T} {t : T} : s.pc t = idle → Step s (.lock t) (s.goto t lockEnter)
  | trylock {s : Rmutex T} {t : T} : s.pc t = idle → Step s (.trylock t) (s.goto t tryEnter)
  | unlock {s : Rmutex T} {t : T} :
      s.pc t = idle → s.owner = some t → Step s (.unlock t) (s.goto t unlockEnter)
  | run {s s' : Rmutex T} {t : T} : s.next t = some s' → Step s (.run t) s'
  | wakeNone {s : Rmutex T} {t : T} :
      s.pc t = waking → (∀ u, s.pc u ≠ asleep) → Step s (.wake t none) (s.goto t idle)
  | wakeSome {s : Rmutex T} {t u : T} :
      s.pc t = waking → s.pc u = asleep →
      Step s (.wake t (some u)) ((s.goto t idle).goto u lockEnter)
  | spurious {s : Rmutex T} {t : T} : s.pc t = asleep → Step s (.spurious t) (s.goto t lockEnter)

/-- The states that runs reach all of whose steps meet a condition. -/
abbrev Reached (P : Rmutex T → RmutexAction T → Prop) : Rmutex T → Prop :=
  Runs.Reached (· = init) Step P

section

variable (s : Rmutex T) (t : T) (p : RmutexPc)

include s t p

@[simp] theorem goto_lock : (s.goto t p).lock = s.lock := rfl

@[simp] theorem goto_count :
    (s.goto t p).count = s.count := rfl

@[simp] theorem goto_owner :
    (s.goto t p).owner = s.owner := rfl

@[simp] theorem goto_pc_self : (s.goto t p).pc t = p :=
  Function.update_self ..

end

variable {t : T} {s s' : Rmutex T} {p : RmutexPc} {count : ℤ} {owner : Option T}

theorem goto_pc_of_ne (s : Rmutex T) {u : T} (h : u ≠ t) (p : RmutexPc) :
    (s.goto t p).pc u = s.pc u :=
  Function.update_of_ne h ..

/-! ### The conditions -/

/-- The lock that the fields stand for. -/
def abs (s : Rmutex T) : RecLock T := s.owner.map fun u => (u, s.count.natAbs)

/-- The meta-lock is held exactly by a thread that is between taking it and giving it back. -/
def MetaRight (s : Rmutex T) : Prop := ∀ t, s.lock = some t ↔ (s.pc t).Critical

/-- **A step is one of the recursive lock.** The parts under the meta-lock lock and unlock. One that
has to wait, and a trylock that fails, changes nothing, and fails only because the lock is another
thread's. Other steps change nothing. -/
def Follows (s s' : Rmutex T) (t : T) : Prop :=
  match s.pc t with
  | lockBody =>
    match s.abs.lock t with
    | some a => s'.abs = a ∧ s'.pc t = lockLeave
    | none => s'.abs = s.abs ∧ ∃ c, s'.pc t = waitLeave c
  | tryEnter => s'.abs = s.abs ∧ (s'.pc t = tryBody ∨ s'.pc t = idle ∧ s.abs.lock t = none)
  | tryBody =>
    match s.abs.lock t with
    | some a => s'.abs = a ∧ s'.pc t = tryLeave
    | none => s'.abs = s.abs ∧ s'.pc t ≠ tryLeave
  | unlockBody => s'.abs = s.abs.unlock ∧ ∃ wake, s'.pc t = unlockLeave wake
  | _ => s'.abs = s.abs

/-- What a step must not find: at the meta-lock in `ss_rmutex_trylock`, another thread there while
the mutex is free or the caller's; under the meta-lock in `ss_rmutex_trylock`, a mutex that another
thread owns; and a depth that the counter cannot increase. -/
structure Smooth (s : Rmutex T) (a : RmutexAction T) : Prop where
  enter : ∀ t, a = .run t → s.pc t = tryEnter → s.lock = none ∨ s.abs.lock t = none
  body : ∀ t, a = .run t → s.pc t = tryBody → s.owner = none ∨ s.owner = some t
  depth : ∀ t, a = .run t → s.pc t = lockBody ∨ s.pc t = tryBody → s.owner = some t →
    s.count ≠ -2 ^ 31

/-- The thread gives back the meta-lock with its next step or the one after. -/
def Releases (s : Rmutex T) (t : T) : Prop :=
  ∃ s', Step s (.run t) s' ∧ (s'.lock = none ∨ ∃ s'', Step s' (.run t) s'' ∧ s''.lock = none)

/-! ### One step -/

/-- What holds in every state: the meta-lock is where it should be, the count is 0 exactly if the
mutex is free, it is an `int`, and who is about to unlock owns the mutex. -/
structure Sound (s : Rmutex T) : Prop where
  lock : MetaRight s
  free : s.owner = none ↔ s.count = 0
  range : -2 ^ 31 ≤ s.count ∧ s.count < 2 ^ 31
  caller : ∀ t, s.pc t = unlockEnter ∨ s.pc t = unlockBody → s.owner = some t

/-- A count that is not as low as an `int` can be is one more or one less after a lock. -/
theorem deepen_spec {c : ℤ} (hrange : -2 ^ 31 ≤ c ∧ c < 2 ^ 31) (hlow : c ≠ -2 ^ 31) :
    (deepen c).natAbs = c.natAbs + 1 ∧ deepen c ≠ 0 ∧
      -2 ^ 31 ≤ deepen c ∧ deepen c < 2 ^ 31 := by
  unfold deepen wrapInt
  split <;> omega

/-- At the lowest count the counter turns over. -/
theorem deepen_low : (deepen (-2 ^ 31)).natAbs = 2 ^ 31 - 1 := by decide

variable {lock : Option T} {a : RmutexAction T}

/-- A thread takes the meta-lock, keeps it, gives it back, or is not concerned with it. -/
theorem MetaRight.goto (h : MetaRight s)
    (hmove : (p.Critical ∧ lock = some t ∧ (s.lock = none ∨ (s.pc t).Critical)) ∨
      (¬ p.Critical ∧ lock = none ∧ (s.pc t).Critical) ∨
      (¬ p.Critical ∧ lock = s.lock ∧ ¬ (s.pc t).Critical)) :
    MetaRight (({ lock, count, owner, pc := s.pc } : Rmutex T).goto t p) := by
  intro u
  by_cases hut : u = t
  · subst hut
    rw [goto_pc_self]
    rcases hmove with ⟨hp, rfl, -⟩ | ⟨hp, rfl, -⟩ | ⟨hp, rfl, hpc⟩
    · simpa using hp
    · simpa using hp
    · exact ⟨fun hu => absurd ((h u).1 hu) hpc, fun hu => absurd hu hp⟩
  · rw [goto_pc_of_ne _ hut, ← h u]
    rcases hmove with ⟨-, rfl, hfree | hpc⟩ | ⟨-, rfl, hpc⟩ | ⟨-, rfl, -⟩
    · simp [hfree, Ne.symm hut]
    · simp [(h t).2 hpc, Ne.symm hut]
    · simp [(h t).2 hpc, Ne.symm hut]
    · rfl

/-- A thread changes the fields and goes on from somewhere else. -/
theorem Sound.goto (h : Sound s)
    (hmove : (p.Critical ∧ lock = some t ∧ (s.lock = none ∨ (s.pc t).Critical)) ∨
      (¬ p.Critical ∧ lock = none ∧ (s.pc t).Critical) ∨
      (¬ p.Critical ∧ lock = s.lock ∧ ¬ (s.pc t).Critical)) (hfree : owner = none ↔ count = 0)
    (hrange : -2 ^ 31 ≤ count ∧ count < 2 ^ 31)
    (hothers : ∀ u ≠ t, s.owner = some u → owner = some u)
    (hself : p = unlockEnter ∨ p = unlockBody → owner = some t) :
    Sound (({ lock, count, owner, pc := s.pc } : Rmutex T).goto t p) where
  lock := h.lock.goto hmove
  free := hfree
  range := hrange
  caller u hu := by
    by_cases hut : u = t
    · subst hut
      rw [goto_pc_self] at hu
      exact hself hu
    · rw [goto_pc_of_ne _ hut] at hu
      exact hothers u hut (h.caller u hu)

/-- A thread goes on from somewhere else without a change of the fields. -/
theorem Sound.stay (h : Sound s) (hp : ¬ p.Critical) (hpc : ¬ (s.pc t).Critical)
    (hself : p = unlockEnter → s.owner = some t) :
    Sound (s.goto t p) := by
  refine h.goto (.inr (.inr ⟨hp, rfl, hpc⟩)) h.free h.range (fun _ _ hu => hu) ?_
  rintro (rfl | rfl)
  · exact hself rfl
  · exact absurd trivial hp

/-- A thread takes the meta-lock. -/
theorem Sound.enter (h : Sound s) (hp : p.Critical) (hlock : s.lock = none)
    (hself : p = unlockBody → s.owner = some t) :
    Sound ({ s with lock := some t }.goto t p) := by
  refine h.goto (.inl ⟨hp, rfl, .inl hlock⟩) h.free h.range (fun _ _ hu => hu) ?_
  rintro (rfl | rfl)
  · cases hp
  · exact hself rfl

/-- A thread gives it back. -/
theorem Sound.leave (h : Sound s) (hp : ¬ p.Critical) (hpc : (s.pc t).Critical)
    (hself : p ≠ unlockEnter) :
    Sound ({ s with lock := none }.goto t p) := by
  refine h.goto (.inr (.inl ⟨hp, rfl, hpc⟩)) h.free h.range (fun _ _ hu => hu) ?_
  rintro (rfl | rfl)
  · exact absurd rfl hself
  · exact absurd trivial hp

/-- A thread changes the count and the owner under the meta-lock. -/
theorem Sound.change (h : Sound s) (hp : p.Critical) (hpc : (s.pc t).Critical)
    (hne : p ≠ unlockBody) (hfree : owner = none ↔ count = 0)
    (hrange : -2 ^ 31 ≤ count ∧ count < 2 ^ 31)
    (hothers : ∀ u ≠ t, s.owner = some u → owner = some u) :
    Sound ({ s with count := count, owner := owner }.goto t p) := by
  refine h.goto (.inl ⟨hp, (h.lock t).2 hpc, .inr hpc⟩) hfree hrange hothers ?_
  rintro (rfl | rfl)
  · cases hp
  · exact absurd rfl hne

/-! ### The parts under the meta-lock -/

theorem abs_lock_self (h : s.owner = some t) :
    s.abs.lock t = some (some (t, s.count.natAbs + 1)) := by
  simp [abs, h, RecLock.lock]

theorem abs_lock_free (h : s.owner = none) :
    s.abs.lock t = some (some (t, 1)) := by
  simp [abs, h, RecLock.lock]

theorem abs_lock_other (h : s.owner ≠ none) (h' : s.owner ≠ some t) :
    s.abs.lock t = none := by
  obtain ⟨u, hu⟩ := Option.ne_none_iff_exists'.1 h
  have hut : u ≠ t := fun e => h' (e ▸ hu)
  simp [abs, hu, RecLock.lock, hut]

/-- The owner locks once more. -/
theorem Sound.relock (h : Sound s) (hpc : (s.pc t).Critical) (hp : p.Critical)
    (hne : p ≠ unlockBody) (howner : s.owner = some t) (hdepth : s.count ≠ -2 ^ 31) :
    Sound ({ s with count := deepen s.count }.goto t p) ∧
      ({ s with count := deepen s.count }.goto t p).abs = some (t, s.count.natAbs + 1) := by
  obtain ⟨hdeeper, hne', hrange⟩ := deepen_spec h.range hdepth
  refine ⟨h.change hp hpc hne (by simp [howner, hne']) hrange fun _ _ hu => hu, ?_⟩
  simp [abs, howner, hdeeper]

/-- A thread takes the free mutex. -/
theorem Sound.take (h : Sound s) (hpc : (s.pc t).Critical) (hp : p.Critical) (hne : p ≠ unlockBody)
    (hfree : s.owner = none) :
    Sound ({ s with count := 1, owner := some t }.goto t p) ∧
      ({ s with count := 1, owner := some t }.goto t p).abs = some (t, 1) := by
  refine ⟨h.change hp hpc hne (by simp) (by decide) fun u _ hu => ?_, rfl⟩
  rw [hfree] at hu
  cases hu

/-- The body of `ss_rmutex_lock`. -/
theorem Sound.run_lockBody (h : Sound s) (hpc : s.pc t = lockBody)
    (hdepth : s.owner = some t → s.count ≠ -2 ^ 31) :
    ∃ s', s.next t = some s' ∧ Sound s' ∧ Follows s s' t := by
  have hcrit : (s.pc t).Critical := by simp [hpc, Critical]
  simp only [next, hpc, Follows]
  by_cases howner : s.owner = some t
  · have hne : s.count ≠ 0 := fun e => by simp [h.free.2 e] at howner
    obtain ⟨hsound, habs⟩ := h.relock (p := lockLeave) hcrit trivial (by simp) howner
      (hdepth howner)
    rw [if_pos howner, if_neg hne, abs_lock_self howner]
    exact ⟨_, rfl, hsound, habs, goto_pc_self ..⟩
  · rw [if_neg howner]
    by_cases hfree : s.owner = none
    · obtain ⟨hsound, habs⟩ := h.take (p := lockLeave) hcrit trivial (by simp) hfree
      rw [if_pos hfree, if_neg (not_not.2 (h.free.1 hfree)), abs_lock_free hfree]
      exact ⟨_, rfl, hsound, habs, goto_pc_self ..⟩
    · have hne : s.count ≠ 0 := fun e => hfree (h.free.2 e)
      have hrange := h.range
      have hcount : (if 0 < s.count then -s.count else s.count).natAbs = s.count.natAbs := by
        split <;> omega
      rw [if_neg hfree, if_neg hne, abs_lock_other hfree howner]
      refine ⟨_, rfl, h.change trivial hcrit (by simp) ?_ ?_ (fun _ _ hu => hu), ?_, _,
        goto_pc_self ..⟩
      · rw [h.free]
        split <;> omega
      · split <;> omega
      · simp [abs, hcount]

/-- The body of `ss_rmutex_trylock`, if the mutex is free or the caller's. -/
theorem Sound.run_tryBody (h : Sound s) (hpc : s.pc t = tryBody)
    (hbody : s.owner = none ∨ s.owner = some t) (hdepth : s.owner = some t → s.count ≠ -2 ^ 31) :
    ∃ s', s.next t = some s' ∧ Sound s' ∧ Follows s s' t := by
  have hcrit : (s.pc t).Critical := by simp [hpc, Critical]
  simp only [next, hpc, Follows]
  rcases hbody with hfree | howner
  · obtain ⟨hsound, habs⟩ := h.take (p := tryLeave) hcrit trivial (by simp) hfree
    rw [if_neg (by simp [hfree]), if_pos hfree, if_neg (not_not.2 (h.free.1 hfree)),
      abs_lock_free hfree]
    exact ⟨_, rfl, hsound, habs, goto_pc_self ..⟩
  · have hne : s.count ≠ 0 := fun e => by simp [h.free.2 e] at howner
    obtain ⟨hsound, habs⟩ := h.relock (p := tryLeave) hcrit trivial (by simp) howner
      (hdepth howner)
    rw [if_pos howner, if_neg hne, abs_lock_self howner]
    exact ⟨_, rfl, hsound, habs, goto_pc_self ..⟩

omit [DecidableEq T] in
/-- The lock after an unlock, from its depth. -/
theorem unlock_some {d : ℕ} (hd : d ≠ 0) :
    RecLock.unlock (some (t, d)) = if d = 1 then none else some (t, d - 1) := by
  obtain _ | _ | d := d
  · exact absurd rfl hd
  · rfl
  · simp [RecLock.unlock]

/-- The body of `ss_rmutex_unlock`. -/
theorem Sound.run_unlockBody (h : Sound s) (hpc : s.pc t = unlockBody) :
    ∃ s', s.next t = some s' ∧ Sound s' ∧ Follows s s' t := by
  have hcrit : (s.pc t).Critical := by simp [hpc, Critical]
  have howner := h.caller t (.inr hpc)
  have hne : s.count ≠ 0 := fun e => by simp [h.free.2 e] at howner
  have hrange := h.range
  have hcount : (if 0 < s.count then s.count - 1 else s.count + 1).natAbs = s.count.natAbs - 1 := by
    split <;> omega
  simp only [next, hpc, Follows]
  rw [if_neg (by simp [howner, hne])]
  refine ⟨_, rfl, h.change trivial hcrit (by simp) ?_ ?_ ?_, ?_, _, goto_pc_self ..⟩
  · simp [howner]
  · split <;> omega
  · intro u hut hu
    rw [howner] at hu
    exact absurd (Option.some.inj hu).symm hut
  · have habs : s.abs = some (t, s.count.natAbs) := by simp [abs, howner]
    have hone : (if 0 < s.count then s.count - 1 else s.count + 1) = 0 ↔ s.count.natAbs = 1 := by
      split <;> omega
    rw [habs, unlock_some (Int.natAbs_ne_zero.2 hne)]
    simp only [abs, goto_owner, goto_count, hone, hcount, howner]
    split <;> rfl

/-! ### Runs -/

/-- A step that leaves count and owner alone does nothing to the lock. -/
theorem abs_goto (s : Rmutex T) (lock : Option T) (t : T) (p : RmutexPc) :
    ({ s with lock := lock }.goto t p).abs = s.abs := rfl

/-- **One step** of a thread that meets the conditions. -/
theorem Sound.run (h : Sound s) (hsmooth : Smooth s (.run t)) (hnext : s.next t = some s') :
    Sound s' ∧ Follows s s' t := by
  have hbody : (∃ s₁, s.next t = some s₁ ∧ Sound s₁ ∧ Follows s s₁ t) →
      Sound s' ∧ Follows s s' t := by
    rintro ⟨s₁, hnext₁, hs₁⟩
    obtain rfl := Option.some.inj (hnext₁.symm.trans hnext)
    exact hs₁
  cases hpc : s.pc t with
  | idle | asleep | waking => simp [next, hpc] at hnext
  | lockBody => exact hbody (h.run_lockBody hpc (hsmooth.depth t rfl (.inl hpc)))
  | tryBody =>
    exact hbody (h.run_tryBody hpc (hsmooth.body t rfl hpc) (hsmooth.depth t rfl (.inr hpc)))
  | unlockBody => exact hbody (h.run_unlockBody hpc)
  | lockEnter =>
    simp only [next, hpc] at hnext
    split_ifs at hnext with hlock
    obtain rfl := Option.some.inj hnext
    exact ⟨h.enter trivial hlock (by simp), by simp [Follows, hpc, abs_goto]⟩
  | unlockEnter =>
    simp only [next, hpc] at hnext
    split_ifs at hnext with hlock
    obtain rfl := Option.some.inj hnext
    exact ⟨h.enter trivial hlock fun _ => h.caller t (.inl hpc), by simp [Follows, hpc, abs_goto]⟩
  | tryEnter =>
    simp only [next, hpc] at hnext
    split_ifs at hnext with hlock <;> obtain rfl := Option.some.inj hnext
    · exact ⟨h.enter trivial hlock (by simp), by simp [Follows, hpc, abs_goto]⟩
    · have hother := (hsmooth.enter t rfl hpc).resolve_left hlock
      exact ⟨h.stay not_false (by simp [hpc, Critical]) (by simp),
        by simpa [Follows, hpc] using ⟨rfl, hother⟩⟩
  | lockLeave | tryLeave =>
    simp only [next, hpc] at hnext
    obtain rfl := Option.some.inj hnext
    exact ⟨h.leave not_false (by simp [hpc, Critical]) (by simp), by simp [Follows, hpc, abs_goto]⟩
  | waitLeave c =>
    simp only [next, hpc] at hnext
    obtain rfl := Option.some.inj hnext
    exact ⟨h.leave not_false (by simp [hpc, Critical]) (by simp), by simp [Follows, hpc, abs_goto]⟩
  | unlockLeave wake =>
    simp only [next, hpc] at hnext
    obtain rfl := Option.some.inj hnext
    refine ⟨h.leave ?_ (by simp [hpc, Critical]) ?_, by simp [Follows, hpc, abs_goto]⟩
    · cases wake <;> exact not_false
    · cases wake <;> simp
  | futexWait c =>
    simp only [next, hpc] at hnext
    obtain rfl := Option.some.inj hnext
    refine ⟨h.stay ?_ (by simp [hpc, Critical]) ?_, by simp only [Follows, hpc]; rfl⟩
    · split <;> exact not_false
    · split <;> simp

theorem Sound.step (hsmooth : Smooth s a) (hstep : Step s a s') (h : Sound s) :
    Sound s' := by
  cases hstep with
  | lock hpc | trylock hpc => exact h.stay not_false (by simp [hpc, Critical]) (by simp)
  | unlock hpc howner => exact h.stay not_false (by simp [hpc, Critical]) fun _ => howner
  | run hnext => exact (h.run hsmooth hnext).1
  | wakeNone hpc _ | spurious hpc => exact h.stay not_false (by simp [hpc, Critical]) (by simp)
  | @wakeSome t u hpc hasleep =>
    have hut : u ≠ t := by
      rintro rfl
      simp [hpc] at hasleep
    have hfirst : Sound (s.goto t idle) := h.stay not_false (by simp [hpc, Critical]) (by simp)
    refine hfirst.stay not_false ?_ (by simp)
    rw [goto_pc_of_ne s hut, hasleep]
    exact not_false

theorem Reached.sound (h : Reached Smooth s) : Sound s := by
  refine h.invariant ?_ Sound.step
  rintro _ rfl
  exact ⟨fun t => by simp [init, Critical], by simp [init], by simp [init],
    fun t ht => by simp [init] at ht⟩

/-- The last step under the meta-lock gives it back. -/
theorem releases_leave (h : s.pc t = lockLeave ∨ s.pc t = tryLeave ∨ (∃ c, s.pc t = waitLeave c) ∨
      ∃ wake, s.pc t = unlockLeave wake) : ∃ s', Step s (.run t) s' ∧ s'.lock = none := by
  rcases h with hpc | hpc | ⟨c, hpc⟩ | ⟨wake, hpc⟩ <;>
    exact ⟨_, .run (by simp only [next, hpc]; rfl), rfl⟩

/-- The holder of the meta-lock gives it back. -/
theorem Sound.releases (h : Sound s) (hsmooth : Smooth s (.run t)) (hlock : s.lock = some t) :
    Releases s t := by
  have hcrit := (h.lock t).1 hlock
  cases hpc : s.pc t with
  | idle | lockEnter | futexWait _ | asleep | unlockEnter | waking | tryEnter =>
    simp [hpc, Critical] at hcrit
  | lockLeave | tryLeave | waitLeave c | unlockLeave wake =>
    obtain ⟨s', hstep, hfree⟩ := releases_leave (s := s) (t := t) (by simp [hpc])
    exact ⟨s', hstep, .inl hfree⟩
  | lockBody =>
    obtain ⟨s', hnext, -, hfollows⟩ := h.run_lockBody hpc (hsmooth.depth t rfl (.inl hpc))
    refine ⟨s', .run hnext, .inr (releases_leave ?_)⟩
    simp only [Follows, hpc] at hfollows
    split at hfollows
    · exact .inl hfollows.2
    · exact .inr (.inr (.inl hfollows.2))
  | tryBody =>
    have hbody := hsmooth.body t rfl hpc
    obtain ⟨s', hnext, -, hfollows⟩ := h.run_tryBody hpc hbody (hsmooth.depth t rfl (.inr hpc))
    refine ⟨s', .run hnext, .inr (releases_leave (.inr (.inl ?_)))⟩
    simp only [Follows, hpc] at hfollows
    rcases hbody with hfree | howner
    · rw [abs_lock_free hfree] at hfollows
      exact hfollows.2
    · rw [abs_lock_self howner] at hfollows
      exact hfollows.2
  | unlockBody =>
    obtain ⟨s', hnext, -, hfollows⟩ := h.run_unlockBody hpc
    refine ⟨s', .run hnext, .inr (releases_leave (.inr (.inr (.inr ?_))))⟩
    simp only [Follows, hpc] at hfollows
    exact hfollows.2

/-- A step that does not meet the conditions breaks the lock or leaves the meta-lock with a thread
that will not give it back. -/
theorem Sound.breaks (h : Sound s) (hrough : ¬ Smooth s (.run t)) (hnext : s.next t = some s') :
    ¬ (Follows s s' t ∧ MetaRight s') := by
  rintro ⟨hfollows, hmeta⟩
  refine hrough ⟨?_, ?_, ?_⟩
  · rintro u ⟨⟩ hpc
    by_contra hno
    push Not at hno
    simp only [next, hpc, if_neg hno.1] at hnext
    obtain rfl := Option.some.inj hnext
    simp only [Follows, hpc, goto_pc_self] at hfollows
    exact hno.2 (hfollows.2.resolve_left (by simp)).2
  · rintro u ⟨⟩ hpc
    by_contra hno
    push Not at hno
    have hcount : s.count ≠ 0 := fun e => hno.1 (h.free.2 e)
    simp only [next, hpc, if_neg hno.2, if_neg hno.1, if_neg hcount] at hnext
    obtain rfl := Option.some.inj hnext
    have hlock : s.lock = some t := (h.lock t).2 (by simp [hpc, Critical])
    simpa [Critical] using (hmeta t).1 hlock
  · rintro u ⟨⟩ hpc howner hlow
    have hcount : s.count ≠ 0 := by
      rw [hlow]
      decide
    have hnat : s.count.natAbs = 2 ^ 31 := by
      rw [hlow]
      decide
    have hdeep : (deepen s.count).natAbs = 2 ^ 31 - 1 := by rw [hlow, deepen_low]
    rcases hpc with hpc | hpc <;>
    · simp only [next, hpc, if_pos howner, if_neg hcount] at hnext
      obtain rfl := Option.some.inj hnext
      simp only [Follows, hpc, abs_lock_self howner] at hfollows
      have habs := hfollows.1
      simp [abs, howner, hdeep, hnat] at habs

/-! ### The result -/

/-- **The recursive mutex.** In every run whose steps all meet the conditions, the meta-lock is
always held exactly by a thread that is between taking it and giving it back, so it is free when no
operation is under way; its holder gives it back within two steps; and every step is one of the
recursive lock. A step that does not meet the conditions breaks this. -/
theorem rmutex_refines_of_smooth (T : Type) [DecidableEq T] :
    (∀ s : Rmutex T, Reached Smooth s →
      MetaRight s ∧ ∀ t, Smooth s (.run t) → (s.lock = some t → Releases s t) ∧
        ∀ s', Step s (.run t) s' → Follows s s' t) ∧
    ∀ (s s' : Rmutex T) (t : T), Reached Smooth s → ¬ Smooth s (.run t) → Step s (.run t) s' →
      ¬ (Follows s s' t ∧ MetaRight s') := by
  refine ⟨fun s h => ⟨h.sound.lock, fun t hsmooth => ⟨h.sound.releases hsmooth, ?_⟩⟩, ?_⟩
  · rintro s' ⟨⟩
    next hnext => exact (h.sound.run hsmooth hnext).2
  · rintro s s' t h hrough ⟨⟩
    next hnext => exact h.sound.breaks hrough hnext

/-- One thread locks, and another one waits for it. -/
theorem rmutex_refines_two : ∃ s : Rmutex Bool, Reached Smooth s ∧ s.abs = some (false, 1) ∧
    s.pc true = asleep ∧ MetaRight s := by
  have hcall : ∀ {s : Rmutex Bool} {t : Bool}, Smooth s (.lock t) := fun {s t} =>
    ⟨fun _ ha => (nomatch ha), fun _ ha => (nomatch ha), fun _ ha => (nomatch ha)⟩
  have hrun : ∀ {s : Rmutex Bool} {t : Bool}, s.pc t ≠ tryEnter ∧ s.pc t ≠ tryBody ∧
      s.count ≠ -2 ^ 31 → Smooth s (.run t) := by
    rintro s t ⟨henter, hbody, hcount⟩
    refine ⟨?_, ?_, ?_⟩
    · rintro _ ⟨⟩ hpc
      exact absurd hpc henter
    · rintro _ ⟨⟩ hpc
      exact absurd hpc hbody
    · rintro _ ⟨⟩ - -
      exact hcount
  have h : Reached Smooth (init : Rmutex Bool) := .init rfl
  have h := h.step hcall (.lock (t := false) rfl)
  have h := h.step (hrun (t := false) (by decide)) (.run rfl)
  have h := h.step (hrun (t := false) (by decide)) (.run rfl)
  have h := h.step (hrun (t := false) (by decide)) (.run rfl)
  have h := h.step hcall (.lock (t := true) rfl)
  have h := h.step (hrun (t := true) (by decide)) (.run rfl)
  have h := h.step (hrun (t := true) (by decide)) (.run rfl)
  have h := h.step (hrun (t := true) (by decide)) (.run rfl)
  have h := h.step (hrun (t := true) (by decide)) (.run rfl)
  exact ⟨_, h, rfl, rfl, ((rmutex_refines_of_smooth Bool).1 _ h).1⟩

/-- The meta-lock is taken and nobody is going to give it back. -/
def Leaked (s : Rmutex T) (t : T) : Prop := s.lock = some t ∧ ∀ u, ¬ (s.pc u).Critical

/-- This is for ever. -/
theorem Leaked.step (h : Leaked s t) (hstep : Step s a s') : Leaked s' t := by
  have hgoto : ∀ {s : Rmutex T} {u : T} {p : RmutexPc}, Leaked s t → ¬ p.Critical →
      Leaked (s.goto u p) t := by
    intro s u p h hp
    refine ⟨h.1, fun v => ?_⟩
    by_cases hvu : v = u
    · rw [hvu, goto_pc_self]
      exact hp
    · rw [goto_pc_of_ne _ hvu]
      exact h.2 v
  cases hstep with
  | lock _ | trylock _ | unlock _ _ | wakeNone _ _ | spurious _ => exact hgoto h not_false
  | wakeSome _ _ => exact hgoto (hgoto h not_false) not_false
  | run hnext =>
    rename_i u
    have hout := h.2 u
    have hlock : s.lock ≠ none := by simp [h.1]
    cases hpc : s.pc u with
    | idle | asleep | waking | lockEnter | unlockEnter => simp [next, hpc, hlock] at hnext
    | lockBody | lockLeave | waitLeave _ | unlockBody | unlockLeave _ | tryBody | tryLeave =>
      simp [hpc, Critical] at hout
    | tryEnter =>
      simp only [next, hpc, if_neg hlock] at hnext
      obtain rfl := Option.some.inj hnext
      exact hgoto h not_false
    | futexWait c =>
      simp only [next, hpc] at hnext
      obtain rfl := Option.some.inj hnext
      refine hgoto h ?_
      split <;> exact not_false

/-- One thread locks, another one tries to: it gets false, and nobody gets the meta-lock any more.
In particular the owner cannot unlock. -/
theorem trylock_leaks : ∃ s : Rmutex Bool, Reached (fun _ _ => True) s ∧ s.abs = some (false, 1) ∧
    (∀ t, s.pc t = idle) ∧ ∀ s', Runs.Reached (· = s) Step (fun _ _ => True) s' →
      s'.lock = some true ∧ ∀ t, ¬ (s'.pc t).Critical := by
  have h : Reached (fun _ _ => True) (init : Rmutex Bool) := .init rfl
  have h := h.step trivial (.lock (t := false) rfl)
  have h := h.step trivial (.run (t := false) rfl)
  have h := h.step trivial (.run (t := false) rfl)
  have h := h.step trivial (.run (t := false) rfl)
  have h := h.step trivial (.trylock (t := true) rfl)
  have h := h.step trivial (.run (t := true) rfl)
  have h := h.step trivial (.run (t := true) rfl)
  refine ⟨_, h, rfl, fun t => by cases t <;> rfl, fun s' hs' => ?_⟩
  refine hs'.invariant (I := fun s => Leaked s true) ?_ fun _ hstep hs => hs.step hstep
  rintro _ rfl
  exact ⟨rfl, fun t => by cases t <;> exact not_false⟩

end Rmutex

end Viengoos
