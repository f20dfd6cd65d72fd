import Mathlib

/-!
# The mutex of `hurd/mutex.h`

Any number of threads run `ss_mutex_lock`, `ss_mutex_trylock` and `ss_mutex_unlock` on one lock
word, one atomic step at a time in any order: a load, a compare-and-swap, the fetch-and-add and the
plain store of the unlock, and the two futex calls. The kernel compares the word and puts a thread
to sleep in one step, a wake-up picks any sleeper, and sleepers may wake for no reason. Assertions
are left out; they would only cut runs short.

* **Mutual exclusion** holds as long as `ss_mutex_trylock` finds the word free in its second load
  if it did in its first one: it takes the lock without a compare-and-swap otherwise.
* **No waiter is stranded** as long as a thread that takes the lock while others sleep leaves a
  wake-up owed or another thread awake in `ss_mutex_lock`: it takes the lock without the mark for
  waiters, so its own unlock does not wake them.
-/

namespace Viengoos

/-! ### Threads and the lock word -/

/-- Where a thread is, by the next atomic step it makes. -/
inductive MutexPc
  /-- Outside, without the lock. -/
  | idle
  /-- `int c = *lockp` of `ss_mutex_lock`. -/
  | lockRead
  /-- It looked free: swap unlocked for locked. -/
  | lockSwap
  /-- It was locked: swap locked for waiters. -/
  | lockMark
  /-- About to call `futex_wait`. -/
  | lockWait
  /-- Asleep in `futex_wait`. -/
  | asleep
  /-- `int c = *lockp` of `ss_mutex_trylock`. -/
  | tryRead
  /-- `*lockp == _MUTEX_UNLOCKED`, having loaded `c` before. -/
  | tryReread (c : ℤ)
  /-- It looked free: swap unlocked for locked. -/
  | trySwap
  /-- Between a successful lock and the fetch-and-add of its unlock. -/
  | holding
  /-- There were waiters: about to store unlocked. -/
  | clear
  /-- About to call `futex_wake`. -/
  | waking
deriving DecidableEq, Repr

namespace MutexPc

/-- Awake inside `ss_mutex_lock`. -/
def Locking (p : MutexPc) : Prop := p = lockRead ∨ p = lockSwap ∨ p = lockMark ∨ p = lockWait

/-- A wake-up is owed. -/
def Owes (p : MutexPc) : Prop := p = clear ∨ p = waking

/-- The lock word is the thread's: it holds the lock, or has not cleared the word yet. -/
def Owns (p : MutexPc) : Prop := p = holding ∨ p = clear

/-- **The next atomic step** of a thread, with what it makes of the lock word. Nothing happens by
itself outside, asleep, and at the wake-up. -/
def next : MutexPc → ℤ → Option (MutexPc × ℤ)
  | lockRead, w => some (if w = 0 then lockSwap else if w = 1 then lockMark else lockWait, w)
  | lockSwap, w =>
    some (if w = 0 then (holding, 1) else if w = 1 then (lockMark, w) else (lockWait, w))
  | lockMark, w =>
    some (if w = 1 then (lockWait, 2) else if w = 0 then (lockRead, w) else (lockWait, w))
  | lockWait, w => some (if w = 2 then asleep else lockRead, w)
  | tryRead, w => some (tryReread w, w)
  | tryReread c, w => some (if w = 0 then trySwap else if c = 0 then holding else idle, w)
  | trySwap, w => some (if w = 0 then (holding, 1) else (idle, w))
  | holding, w => some (if w = 2 then clear else idle, w - 1)
  | clear, _ => some (waking, 0)
  | idle, _ | asleep, _ | waking, _ => none

end MutexPc

/-- The lock word and the threads. -/
structure Mutex (T : Type) where
  word : ℤ
  pc : T → MutexPc

/-- What can happen. -/
inductive MutexAction (T : Type)
  /-- A thread calls `ss_mutex_lock`. -/
  | lock (t : T)
  /-- A thread calls `ss_mutex_trylock`. -/
  | trylock (t : T)
  /-- A thread makes its next step. The first step of `ss_mutex_unlock` is one of its caller. -/
  | run (t : T)
  /-- A thread calls `futex_wake`, which wakes a sleeper, if there is one. -/
  | wake (t : T) (woken : Option T)
  /-- A sleeper wakes up for no reason. -/
  | spurious (t : T)

namespace Mutex

open MutexPc

variable {T : Type} [DecidableEq T]

/-- A thread goes on from somewhere else. -/
def goto (s : Mutex T) (t : T) (p : MutexPc) : Mutex T := { s with pc := Function.update s.pc t p }

/-- The mutex in its initial state, with nobody using it. -/
def init : Mutex T := ⟨0, fun _ => idle⟩

/-- `s` goes to `s'` by an action. -/
inductive Step : Mutex T → MutexAction T → Mutex T → Prop
  | lock {s : Mutex T} {t : T} : s.pc t = idle → Step s (.lock t) (s.goto t lockRead)
  | trylock {s : Mutex T} {t : T} : s.pc t = idle → Step s (.trylock t) (s.goto t tryRead)
  | run {s : Mutex T} {t : T} {p : MutexPc} {w : ℤ} :
      (s.pc t).next s.word = some (p, w) → Step s (.run t) ({ s with word := w }.goto t p)
  | wakeNone {s : Mutex T} {t : T} :
      s.pc t = waking → (∀ u, s.pc u ≠ asleep) → Step s (.wake t none) (s.goto t idle)
  | wakeSome {s : Mutex T} {t u : T} :
      s.pc t = waking → s.pc u = asleep →
      Step s (.wake t (some u)) ((s.goto t idle).goto u lockRead)
  | spurious {s : Mutex T} {t : T} : s.pc t = asleep → Step s (.spurious t) (s.goto t lockRead)

/-- One step of a run all of whose steps meet a condition. -/
def Moves (P : Mutex T → MutexAction T → Prop) (s s' : Mutex T) : Prop :=
  ∃ a, P s a ∧ Step s a s'

/-- The states that runs reach all of whose steps meet a condition. -/
def Reached (P : Mutex T → MutexAction T → Prop) (s : Mutex T) : Prop :=
  Relation.ReflTransGen (Moves P) init s

variable {s s' : Mutex T} {a : MutexAction T} {p : MutexPc}

variable {P : Mutex T → MutexAction T → Prop} {p' : MutexPc} {t : T}

theorem Reached.step (h : Reached P s) (hP : P s a) (hstep : Step s a s') : Reached P s' :=
  Relation.ReflTransGen.tail h ⟨a, hP, hstep⟩

/-- What holds initially and is kept by every step holds in every state reached. -/
theorem Reached.induct {I : Mutex T → Prop} (h : Reached P s)
    (hinit : I init) (hstep : ∀ {s a s'}, P s a → Step s a s' → I s → I s') : I s := by
  induction h with
  | refl => exact hinit
  | tail _ hmove ih =>
    obtain ⟨a, hP, ha⟩ := hmove
    exact hstep hP ha ih

@[simp] theorem goto_word (s : Mutex T) (t : T) (p : MutexPc) : (s.goto t p).word = s.word := rfl

@[simp] theorem goto_pc_self (s : Mutex T) (t : T) (p : MutexPc) : (s.goto t p).pc t = p :=
  Function.update_self ..

theorem goto_pc_of_ne (s : Mutex T) {u : T} (h : u ≠ t) (p : MutexPc) :
    (s.goto t p).pc u = s.pc u :=
  Function.update_of_ne h ..

/-! ### Mutual exclusion -/

/-- The second load of `ss_mutex_trylock` finds the word free if the first one did. -/
def Steady (s : Mutex T) (a : MutexAction T) : Prop :=
  ∀ t, a = .run t → s.pc t = tryReread 0 → s.word = 0

/-- At most one thread owns the word, and none if it is unlocked. -/
structure Exclusive (s : Mutex T) : Prop where
  word : s.word = 0 ∨ s.word = 1 ∨ s.word = 2
  unique : ∀ t u, (s.pc t).Owns → (s.pc u).Owns → t = u
  free : s.word = 0 → ∀ t, ¬ (s.pc t).Owns

/-- What a step does to the ownership of the word. -/
theorem next_owns {w w' : ℤ} (h : p.next w = some (p', w'))
    (hw : w = 0 ∨ w = 1 ∨ w = 2) (hsteady : p = tryReread 0 → w = 0) (hown : p.Owns → w ≠ 0) :
    (w' = 0 ∨ w' = 1 ∨ w' = 2) ∧ ((¬ p'.Owns ∧ (w' = 0 → w = 0 ∨ p.Owns)) ∨
      (p'.Owns ∧ w' ≠ 0 ∧ (p.Owns ∨ w = 0))) := by
  -- the word has three values, which decide every branch
  rcases hw with rfl | rfl | rfl <;> cases p <;> simp [next, Owns] at h hown hsteady ⊢
  all_goals obtain ⟨rfl, rfl⟩ := h
  all_goals simp [hsteady]

/-- A thread goes somewhere without the word. -/
theorem Exclusive.goto (h : Exclusive s) (hp : ¬ p.Owns) (t : T) :
    Exclusive (s.goto t p) := by
  have hold : ∀ {u}, ((s.goto t p).pc u).Owns → (s.pc u).Owns := by
    intro u hu
    by_cases hut : u = t
    · rw [hut, goto_pc_self] at hu
      exact absurd hu hp
    · rwa [goto_pc_of_ne s hut] at hu
  exact ⟨h.word, fun u v hu hv => h.unique u v (hold hu) (hold hv),
    fun hw u hu => h.free hw u (hold hu)⟩

/-- One step keeps the lock exclusive. -/
theorem Exclusive.step (hsteady : Steady s a) (hstep : Step s a s') (h : Exclusive s) :
    Exclusive s' := by
  cases hstep with
  | lock _ | trylock _ | wakeNone _ _ | spurious _ => exact h.goto (by simp [Owns]) _
  | wakeSome _ _ => exact (h.goto (by simp [Owns]) _).goto (by simp [Owns]) _
  | @run t p w hnext =>
    have hown : (s.pc t).Owns → s.word ≠ 0 := fun hown hw => h.free hw t hown
    obtain ⟨hw, hcases⟩ := next_owns hnext h.word (hsteady t rfl) hown
    -- nobody else owns the word if it was free, or was the thread's
    have hothers : s.word = 0 ∨ (s.pc t).Owns → ∀ u, u ≠ t → ¬ (s.pc u).Owns := by
      rintro (hfree | hown) u hut hu
      · exact h.free hfree u hu
      · exact hut (h.unique u t hu hown)
    have hpc : ∀ {u}, u ≠ t → ({ s with word := w }.goto t p).pc u = s.pc u :=
      fun hut => goto_pc_of_ne _ hut p
    rcases hcases with ⟨hp, hfree⟩ | ⟨hp, hne, hfrom⟩
    · have hold : ∀ {u}, (({ s with word := w }.goto t p).pc u).Owns → u ≠ t ∧ (s.pc u).Owns := by
        intro u hu
        have hut : u ≠ t := by
          rintro rfl
          exact hp (by rwa [goto_pc_self] at hu)
        exact ⟨hut, by rwa [hpc hut] at hu⟩
      exact ⟨hw, fun u v hu hv => h.unique u v (hold hu).2 (hold hv).2,
        fun hw0 u hu => hothers (hfree hw0) u (hold hu).1 (hold hu).2⟩
    · have hself : ∀ {u}, (({ s with word := w }.goto t p).pc u).Owns → u = t := by
        intro u hu
        by_contra hut
        rw [hpc hut] at hu
        exact hothers hfrom.symm u hut hu
      exact ⟨hw, fun u v hu hv => (hself hu).trans (hself hv).symm, fun hw0 => absurd hw0 hne⟩

theorem Reached.exclusive (h : Reached Steady s) : Exclusive s :=
  h.induct ⟨.inl rfl, fun _ _ ht => by simp [init, Owns] at ht, fun _ _ ht => by
    simp [init, Owns] at ht⟩ Exclusive.step

/-- **Mutual exclusion.** In every run in which the second load of `ss_mutex_trylock` finds the word
free whenever the first one did, at most one thread is between a successful lock and its unlock. A
step that does not meet this, while a thread has the lock, gives it to a second one. -/
theorem mutual_exclusion_of_steady (s : Mutex T) :
    (Reached Steady s → ∀ t u, s.pc t = holding → s.pc u = holding → t = u) ∧
      ∀ t u, s.pc u = holding → ¬ Steady s (.run t) →
        ∃ s', Step s (.run t) s' ∧ t ≠ u ∧ s'.pc t = holding ∧ s'.pc u = holding := by
  refine ⟨fun h t u ht hu => h.exclusive.unique t u (.inl ht) (.inl hu), fun t u hu hunsteady => ?_⟩
  obtain ⟨ht, hword⟩ : s.pc t = tryReread 0 ∧ s.word ≠ 0 := by
    simpa [Steady] using hunsteady
  have hne : u ≠ t := by
    rintro rfl
    simp [hu] at ht
  refine ⟨_, .run (p := holding) (w := s.word) (by simp [ht, next, hword]), hne.symm, ?_, ?_⟩
  · rw [goto_pc_self]
  · rw [goto_pc_of_ne _ hne]
    exact hu

/-- The second load of one thread comes after another one took the lock. -/
theorem trylock_without_swap : ∃ s : Mutex (Fin 2), Reached (fun _ _ => True) s ∧
    s.pc 0 = holding ∧ s.pc 1 = holding := by
  have h : Reached (fun _ _ => True) (init : Mutex (Fin 2)) := .refl
  have h := h.step trivial (.trylock (t := 0) rfl)
  have h := h.step trivial (.run (t := 0) rfl)
  have h := h.step trivial (.lock (t := 1) rfl)
  have h := h.step trivial (.run (t := 1) rfl)
  have h := h.step trivial (.run (t := 1) rfl)
  have h := h.step trivial (.run (t := 0) rfl)
  exact ⟨_, h, rfl, rfl⟩

/-- A thread takes the lock while another one tries to. -/
theorem mutual_exclusion_of_steady_two : ∃ s : Mutex (Fin 2), Reached Steady s ∧
    s.pc 0 = holding ∧ s.pc 1 = tryReread 1 ∧ ∀ t, s.pc t = holding → t = 0 := by
  have hrun : ∀ {s : Mutex (Fin 2)} {t : Fin 2}, s.pc t ≠ tryReread 0 → Steady s (.run t) := by
    rintro s t hpc u ⟨⟩ hu
    exact absurd hu hpc
  have h : Reached Steady (init : Mutex (Fin 2)) := .refl
  have h := h.step (a := .lock 0) (fun _ ha => nomatch ha) (.lock rfl)
  have h := h.step (hrun (t := 0) nofun) (.run rfl)
  have h := h.step (hrun (t := 0) nofun) (.run rfl)
  have h := h.step (a := .trylock 1) (fun _ ha => nomatch ha) (.trylock rfl)
  have h := h.step (hrun (t := 1) nofun) (.run rfl)
  exact ⟨_, h, rfl, rfl, fun t ht => (mutual_exclusion_of_steady _).1 h t 0 ht rfl⟩

/-! ### Stranded waiters -/

/-- A thread sleeps on the unlocked mutex, and nothing under way will wake it. -/
def Stranded (s : Mutex T) : Prop :=
  s.word = 0 ∧ (∃ t, s.pc t = asleep) ∧ (∀ t, ¬ (s.pc t).Owes) ∧ ∀ t, ¬ (s.pc t).Locking

/-- A thread that takes the lock in `ss_mutex_lock` while others sleep leaves a wake-up owed, or
another thread awake in `ss_mutex_lock`. -/
def Heeds (s : Mutex T) (a : MutexAction T) : Prop :=
  ∀ t, a = .run t → s.pc t = lockSwap → s.word = 0 → (∃ u, s.pc u = asleep) →
    (∃ u, (s.pc u).Owes) ∨ ∃ u, u ≠ t ∧ (s.pc u).Locking

/-- Sleepers will be woken, by the mark for waiters or by what is under way. -/
def Attended (s : Mutex T) : Prop :=
  (∃ t, s.pc t = asleep) → s.word = 2 ∨ (∃ t, (s.pc t).Owes) ∨ ∃ t, (s.pc t).Locking

/-- What a step does for sleepers: it leads to a place from where they are woken; it puts the thread
to sleep by the mark; it takes the lock in `ss_mutex_lock`; or it leaves what others do for them. -/
theorem next_attends {w w' : ℤ} (h : p.next w = some (p', w')) :
    p'.Owes ∨ p'.Locking ∨ (p' = asleep ∧ w' = 2) ∨ (p = lockSwap ∧ w = 0 ∧ p' = holding) ∨
      (¬ p.Owes ∧ ¬ p.Locking ∧ p' ≠ asleep ∧ (w = 2 → w' = 2)) := by
  cases p with
  | idle | asleep | waking => simp [next] at h
  | tryRead | clear =>
    obtain ⟨⟩ := Option.some.inj h
    simp [Owes, Locking]
  | lockRead | lockSwap | lockMark | lockWait | tryReread c | trySwap | holding =>
    simp only [next, Option.some.injEq] at h
    split_ifs at h <;> obtain ⟨rfl, rfl⟩ := h <;> simp_all [Owes, Locking]

omit [DecidableEq T] in
/-- A step of one thread, for the others: what they do for sleepers stays. -/
theorem Attended.of_others (h : Attended s) (hothers : ∀ u, u ≠ t → s'.pc u = s.pc u)
    (hsleep : s'.pc t ≠ asleep) (hself : ¬ (s.pc t).Owes ∧ ¬ (s.pc t).Locking)
    (hword : s.word = 2 → s'.word = 2) :
    Attended s' := by
  rintro ⟨u, hu⟩
  have hut : u ≠ t := by
    rintro rfl
    exact hsleep hu
  rcases h ⟨u, (hothers u hut) ▸ hu⟩ with hw | ⟨v, hv⟩ | ⟨v, hv⟩
  · exact .inl (hword hw)
  · have hvt : v ≠ t := by
      rintro rfl
      exact hself.1 hv
    exact .inr (.inl ⟨v, by rwa [hothers v hvt]⟩)
  · have hvt : v ≠ t := by
      rintro rfl
      exact hself.2 hv
    exact .inr (.inr ⟨v, by rwa [hothers v hvt]⟩)

/-- One step keeps sleepers attended to. -/
theorem Attended.step (hheeds : Heeds s a) (hstep : Step s a s') (h : Attended s) :
    Attended s' := by
  have hlocking : ∀ {s : Mutex T} {t : T}, Attended (s.goto t lockRead) := fun {s t} _ =>
    .inr (.inr ⟨t, by simp [Locking]⟩)
  cases hstep with
  | lock _ | spurious _ | wakeSome _ _ => exact hlocking
  | @trylock t hidle =>
    exact h.of_others (t := t) (fun u hu => goto_pc_of_ne s hu _) (by simp)
      (by simp [hidle, Owes, Locking]) id
  | @wakeNone t _ hnone =>
    rintro ⟨u, hu⟩
    by_cases hut : u = t
    · simp [hut] at hu
    · exact absurd (goto_pc_of_ne s hut _ ▸ hu) (hnone u)
  | @run t p w hnext =>
    have hothers : ∀ u, u ≠ t → ({ s with word := w }.goto t p).pc u = s.pc u :=
      fun u hu => goto_pc_of_ne _ hu p
    rcases next_attends hnext with howes | hlock | ⟨rfl, rfl⟩ | ⟨hswap, hfree, rfl⟩ |
      ⟨howes, hlock, hsleep, hword⟩
    · exact fun _ => .inr (.inl ⟨t, by rwa [goto_pc_self]⟩)
    · exact fun _ => .inr (.inr ⟨t, by rwa [goto_pc_self]⟩)
    · exact fun _ => .inl rfl
    · rintro ⟨u, hu⟩
      have hut : u ≠ t := by
        rintro rfl
        simp at hu
      rw [hothers u hut] at hu
      rcases hheeds t rfl hswap hfree ⟨u, hu⟩ with ⟨v, hv⟩ | ⟨v, hvt, hv⟩
      · have hvt : v ≠ t := by
          rintro rfl
          simp [hswap, Owes] at hv
        exact .inr (.inl ⟨v, by rwa [hothers v hvt]⟩)
      · exact .inr (.inr ⟨v, by rwa [hothers v hvt]⟩)
    · exact h.of_others hothers (by rwa [goto_pc_self]) ⟨howes, hlock⟩ hword

/-- **No waiter is stranded** in a run in which every thread that takes the lock in `ss_mutex_lock`
while others sleep leaves a wake-up owed or another thread awake in `ss_mutex_lock`. Where it does
not, its unlock strands them. -/
theorem never_stranded_of_heeds (s : Mutex T) :
    (Reached Heeds s → ¬ Stranded s) ∧
      ∀ t, ¬ Heeds s (.run t) → ∃ s₁ s₂, Step s (.run t) s₁ ∧ s₁.pc t = holding ∧
        Step s₁ (.run t) s₂ ∧ Stranded s₂ := by
  constructor
  · rintro h ⟨hword, hsleep, howes, hlock⟩
    have hattended : Attended s :=
      h.induct (fun ⟨t, ht⟩ => by simp [init] at ht) Attended.step
    rcases hattended hsleep with hw | ⟨t, ht⟩ | ⟨t, ht⟩
    · omega
    · exact howes t ht
    · exact hlock t ht
  · intro t hheeds
    simp only [Heeds, MutexAction.run.injEq, forall_eq', not_forall, not_or, not_exists,
      not_and] at hheeds
    obtain ⟨hswap, hword, ⟨u, hu⟩, howes, hlock⟩ := hheeds
    have hut : u ≠ t := by
      rintro rfl
      simp [hswap] at hu
    refine ⟨_, _, .run (p := holding) (w := 1) (by simp [hswap, next, hword]), by simp,
      .run (p := idle) (w := 0) (by simp [next]), rfl, ⟨u, ?_⟩, fun v => ?_, fun v => ?_⟩
    · rw [goto_pc_of_ne _ hut]
      exact (goto_pc_of_ne _ hut _).trans hu
    · by_cases hvt : v = t
      · simp [hvt, Owes]
      · rw [goto_pc_of_ne _ hvt]
        exact (goto_pc_of_ne { s with word := 1 } hvt holding) ▸ howes v
    · by_cases hvt : v = t
      · simp [hvt, Locking]
      · rw [goto_pc_of_ne _ hvt]
        exact (goto_pc_of_ne { s with word := 1 } hvt holding) ▸ hlock v hvt

/-- The first of two sleepers is woken, takes the lock without the mark, and does not wake the
second one. -/
theorem waiter_stranded : ∃ s : Mutex (Fin 3), Reached (fun _ _ => True) s ∧ Stranded s := by
  have h : Reached (fun _ _ => True) (init : Mutex (Fin 3)) := .refl
  -- one thread takes the lock, and two go to sleep
  have h := h.step trivial (.lock (t := 0) rfl)
  have h := h.step trivial (.run (t := 0) rfl)
  have h := h.step trivial (.run (t := 0) rfl)
  have h := h.step trivial (.lock (t := 1) rfl)
  have h := h.step trivial (.run (t := 1) rfl)
  have h := h.step trivial (.run (t := 1) rfl)
  have h := h.step trivial (.run (t := 1) rfl)
  have h := h.step trivial (.lock (t := 2) rfl)
  have h := h.step trivial (.run (t := 2) rfl)
  have h := h.step trivial (.run (t := 2) rfl)
  -- it unlocks
  have h := h.step trivial (.run (t := 0) rfl)
  have h := h.step trivial (.run (t := 0) rfl)
  have h := h.step trivial (.wakeSome (t := 0) (u := 1) rfl rfl)
  -- the thread that was woken takes the lock and unlocks
  have h := h.step trivial (.run (t := 1) rfl)
  have h := h.step trivial (.run (t := 1) rfl)
  have h := h.step trivial (.run (t := 1) rfl)
  obtain ⟨s, h, hword, hpc⟩ : ∃ s : Mutex (Fin 3), Reached (fun _ _ => True) s ∧ s.word = 0 ∧
      ∀ t, s.pc t = if t = 2 then asleep else idle :=
    ⟨_, h, rfl, fun | 0 => rfl | 1 => rfl | 2 => rfl⟩
  refine ⟨s, h, hword, ⟨2, hpc 2⟩, fun t => ?_, fun t => ?_⟩ <;> rw [hpc] <;> split <;>
    simp [Owes, Locking]

/-- With one sleeper, who is woken, nothing is stranded. -/
theorem never_stranded_of_heeds_two : ∃ s : Mutex (Fin 2), Reached Heeds s ∧
    s.pc 1 = asleep ∧ ¬ Stranded s := by
  have hrun : ∀ {s : Mutex (Fin 2)} {t : Fin 2}, s.pc t ≠ lockSwap → Heeds s (.run t) := by
    rintro s t hpc u ⟨⟩ hu
    exact absurd hu hpc
  have h : Reached Heeds (init : Mutex (Fin 2)) := .refl
  have h := h.step (a := .lock 0) (fun _ ha => nomatch ha) (.lock rfl)
  have h := h.step (hrun (t := 0) nofun) (.run rfl)
  have hawake : ∀ t : Fin 2, (({ init with word := 0 }.goto 0 lockRead).goto 0 lockSwap).pc t ≠
      asleep := fun | 0 => nofun | 1 => nofun
  have h := h.step (a := .run 0) (fun _ _ _ _ ⟨u, hu⟩ => absurd hu (hawake u)) (.run rfl)
  have h := h.step (a := .lock 1) (fun _ ha => nomatch ha) (.lock rfl)
  have h := h.step (hrun (t := 1) nofun) (.run rfl)
  have h := h.step (hrun (t := 1) nofun) (.run rfl)
  have h := h.step (hrun (t := 1) nofun) (.run rfl)
  exact ⟨_, h, rfl, (never_stranded_of_heeds _).1 h⟩

end Mutex

end Viengoos
