import Viengoos.BitArray

/-!
# Thread identifiers

`thread_init` takes a thread identifier from the bit array `thread_ids` and enters the thread in the
hash `tid_to_thread`; `thread_deinit` takes both back. `THREAD_IDS_MAX` is defined as `1 << 16`
without parentheses, so that the array has `1 << 16 / 8` bytes, which is 4 of them: **there are
identifiers for 32 threads**, and not for 65536.

The hash is a partial function: its buffer of ten pages is never filled. An identifier is given by
its thread number; the version is `THREAD_VERSION` in all of them.
-/

namespace Viengoos

open Outcome Function

namespace ThreadIds

/-! ### The code -/

/-- `THREAD_IDS_MAX / 8`. -/
def threadIdsBytes : ℕ := 1 <<< (16 / 8)

/-- `(tid + 1) % THREAD_IDS_MAX`. -/
def nextOf (tid : ℕ) : ℕ := ((tid + 1) % 1) <<< 16

/-- `thread_ids`, `thread_id_next`, `tid_to_thread`, and the `tid` of each thread whose `init` is
set. -/
structure State (T : Type) where
  ids : BitArray
  next : ℕ
  hash : ℕ → Option T
  tid : T → Option ℕ

variable {T : Type} [DecidableEq T] (base : ℕ)

/-- `thread_init`; `base` is `THREAD_ID_BASE`. -/
def threadInit (s : State T) (thread : T) : Except Fault (State T) := do
  let (ids, tid) ← s.ids.bitAlloc threadIdsBytes s.next
  match tid with
  | none => .error .panic
  | some tid =>
    require (s.hash (tid + base) = none) .assertion
    pure ⟨ids, nextOf tid, update s.hash (tid + base) (some thread),
      update s.tid thread (some (tid + base))⟩

/-- `thread_deinit`. -/
def threadDeinit (s : State T) (thread : T) : Except Fault (State T) :=
  match s.tid thread with
  | none => pure s
  | some tid => do
    let ids ← s.ids.bitDealloc (tid - base)
    require (s.hash tid ≠ none) .assertion
    pure ⟨ids, s.next, update s.hash tid none, update s.tid thread none⟩

omit [DecidableEq T] in
/-- `thread_lookup`. -/
def threadLookup (s : State T) (threadid : ℕ) : Except Fault T :=
  match s.hash threadid with
  | none => .error .assertion
  | some thread => do
    require (s.tid thread = some threadid) .assertion
    pure thread

/-- The states that are reached by creating and destroying threads. -/
inductive Reached : State T → Prop
  | start : Reached ⟨fun _ => 0, 0, fun _ => none, fun _ => none⟩
  | create {s s' : State T} {thread : T} : Reached s → s.tid thread = none →
      threadInit base s thread = .ok s' → Reached s'
  | destroy {s s' : State T} {thread : T} : Reached s → threadDeinit base s thread = .ok s' →
      Reached s'

/-! ### The identifiers in use -/

/-- The threads that are alive. -/
def State.alive (s : State T) : Set T := {t | s.tid t ≠ none}

/-- The threads that are alive have the identifiers whose bits are set, and are found by them. -/
structure Sound (s : State T) : Prop where
  next : s.next < threadIdsBytes * 8
  used : ∀ i < threadIdsBytes * 8, s.ids.bit i = (s.hash (i + base)).isSome
  found : ∀ n t, s.hash n = some t ↔ s.tid t = some n
  range : ∀ n, s.hash n ≠ none → ∃ i < threadIdsBytes * 8, n = i + base

variable {base} {s s' : State T} {thread : T}

omit [DecidableEq T] in
/-- An identifier is left just if fewer than 32 threads are alive. -/
theorem Sound.ncard_lt_iff (h : Sound base s) :
    s.alive.ncard < 32 ↔ ∃ i < threadIdsBytes * 8, s.ids.bit i = false := by
  have hcard : ((Finset.range 32).filter (s.ids.bit · = true) : Set ℕ).ncard = s.alive.ncard := by
    have hhash {i : ℕ} (hi : i ∈ ((Finset.range 32).filter (s.ids.bit · = true) : Set ℕ)) :
        (s.hash (i + base)).isSome = true := by
      rw [Finset.mem_coe, Finset.mem_filter, Finset.mem_range] at hi
      exact h.used i hi.1 ▸ hi.2
    have htid {i : ℕ} (hi) : s.tid ((s.hash (i + base)).get (hhash hi)) = some (i + base) :=
      (h.found _ _).1 (Option.some_get _).symm
    refine Set.ncard_congr (fun i hi => (s.hash (i + base)).get (hhash hi)) (fun i hi => ?_)
      (fun i j hi hj heq => ?_) fun t ht => ?_
    · simp [State.alive, htid hi]
    · have hsame := htid hi
      rw [heq, htid hj, Option.some.injEq] at hsame
      omega
    · obtain ⟨n, hn⟩ := Option.ne_none_iff_exists'.1 ht
      have hfound := (h.found n t).2 hn
      obtain ⟨i, hi, rfl⟩ := h.range n (by simp [hfound])
      exact ⟨i, by simpa [h.used i hi, hfound, threadIdsBytes] using hi, by simp [hfound]⟩
  have hle := Finset.card_filter_le (Finset.range 32) (s.ids.bit · = true)
  have hall := Finset.card_filter_eq_iff (s := Finset.range 32) (p := (s.ids.bit · = true))
  rw [Finset.card_range] at hle hall
  rw [← hcard, Set.ncard_coe_finset, lt_iff_le_and_ne, and_iff_right hle, Ne, hall]
  simp [threadIdsBytes]

/-- **A thread is created** if an identifier is left, and gets one that no thread has. -/
theorem Sound.create (h : Sound base s) (hnew : s.tid thread = none) :
    threadInit base s thread = .error .panic ∧ ¬s.alive.ncard < 32 ∨
      ∃ s' n, threadInit base s thread = .ok s' ∧ s.hash n = none ∧ s.alive.ncard < 32 ∧
        Sound base s' ∧ s'.tid = update s.tid thread (some n) ∧
        s'.hash = update s.hash n (some thread) := by
  rcases s.ids.bitAlloc_cases h.next with ⟨hok, hall⟩ | ⟨ids, byte, k, hok, hfirst, hset⟩
  · exact .inl ⟨by rw [threadInit, hok]; rfl, by simpa [h.ncard_lt_iff] using hall⟩
  · obtain ⟨-, q, -, -, hi, hzero, -⟩ := hfirst
    generalize byte * 8 + k = i at *
    have hlt : i < threadIdsBytes * 8 := hi ▸ Nat.mod_lt q (by decide)
    rw [← hi] at hzero
    have hfree : s.hash (i + base) = none := by
      simpa [hzero] using h.used i hlt
    refine .inr ⟨⟨ids, nextOf i, update s.hash (i + base) (some thread),
      update s.tid thread (some (i + base))⟩, i + base, ?_, hfree, h.ncard_lt_iff.2 ⟨i, hlt, hzero⟩,
      ⟨?_, fun j hj => ?_, fun n t => ?_, fun n hn => ?_⟩, rfl, rfl⟩
    · rw [threadInit, hok, ok_bind]
      dsimp only
      rw [require_of hfree]
      rfl
    · simp [nextOf, Nat.mod_one, threadIdsBytes]
    · rw [hset, h.used j hj]
      by_cases hji : j = i <;> simp [hji]
    · have hold := h.found n t
      simp only [update_apply]
      grind
    · by_cases heq : n = i + base
      · exact ⟨i, hlt, heq⟩
      · exact h.range n (by simpa [heq] using hn)

/-- **A thread is destroyed**, and its identifier is free again. -/
theorem Sound.destroy {n : ℕ} (h : Sound base s) (htid : s.tid thread = some n) :
    ∃ s', threadDeinit base s thread = .ok s' ∧ Sound base s' ∧
      s'.tid = update s.tid thread none ∧ s'.ids.bit (n - base) = false := by
  have hhash : s.hash n = some thread := (h.found _ _).2 htid
  obtain ⟨i, hi, rfl⟩ := h.range n (by simp [hhash])
  obtain ⟨ids, hok, hset⟩ := BitArray.bitDealloc_spec
    (show s.ids.bit i = true by rw [h.used i hi, hhash]; rfl)
  refine ⟨⟨ids, s.next, update s.hash (i + base) none, update s.tid thread none⟩, ?_,
    ⟨h.next, fun j hj => ?_, fun n t => ?_, fun n hn => ?_⟩, rfl, ?_⟩
  · rw [threadDeinit, htid]
    dsimp only
    rw [Nat.add_sub_cancel, hok, ok_bind, require_of (by simp [hhash])]
    rfl
  · rw [hset, h.used j hj]
    by_cases hji : j = i <;> simp [hji]
  · have hold := h.found n t
    have hself := h.found n thread
    simp only [update_apply]
    grind
  · exact h.range n fun hnone => hn (by simp [update_apply, hnone])
  · rw [Nat.add_sub_cancel, hset, if_pos rfl]

theorem Reached.sound (h : Reached base s) : Sound base s := by
  induction h with
  | start => constructor <;> simp [BitArray.bit, threadIdsBytes]
  | @create s s' thread _ hnew hok ih =>
    rcases ih.create hnew with ⟨herror, -⟩ | ⟨_, n, hok', -, -, hs', -⟩
    · rw [herror] at hok
      cases hok
    · exact Except.ok.inj (hok.symm.trans hok') ▸ hs'
  | @destroy s s' thread _ hok ih =>
    rcases htid : s.tid thread with _ | n
    · rw [threadDeinit, htid] at hok
      exact Except.ok.inj hok ▸ ih
    · obtain ⟨_, hok', hs', -⟩ := ih.destroy htid
      exact Except.ok.inj (hok.symm.trans hok') ▸ hs'

/-- **Thread identifiers.** In every state that is reached, a new thread gets an identifier that no
other thread has and is found by it if and only if fewer than 32 threads are alive. A thread can be
destroyed, and its identifier becomes free. -/
theorem threadIds_unique (h : Reached base s) :
    (∀ thread, s.tid thread = none → (s.alive.ncard < 32 ↔ ∃ s' n,
        threadInit base s thread = .ok s' ∧ s'.tid = update s.tid thread (some n) ∧
        (∀ t, s.tid t ≠ some n) ∧ threadLookup s' n = .ok thread)) ∧
      ∀ thread n, s.tid thread = some n → ∃ s', threadDeinit base s thread = .ok s' ∧
        s'.tid = update s.tid thread none ∧ s'.ids.bit (n - base) = false := by
  refine ⟨fun thread hnew => ?_, fun thread n htid => ?_⟩
  · rcases h.sound.create hnew with ⟨herror, hfull⟩ | ⟨s', n, hok, hfree, hlt, -, htid, hhash⟩
    · simp [herror, hfull]
    · refine iff_of_true hlt ⟨s', n, hok, htid, fun t ht => ?_, ?_⟩
      · rw [(h.sound.found n t).2 ht] at hfree
        cases hfree
      · rw [threadLookup, hhash, update_self]
        simp [htid, require_of, pure, Except.pure]
  · obtain ⟨s', hok, -, hrest⟩ := h.sound.destroy htid
    exact ⟨s', hok, hrest⟩

/-- The threads up to a number are created. -/
theorem exists_reached : ∀ n ≤ 32, ∃ s : State ℕ, Reached 0 s ∧ s.alive = (Finset.range n : Set ℕ)
  | 0, _ => ⟨_, .start, by simp [State.alive]⟩
  | n + 1, hn => by
    obtain ⟨s, hs, halive⟩ := exists_reached n (by omega)
    have hnew : s.tid n = none := by
      by_contra hne
      have : n ∈ s.alive := hne
      simp [halive] at this
    rcases hs.sound.create hnew with ⟨-, hfull⟩ | ⟨s', i, hok, -, -, -, htid, -⟩
    · rw [halive, Set.ncard_coe_finset, Finset.card_range] at hfull
      omega
    · refine ⟨s', hs.create hnew hok, ?_⟩
      ext t
      have hold : t ∈ s.alive ↔ t < n := by simp [halive]
      by_cases ht : t = n
      · simp [State.alive, htid, ht]
      · rw [State.alive, Set.mem_ofPred_eq, htid, update_of_ne ht]
        refine hold.trans ?_
        simp only [Finset.coe_range, Set.mem_Iio]
        omega

/-- With eight threads alive, a ninth is created, or the last one destroyed. -/
theorem threadIds_unique_eight : ∃ s : State ℕ, Reached 0 s ∧ s.alive = (Finset.range 8 : Set ℕ) ∧
    (∃ s' n, threadInit 0 s 8 = .ok s' ∧ (∀ t, s.tid t ≠ some n) ∧ threadLookup s' n = .ok 8) ∧
    ∃ s', threadDeinit 0 s 7 = .ok s' ∧ s'.tid 7 = none := by
  obtain ⟨s, hs, halive⟩ := exists_reached 8 (by decide)
  obtain ⟨hcreate, hdestroy⟩ := threadIds_unique hs
  have h7 : s.tid 7 ≠ none := show 7 ∈ s.alive by simp [halive]
  have h8 : s.tid 8 = none := by
    by_contra hne
    have hmem : 8 ∈ s.alive := hne
    simp [halive] at hmem
  obtain ⟨s₁, i, hok₁, -, hfresh, hlookup⟩ :=
    (hcreate 8 h8).1 (by rw [halive, Set.ncard_coe_finset, Finset.card_range]; decide)
  obtain ⟨n, hn⟩ := Option.ne_none_iff_exists'.1 h7
  obtain ⟨s₂, hok₂, htid, -⟩ := hdestroy 7 n hn
  exact ⟨s, hs, halive, ⟨s₁, i, hok₁, hfresh, hlookup⟩, s₂, hok₂, by simp [htid]⟩

/-- **The 33rd thread**: with 32 threads alive, `thread_init` panics. -/
theorem threadInit_panics : ∃ s : State ℕ, Reached 0 s ∧ s.alive = (Finset.range 32 : Set ℕ) ∧
    s.tid 32 = none ∧ threadInit 0 s 32 = .error .panic := by
  obtain ⟨s, hs, halive⟩ := exists_reached 32 le_rfl
  have hnew : s.tid 32 = none := by
    by_contra hne
    have : 32 ∈ s.alive := hne
    simp [halive] at this
  rcases hs.sound.create hnew with ⟨herror, -⟩ | ⟨_, _, -, -, hlt, -⟩
  · exact ⟨s, hs, halive, hnew, herror⟩
  · rw [halive, Set.ncard_coe_finset, Finset.card_range] at hlt
    omega

end ThreadIds

end Viengoos
