import Viengoos.Ipc.Messenger

/-!
# Requests that wait

Three requests put the messenger that is to get the reply on a wait queue instead of replying:
`FUTEX_WAIT`, `VG_object_reply_on_destruction` and `VG_activity_info` (`server.c`). The messenger is
the one that the first capability address of the message designates. A message without capability
addresses leaves it null, and nobody asks whether it already waits.

`object_wait_queue_enqueue` needs a messenger that is on no queue. The result says which requests
give it one.
-/

namespace Viengoos

open Outcome

variable {W : Type}

/-- What the requests that may wait ask for, with what the kernel looks up for them: the word at the
futex, and the period of the activity's latest statistics. -/
inductive WaitBody
  | futexWait (object1 offset1 : ℕ) (word val1 : ℤ) (timeout : Bool)
  | objectReplyOnDestruction (target : ℕ)
  | activityInfo (target flags untilPeriod period : ℕ)

/-- A request that may wait: the number of capability addresses in the message, the messenger that
`OBJECT` finds at the first of them, if any, whether the arguments are complete, and these. -/
structure WaitRequest where
  capCount : ℕ
  found : Option ℕ
  complete : Bool
  body : WaitBody

/-- `vg_activity_info_stats`. -/
def activityInfoStats : ℕ := 1

/-- What a handler does: it replies at once, with `REPLY`, which asks whether there is a messenger,
or with an answer, which does not; it panics; or it lets the messenger wait on an object. -/
inductive WaitAction
  | reply
  | answer
  | panic
  | wait (object : ℕ) (note : Messenger → Messenger)

/-- The handlers of `server.c`, up to the reply or the call of `object_wait_queue_enqueue`. -/
def WaitBody.action (type : ℕ → Option CapType) : WaitBody → WaitAction
  | futexWait object1 offset1 word val1 timeout =>
    if word ≠ val1 then .reply
    else if timeout then .panic
    else .wait object1 fun g => { g with waitReason := .futex, waitReasonArg := offset1 }
  | objectReplyOnDestruction target => .wait target fun g => { g with waitReason := .destroy }
  | activityInfo target flags untilPeriod period =>
    if type target ≠ some .activityControl then .reply
    else if flags &&& activityInfoStats ≠ 0 ∧ 0 < period ∧ untilPeriod ≤ period then .answer
    else if flags ≠ 0 then
      .wait target fun g =>
        { g with
          waitReason := .activityInfo, waitReasonArg := flags, waitReasonArg2 := untilPeriod }
    else .reply

/-- What the handlers do after the call of `object_wait_queue_enqueue`: `FUTEX_WAIT` puts the
messenger on `futex_waiters`. -/
def WaitBody.register (q : WaitQueues) (m : ℕ) : WaitBody → Except Fault WaitQueues
  | futexWait .. => futexWaiterListEnqueue q m
  | objectReplyOnDestruction _ | activityInfo .. => pure q

namespace WaitRequest

/-- The reply messenger, possibly null. A capability address that designates no messenger ends the
request. -/
def reply (r : WaitRequest) : Option (Option ℕ) :=
  if 0 < r.capCount then r.found.map some else some none

/-- What the server does with the request. -/
def action (r : WaitRequest) (type : ℕ → Option CapType) : WaitAction :=
  if r.complete then r.body.action type else .reply

/-- The call of `object_wait_queue_enqueue` that the request leads to: the object and the messenger,
which may be null. -/
def call (r : WaitRequest) (type : ℕ → Option CapType) : Option (ℕ × Option ℕ) :=
  match r.reply, r.action type with
  | some reply, .wait object _ => some (object, reply)
  | _, _ => none

/-- The server loop for the request. -/
def serve (M : Machine W) (s : Ipc W) (r : WaitRequest) : Except Fault (Ipc W) :=
  match r.reply with
  | none => pure s
  | some reply =>
    match r.action s.queues.type, reply with
    | .reply, none => pure s
    | .answer, none => throw .assertion
    | .reply, some m | .answer, some m => do
      let (s, _) ← messengerMessageLoad M s m
      pure s
    | .panic, _ => throw .panic
    -- The null pointer is written to before it is passed on.
    | .wait _ _, none => throw .assertion
    | .wait object note, some m => do
      let s := s.modify m note
      let queues ← objectWaitQueueEnqueue s.queues object m
      let queues ← r.body.register queues m
      pure { s with queues := queues }

/-- What `object_wait_queue_enqueue` needs: a messenger, and one that is on no queue. -/
def CallSound (s : Ipc W) (call : ℕ × Option ℕ) : Prop :=
  ∃ m, call.2 = some m ∧ s.queues.queued m = false

/-- In a sequence of requests, every call is sound. -/
def CallsSound (M : Machine W) : Ipc W → List WaitRequest → Prop
  | _, [] => True
  | s, r :: rs => (∀ c ∈ r.call s.queues.type, CallSound s c) ∧
    ∀ s', r.serve M s = .ok s' → CallsSound M s' rs

/-- The request waits, unless its reply messenger cannot be found. -/
def Waits (r : WaitRequest) (type : ℕ → Option CapType) : Prop :=
  ∃ object note, r.action type = .wait object note

/-- A request that waits names a messenger, or something that is none, and the messenger does not
wait already. -/
def Fresh (s : Ipc W) (r : WaitRequest) : Prop :=
  r.Waits s.queues.type → 0 < r.capCount ∧ ∀ m ∈ r.found, s.queues.queued m = false

/-- In a sequence of requests, every request is fresh. -/
def AllFresh (M : Machine W) : Ipc W → List WaitRequest → Prop
  | _, [] => True
  | s, r :: rs => r.Fresh s ∧ ∀ s', r.serve M s = .ok s' → AllFresh M s' rs

variable {M : Machine W} {s : Ipc W} {r : WaitRequest}

/-- The calls of a request, from its action and its reply messenger. -/
theorem mem_call {type : ℕ → Option CapType} {c : ℕ × Option ℕ} :
    c ∈ r.call type ↔ ∃ note, r.action type = .wait c.1 note ∧ r.reply = some c.2 := by
  unfold call
  split
  · next reply object note hreply haction =>
    rw [Option.mem_some_iff]
    constructor
    · rintro rfl
      exact ⟨note, haction, hreply⟩
    · rintro ⟨note', haction', hreply'⟩
      rw [haction] at haction'
      rw [hreply] at hreply'
      cases c
      cases haction'
      cases hreply'
      rfl
  · next hne =>
    constructor
    · simp
    · rintro ⟨note, haction, hreply⟩
      exact absurd haction (hne _ _ _ hreply)

/-- **One request** makes sound calls only iff it is fresh. -/
theorem callSound_iff_fresh :
    (∀ c ∈ r.call s.queues.type, CallSound s c) ↔ r.Fresh s := by
  constructor
  · rintro hcalls ⟨object, note, haction⟩
    by_cases hcount : 0 < r.capCount
    · refine ⟨hcount, fun m hm => ?_⟩
      have hreply : r.reply = some (some m) := by simp [reply, hcount, Option.mem_def.1 hm]
      obtain ⟨m', hm', hqueued⟩ := hcalls (object, some m) (mem_call.2 ⟨note, haction, hreply⟩)
      rwa [Option.some.inj hm']
    · have hreply : r.reply = some none := by simp [reply, hcount]
      obtain ⟨m', hm', -⟩ := hcalls (object, none) (mem_call.2 ⟨note, haction, hreply⟩)
      cases hm'
  · intro hfresh c hc
    obtain ⟨note, haction, hreply⟩ := mem_call.1 hc
    obtain ⟨hcount, hfound⟩ := hfresh ⟨c.1, note, haction⟩
    rw [reply, if_pos hcount, Option.map_eq_some_iff] at hreply
    obtain ⟨m, hm, hcm⟩ := hreply
    exact ⟨m, hcm.symm, hfound m hm⟩

/-- Being on `futex_waiters` makes no difference to the queues. -/
theorem register_represents {q : WaitQueues} {L : ℕ → List ℕ} {o m : ℕ} (body : WaitBody)
    (h : Represents q L) (hm : m ∈ L o) (hout : q.attached m = false) :
    ∃ q', body.register q m = .ok q' ∧ Represents q' L := by
  cases body with
  | futexWait => exact ⟨_, h.attach hm hout⟩
  | objectReplyOnDestruction | activityInfo => exact ⟨q, rfl, h⟩

/-- A fresh request that waits is queued behind the others; the kernel stops on an assertion at any
other that waits. -/
theorem serve_waits {L : ℕ → List ℕ} {object : ℕ} {note : Messenger → Messenger}
    (h : Represents s.queues L) (haction : r.action s.queues.type = .wait object note)
    (hobject : s.queues.type object ≠ none)
    (hfound : ∀ m ∈ r.found, s.queues.type m = some .messenger) :
    (r.Fresh s → ∀ m ∈ r.found, ∃ s', r.serve M s = .ok s' ∧
      Represents s'.queues (Function.update L object (L object ++ [m]))) ∧
    (¬ r.Fresh s → r.serve M s = .error .assertion) := by
  constructor
  · intro hfresh m hm
    obtain ⟨hcount, hqueued⟩ := hfresh ⟨object, note, haction⟩
    have hout : ∀ p, m ∉ L p := fun p hp => by
      simpa [hqueued m hm] using h.queued_of_mem hp
    obtain ⟨q, henq, -, hattached, hq⟩ := h.enqueue (hfound m hm) hobject hout
    have hmem : m ∈ Function.update L object (L object ++ [m]) object := by simp
    obtain ⟨q', hregister, hq'⟩ := register_represents r.body hq hmem
      (by rw [hattached]; exact h.attached_eq_false hout)
    refine ⟨{ s.modify m note with queues := q' }, ?_, hq'⟩
    have hreply : r.reply = some (some m) := by simp [reply, hcount, Option.mem_def.1 hm]
    simp only [serve, hreply, haction]
    rw [show (s.modify m note).queues = s.queues from rfl, henq, ok_bind, hregister]
    rfl
  · intro hstale
    have hcases : ¬ 0 < r.capCount ∨ ∃ m, r.found = some m ∧ s.queues.queued m = true := by
      by_contra hnone
      push Not at hnone
      exact hstale fun _ => ⟨hnone.1, fun m hm => by simpa using hnone.2 m hm⟩
    by_cases hcount : 0 < r.capCount
    · obtain ⟨m, hm, hqueued⟩ := hcases.resolve_left (not_not.2 hcount)
      have hreply : r.reply = some (some m) := by simp [reply, hcount, hm]
      simp only [serve, hreply, haction]
      rw [objectWaitQueueEnqueue, require_of_not]
      · rfl
      · simp [Ipc.modify, hqueued]
    · have hreply : r.reply = some none := by simp [reply, hcount]
      simp only [serve, hreply, haction]
      rfl

/-- **Waiting requests and the precondition of the wait queues.** In every sequence of requests,
from every state, all calls of `object_wait_queue_enqueue` are sound iff every request is fresh in
the state it finds. A fresh request that waits is queued, and one that is not fresh stops the
kernel. -/
theorem waitCalls_sound_iff (M : Machine W) :
    (∀ (s : Ipc W) (rs : List WaitRequest), CallsSound M s rs ↔ AllFresh M s rs) ∧
    ∀ (s : Ipc W) (L : ℕ → List ℕ) (r : WaitRequest) (object : ℕ) (note : Messenger → Messenger),
      Represents s.queues L → r.action s.queues.type = .wait object note →
      s.queues.type object ≠ none → (∀ m ∈ r.found, s.queues.type m = some .messenger) →
      (r.Fresh s → ∀ m ∈ r.found, ∃ s', r.serve M s = .ok s' ∧
        Represents s'.queues (Function.update L object (L object ++ [m]))) ∧
      (¬ r.Fresh s → r.serve M s = .error .assertion) := by
  refine ⟨fun s rs => ?_, fun s L r object note h haction hobject hfound =>
    serve_waits h haction hobject hfound⟩
  induction rs generalizing s with
  | nil => exact Iff.rfl
  | cons r rs ih =>
    exact and_congr callSound_iff_fresh (forall_congr' fun s' => imp_congr_right fun _ => ih s')

end WaitRequest

/-! ### A small system -/

/-- Messengers 1 to 3 and pages, with no waiters. -/
def nobodyWaits : Ipc Unit where
  queues :=
    { type := fun o => if o = 0 then some .folio else if o < 4 then some .messenger else some .page
      waited := fun _ => false
      first := fun _ => 0
      queued := fun _ => false
      links := ⟨fun _ => 0, fun _ => 0, fun _ => false, fun _ => false⟩
      attached := fun _ => false }
  messenger _ := .zero
  world := ()
  delivered := []

/-- The request to learn of the destruction of page 4. -/
def watchPage (capCount : ℕ) (found : Option ℕ) : WaitRequest :=
  ⟨capCount, found, true, .objectReplyOnDestruction 4⟩

theorem waitCalls_sound_watchPage :
    ∃ s', (watchPage 1 (some 1)).serve threadless nobodyWaits = .ok s' ∧
      Represents s'.queues (Function.update (fun _ => []) 4 [1]) := by
  have hstep := (WaitRequest.waitCalls_sound_iff threadless).2 nobodyWaits (fun _ => [])
    (watchPage 1 (some 1)) 4 _ (represents_nil (fun _ => rfl) (fun _ => rfl) fun _ => rfl) rfl
    (by decide)
    (by rintro m hm; cases hm; rfl)
  exact hstep.1 (fun _ => ⟨by decide, fun _ _ => rfl⟩) 1 rfl

/-- A client asks twice with the same reply messenger, or asks without one: the kernel stops on the
assertion of `object_wait_queue_enqueue`, or at the null pointer. -/
theorem waitCalls_unsound :
    (do
      let s ← (watchPage 1 (some 1)).serve threadless nobodyWaits
      (watchPage 1 (some 1)).serve threadless s) = .error .assertion ∧
    (watchPage 0 none).serve threadless nobodyWaits = .error .assertion :=
  ⟨rfl, rfl⟩

end Viengoos
