import Viengoos.Ipc.WaitQueue

/-!
# Messengers

The part of `messenger.c` that decides who gets a message and when, with the receive and the send
phase of an IPC (`server.c`) and the activation of threads (`thread.c`) on top. A messenger that is
blocked takes no message: a sender that may wait is put on its wait queue, and a receive takes the
first of them off.

What a message contains and how it is copied is not the subject here. The rest of the kernel is a
parameter, `Machine W`: how a payload is copied and what the kernel finds when it wants to activate
a messenger's thread, both of which depend on memory that users write.
-/

namespace Viengoos

open Outcome Function

/-- The fields of `struct messenger` that steer the exchange of messages. -/
structure Messenger where
  blocked : Bool
  activateOnReceive : Bool
  activateOnSend : Bool
  waitReason : WaitReason
  waitReasonArg : ℕ
  waitReasonArg2 : ℕ
deriving DecidableEq, Repr

/-- A messenger of a zeroed page. -/
def Messenger.zero : Messenger := ⟨false, false, false, .futex, 0, 0⟩

/-- What `messenger_message_deliver` and `thread_activate` find: no thread, or none with a thread
control block; a thread that is handling an activation; a thread that can be activated. -/
inductive Activation
  | refused
  | deferred (thread : ℕ)
  | ready (thread : ℕ)
deriving DecidableEq, Repr

/-- **The rest of the kernel**, as far as messengers use it. -/
structure Machine (W : Type) where
  /-- Copy the payload of a messenger, or of the kernel's own message, to a messenger. -/
  copy : W → (target : ℕ) → (source : Option ℕ) → Except Fault W
  activation : W → (messenger : ℕ) → Activation
  /-- `utcb->pending_message` of a thread. -/
  setPending : W → (thread : ℕ) → Bool → W
  /-- Start the thread's activation handler. The thread manager may refuse. -/
  activate : W → (thread messenger : ℕ) → W × Bool
  /-- The thread has a control block and is not in activated mode. -/
  idle : W → (thread : ℕ) → Bool

/-- The messengers with their queues. -/
structure Ipc (W : Type) where
  queues : WaitQueues
  messenger : ℕ → Messenger
  world : W
  /-- Ghost, which no code reads: the transfers made, source and target, oldest first. -/
  delivered : List (ℕ × ℕ)

variable {W : Type}

namespace Ipc

/-- Change a messenger. -/
def modify (s : Ipc W) (m : ℕ) (f : Messenger → Messenger) : Ipc W :=
  { s with messenger := Function.update s.messenger m (f (s.messenger m)) }

def setBlocked (s : Ipc W) (m : ℕ) (b : Bool) : Ipc W :=
  s.modify m fun g => { g with blocked := b }

def setActivateOnReceive (s : Ipc W) (m : ℕ) (b : Bool) : Ipc W :=
  s.modify m fun g => { g with activateOnReceive := b }

def setActivateOnSend (s : Ipc W) (m : ℕ) (b : Bool) : Ipc W :=
  s.modify m fun g => { g with activateOnSend := b }

def setReason (s : Ipc W) (m : ℕ) (r : WaitReason) : Ipc W :=
  s.modify m fun g => { g with waitReason := r }

/-- The payload has been copied. -/
def noteTransfer (s : Ipc W) (world : W) (target : ℕ) (source : Option ℕ) : Ipc W :=
  { s with
    world := world
    delivered := s.delivered ++ (source.map fun m => (m, target)).toList }

/-- A messenger waits to transfer its message. -/
def transfers (s : Ipc W) (m : ℕ) : Bool := (s.messenger m).waitReason == .transferMessage

end Ipc

/-- `object_wait_queue_for_each` with a body that leaves the loop at the first match: the waiter
found. The next waiter is fetched before the body runs. -/
def firstWaiter (q : WaitQueues) (p : ℕ → Bool) : ℕ → Option ℕ → Except Fault (Option ℕ)
  | _, none => pure none
  | 0, some _ => throw .outOfFuel
  | fuel + 1, some m => do
    let next ← objectWaitQueueNext q m
    if p m then pure (some m) else firstWaiter q p fuel next

/-- The first waiter on an object that matches. -/
def findWaiter (fuel : ℕ) (q : WaitQueues) (object : ℕ) (p : ℕ → Bool) :
    Except Fault (Option ℕ) := do
  firstWaiter q p fuel (← objectWaitQueueHead q object)

section Code

variable (M : Machine W)

/-- `messenger_message_deliver`, with the part of `thread_activate` that concerns messengers. -/
def messengerMessageDeliver (s : Ipc W) (messenger : ℕ) : Except Fault (Ipc W × Bool) := do
  require ((s.messenger messenger).blocked = true) .assertion
  require (s.queues.queued messenger = false) .assertion
  match M.activation s.world messenger with
  | .refused => pure (s, false)
  | .deferred thread => do
    let queues ← objectWaitQueueEnqueue s.queues thread messenger
    let s := { s with queues := queues, world := M.setPending s.world thread true }
    pure (s.setReason messenger .transferMessage, true)
  | .ready thread =>
    let (world, started) := M.activate s.world thread messenger
    pure ({ s with world := world }, started)

/-- Activate the thread of a messenger that asks for it. -/
def activateIf (wanted : Bool) (s : Ipc W) (messenger : ℕ) : Except Fault (Ipc W) :=
  if wanted then do
    let (s, _) ← messengerMessageDeliver M s messenger
    pure s
  else pure s

/-- The activations that follow a transfer. -/
def activateBoth (s : Ipc W) (target : ℕ) (source : Option ℕ) : Except Fault (Ipc W) := do
  let s ← activateIf M (s.messenger target).activateOnReceive s target
  match source with
  | none => pure s
  | some source => activateIf M (s.messenger source).activateOnSend s source

/-- `messenger_load_internal`. Without a source the message is the kernel's own. -/
def messengerLoadInternal (s : Ipc W) (target : ℕ) (source : Option ℕ) (mayBlock : Bool) :
    Except Fault (Ipc W × Bool) := do
  -- The source should not be blocked on another messenger.
  require (∀ m ∈ source, s.queues.links.next m = 0 ∧ s.queues.links.prev m = 0) .assertion
  if (s.messenger target).blocked then
    if mayBlock then
      match source with
      | none => throw .assertion
      | some source => do
        let s := s.setReason source .transferMessage
        let queues ← objectWaitQueueEnqueue s.queues target source
        pure ({ s with queues := queues }, true)
    else pure (s, false)
  else do
    let s := s.setBlocked target true
    let world ← M.copy s.world target source
    let s ← activateBoth M (s.noteTransfer world target source) target source
    pure (s, true)

/-- `messenger_message_transfer`. -/
def messengerMessageTransfer (s : Ipc W) (target source : ℕ) (mayBlock : Bool) :
    Except Fault (Ipc W × Bool) :=
  messengerLoadInternal M s target (some source) mayBlock

/-- `messenger_message_load`. -/
def messengerMessageLoad (s : Ipc W) (target : ℕ) : Except Fault (Ipc W × Bool) :=
  messengerLoadInternal M s target none false

/-- The longest waiting sender is taken off the queue of an unblocked messenger and transfers its
message: the loop bodies of `messenger_unblock` and of the receive phase. -/
def serveSender (s : Ipc W) (messenger sender : ℕ) : Except Fault (Ipc W) := do
  let (s, ret) ← messengerMessageTransfer M s messenger sender true
  require (ret = true) .assertion
  pure s

/-- `messenger_unblock`. -/
def messengerUnblock (fuel : ℕ) (s : Ipc W) (messenger : ℕ) : Except Fault (Ipc W) :=
  if (s.messenger messenger).blocked then do
    let s := s.setBlocked messenger false
    match ← findWaiter fuel s.queues messenger s.transfers with
    | none => pure s
    | some m => do
      let queues ← objectWaitQueueUnlink s.queues (s.messenger m).waitReason m
      serveSender M { s with queues := queues } messenger m
  else pure s

/-- The receive phase. The result is false for `EWOULDBLOCK`. -/
def ipcReceive (fuel : ℕ) (s : Ipc W) (messenger : ℕ) (nonblocking activate : Bool) :
    Except Fault (Ipc W × Bool) := do
  let s := s.setActivateOnReceive messenger activate
  match ← findWaiter fuel s.queues messenger s.transfers with
  | some sender => do
    let queues ← objectWaitQueueUnlink s.queues (s.messenger sender).waitReason sender
    require ((s.messenger messenger).blocked = true) .assertion
    let s := { s with queues := queues }.setBlocked messenger false
    let s ← serveSender M s messenger sender
    pure (s, true)
  | none =>
    if nonblocking then pure (s, false) else pure (s.setBlocked messenger false, true)

/-- The send phase, to a messenger. The result is false for `ETIMEDOUT`. -/
def ipcSend (s : Ipc W) (source target : ℕ) (mayBlock activate : Bool) :
    Except Fault (Ipc W × Bool) :=
  messengerMessageTransfer M (s.setActivateOnSend source activate) target source mayBlock

/-- `thread_deliver_pending`. -/
def threadDeliverPending (fuel : ℕ) (s : Ipc W) (thread : ℕ) : Except Fault (Ipc W) :=
  if M.idle s.world thread then do
    match ← findWaiter fuel s.queues thread s.transfers with
    | none => pure { s with world := M.setPending s.world thread false }
    | some m => do
      let (world, started) := M.activate s.world thread m
      let s := { s with world := world }
      if started then do
        let queues ← objectWaitQueueUnlink s.queues (s.messenger m).waitReason m
        pure { s with queues := queues }
      else pure s
  else pure s

end Code

/-! ### What the loops find -/

variable {q : WaitQueues} {o : ℕ} {p : ℕ → Bool} {L : ℕ → List ℕ}

theorem Represents.firstWaiter_eq (h : Represents q L)
    {p : ℕ → Bool} {post : List ℕ} : ∀ {pre : List ℕ} {fuel : ℕ}, L o = pre ++ post →
      post.length ≤ fuel → firstWaiter q p fuel post.head? = .ok (post.find? p) := by
  induction post with
  | nil =>
    intro pre fuel _ _
    cases fuel <;> rfl
  | cons m post ih =>
    intro pre fuel hl hfuel
    obtain ⟨fuel, rfl⟩ : ∃ n, fuel = n + 1 := ⟨fuel - 1, by simp at hfuel; omega⟩
    have hl' : L o = (pre ++ [m]) ++ post := by simp [hl]
    have hfuel' : post.length ≤ fuel := by simpa using hfuel
    have hrest := ih hl' hfuel'
    simp only [List.head?_cons, firstWaiter, h.next_eq hl, ok_bind, List.find?_cons]
    cases p m with
    | true => rfl
    | false => simpa using hrest

/-- The loop finds the first waiter of the list that matches. -/
theorem Represents.findWaiter_eq (h : Represents q L) {fuel : ℕ} (hfuel : (L o).length ≤ fuel) :
    findWaiter fuel q o p = .ok ((L o).find? p) := by
  rw [findWaiter, h.head_eq o, ok_bind]
  exact h.firstWaiter_eq (List.nil_append _).symm hfuel

/-! ### What an activation does -/

section Activation

/-- The rest of the kernel copies payloads without fault and knows threads from other objects. -/
structure Machine.Proper (M : Machine W) (type : ℕ → Option CapType) : Prop where
  copy : ∀ w target source, ∃ w', M.copy w target source = .ok w'
  deferred : ∀ w m thread, M.activation w m = .deferred thread → type thread = some .thread

variable {M : Machine W} {s : Ipc W} {L : ℕ → List ℕ} {o m : ℕ}

/-- **The effect of an activation** of the messenger `m` on the queues: a thread that is busy gets
the messenger on its own queue. -/
structure Activates (s : Ipc W) (L : ℕ → List ℕ) (s' : Ipc W) (L' : ℕ → List ℕ) (m : ℕ) :
    Prop where
  type : s'.queues.type = s.queues.type
  represents : Represents s'.queues L'
  lists : ∀ o, s.queues.type o ≠ some .thread → L' o = L o
  others : ∀ x, x ≠ m → s'.messenger x = s.messenger x
  self : s'.messenger m = s.messenger m ∨
    s'.messenger m = { s.messenger m with waitReason := .transferMessage }
  queued : ∀ x, x ≠ m → s'.queues.queued x = s.queues.queued x
  attached : s'.queues.attached = s.queues.attached
  delivered : s'.delivered = s.delivered

theorem Activates.blocked {s' : Ipc W} {L' : ℕ → List ℕ} (h : Activates s L s' L' m) (x : ℕ) :
    (s'.messenger x).blocked = (s.messenger x).blocked := by
  by_cases hx : x = m
  · subst hx
    rcases h.self with hself | hself <;> rw [hself]
  · rw [h.others x hx]

/-- A messenger that goes on a queue leaves the others where they are. -/
theorem Represents.queued_enqueue {q' : WaitQueues} {x : ℕ} (h : Represents q L)
    (h' : Represents q' (update L o (L o ++ [m]))) (hx : x ≠ m) :
    q'.queued x = q.queued x := by
  refine Bool.eq_iff_iff.2 ?_
  rw [h'.queued x, h.queued x]
  constructor
  · rintro ⟨p, hp⟩
    by_cases hpo : p = o
    · subst hpo
      exact ⟨p, by simpa [hx] using hp⟩
    · exact ⟨p, by rwa [update_of_ne hpo] at hp⟩
  · rintro ⟨p, hp⟩
    by_cases hpo : p = o
    · subst hpo
      exact ⟨p, by simp [hp]⟩
    · exact ⟨p, by rwa [update_of_ne hpo]⟩

section

variable (hM : M.Proper s.queues.type) (h : Represents s.queues L)
  (hm : s.queues.type m = some .messenger) (hblocked : (s.messenger m).blocked = true)

include hM h hm hblocked

/-- `messenger_message_deliver` for a messenger that is blocked and on no queue. -/
theorem Represents.deliver (hqueued : s.queues.queued m = false) :
    ∃ s' r L', messengerMessageDeliver M s m = .ok (s', r) ∧ Activates s L s' L' m := by
  unfold messengerMessageDeliver
  rw [require_of hblocked, ok_bind, require_of hqueued, ok_bind]
  cases hact : M.activation s.world m with
  | refused =>
    exact ⟨s, false, L, rfl, rfl, h, fun _ _ => rfl, fun _ _ => rfl, .inl rfl, fun _ _ => rfl, rfl,
      rfl⟩
  | ready thread =>
    exact ⟨_, _, L, rfl, rfl, h, fun _ _ => rfl, fun _ _ => rfl, .inl rfl, fun _ _ => rfl, rfl, rfl⟩
  | deferred thread =>
    have hthread := hM.deferred _ _ _ hact
    have hout : ∀ p, m ∉ L p := by
      intro p hp
      simp [h.queued_of_mem hp] at hqueued
    obtain ⟨q, henq, htype, hattached, hq⟩ :=
      h.enqueue (o := thread) hm (by simp [hthread]) hout
    dsimp only
    rw [henq]
    refine ⟨_, _, _, rfl, htype, hq, fun o ho => ?_, fun x hx => ?_, .inr ?_, fun x hx => ?_,
      hattached, rfl⟩
    · have hot : o ≠ thread := fun e => ho (e ▸ hthread)
      rw [update_of_ne hot]
    · simp [Ipc.setReason, Ipc.modify, hx]
    · simp [Ipc.setReason, Ipc.modify]
    · exact h.queued_enqueue hq hx

theorem Represents.activateIf {wanted : Bool}
    (hqueued : wanted = true → s.queues.queued m = false) :
    ∃ s' L', activateIf M wanted s m = .ok s' ∧
      (s' = s ∧ L' = L ∨ (∀ p, m ∉ L p) ∧ Activates s L s' L' m) := by
  unfold Viengoos.activateIf
  cases wanted with
  | false => exact ⟨s, L, rfl, .inl ⟨rfl, rfl⟩⟩
  | true =>
    obtain ⟨s', r, L', hdeliver, hact⟩ := h.deliver hM hm hblocked (hqueued rfl)
    refine ⟨s', L', by rw [if_pos rfl, hdeliver]; rfl, .inr ⟨fun p hp => ?_, hact⟩⟩
    have := hqueued rfl
    simp [h.queued_of_mem hp] at this

end

/-- A message that may not wait is refused by a messenger that is blocked. -/
theorem load_refused {source : Option ℕ}
    (hclear : ∀ x ∈ source, s.queues.links.next x = 0 ∧ s.queues.links.prev x = 0)
    (hblocked : (s.messenger m).blocked = true) :
    messengerLoadInternal M s m source false = .ok (s, false) := by
  unfold messengerLoadInternal
  rw [require_of hclear, ok_bind, if_pos hblocked]
  rfl

end Activation

/-- A kernel that has nothing to copy and no threads, for small runs. -/
def threadless : Machine Unit where
  copy w _ _ := .ok w
  activation _ _ := .refused
  setPending w _ _ := w
  activate w _ _ := (w, false)
  idle _ _ := false

theorem threadless_proper (type : ℕ → Option CapType) : threadless.Proper type :=
  ⟨fun w _ _ => ⟨w, rfl⟩, fun _ _ _ h => by cases h⟩

end Viengoos
