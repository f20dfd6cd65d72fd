import Viengoos.Ipc.Messenger

/-!
# The delivery protocol

`Mailboxes` is what messengers are for: a mailbox that is blocked takes no message, senders that
may wait are served first come, first served, and an unblocked mailbox takes one message and is
blocked again. Its own laws are that a mailbox somebody waits for is blocked, and that the senders
a mailbox accepted are, in this order, those it was served by and those that still wait.

The messengers follow the protocol as long as no message has to come out of a queue:
`messenger_load_internal` asserts that the link fields of the sender are clear, and nothing clears
them when a messenger leaves a wait queue, so taking a waiting sender's message always fails.
-/

namespace Viengoos

open Outcome Function List

/-! ### The protocol -/

/-- The operations of messengers, on behalf of users and of the kernel. -/
inductive IpcOp (W : Type)
  | send (source target : ℕ) (mayBlock activate : Bool)
  | receive (messenger : ℕ) (nonblocking activate : Bool)
  | unblock (messenger : ℕ)
  /-- The kernel sends a message of its own, a reply or an exception. -/
  | load (messenger : ℕ)
  /-- `VG_thread_activation_collect`. -/
  | collect (thread : ℕ)
  /-- Anything else that goes on. -/
  | other (f : W → W)

/-- **The abstract messengers.** -/
structure Mailboxes where
  blocked : ℕ → Bool
  /-- The senders that wait, longest waiting first. -/
  waiting : ℕ → List ℕ
  /-- The messages delivered, source and target, oldest first. -/
  delivered : List (ℕ × ℕ)

namespace Mailboxes

variable {W : Type} {b : Mailboxes} {op : IpcOp W} {m t : ℕ}

/-- A message goes into a mailbox, which is blocked from then on. -/
def deliver (b : Mailboxes) (source target : ℕ) : Mailboxes :=
  { b with
    blocked := update b.blocked target true
    delivered := b.delivered ++ [(source, target)] }

def setBlocked (b : Mailboxes) (m : ℕ) (v : Bool) : Mailboxes :=
  { b with blocked := update b.blocked m v }

/-- The mailbox takes the message of the sender that has waited longest. -/
def serve (b : Mailboxes) (m : ℕ) : Option Mailboxes :=
  match b.waiting m with
  | [] => none
  | sender :: rest =>
    some ({ b with waiting := update b.waiting m rest }.deliver sender m)

/-- One operation, and whether it succeeds. -/
def step (b : Mailboxes) : IpcOp W → Mailboxes × Bool
  | .send source target mayBlock _ =>
    if b.blocked target then
      if mayBlock then
        ({ b with waiting :=
            update b.waiting target (b.waiting target ++ [source]) }, true)
      else (b, false)
    else (b.deliver source target, true)
  | .receive m nonblocking _ =>
    match b.serve m with
    | some b' => (b', true)
    | none => if nonblocking then (b, false) else (b.setBlocked m false, true)
  | .unblock m =>
    if b.blocked m then ((b.serve m).getD (b.setBlocked m false), true) else (b, true)
  | .load m => if b.blocked m then (b, false) else (b.setBlocked m true, true)
  | .collect _ | .other _ => (b, true)

/-- A sequence of operations, with their results. -/
def run (b : Mailboxes) : List (IpcOp W) → Mailboxes × List Bool
  | [] => (b, [])
  | op :: ops =>
    let (b', r) := b.step op
    let (b'', rs) := b'.run ops
    (b'', r :: rs)

/-- Who waits for a mailbox waits because it is blocked. -/
def Sound (b : Mailboxes) : Prop := ∀ m, b.waiting m ≠ [] → b.blocked m = true

variable {l : List ℕ} {b' : Mailboxes} {f : Messenger → Messenger} {source : Option ℕ} {fuel : ℕ}

theorem serve_eq_some (h : b.serve m = some b') :
    ∃ sender rest, b.waiting m = sender :: rest ∧
      b' = { b with waiting := update b.waiting m rest }.deliver sender m := by
  unfold serve at h
  split at h
  · simp at h
  · next sender rest hw => exact ⟨sender, rest, hw, (Option.some.inj h).symm⟩

theorem serve_eq_none : b.serve m = none ↔ b.waiting m = [] := by
  unfold serve
  split <;> simp_all

theorem Sound.serve (hb : b.Sound) (h : b.serve m = some b') : b'.Sound := by
  obtain ⟨sender, rest, hw, rfl⟩ := serve_eq_some h
  intro x hx
  by_cases hxm : x = m
  · simp [deliver, hxm]
  · simp only [deliver, update_of_ne hxm] at hx ⊢
    exact hb x hx

theorem Sound.setBlocked {v : Bool} (hb : b.Sound) (hv : v = true ∨ b.waiting m = []) :
    (b.setBlocked m v).Sound := by
  intro x hx
  by_cases hxm : x = m
  · subst hxm
    rcases hv with hv | hv
    · simp [Mailboxes.setBlocked, hv]
    · exact absurd hv hx
  · simpa [Mailboxes.setBlocked, hxm] using hb x hx

/-- **A mailbox somebody waits for stays blocked.** -/
theorem Sound.step (hb : b.Sound) (op : IpcOp W) : (b.step op).1.Sound := by
  cases op with
  | send source target mayBlock activate =>
    simp only [Mailboxes.step]
    split_ifs with hblocked hmay
    · intro x hx
      by_cases hxt : x = target
      · rw [hxt]
        exact hblocked
      · simp only [update_of_ne hxt] at hx
        exact hb x hx
    · exact hb
    · intro x hx
      by_cases hxt : x = target
      · simp [deliver, hxt]
      · simpa [deliver, hxt] using hb x hx
  | receive m nonblocking activate =>
    simp only [Mailboxes.step]
    split
    · next b' h => exact hb.serve h
    · next h =>
      split_ifs
      · exact hb
      · exact hb.setBlocked (.inr (serve_eq_none.1 h))
  | unblock m =>
    simp only [Mailboxes.step]
    split_ifs
    · cases h : b.serve m with
      | none => exact hb.setBlocked (.inr (serve_eq_none.1 h))
      | some b' => exact hb.serve h
    · exact hb
  | load m =>
    simp only [Mailboxes.step]
    split_ifs
    · exact hb
    · exact hb.setBlocked (.inl rfl)
  | collect thread => exact hb
  | other f => exact hb

/-- The senders whose messages a mailbox got. -/
def servedBy (l : List (ℕ × ℕ)) (t : ℕ) : List ℕ :=
  l.filterMap fun p => if p.2 = t then some p.1 else none

/-- The senders a mailbox accepted, from the operations and their results. -/
def accepted (l : List (IpcOp W × Bool)) (t : ℕ) : List ℕ :=
  l.filterMap fun
    | (.send source target _ _, true) => if target = t then some source else none
    | _ => none

theorem serve_account (h : b.serve m = some b') (t : ℕ) :
    servedBy b'.delivered t ++ b'.waiting t = servedBy b.delivered t ++ b.waiting t := by
  obtain ⟨sender, rest, hw, rfl⟩ := serve_eq_some h
  by_cases ht : t = m
  · subst ht
    simp [deliver, servedBy, hw]
  · have hmt : m ≠ t := fun e => ht e.symm
    simp [deliver, servedBy, ht, hmt]

/-- **First come, first served, exactly once**: one operation adds the sender it accepts behind
those that were accepted before. -/
theorem step_account (hb : b.Sound) (op : IpcOp W) (t : ℕ) :
    servedBy (b.step op).1.delivered t ++ (b.step op).1.waiting t =
      servedBy b.delivered t ++ b.waiting t ++ accepted [(op, (b.step op).2)] t := by
  cases op with
  | send source target mayBlock activate =>
    simp only [step]
    split_ifs with hblocked hmay
    · by_cases ht : target = t
      · subst ht
        simp [accepted]
      · have ht' : t ≠ target := fun e => ht e.symm
        simp [accepted, ht, ht']
    · simp [accepted]
    · -- A mailbox that takes a message at once has nobody waiting.
      have hnone : b.waiting target = [] := by
        by_contra hne
        exact hblocked (hb target hne)
      by_cases ht : target = t
      · subst ht
        simp [deliver, servedBy, accepted, hnone]
      · simp [deliver, servedBy, accepted, ht]
  | receive m nonblocking activate =>
    simp only [step]
    split
    · next b' h => simp [accepted, serve_account h t]
    · split_ifs <;> simp [accepted, setBlocked]
  | unblock m =>
    simp only [step]
    split_ifs
    · cases h : b.serve m with
      | none => simp [accepted, setBlocked]
      | some b' => simp [accepted, serve_account h t]
    · simp [accepted]
  | load m =>
    simp only [step]
    split_ifs <;> simp [accepted, setBlocked]
  | collect thread => simp [step, accepted]
  | other f => simp [step, accepted]

theorem Sound.run (hb : b.Sound) (ops : List (IpcOp W)) : (b.run ops).1.Sound := by
  induction ops generalizing b with
  | nil => exact hb
  | cons op ops ih => exact ih (hb.step op)

theorem run_account (hb : b.Sound) (ops : List (IpcOp W)) (t : ℕ) :
    servedBy (b.run ops).1.delivered t ++ (b.run ops).1.waiting t =
      servedBy b.delivered t ++ b.waiting t ++ accepted (ops.zip (b.run ops).2) t := by
  induction ops generalizing b with
  | nil => simp [run, accepted]
  | cons op ops ih =>
    have hrest := ih (hb.step op)
    rw [step_account hb op t] at hrest
    have hcons : accepted ((op :: ops).zip (b.run (op :: ops)).2) t =
        accepted [(op, (b.step op).2)] t ++ accepted (ops.zip ((b.step op).1.run ops).2) t := by
      exact filterMap_append (l := [(op, (b.step op).2)]) ..
    rw [hcons, ← append_assoc]
    exact hrest

end Mailboxes

/-! ### The messengers -/

section Messengers

variable {W : Type} (M : Machine W)

/-- What the code does for an operation, and whether it reports success. -/
def IpcOp.exec (fuel : ℕ) (s : Ipc W) : IpcOp W → Except Fault (Ipc W × Bool)
  | send source target mayBlock activate => ipcSend M s source target mayBlock activate
  | receive messenger nonblocking activate => ipcReceive M fuel s messenger nonblocking activate
  | unblock messenger => do
    let s ← messengerUnblock M fuel s messenger
    pure (s, true)
  | load messenger => messengerMessageLoad M s messenger
  | collect thread => do
    let s ← threadDeliverPending M fuel s thread
    pure (s, true)
  | other f => pure ({ s with world := f s.world }, true)

/-- A sequence of operations, with their results. -/
def ipcRun (fuel : ℕ) (s : Ipc W) : List (IpcOp W) → Except Fault (Ipc W × List Bool)
  | [] => pure (s, [])
  | op :: ops => do
    let (s', r) ← op.exec M fuel s
    let (s'', rs) ← ipcRun fuel s' ops
    pure (s'', r :: rs)

/-- **What the messengers need for an operation**, in the state it finds. The messengers and
threads it names exist, and then:

* a sender was never on a wait queue, since its link fields are clear;
* a messenger that is activated because it gets a message is on no wait queue;
* a messenger that is activated because it sends one is blocked, and does not send to itself;
* nobody waits to send to a messenger that receives or is unblocked. -/
def IpcOp.Clear (s : Ipc W) : IpcOp W → Prop
  | send source target _ activate =>
    s.queues.type source = some .messenger ∧ s.queues.type target = some .messenger ∧
    s.queues.links.next source = 0 ∧ s.queues.links.prev source = 0 ∧
    ((s.messenger target).blocked = false →
      ((s.messenger target).activateOnReceive = true → s.queues.queued target = false) ∧
      (activate = true → (s.messenger source).blocked = true ∧ source ≠ target))
  | receive m _ _ | unblock m =>
    s.queues.type m = some .messenger ∧
    ∀ L, Represents s.queues L → (L m).filter s.transfers = []
  | load m =>
    s.queues.type m = some .messenger ∧
    ((s.messenger m).blocked = false →
      (s.messenger m).activateOnReceive = true → s.queues.queued m = false)
  | collect thread => s.queues.type thread = some .thread
  | other _ => True

/-- Every operation of a sequence finds what it needs when its turn comes. -/
def AllClear : Ipc W → List (IpcOp W) → Prop
  | _, [] => True
  | s, op :: ops =>
    op.Clear s ∧ ∀ fuel s' r, op.exec M fuel s = .ok (s', r) → AllClear s' ops

variable {M}

/-- The messengers are in the state the mailboxes say, and nobody is on `futex_waiters`. -/
structure Tracks (s : Ipc W) (L : ℕ → List ℕ) (b : Mailboxes) : Prop where
  represents : Represents s.queues L
  blocked : ∀ m, (s.messenger m).blocked = b.blocked m
  waiting : ∀ m, s.queues.type m = some .messenger → (L m).filter s.transfers = b.waiting m
  delivered : s.delivered = b.delivered
  detached : ∀ m, s.queues.attached m = false

variable {s s' : Ipc W} {L : ℕ → List ℕ} {b : Mailboxes} {m o : ℕ}

theorem filter_modify {l : List ℕ} {f : Messenger → Messenger} (h : m ∉ l) :
    l.filter (s.modify m f).transfers = l.filter s.transfers := by
  refine filter_congr fun x hx => ?_
  have hxm : x ≠ m := fun e => h (e ▸ hx)
  simp [Ipc.transfers, Ipc.modify, hxm]

theorem modify_proj {α : Type} (π : Messenger → α)
    (hf : ∀ g, π (f g) = π g) (x : ℕ) : π ((s.modify m f).messenger x) = π (s.messenger x) := by
  by_cases hxm : x = m
  · subst hxm
    simp [Ipc.modify, hf]
  · simp [Ipc.modify, hxm]

/-- A change of a messenger that keeps why it waits. -/
theorem filter_modify_of {l : List ℕ} {f : Messenger → Messenger}
    (hf : ∀ g, (f g).waitReason = g.waitReason) :
    l.filter (s.modify m f).transfers = l.filter s.transfers := by
  refine filter_congr fun x _ => ?_
  rw [Ipc.transfers, Ipc.transfers, modify_proj Messenger.waitReason hf x]

/-- A flag that is neither `blocked` nor the reason to wait does not matter. -/
theorem Tracks.modify (h : Tracks s L b) {f : Messenger → Messenger}
    (hblocked : ∀ g, (f g).blocked = g.blocked)
    (hreason : ∀ g, (f g).waitReason = g.waitReason) : Tracks (s.modify m f) L b where
  represents := h.represents
  blocked x := (modify_proj Messenger.blocked hblocked x).trans (h.blocked x)
  waiting x hx := (filter_modify_of hreason).trans (h.waiting x hx)
  delivered := h.delivered
  detached := h.detached

theorem Tracks.setBlocked (h : Tracks s L b) (v : Bool) :
    Tracks (s.setBlocked m v) L (b.setBlocked m v) where
  represents := h.represents
  blocked x := by
    by_cases hxm : x = m
    · subst hxm
      simp [Ipc.setBlocked, Ipc.modify, Mailboxes.setBlocked]
    · simpa [Ipc.setBlocked, Ipc.modify, Mailboxes.setBlocked, hxm] using h.blocked x
  waiting x hx := (filter_modify_of (by intro; rfl)).trans (h.waiting x hx)
  delivered := h.delivered
  detached := h.detached

/-- A messenger goes on a wait queue to transfer its message. -/
theorem Tracks.enqueue (h : Tracks s L b) (hm : s.queues.type m = some .messenger)
    (ho : s.queues.type o ≠ none) (hout : ∀ p, m ∉ L p) :
    ∃ q, objectWaitQueueEnqueue s.queues o m = .ok q ∧ q.type = s.queues.type ∧
      Tracks ({ s with queues := q }.setReason m .transferMessage)
        (update L o (L o ++ [m]))
        { b with waiting := update b.waiting o (b.waiting o ++ [m]) } := by
  obtain ⟨q, henq, htype, hattached, hq⟩ := h.represents.enqueue hm ho hout
  refine ⟨q, henq, htype, hq, fun x => ?_, fun x hx => ?_, h.delivered,
    fun x => (congrFun hattached x).trans (h.detached x)⟩
  · exact (modify_proj Messenger.blocked (by intro; rfl) x).trans (h.blocked x)
  · have hx' : s.queues.type x = some .messenger := by rw [← htype]; exact hx
    have hkept : ∀ p, (L p).filter ({ s with queues := q }.setReason m .transferMessage).transfers =
        (L p).filter s.transfers := fun p => filter_modify (hout p)
    dsimp only
    by_cases hxo : x = o
    · subst hxo
      rw [update_self, update_self, filter_append, hkept, h.waiting x hx']
      simp [Ipc.transfers, Ipc.setReason, Ipc.modify]
    · rw [update_of_ne hxo, update_of_ne hxo, hkept, h.waiting x hx']

/-- **Activation** does not interfere with the exchange. -/
theorem Tracks.activates (h : Tracks s L b) {L' : ℕ → List ℕ} (hact : Activates s L s' L' m)
    (hout : ∀ p, m ∉ L p) : Tracks s' L' b where
  represents := hact.represents
  blocked x := (hact.blocked x).trans (h.blocked x)
  waiting x hx := by
    have hx' : s.queues.type x = some .messenger := by rw [← hact.type]; exact hx
    rw [hact.lists x (by simp [hx']), ← h.waiting x hx']
    refine filter_congr fun y hy => ?_
    have hym : y ≠ m := fun e => hout x (e ▸ hy)
    rw [Ipc.transfers, Ipc.transfers, hact.others y hym]
  delivered := hact.delivered.trans h.delivered
  detached x := (congrFun hact.attached x).trans (h.detached x)

/-- A messenger whose link fields are clear is on no queue. -/
theorem Represents.not_mem_of_clear {q : WaitQueues} (h : Represents q L)
    (hfolio : q.type 0 ≠ some .messenger) (hprev : q.links.prev m = 0) (p : ℕ) : m ∉ L p := by
  intro hm
  have := h.prev_messenger hm
  rw [hprev] at this
  exact hfolio this

/-- The activations after a transfer. -/
theorem Tracks.activateBoth (hM : M.Proper s.queues.type) (h : Tracks s L b)
    (hm : s.queues.type m = some .messenger) (hblocked : (s.messenger m).blocked = true)
    (hreceive : (s.messenger m).activateOnReceive = true → s.queues.queued m = false)
    (hsend : ∀ x ∈ source, (s.messenger x).activateOnSend = true →
      s.queues.type x = some .messenger ∧ (s.messenger x).blocked = true ∧ x ≠ m ∧
        s.queues.queued x = false) :
    ∃ s' L', activateBoth M s m source = .ok s' ∧ s'.queues.type = s.queues.type ∧
      Tracks s' L' b := by
  obtain ⟨t, L', hfirst, hact⟩ := h.represents.activateIf hM hm hblocked hreceive
  have ht : Tracks t L' b := by
    rcases hact with ⟨rfl, rfl⟩ | ⟨hout, hact⟩
    · exact h
    · exact h.activates hact hout
  obtain ⟨htype, hothers⟩ : t.queues.type = s.queues.type ∧ ∀ x, x ≠ m →
      t.messenger x = s.messenger x ∧ t.queues.queued x = s.queues.queued x := by
    rcases hact with ⟨rfl, rfl⟩ | ⟨-, hact⟩
    · exact ⟨rfl, fun _ _ => ⟨rfl, rfl⟩⟩
    · exact ⟨hact.type, fun x hx => ⟨hact.others x hx, hact.queued x hx⟩⟩
  unfold Viengoos.activateBoth
  rw [hfirst, ok_bind]
  cases source with
  | none => exact ⟨t, L', rfl, htype, ht⟩
  | some x =>
    dsimp only
    by_cases hxm : x = m
    · subst hxm
      have hoff : (t.messenger x).activateOnSend = false := by
        have hsame : (t.messenger x).activateOnSend = (s.messenger x).activateOnSend := by
          rcases hact with ⟨rfl, rfl⟩ | ⟨-, hact⟩
          · rfl
          · rcases hact.self with hself | hself <;> rw [hself]
        rw [hsame]
        by_contra hon
        exact (hsend x rfl (by simpa using hon)).2.2.1 rfl
      exact ⟨t, L', by rw [hoff]; rfl, htype, ht⟩
    · obtain ⟨hmess, hqueued⟩ := hothers x hxm
      have hM' : M.Proper t.queues.type := by rw [htype]; exact hM
      cases hon : (t.messenger x).activateOnSend with
      | false => exact ⟨t, L', rfl, htype, ht⟩
      | true =>
        obtain ⟨hx, hxb, -, hxq⟩ := hsend x rfl (by rw [← hmess]; exact hon)
        have hfree : true = true → t.queues.queued x = false := fun _ => by rw [hqueued]; exact hxq
        obtain ⟨t', L'', hsecond, hact'⟩ := ht.represents.activateIf hM'
          (by rw [htype]; exact hx) (by rw [hmess]; exact hxb) hfree
        rcases hact' with ⟨rfl, rfl⟩ | ⟨hout, hact'⟩
        · exact ⟨t', L'', hsecond, htype, ht⟩
        · exact ⟨t', L'', hsecond, hact'.type.trans htype, ht.activates hact' hout⟩

/-- **A message goes to a messenger that is not blocked.** -/
theorem Tracks.load (hM : M.Proper s.queues.type) (h : Tracks s L b)
    (mayBlock : Bool) (hm : s.queues.type m = some .messenger)
    (hclear : ∀ x ∈ source, s.queues.links.next x = 0 ∧ s.queues.links.prev x = 0)
    (hblocked : (s.messenger m).blocked = false)
    (hreceive : (s.messenger m).activateOnReceive = true → s.queues.queued m = false)
    (hsend : ∀ x ∈ source, (s.messenger x).activateOnSend = true →
      s.queues.type x = some .messenger ∧ (s.messenger x).blocked = true ∧ x ≠ m ∧
        s.queues.queued x = false) :
    ∃ s' L', messengerLoadInternal M s m source mayBlock = .ok (s', true) ∧
      s'.queues.type = s.queues.type ∧
      Tracks s' L' { b.setBlocked m true with
        delivered := b.delivered ++ (source.map fun x => (x, m)).toList } := by
  obtain ⟨w, hcopy⟩ := hM.copy s.world m source
  have ht : Tracks ((s.setBlocked m true).noteTransfer w m source) L
      { b.setBlocked m true with
        delivered := b.delivered ++ (source.map fun x => (x, m)).toList } := by
    have hset := h.setBlocked (m := m) true
    exact ⟨hset.represents, hset.blocked, hset.waiting, by rw [← h.delivered]; rfl, h.detached⟩
  have hself : ∀ x, ((s.setBlocked m true).messenger x).blocked =
      if x = m then true else (s.messenger x).blocked := by
    intro x
    by_cases hxm : x = m <;> simp [Ipc.setBlocked, Ipc.modify, hxm]
  have hflags : ∀ x, ((s.setBlocked m true).messenger x).activateOnReceive =
        (s.messenger x).activateOnReceive ∧
      ((s.setBlocked m true).messenger x).activateOnSend = (s.messenger x).activateOnSend :=
    fun x => ⟨modify_proj Messenger.activateOnReceive (by intro; rfl) x,
      modify_proj Messenger.activateOnSend (by intro; rfl) x⟩
  obtain ⟨s', L', hboth, htype, hs'⟩ := Tracks.activateBoth
    (s := (s.setBlocked m true).noteTransfer w m source) hM ht hm
    ((hself m).trans (if_pos rfl)) (fun hact => hreceive ((hflags m).1.symm.trans hact))
    (fun x hx hact => by
      obtain ⟨hxm, hxb, hne, hxq⟩ := hsend x hx ((hflags x).2.symm.trans hact)
      exact ⟨hxm, (hself x).trans (by rw [if_neg hne, hxb]), hne, hxq⟩)
  refine ⟨s', L', ?_, htype, hs'⟩
  unfold messengerLoadInternal
  rw [require_of hclear, ok_bind, if_neg (by simp [hblocked])]
  simp only [show (s.setBlocked m true).world = s.world from rfl, hcopy, ok_bind, hboth]
  rfl

/-- A messenger that nobody waits for has no sender in its queue. -/
theorem Tracks.findWaiter_none (h : Tracks s L b) (hm : s.queues.type m = some .messenger)
    (hnone : b.waiting m = []) (hfuel : (L m).length ≤ fuel) :
    findWaiter fuel s.queues m s.transfers = .ok none := by
  rw [h.represents.findWaiter_eq hfuel, find?_eq_none.2]
  intro x hx
  have hfilter := h.waiting m hm
  rw [hnone, filter_eq_nil_iff] at hfilter
  exact hfilter x hx

/-- What an operation finds clear the mailboxes do not wait for. -/
theorem Tracks.waiting_nil (h : Tracks s L b) (hm : s.queues.type m = some .messenger)
    (hclear : ∀ L, Represents s.queues L → (L m).filter s.transfers = []) : b.waiting m = [] :=
  (h.waiting m hm).symm.trans (hclear L h.represents)

/-- A sender that may wait is queued on a messenger that is blocked. -/
theorem Tracks.load_wait (hfolio : s.queues.type 0 ≠ some .messenger) (h : Tracks s L b)
    {source : ℕ} (hsource : s.queues.type source = some .messenger)
    (hm : s.queues.type m = some .messenger)
    (hclear : s.queues.links.next source = 0 ∧ s.queues.links.prev source = 0)
    (hblocked : (s.messenger m).blocked = true) :
    ∃ s' L', messengerLoadInternal M s m (some source) true = .ok (s', true) ∧
      s'.queues.type = s.queues.type ∧
      Tracks s' L' { b with waiting := update b.waiting m (b.waiting m ++ [source]) } := by
  have hout := h.represents.not_mem_of_clear hfolio hclear.2
  obtain ⟨q, henq, htype, hq⟩ := h.enqueue (o := m) hsource (by simp [hm]) hout
  refine ⟨_, _, ?_, htype, hq⟩
  unfold messengerLoadInternal
  rw [require_of (by rintro x hx; cases hx; exact hclear), ok_bind, if_pos hblocked, if_pos rfl]
  simp only [show (s.setReason source .transferMessage).queues = s.queues from rfl, henq, ok_bind]
  rfl

theorem Tracks.send (hM : M.Proper s.queues.type) (hfolio : s.queues.type 0 ≠ some .messenger)
    (h : Tracks s L b) {source target : ℕ} {mayBlock activate : Bool}
    (hop : (IpcOp.send source target mayBlock activate : IpcOp W).Clear s) :
    ∃ s' L', ipcSend M s source target mayBlock activate =
        .ok (s', (b.step (.send source target mayBlock activate : IpcOp W)).2) ∧
      s'.queues.type = s.queues.type ∧
      Tracks s' L' (b.step (.send source target mayBlock activate : IpcOp W)).1 := by
  obtain ⟨hsource, htarget, hnext, hprev, hactive⟩ := hop
  have h₁ : Tracks (s.setActivateOnSend source activate) L b :=
    h.modify (by intro; rfl) (by intro; rfl)
  have hclear : ∀ x ∈ some source, (s.setActivateOnSend source activate).queues.links.next x = 0 ∧
      (s.setActivateOnSend source activate).queues.links.prev x = 0 := by
    rintro x hx
    cases hx
    exact ⟨hnext, hprev⟩
  have hblocked := h₁.blocked target
  unfold ipcSend messengerMessageTransfer
  cases hb : b.blocked target with
  | true =>
    rw [hb] at hblocked
    cases mayBlock with
    | true =>
      obtain ⟨s', L', hload, htype, hs'⟩ := Tracks.load_wait (M := M)
        (s := s.setActivateOnSend source activate) hfolio h₁ hsource htarget ⟨hnext, hprev⟩ hblocked
      refine ⟨s', L', ?_, htype, ?_⟩
      · simpa [Mailboxes.step, hb] using hload
      · simpa [Mailboxes.step, hb] using hs'
    | false =>
      refine ⟨s.setActivateOnSend source activate, L, ?_, rfl, ?_⟩
      · rw [load_refused hclear hblocked]
        simp [Mailboxes.step, hb]
      · simpa [Mailboxes.step, hb] using h₁
  | false =>
    have hfalse : (s.messenger target).blocked = false := (h.blocked target).trans hb
    have hreceive : ((s.setActivateOnSend source activate).messenger target).activateOnReceive =
        (s.messenger target).activateOnReceive :=
      modify_proj Messenger.activateOnReceive (by intro; rfl) target
    have hsend : ∀ x ∈ some source,
        ((s.setActivateOnSend source activate).messenger x).activateOnSend = true →
        s.queues.type x = some .messenger ∧
        ((s.setActivateOnSend source activate).messenger x).blocked = true ∧ x ≠ target ∧
        s.queues.queued x = false := by
      rintro x hx hact
      cases hx
      have hact' : activate = true := by
        simpa [Ipc.setActivateOnSend, Ipc.modify] using hact
      obtain ⟨hsb, hne⟩ := (hactive hfalse).2 hact'
      refine ⟨hsource, ?_, hne, h.represents.queued_eq_false ?_⟩
      · simpa [Ipc.setActivateOnSend, Ipc.modify] using hsb
      · exact h.represents.not_mem_of_clear hfolio hprev
    obtain ⟨s', L', hload, htype, hs'⟩ := Tracks.load
      (s := s.setActivateOnSend source activate) hM h₁ mayBlock htarget hclear (hblocked.trans hb)
      (fun hact => (hactive hfalse).1 (hreceive.symm.trans hact)) hsend
    refine ⟨s', L', ?_, htype, ?_⟩
    · simpa [Mailboxes.step, hb] using hload
    · simpa [Mailboxes.step, hb, Mailboxes.deliver, Mailboxes.setBlocked] using hs'

/-- A messenger that waits to transfer its message has nothing to do with `futex_waiters`. -/
theorem Tracks.reason_iff (h : Tracks s L b) (hm : s.transfers m = true) :
    s.queues.attached m = true ↔ (s.messenger m).waitReason = .futex := by
  have hreason : (s.messenger m).waitReason = .transferMessage := by simpa [Ipc.transfers] using hm
  simp [h.detached, hreason]

/-- A thread that has come out of its activation takes the first messenger off its queue. -/
theorem Tracks.collect (h : Tracks s L b) {thread : ℕ}
    (hthread : s.queues.type thread = some .thread) :
    ∃ s' L', (∀ fuel, (L thread).length ≤ fuel → threadDeliverPending M fuel s thread = .ok s') ∧
      s'.queues.type = s.queues.type ∧ Tracks s' L' b := by
  unfold threadDeliverPending
  cases hidle : M.idle s.world thread with
  | false => exact ⟨s, L, fun fuel _ => rfl, rfl, h⟩
  | true =>
    cases hfind : (L thread).find? s.transfers with
    | none =>
      refine ⟨{ s with world := M.setPending s.world thread false }, L, fun fuel hfuel => ?_, rfl,
        ⟨h.represents, h.blocked, h.waiting, h.delivered, h.detached⟩⟩
      rw [if_pos rfl, h.represents.findWaiter_eq hfuel, hfind]
      rfl
    | some m =>
      cases hact : M.activate s.world thread m with
      | mk w started =>
        cases started with
        | false =>
          refine ⟨{ s with world := w }, L, fun fuel hfuel => ?_, rfl,
            ⟨h.represents, h.blocked, h.waiting, h.delivered, h.detached⟩⟩
          rw [if_pos rfl, h.represents.findWaiter_eq hfuel, hfind]
          simp [hact]
        | true =>
          obtain ⟨pre, post, hl⟩ := append_of_mem (mem_of_find?_eq_some hfind)
          obtain ⟨q, hunlink, htype, -, hattached, hq⟩ :=
            h.represents.unlink hl (h.reason_iff (find?_some hfind))
          refine ⟨{ s with queues := q, world := w }, _, fun fuel hfuel => ?_, htype,
            ⟨hq, h.blocked, fun x hx => ?_, h.delivered, fun x => ?_⟩⟩
          · rw [if_pos rfl, h.represents.findWaiter_eq hfuel, hfind]
            simp [hact, hunlink]
          · have hx' : s.queues.type x = some .messenger := by rw [← htype]; exact hx
            have hxt : x ≠ thread := by
              rintro rfl
              simp [hthread] at hx'
            rw [update_of_ne hxt]
            exact h.waiting x hx'
          · rw [hattached, update_apply, h.detached, ite_self]

/-- **One operation** does what the protocol says. -/
theorem Tracks.step (hM : M.Proper s.queues.type) (hfolio : s.queues.type 0 ≠ some .messenger)
    (h : Tracks s L b) {op : IpcOp W} (hop : op.Clear s) :
    ∃ s' L' n, (∀ fuel ≥ n, op.exec M fuel s = .ok (s', (b.step op).2)) ∧
      s'.queues.type = s.queues.type ∧ Tracks s' L' (b.step op).1 := by
  cases op with
  | send source target mayBlock activate =>
    obtain ⟨s', L', hsend, htype, hs'⟩ := h.send hM hfolio hop
    exact ⟨s', L', 0, fun fuel _ => hsend, htype, hs'⟩
  | receive m nonblocking activate =>
    obtain ⟨hm, hclear⟩ := hop
    have hnone := h.waiting_nil hm hclear
    have h₁ : Tracks (s.setActivateOnReceive m activate) L b :=
      h.modify (by intro; rfl) (by intro; rfl)
    have hfind := fun fuel (hfuel : (L m).length ≤ fuel) => h₁.findWaiter_none hm hnone hfuel
    have hserve := Mailboxes.serve_eq_none.2 hnone
    cases nonblocking with
    | true =>
      refine ⟨s.setActivateOnReceive m activate, L, (L m).length, fun fuel hfuel => ?_, rfl, ?_⟩
      · simp [IpcOp.exec, ipcReceive, hfind fuel hfuel, Mailboxes.step, hserve]
      · simpa [Mailboxes.step, hserve] using h₁
    | false =>
      refine ⟨(s.setActivateOnReceive m activate).setBlocked m false, L, (L m).length,
        fun fuel hfuel => ?_, rfl, ?_⟩
      · simp [IpcOp.exec, ipcReceive, hfind fuel hfuel, Mailboxes.step, hserve]
      · simpa [Mailboxes.step, hserve] using h₁.setBlocked false
  | unblock m =>
    obtain ⟨hm, hclear⟩ := hop
    have hnone := h.waiting_nil hm hclear
    have hserve := Mailboxes.serve_eq_none.2 hnone
    have hmb := h.blocked m
    cases hb : b.blocked m with
    | false =>
      refine ⟨s, L, 0, fun fuel _ => ?_, rfl, by simpa [Mailboxes.step, hb] using h⟩
      simp [IpcOp.exec, messengerUnblock, hmb, hb, Mailboxes.step]
    | true =>
      have h₁ := h.setBlocked (m := m) false
      refine ⟨s.setBlocked m false, L, (L m).length, fun fuel hfuel => ?_, rfl, ?_⟩
      · simp [IpcOp.exec, messengerUnblock, hmb, hb, Mailboxes.step,
          h₁.findWaiter_none hm hnone hfuel]
      · simpa [Mailboxes.step, hb, hserve] using h₁
  | load m =>
    obtain ⟨hm, hactive⟩ := hop
    have hmb := h.blocked m
    have hnone : ∀ x ∈ (none : Option ℕ),
        s.queues.links.next x = 0 ∧ s.queues.links.prev x = 0 := by simp
    cases hb : b.blocked m with
    | true =>
      rw [hb] at hmb
      refine ⟨s, L, 0, fun fuel _ => ?_, rfl, by simpa [Mailboxes.step, hb] using h⟩
      simpa [IpcOp.exec, messengerMessageLoad, Mailboxes.step, hb] using
        load_refused (M := M) hnone hmb
    | false =>
      rw [hb] at hmb
      obtain ⟨s', L', hload, htype, hs'⟩ :=
        h.load hM false hm hnone hmb (hactive hmb) (by simp)
      refine ⟨s', L', 0, fun fuel _ => ?_, htype, ?_⟩
      · simpa [IpcOp.exec, messengerMessageLoad, Mailboxes.step, hb] using hload
      · simpa [Mailboxes.step, hb, Mailboxes.setBlocked] using hs'
  | collect thread =>
    obtain ⟨s', L', hcollect, htype, hs'⟩ := h.collect (M := M) hop
    refine ⟨s', L', (L thread).length, fun fuel hfuel => ?_, htype, hs'⟩
    simp [IpcOp.exec, hcollect fuel hfuel, Mailboxes.step]
  | other f =>
    exact ⟨_, L, 0, fun fuel _ => rfl, rfl,
      ⟨h.represents, h.blocked, h.waiting, h.delivered, h.detached⟩⟩

/-- **A run** does what the protocol says. -/
theorem Tracks.run (hM : M.Proper s.queues.type) (hfolio : s.queues.type 0 ≠ some .messenger)
    (h : Tracks s L b) {ops : List (IpcOp W)} (hops : AllClear M s ops) :
    ∃ s' L' n, (∀ fuel ≥ n, ipcRun M fuel s ops = .ok (s', (b.run ops).2)) ∧
      s'.queues.type = s.queues.type ∧ Tracks s' L' (b.run ops).1 := by
  induction ops generalizing s L b with
  | nil => exact ⟨s, L, 0, fun fuel _ => rfl, rfl, h⟩
  | cons op ops ih =>
    obtain ⟨t, L₁, n₁, hstep, htype, ht⟩ := h.step hM hfolio hops.1
    obtain ⟨s', L', n₂, hrun, htype', hs'⟩ := ih (by rw [htype]; exact hM)
      (by rw [htype]; exact hfolio) ht (hops.2 n₁ t _ (hstep n₁ le_rfl))
    refine ⟨s', L', max n₁ n₂, fun fuel hfuel => ?_, htype'.trans htype, hs'⟩
    simp only [ipcRun, hstep fuel (le_trans (le_max_left ..) hfuel), ok_bind,
      hrun fuel (le_trans (le_max_right ..) hfuel)]
    rfl

/-- **Taking the message of a sender that waits always fails**: the sender's backward link is
still set. -/
theorem Tracks.receive_fails (hfolio : s.queues.type 0 ≠ some .messenger) (h : Tracks s L b)
    (hb : b.Sound) (hm : s.queues.type m = some .messenger)
    (hwaiting : (L m).filter s.transfers ≠ []) (nonblocking activate : Bool)
    (hfuel : (L m).length ≤ fuel) :
    ipcReceive M fuel s m nonblocking activate = .error .assertion := by
  have h₁ : Tracks (s.setActivateOnReceive m activate) L b :=
    h.modify (by intro; rfl) (by intro; rfl)
  have hw : (L m).filter (s.setActivateOnReceive m activate).transfers = b.waiting m :=
    h₁.waiting m hm
  obtain ⟨sender, hfind⟩ :
      ∃ x, (L m).find? (s.setActivateOnReceive m activate).transfers = some x := by
    rw [← Option.isSome_iff_exists, find?_isSome]
    obtain ⟨x, hx⟩ := exists_mem_of_ne_nil _ hwaiting
    rw [h.waiting m hm, ← hw, mem_filter] at hx
    exact ⟨x, hx⟩
  have hmem := mem_of_find?_eq_some hfind
  obtain ⟨pre, post, hl⟩ := append_of_mem hmem
  obtain ⟨q, hunlink, -, hprev, -⟩ :=
    h₁.represents.unlink hl (h₁.reason_iff (find?_some hfind))
  have hblocked : ((s.setActivateOnReceive m activate).messenger m).blocked = true := by
    rw [h₁.blocked m]
    exact hb m (by rw [← h.waiting m hm]; exact hwaiting)
  have hset : q.links.prev sender ≠ 0 := by
    intro hzero
    exact hfolio (hzero ▸ hprev ▸ h₁.represents.prev_messenger hmem)
  unfold ipcReceive
  simp only [h₁.represents.findWaiter_eq hfuel, hfind, ok_bind, hunlink, require_of hblocked]
  unfold serveSender messengerMessageTransfer messengerLoadInternal
  rw [require_of_not]
  · rfl
  · intro hclear
    exact hset (hclear sender rfl).2

/-- The mailboxes as the messengers start: nobody waits, nothing was delivered. -/
def Mailboxes.start (s : Ipc W) : Mailboxes := ⟨fun m => (s.messenger m).blocked, fun _ => [], []⟩

/-- **The delivery protocol.** In every run whose operations find what they need, no assertion
fails and the messengers do what the mailboxes do. In every state reached, a messenger that senders
wait for is blocked, and the senders whose messages it accepted are, in order and each once, those
it got the message of and those that wait. Receiving from a sender that waits, which the runs do
not do, would fail in each of these states. -/
theorem messenger_protocol (hM : M.Proper s.queues.type)
    (hfolio : s.queues.type 0 ≠ some .messenger) (hnone : Represents s.queues fun _ => [])
    (hstart : s.delivered = []) (ops : List (IpcOp W)) (hops : AllClear M s ops) :
    ∃ s' L n rs, (∀ fuel ≥ n, ipcRun M fuel s ops = .ok (s', rs)) ∧
      rs = ((Mailboxes.start s).run ops).2 ∧ Tracks s' L ((Mailboxes.start s).run ops).1 ∧
      ∀ t, s.queues.type t = some .messenger →
        ((L t).filter s'.transfers ≠ [] → (s'.messenger t).blocked = true) ∧
        Mailboxes.accepted (ops.zip rs) t =
          Mailboxes.servedBy s'.delivered t ++ (L t).filter s'.transfers ∧
        ((L t).filter s'.transfers ≠ [] → ∀ nonblocking activate, ∀ fuel ≥ (L t).length,
          ipcReceive M fuel s' t nonblocking activate = .error .assertion) := by
  have hsound : (Mailboxes.start s).Sound := fun m hm => absurd rfl hm
  have htracks : Tracks s (fun _ => []) (Mailboxes.start s) :=
    ⟨hnone, fun _ => rfl, fun _ _ => rfl, hstart, fun _ => hnone.attached_eq_false (by simp)⟩
  obtain ⟨s', L, n, hrun, htype, hs'⟩ := htracks.run hM hfolio hops
  have hsound' := hsound.run ops
  refine ⟨s', L, n, _, hrun, rfl, hs', fun t ht => ?_⟩
  rw [← htype] at ht hfolio
  refine ⟨fun hw => ?_, ?_, fun hw nonblocking activate fuel hfuel => ?_⟩
  · rw [hs'.blocked t]
    exact hsound' t (by rw [← hs'.waiting t ht]; exact hw)
  · rw [hs'.waiting t ht, hs'.delivered, Mailboxes.run_account hsound ops t]
    simp [Mailboxes.start, Mailboxes.servedBy]
  · exact hs'.receive_fails hfolio hsound' ht hw nonblocking activate hfuel

end Messengers

/-! ### A small system -/

/-- Messengers as they are allocated; object 0 is their folio. -/
def newMessengers : Ipc Unit where
  queues :=
    { type := fun o => if o = 0 then some .folio else some .messenger
      waited := fun _ => false
      first := fun _ => 0
      queued := fun _ => false
      links := ⟨fun _ => 0, fun _ => 0, fun _ => false, fun _ => false⟩
      attached := fun _ => false }
  messenger _ := .zero
  world := ()
  delivered := []

/-- Two messengers send to a third, which has room for one message. -/
theorem messenger_protocol_twoSenders : ∃ s' : Ipc Unit, ∃ n,
    (∀ fuel ≥ n, ipcRun threadless fuel newMessengers
      [.send 1 3 true false, .send 2 3 true false] = .ok (s', [true, true])) ∧
    s'.delivered = [(1, 3)] := by
  obtain ⟨s', L, n, rs, hrun, hrs, htracks, -⟩ := messenger_protocol
    (M := threadless) (s := newMessengers)
    (threadless_proper _) (by decide)
    (represents_nil (fun _ => rfl) (fun _ => rfl) fun _ => rfl) rfl
    [.send 1 3 true false, .send 2 3 true false]
    ⟨⟨rfl, rfl, rfl, rfl, fun _ => ⟨(absurd · (by decide)), (absurd · (by decide))⟩⟩,
      fun fuel t r h => by
        obtain ⟨⟩ := Except.ok.inj h
        exact ⟨⟨rfl, rfl, rfl, rfl, (absurd · (by decide))⟩, fun _ _ _ _ => trivial⟩⟩
  subst hrs
  exact ⟨s', n, hrun, htracks.delivered⟩

/-- A messenger sends to a blocked one and waits; when the other one receives, the kernel stops on
an assertion. -/
theorem waitingSender_stops :
    ipcRun threadless 8 (newMessengers.setBlocked 3 true)
      [.send 1 3 true false, .receive 3 false false] = .error .assertion := by
  rfl

end Viengoos
