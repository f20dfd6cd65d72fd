import Viengoos.Cap
import Viengoos.Lib.Outcome
import Viengoos.Lib.Ring

/-!
# Wait queues

Every object has a queue of the messengers that wait on it (`object.c`). The queue is stored as a
ring: the folio of the object holds a bit that says whether the queue is non-empty and the OID of
the first messenger; each messenger holds the OIDs of its neighbours and two flags. The last
messenger's forward link is the object itself, and the first one's backward link is the last.

The functions below make the writes of the source in the source's order. An object is named by its
OID; `object_find`, which the source uses to follow a link, finds the objects that `type` knows,
and a link that leads nowhere, or to something other than a messenger, is a failed assertion.
`Represents q L` says that the queue of each object `o` stores the list `L o`, and push, enqueue and
unlink store the list with the messenger in front, at the end, and removed.

Without `NDEBUG` there is one more list, `futex_waiters`, of the messengers that wait for a futex.
`FUTEX_WAIT` puts a messenger on it, and `object_wait_queue_unlink` takes it off, which nobody makes
up for when the messenger goes on to another queue. So the queues refine lists except where such a
messenger is unlinked a second time (`waitQueues_refine_lists_iff`).
-/

namespace Viengoos

open Outcome Function List

/-- Why a messenger is on a wait queue. -/
inductive WaitReason
  | futex
  | destroy
  | activityInfo
  | transferMessage
deriving DecidableEq, Repr

/-- What the wait queues are made of. -/
structure WaitQueues where
  /-- The type of the object that `object_find` finds. -/
  type : ℕ → Option CapType
  /-- `folio_object_wait_queue_p`: somebody waits on the object. -/
  waited : ℕ → Bool
  /-- `folio_object_wait_queue`: the first waiter. -/
  first : ℕ → ℕ
  /-- `wait_queue_p` of a messenger. -/
  queued : ℕ → Bool
  /-- `wait_queue.next`, `wait_queue.prev`, `wait_queue_head` and `wait_queue_tail`. -/
  links : Ring.Links ℕ
  /-- `futex_waiter_node` of a messenger is attached, to the list `futex_waiters`. -/
  attached : ℕ → Bool

namespace WaitQueues

def setNext (q : WaitQueues) (m oid : ℕ) : WaitQueues :=
  { q with links.next := update q.links.next m oid }

def setPrev (q : WaitQueues) (m oid : ℕ) : WaitQueues :=
  { q with links.prev := update q.links.prev m oid }

def setHead (q : WaitQueues) (m : ℕ) (b : Bool) : WaitQueues :=
  { q with links.head := update q.links.head m b }

def setTail (q : WaitQueues) (m : ℕ) (b : Bool) : WaitQueues :=
  { q with links.tail := update q.links.tail m b }

def setQueued (q : WaitQueues) (m : ℕ) (b : Bool) : WaitQueues :=
  { q with queued := update q.queued m b }

def setAttached (q : WaitQueues) (m : ℕ) (b : Bool) : WaitQueues :=
  { q with attached := update q.attached m b }

/-- `folio_object_wait_queue_p_set`. -/
def setWaited (q : WaitQueues) (object : ℕ) (b : Bool) : WaitQueues :=
  { q with waited := update q.waited object b }

/-- `folio_object_wait_queue_set`. -/
def setFirst (q : WaitQueues) (object m : ℕ) : WaitQueues :=
  { q with first := update q.first object m }

/-- `object_find`, with the assertion that it finds something. -/
def find (q : WaitQueues) (oid : ℕ) : Except Fault ℕ := do
  require (q.type oid ≠ none) .assertion
  pure oid

/-- `object_find`, with the assertion that it finds a messenger. -/
def findMessenger (q : WaitQueues) (oid : ℕ) : Except Fault ℕ := do
  require (q.type oid = some .messenger) .assertion
  pure oid

end WaitQueues

/-- `object_wait_queue_head`. -/
def objectWaitQueueHead (q : WaitQueues) (object : ℕ) : Except Fault (Option ℕ) :=
  if q.waited object then do
    let head ← q.findMessenger (q.first object)
    require (q.queued head = true ∧ q.links.head head = true) .assertion
    pure (some head)
  else pure none

/-- `object_wait_queue_tail`. -/
def objectWaitQueueTail (q : WaitQueues) (object : ℕ) : Except Fault (Option ℕ) := do
  match ← objectWaitQueueHead q object with
  | none => pure none
  | some head =>
    if q.links.tail head then pure (some head)
    else do
      let tail ← q.findMessenger (q.links.prev head)
      require (q.queued tail = true ∧ q.links.tail tail = true) .assertion
      pure (some tail)

/-- `object_wait_queue_next`. -/
def objectWaitQueueNext (q : WaitQueues) (m : ℕ) : Except Fault (Option ℕ) :=
  if q.links.tail m then pure none
  else do
    let next ← q.findMessenger (q.links.next m)
    require (q.queued next = true ∧ q.links.head next = false) .assertion
    pure (some next)

/-- `object_wait_queue_prev`. -/
def objectWaitQueuePrev (q : WaitQueues) (m : ℕ) : Except Fault (Option ℕ) :=
  if q.links.head m then pure none
  else do
    let prev ← q.findMessenger (q.links.prev m)
    require (q.queued prev = true ∧ q.links.tail prev = false) .assertion
    pure (some prev)

/-- `object_wait_queue_push`. -/
def objectWaitQueuePush (q : WaitQueues) (object messenger : ℕ) : Except Fault WaitQueues := do
  require (q.queued messenger = false) .assertion
  let q ← match ← objectWaitQueueHead q object with
    | some oldhead =>
      let q := q.setPrev messenger (q.links.prev oldhead)
      let q := q.setHead oldhead false
      let q := q.setPrev oldhead messenger
      let q := q.setNext messenger oldhead
      pure (q.setTail messenger false)
    | none =>
      let q := q.setWaited object true
      let q := q.setPrev messenger messenger
      let q := q.setTail messenger true
      pure (q.setNext messenger object)
  let q := q.setQueued messenger true
  let q := q.setHead messenger true
  pure (q.setFirst object messenger)

/-- The part of `object_wait_queue_enqueue` for a queue with a last waiter. -/
def enqueueBehind (q : WaitQueues) (object messenger oldtail : ℕ) : Except Fault WaitQueues := do
  match ← objectWaitQueueHead q object with
  | none => throw .assertion
  | some head =>
    let q := q.setPrev head messenger
    require (q.links.tail oldtail = true) .assertion
    let q := q.setPrev messenger oldtail
    let q := q.setTail oldtail false
    let q := q.setNext oldtail messenger
    let q := q.setNext messenger object
    let q := q.setHead messenger false
    pure (q.setTail messenger true)

/-- `object_wait_queue_enqueue`. -/
def objectWaitQueueEnqueue (q : WaitQueues) (object messenger : ℕ) : Except Fault WaitQueues := do
  require (q.queued messenger = false) .assertion
  let q ← match ← objectWaitQueueTail q object with
    | some oldtail => enqueueBehind q object messenger oldtail
    | none =>
      let q := q.setWaited object true
      let q := q.setPrev messenger messenger
      let q := q.setTail messenger true
      let q := q.setNext messenger object
      let q := q.setHead messenger true
      pure (q.setFirst object messenger)
  pure (q.setQueued messenger true)

/-- The part of `object_wait_queue_unlink` for the last waiter: its forward link is the object. -/
def unlinkTail (q : WaitQueues) (messenger : ℕ) : Except Fault WaitQueues := do
  let object ← q.find (q.links.next messenger)
  require (q.waited object = true) .assertion
  let tail ← objectWaitQueueTail q object
  require (tail = some messenger) .assertion
  if q.links.head messenger then
    require (q.links.prev messenger = messenger) .assertion
    pure (q.setWaited object false)
  else do
    match ← objectWaitQueueHead q object with
    | none => throw .assertion
    | some head =>
      require (q.links.prev head = messenger) .assertion
      let q := q.setPrev head (q.links.prev messenger)
      let prev ← q.findMessenger (q.links.prev messenger)
      let q := q.setTail prev true
      pure (q.setNext prev (q.links.next messenger))

/-- The part of `object_wait_queue_unlink` for a waiter with another one behind it. The backward
link of the first waiter is the last one, whose forward link is the object. -/
def unlinkInner (q : WaitQueues) (messenger : ℕ) : Except Fault WaitQueues := do
  match ← objectWaitQueueNext q messenger with
  | none => throw .assertion
  | some next =>
    let prev ← q.findMessenger (q.links.prev messenger)
    let q ←
      if q.links.head messenger then do
        let object ← q.find (q.links.next prev)
        let head ← objectWaitQueueHead q object
        require (head = some messenger) .assertion
        let q := q.setHead next true
        pure (q.setFirst object (q.links.next messenger))
      else pure (q.setNext prev (q.links.next messenger))
    pure (q.setPrev next (q.links.prev messenger))

/-- The part of `object_wait_queue_unlink` that takes the messenger off its queue. The flags and
links of the messenger itself stay as they are. -/
def leaveQueue (q : WaitQueues) (messenger : ℕ) : Except Fault WaitQueues := do
  require (q.queued messenger = true) .assertion
  let q ← if q.links.tail messenger then unlinkTail q messenger else unlinkInner q messenger
  pure (q.setQueued messenger false)

/-- `futex_waiter_list_enqueue`. The node must not be on a list. -/
def futexWaiterListEnqueue (q : WaitQueues) (messenger : ℕ) : Except Fault WaitQueues := do
  require (q.attached messenger = false) .assertion
  pure (q.setAttached messenger true)

/-- `futex_waiter_list_unlink`. The node must be on the list. -/
def futexWaiterListUnlink (q : WaitQueues) (messenger : ℕ) : Except Fault WaitQueues := do
  require (q.attached messenger = true) .assertion
  pure (q.setAttached messenger false)

/-- `object_wait_queue_unlink`, for a messenger with a `wait_reason`. -/
def objectWaitQueueUnlink (q : WaitQueues) (reason : WaitReason) (messenger : ℕ) :
    Except Fault WaitQueues := do
  let q ← leaveQueue q messenger
  if reason = .futex then futexWaiterListUnlink q messenger else pure q

/-! ### The lists the queues store -/

/-- The queue of each object `o` stores the list `L o` of messengers, and those on `futex_waiters`
wait somewhere. -/
structure Represents (q : WaitQueues) (L : ℕ → List ℕ) : Prop where
  stores : ∀ o, Ring.Stores q.links o (L o)
  waited : ∀ o, q.waited o = true ↔ L o ≠ []
  first : ∀ o, ∀ m ∈ (L o).head?, q.first o = m
  queued : ∀ m, q.queued m = true ↔ ∃ o, m ∈ L o
  nodup : ∀ o, (L o).Nodup
  disjoint : ∀ o o' m, m ∈ L o → m ∈ L o' → o = o'
  messenger : ∀ o, ∀ m ∈ L o, q.type m = some .messenger
  object : ∀ o, L o ≠ [] → q.type o ≠ none
  attached : ∀ m, q.attached m = true → ∃ o, m ∈ L o

variable {q : WaitQueues} {a : ℕ} {L : ℕ → List ℕ}

/-- Where nobody waits the queues store empty lists, whatever the links hold. -/
theorem represents_nil (hwaited : ∀ o, q.waited o = false)
    (hqueued : ∀ m, q.queued m = false) (hattached : ∀ m, q.attached m = false) :
    Represents q fun _ => [] where
  stores _ := Ring.stores_nil
  waited := by simp [hwaited]
  first := by simp
  queued := by simp [hqueued]
  nodup := by simp
  disjoint := by simp
  messenger := by simp
  object := by simp
  attached := by simp [hattached]

/-- The queue of `o` stores the list `l` after an edit. -/
structure Edits (q q' : WaitQueues) (o : ℕ) (l : List ℕ) : Prop where
  type : q'.type = q.type
  stores : Ring.Stores q'.links o l
  waited : q'.waited o = true ↔ l ≠ []
  first : ∀ m ∈ l.head?, q'.first o = m
  others : ∀ p, p ≠ o → q'.waited p = q.waited p ∧ q'.first p = q.first p

namespace Represents

variable {q q' : WaitQueues} {L : ℕ → List ℕ} {o m : ℕ} {l pre post : List ℕ}

variable (h : Represents q L)

include h

theorem stores_of (hl : L o = l) : Ring.Stores q.links o l :=
  hl ▸ h.stores o

theorem findMessenger_eq (hm : m ∈ L o) : q.findMessenger m = .ok m := by
  simp [WaitQueues.findMessenger, require_of (h.messenger o m hm)]

theorem find_eq (ho : L o ≠ []) : q.find o = .ok o := by
  simp [WaitQueues.find, require_of (h.object o ho)]

theorem queued_of_mem (hm : m ∈ L o) : q.queued m = true :=
  (h.queued m).2 ⟨o, hm⟩

theorem queued_eq_false (hm : ∀ o, m ∉ L o) : q.queued m = false := by
  by_contra hq
  obtain ⟨o, ho⟩ := (h.queued m).1 (by simpa using hq)
  exact hm o ho

/-- A waiter's backward link leads to a messenger. -/
theorem prev_messenger (hm : m ∈ L o) : q.type (q.links.prev m) = some .messenger :=
  h.messenger o _ ((h.stores o).prev_mem hm)

/-- `object_wait_queue_head` returns the first of the list. -/
theorem head_eq (o : ℕ) : objectWaitQueueHead q o = .ok (L o).head? := by
  unfold objectWaitQueueHead
  cases hl : L o with
  | nil =>
    have hw : q.waited o = false := by simpa [hl] using (h.waited o).not
    simp [hw]
  | cons a l =>
    have hw : q.waited o = true := (h.waited o).2 (by simp [hl])
    have ha : a ∈ L o := by simp [hl]
    have hfirst : q.first o = a := h.first o a (by simp [hl])
    have hstores := h.stores_of hl
    have hflags : q.queued a = true ∧ q.links.head a = true :=
      ⟨h.queued_of_mem ha, hstores.head_cons⟩
    simp [hw, hfirst, h.findMessenger_eq ha, require_of hflags]

/-- `object_wait_queue_tail` returns the last of the list. -/
theorem tail_eq (o : ℕ) : objectWaitQueueTail q o = .ok (L o).getLast? := by
  unfold objectWaitQueueTail
  rw [h.head_eq o]
  rcases eq_nil_or_concat (L o) with hl | ⟨l, b, hl⟩
  · simp [hl]
  · rw [concat_eq_append] at hl
    have hstores := h.stores_of hl
    have hb : b ∈ L o := by simp [hl]
    cases l with
    | nil => simp [hl, hstores.tail_concat]
    | cons a l =>
      have hprev : q.links.prev a = b := by
        simpa using hstores.prev_cons
      have hflags : q.queued b = true ∧ q.links.tail b = true :=
        ⟨h.queued_of_mem hb, hstores.tail_concat⟩
      have htail : q.links.tail a = false := by
        cases l <;> exact hstores.adjacent_cons.tail
      rw [show (L o).getLast? = some b by rw [hl, getLast?_concat],
        show (L o).head? = some a by rw [hl]; rfl]
      simp [htail, hprev, h.findMessenger_eq hb, require_of hflags]

/-- `object_wait_queue_next` returns the one behind in the list. -/
theorem next_eq (hl : L o = pre ++ m :: post) : objectWaitQueueNext q m = .ok post.head? := by
  unfold objectWaitQueueNext
  have hstores := h.stores_of hl
  cases post with
  | nil => simp [hstores.tail_concat]
  | cons b post =>
    have hadj := hstores.adjacent
    have hb : b ∈ L o := by simp [hl]
    have hflags : q.queued b = true ∧ q.links.head b = false := ⟨h.queued_of_mem hb, hadj.head⟩
    simp [hadj.tail, hadj.next, h.findMessenger_eq hb, require_of hflags]

/-- `object_wait_queue_prev` returns the one in front in the list. -/
theorem prev_eq (hl : L o = pre ++ m :: post) : objectWaitQueuePrev q m = .ok pre.getLast? := by
  unfold objectWaitQueuePrev
  have hstores := h.stores_of hl
  rcases eq_nil_or_concat pre with rfl | ⟨pre, a, rfl⟩
  · rw [nil_append] at hstores
    simp [hstores.head_cons]
  · rw [concat_eq_append, append_assoc] at hstores
    have hadj := hstores.adjacent
    have ha : a ∈ L o := by simp [hl]
    have hflags : q.queued a = true ∧ q.links.tail a = false := ⟨h.queued_of_mem ha, hadj.tail⟩
    simp [hadj.head, hadj.prev, h.findMessenger_eq ha, require_of hflags]

/-! ### Push, enqueue and unlink -/

/-- Putting a list for the queue of `o` keeps to the messengers of its old and its new list and
leaves the other queues alone. -/
theorem edit (hq : Edits q q' o l) (hagree : ∀ x, x ∉ L o → x ∉ l → Ring.Agree q.links q'.links x)
    (hqueued : ∀ m, q'.queued m = true ↔ m ∈ l ∨ (m ∉ L o ∧ q.queued m = true)) (hnodup : l.Nodup)
    (hfresh : ∀ m ∈ l, m ∈ L o ∨ ∀ p, m ∉ L p) (hmessenger : ∀ m ∈ l, q.type m = some .messenger)
    (hobject : l ≠ [] → q.type o ≠ none)
    (hattached : ∀ m, q'.attached m = true → q.attached m = true ∧ (m ∈ L o → m ∈ l)) :
    Represents q' (update L o l) := by
  -- A messenger of another queue is on neither list.
  have hother : ∀ p, p ≠ o → ∀ m ∈ L p, m ∉ L o ∧ m ∉ l := by
    intro p hp m hm
    have hmo : m ∉ L o := fun hmo => hp (h.disjoint p o m hm hmo)
    refine ⟨hmo, fun hml => ?_⟩
    rcases hfresh m hml with hmem | hnone
    · exact hmo hmem
    · exact hnone p hm
  constructor
  case stores =>
    refine (forall_update_iff L fun p l => Ring.Stores q'.links p l).2 ⟨hq.stores, fun p hp => ?_⟩
    exact (h.stores p).congr fun a ha => hagree a (hother p hp a ha).1 (hother p hp a ha).2
  case waited =>
    refine (forall_update_iff L fun p l => q'.waited p = true ↔ l ≠ []).2
      ⟨hq.waited, fun p hp => ?_⟩
    rw [(hq.others p hp).1]
    exact h.waited p
  case first =>
    refine (forall_update_iff L fun p l => ∀ m ∈ l.head?, q'.first p = m).2
      ⟨hq.first, fun p hp => ?_⟩
    rw [(hq.others p hp).2]
    exact h.first p
  case queued =>
    intro m
    rw [hqueued m, h.queued m]
    constructor
    · rintro (hm | ⟨hmo, p, hp⟩)
      · exact ⟨o, by rwa [update_self]⟩
      · have hpo : p ≠ o := fun e => hmo (e ▸ hp)
        exact ⟨p, by rwa [update_of_ne hpo]⟩
    · rintro ⟨p, hp⟩
      rcases eq_or_ne p o with rfl | hpo
      · rw [update_self] at hp
        exact .inl hp
      · rw [update_of_ne hpo] at hp
        exact .inr ⟨(hother p hpo m hp).1, p, hp⟩
  case nodup =>
    exact (forall_update_iff L fun _ l => l.Nodup).2 ⟨hnodup, fun p _ => h.nodup p⟩
  case disjoint =>
    refine (forall_update_iff L fun p l' => ∀ p' m, m ∈ l' → m ∈ update L o l p' → p = p').2
      ⟨fun p' m hm => ?_, fun p hp p' m hm => ?_⟩
    · rcases eq_or_ne p' o with rfl | hp'
      · exact fun _ => rfl
      · rw [update_of_ne hp']
        exact fun hm' => absurd hm (hother p' hp' m hm').2
    · rcases eq_or_ne p' o with rfl | hp'
      · rw [update_self]
        exact fun hm' => absurd hm' (hother p hp m hm).2
      · rw [update_of_ne hp']
        exact h.disjoint p p' m hm
  case messenger =>
    rw [hq.type]
    exact (forall_update_iff L fun _ l => ∀ m ∈ l, q.type m = some .messenger).2
      ⟨hmessenger, fun p _ => h.messenger p⟩
  case object =>
    rw [hq.type]
    exact (forall_update_iff L fun p l => l ≠ [] → q.type p ≠ none).2
      ⟨hobject, fun p _ => h.object p⟩
  case attached =>
    intro m hm
    obtain ⟨hold, hkeep⟩ := hattached m hm
    obtain ⟨p, hp⟩ := h.attached m hold
    rcases eq_or_ne p o with rfl | hpo
    · exact ⟨p, by rw [update_self]; exact hkeep hp⟩
    · exact ⟨p, by rwa [update_of_ne hpo]⟩

section Insert

variable (hmessenger : q.type m = some .messenger) (hobject : q.type o ≠ none)
  (hm : ∀ p, m ∉ L p)

include hmessenger hobject hm

/-- An edit that takes a messenger that waits nowhere in. -/
theorem insert (hl : l.Perm (m :: L o)) (hq : Edits q q' o l)
    (hagree : ∀ x, x ≠ m → x ∉ L o → Ring.Agree q.links q'.links x)
    (hqueued : q'.queued = update q.queued m true) (hattached : q'.attached = q.attached) :
    Represents q' (update L o l) := by
  have hmem : ∀ x, x ∈ l ↔ x = m ∨ x ∈ L o := fun x => by rw [hl.mem_iff, mem_cons]
  refine h.edit hq ?_ ?_ ?_ ?_ ?_ (fun _ => hobject)
    fun x hx => ⟨hattached ▸ hx, fun hxo => (hmem x).2 (.inr hxo)⟩
  · intro x hx hxl
    exact hagree x (fun e => hxl ((hmem x).2 (.inl e))) hx
  · intro x
    rw [hqueued, hmem x, update_apply]
    by_cases hx : x = m
    · simp [hx]
    · simp only [hx, if_false, false_or]
      refine ⟨fun hq => ?_, ?_⟩
      · exact (em (x ∈ L o)).imp id fun hxo => ⟨hxo, hq⟩
      · rintro (hxo | ⟨-, hq⟩)
        · exact h.queued_of_mem hxo
        · exact hq
  · exact hl.nodup_iff.2 (nodup_cons.2 ⟨hm o, h.nodup o⟩)
  · intro x hx
    rcases (hmem x).1 hx with rfl | hx
    · exact .inr hm
    · exact .inl hx
  · intro x hx
    rcases (hmem x).1 hx with rfl | hx
    · exact hmessenger
    · exact h.messenger o x hx

/-- The queue when `m` is its only messenger. -/
theorem insert_only (hl : L o = []) :
    Represents
      { q with
        waited := update q.waited o true
        first := update q.first o m
        queued := update q.queued m true
        links := q.links.linkOnly o m }
      (update L o [m]) := by
  refine h.insert hmessenger hobject hm (by rw [hl]) ⟨rfl, Ring.stores_linkOnly, by simp, by simp,
    fun p hp => ⟨update_of_ne hp .., update_of_ne hp ..⟩⟩ ?_ rfl rfl
  exact fun x hx _ => Ring.agree_linkOnly hx

/-- **Push is cons.** -/
theorem push : ∃ q', objectWaitQueuePush q o m = .ok q' ∧ q'.type = q.type ∧
      q'.attached = q.attached ∧ Represents q' (update L o (m :: L o)) := by
  unfold objectWaitQueuePush
  rw [require_of (h.queued_eq_false hm), ok_bind, h.head_eq o]
  cases hl : L o with
  | nil => exact ⟨_, rfl, rfl, rfl, h.insert_only hmessenger hobject hm hl⟩
  | cons a l =>
    have hstores := h.stores o
    have hmo := hm o
    rw [hl] at hstores hmo
    refine ⟨{ q with
      first := update q.first o m
      queued := update q.queued m true
      links := q.links.linkFirst m a }, ?_, rfl, rfl, ?_⟩
    · simp [WaitQueues.setPrev, WaitQueues.setHead, WaitQueues.setNext, WaitQueues.setTail,
        WaitQueues.setQueued, WaitQueues.setFirst, Ring.Links.linkFirst]
    have hwaited : q.waited o = true := (h.waited o).2 (by simp [hl])
    refine h.insert hmessenger hobject hm (by rw [hl]) ⟨rfl, hstores.linkFirst hmo,
      by simp [hwaited], by simp, fun p hp => ⟨rfl, update_of_ne hp ..⟩⟩ (fun x hx hxo => ?_)
      rfl rfl
    exact Ring.agree_linkFirst hx fun e => hxo (by simp [hl, e])

/-- **Enqueue is append.** -/
theorem enqueue : ∃ q', objectWaitQueueEnqueue q o m = .ok q' ∧ q'.type = q.type ∧
      q'.attached = q.attached ∧ Represents q' (update L o (L o ++ [m])) := by
  unfold objectWaitQueueEnqueue
  rw [require_of (h.queued_eq_false hm), ok_bind, h.tail_eq o]
  rcases eq_nil_or_concat (L o) with hl | ⟨l, b, hl⟩
  · rw [hl]
    exact ⟨_, rfl, rfl, rfl, h.insert_only hmessenger hobject hm hl⟩
  · have hlast : (L o).getLast? = some b := by rw [hl, concat_eq_append, getLast?_concat]
    obtain ⟨a, hhead⟩ : ∃ a, (L o).head? = some a := by
      rw [hl]
      cases l <;> simp
    have hlinks := (h.stores o).linkLast hhead hlast (hm o)
    have htail : q.links.tail b = true := ((h.stores o).last b hlast).1
    refine ⟨{ q with
      queued := update q.queued m true
      links := q.links.linkLast o m a b }, ?_, rfl, rfl, ?_⟩
    · rw [hlast]
      simp only [ok_bind, enqueueBehind, h.head_eq o, hhead]
      rw [require_of (show (q.setPrev a m).links.tail b = true from htail)]
      simp [WaitQueues.setPrev, WaitQueues.setHead, WaitQueues.setNext, WaitQueues.setTail,
        WaitQueues.setQueued, Ring.Links.linkLast]
    · have hwaited : q.waited o = true := (h.waited o).2 (by simp [hl])
      refine h.insert hmessenger hobject hm (perm_append_singleton m (L o))
        ⟨rfl, hlinks, by simp [hwaited], fun c hc => ?_, fun p hp => ⟨rfl, rfl⟩⟩
        (fun x hx hxo => ?_) rfl rfl
      · refine h.first o c ?_
        rw [head?_append, hhead] at hc
        rwa [hhead]
      · refine Ring.agree_linkLast hx (fun e => hxo ?_) (fun e => hxo ?_)
        · exact e ▸ mem_of_mem_head? hhead
        · exact e ▸ mem_of_mem_getLast? hlast

end Insert

/-- `FUTEX_WAIT` puts a messenger that waits on `futex_waiters`. -/
theorem attach (hm : m ∈ L o) (hout : q.attached m = false) :
    futexWaiterListEnqueue q m = .ok (q.setAttached m true) ∧
      Represents (q.setAttached m true) L := by
  refine ⟨by rw [futexWaiterListEnqueue, require_of hout]; rfl,
    { h with attached := fun x hx => ?_ }⟩
  by_cases hxm : x = m
  · exact ⟨o, hxm ▸ hm⟩
  · exact h.attached x (by simpa [WaitQueues.setAttached, hxm] using hx)

theorem attached_eq_false (hm : ∀ o, m ∉ L o) : q.attached m = false := by
  by_contra hq
  obtain ⟨o, ho⟩ := h.attached m (by simpa using hq)
  exact hm o ho

theorem nodup_middle_of (hl : L o = pre ++ m :: post) : m ∉ pre ++ post ∧ (pre ++ post).Nodup := by
  rw [← nodup_cons, ← nodup_middle, ← hl]
  exact h.nodup o

/-- A messenger that is taken out of its queue is on none. -/
theorem not_mem_unlink (hl : L o = pre ++ m :: post) (p : ℕ) : m ∉ update L o (pre ++ post) p := by
  intro hp
  rcases eq_or_ne p o with rfl | hpo
  · rw [update_self] at hp
    exact (h.nodup_middle_of hl).1 hp
  · rw [update_of_ne hpo] at hp
    exact hpo (h.disjoint p o m hp (by simp [hl]))

/-- An edit that takes a messenger out. -/
theorem remove (hl : L o = pre ++ m :: post) (hq : Edits q q' o (pre ++ post))
    (hagree : ∀ x, x ∉ L o → Ring.Agree q.links q'.links x)
    (hqueued : q'.queued = update q.queued m false)
    (hattached : q'.attached = q.attached) :
    Represents (q'.setAttached m false) (update L o (pre ++ post)) := by
  have hnodup := h.nodup_middle_of hl
  have hmem : ∀ x, x ∈ L o ↔ x = m ∨ x ∈ pre ++ post := fun x => by
    rw [hl, perm_middle.mem_iff, mem_cons]
  have hq₁ : Edits q (q'.setAttached m false) o (pre ++ post) :=
    ⟨hq.type, hq.stores, hq.waited, hq.first, hq.others⟩
  refine h.edit hq₁ (fun x hx _ => hagree x hx) ?_ hnodup.2 ?_ ?_ ?_ ?_
  · intro x
    rw [show (q'.setAttached m false).queued = q'.queued from rfl, hqueued, update_apply]
    by_cases hx : x = m
    · subst hx
      simp [hnodup.1, (hmem x).2 (.inl rfl)]
    · simp only [hx, if_false, hmem x, false_or]
      refine ⟨fun hq => ?_, ?_⟩
      · exact (em (x ∈ pre ++ post)).imp id fun hxl => ⟨hxl, hq⟩
      · rintro (hxl | ⟨-, hq⟩)
        · exact h.queued_of_mem ((hmem x).2 (.inr hxl))
        · exact hq
  · exact fun x hx => .inl ((hmem x).2 (.inr hx))
  · exact fun x hx => h.messenger o x ((hmem x).2 (.inr hx))
  · exact fun _ => h.object o (by simp [hl])
  · intro x hx
    have hxm : x ≠ m := fun e => by simp [WaitQueues.setAttached, e] at hx
    replace hx : q.attached x = true := by simpa [WaitQueues.setAttached, hxm, hattached] using hx
    exact ⟨hx, fun hxo => ((hmem x).1 hxo).resolve_left hxm⟩

/-- The only waiter is unlinked. -/
theorem unlink_only (hl : L o = [m]) :
    leaveQueue q m = .ok ((q.setWaited o false).setQueued m false) := by
  have hstores := h.stores_of hl
  have hm : m ∈ L o := by simp [hl]
  obtain ⟨htail, hnext⟩ := hstores.last m rfl
  have hprev : q.links.prev m = m := hstores.prev_cons
  have hwaited : q.waited o = true := (h.waited o).2 (by simp [hl])
  unfold leaveQueue unlinkTail
  rw [require_of (h.queued_of_mem hm), ok_bind, if_pos htail, hnext,
    h.find_eq (by simp [hl]), ok_bind, require_of hwaited, ok_bind, h.tail_eq o, ok_bind,
    require_of (by simp [hl]), ok_bind, if_pos hstores.head_cons, require_of hprev]
  rfl

/-- The last of several waiters is unlinked. -/
theorem unlink_last {b : ℕ} (hl : L o = l ++ [b, m]) (ha : (l ++ [b]).head? = some a) :
    leaveQueue q m = .ok
      { q with
        links := q.links.unlinkLast m a
        queued := update q.queued m false } := by
  have hl' : L o = (l ++ [b]) ++ [m] := by simp [hl]
  have hstores := h.stores_of hl'
  have hm : m ∈ L o := by simp [hl]
  have hb : b ∈ L o := by simp [hl]
  have hbm : Ring.Adjacent q.links b m := (h.stores_of hl).adjacent
  have hwaited : q.waited o = true := (h.waited o).2 (by simp [hl])
  have hlast : (L o).getLast? = some m := by rw [hl', getLast?_concat]
  have hhead : (L o).head? = some a := by
    rw [hl', head?_append, ha]
    rfl
  have hprev : q.links.prev a = m := ((h.stores o).first a hhead).2 m hlast
  have hma : m ≠ a := by
    rintro rfl
    exact (h.nodup_middle_of hl').1 (by simpa using mem_of_mem_head? ha)
  have hfound : (q.setPrev a (q.links.prev m)).findMessenger b = .ok b :=
    h.findMessenger_eq hb
  unfold leaveQueue unlinkTail
  rw [require_of (h.queued_of_mem hm), ok_bind, if_pos hstores.tail_concat, hstores.next_concat,
    h.find_eq (by simp [hl]), ok_bind, require_of hwaited, ok_bind, h.tail_eq o, ok_bind,
    require_of hlast, ok_bind, if_neg (by simp [hbm.head]), h.head_eq o, hhead]
  simp only [ok_bind]
  rw [require_of hprev, ok_bind,
    show (q.setPrev a (q.links.prev m)).links.prev m = b from
      (update_of_ne hma ..).trans hbm.prev, hfound]
  simp [WaitQueues.setPrev, WaitQueues.setNext, WaitQueues.setTail, WaitQueues.setQueued,
    Ring.Links.unlinkLast, hbm.prev]

/-- The first of several waiters is unlinked. -/
theorem unlink_first (hl : L o = m :: a :: l) :
    leaveQueue q m = .ok
      { q with
        links := q.links.unlinkFirst m
        queued := update q.queued m false
        first := update q.first o a } := by
  have hstores := h.stores_of hl
  have hm : m ∈ L o := by simp [hl]
  have hma := hstores.adjacent_cons
  obtain ⟨b, hlast⟩ : ∃ b, (L o).getLast? = some b := ⟨_, by rw [hl, getLast?_cons]⟩
  have hhead : (L o).head? = some m := by rw [hl]; rfl
  have hprev : q.links.prev m = b := ((h.stores o).first m hhead).2 b hlast
  have hnext : q.links.next b = o := ((h.stores o).last b hlast).2
  have hb : b ∈ L o := mem_of_mem_getLast? hlast
  unfold leaveQueue unlinkInner
  rw [require_of (h.queued_of_mem hm), ok_bind, if_neg (by simp [hma.tail]),
    h.next_eq (hl.trans (nil_append _).symm)]
  simp only [ok_bind, head?_cons, hprev]
  rw [h.findMessenger_eq hb, ok_bind, if_pos hstores.head_cons, hnext,
    h.find_eq (by simp [hl]), ok_bind, h.head_eq o, ok_bind, require_of hhead]
  simp [WaitQueues.setPrev, WaitQueues.setHead, WaitQueues.setFirst, WaitQueues.setQueued,
    Ring.Links.unlinkFirst, hma.next, hprev]

/-- A waiter with others on both sides is unlinked. -/
theorem unlink_middle {b : ℕ} (hl : L o = pre ++ a :: m :: b :: post) :
    leaveQueue q m = .ok
      { q with
        links := q.links.unlinkMiddle m
        queued := update q.queued m false } := by
  have hl' : L o = (pre ++ [a]) ++ m :: b :: post := by simp [hl]
  have ham : Ring.Adjacent q.links a m := (h.stores_of hl).adjacent
  have hmb : Ring.Adjacent q.links m b := (h.stores_of hl').adjacent
  have hm : m ∈ L o := by simp [hl]
  have ha : a ∈ L o := by simp [hl]
  unfold leaveQueue unlinkInner
  rw [require_of (h.queued_of_mem hm), ok_bind, if_neg (by simp [hmb.tail]), h.next_eq hl']
  simp only [ok_bind, head?_cons, ham.prev]
  rw [h.findMessenger_eq ha, ok_bind, if_neg (by simp [ham.head])]
  simp [WaitQueues.setPrev, WaitQueues.setNext, WaitQueues.setQueued, Ring.Links.unlinkMiddle,
    hmb.next, ham.prev]

/-- Leaving a queue is removal from the list, once the messenger is off `futex_waiters`. It keeps
its own backward link. -/
theorem leave (hl : L o = pre ++ m :: post) :
    ∃ q', leaveQueue q m = .ok q' ∧ q'.type = q.type ∧ q'.links.prev m = q.links.prev m ∧
      q'.attached = q.attached ∧
      Represents (q'.setAttached m false) (update L o (pre ++ post)) := by
  have hstores := h.stores_of hl
  have hout := (h.nodup_middle_of hl).1
  -- The four cases are the four paths of the code: alone, last, first, in between.
  rcases eq_nil_or_concat pre with rfl | ⟨pre, a, rfl⟩ <;> rcases post with _ | ⟨b, post⟩
  · refine ⟨_, h.unlink_only hl, rfl, rfl, rfl, ?_⟩
    refine h.remove hl ⟨rfl, Ring.stores_nil, ?_, by simp, fun p hp => ⟨update_of_ne hp .., rfl⟩⟩
      (fun x _ => ⟨rfl, rfl, rfl, rfl⟩) rfl rfl
    simp [WaitQueues.setWaited, WaitQueues.setQueued]
  · have hmb : Ring.Adjacent q.links m b := hstores.adjacent_cons
    refine ⟨_, h.unlink_first hl, rfl, update_of_ne ?_ .., rfl, ?_⟩
    · rw [hmb.next]
      exact fun e => hout (by simp [e])
    refine h.remove hl ⟨rfl, hstores.unlinkFirst hout, by simpa [hl] using h.waited o, by simp,
      fun p hp => ⟨rfl, update_of_ne hp ..⟩⟩ (fun x hx => ?_) rfl rfl
    refine Ring.agree_unlinkFirst fun e => hx ?_
    rw [e, hmb.next, hl]
    simp
  · rw [concat_eq_append, append_assoc] at hl hstores
    rw [concat_eq_append, append_nil] at hout
    rw [concat_eq_append]
    obtain ⟨c, hc⟩ : ∃ c, (pre ++ [a]).head? = some c := by cases pre <;> simp
    have ham : Ring.Adjacent q.links a m := hstores.adjacent
    refine ⟨_, h.unlink_last hl hc, rfl, update_of_ne ?_ .., rfl, ?_⟩
    · exact fun e => hout (e ▸ mem_of_mem_head? hc)
    have hl' : L o = (pre ++ [a]) ++ m :: [] := by simp [hl]
    refine h.remove hl' ⟨rfl, ?_, by simpa [hl] using h.waited o, fun d hd => ?_,
      fun p hp => ⟨rfl, rfl⟩⟩ (fun x hx => ?_) rfl rfl
    · simpa using hstores.unlinkLast hc hout
    · refine h.first o d ?_
      rw [hl', head?_append, hc]
      simpa [hc] using hd
    · refine Ring.agree_unlinkLast (fun e => hx ?_) (fun e => hx ?_)
      · rw [e, hl']
        exact mem_append_left _ (mem_of_mem_head? hc)
      · rw [e, ham.prev, hl]
        simp
  · rw [concat_eq_append, append_assoc] at hl hstores
    rw [concat_eq_append] at hout ⊢
    have ham : Ring.Adjacent q.links a m := hstores.adjacent
    have hl' : L o = (pre ++ [a]) ++ m :: b :: post := by simp [hl]
    have hmb : Ring.Adjacent q.links m b := (h.stores_of hl').adjacent
    refine ⟨_, h.unlink_middle hl, rfl, update_of_ne ?_ .., rfl, ?_⟩
    · rw [hmb.next]
      exact fun e => hout (by simp [e])
    refine h.remove hl' ⟨rfl, ?_, by simpa [hl] using h.waited o, fun d hd => ?_,
      fun p hp => ⟨rfl, rfl⟩⟩ (fun x hx => ?_) rfl rfl
    · have hlinks := hstores.unlinkMiddle ?_
      · simpa using hlinks
      · exact not_or.1 fun hor => hout (mem_append.2 hor)
    · refine h.first o d ?_
      rw [hl]
      cases pre <;> simpa using hd
    · refine Ring.agree_unlinkMiddle (fun e => hx ?_) (fun e => hx ?_)
      · rw [e, ham.prev, hl]
        simp
      · rw [e, hmb.next, hl]
        simp

/-- **Unlink is removal**, from the one queue the messenger is on. -/
theorem unlink {reason : WaitReason} (hl : L o = pre ++ m :: post)
    (hreason : q.attached m = true ↔ reason = .futex) :
    ∃ q', objectWaitQueueUnlink q reason m = .ok q' ∧ q'.type = q.type ∧
      q'.links.prev m = q.links.prev m ∧ q'.attached = update q.attached m false ∧
      Represents q' (update L o (pre ++ post)) := by
  obtain ⟨q', hleave, htype, hprev, hattached, hq'⟩ := h.leave hl
  refine ⟨q'.setAttached m false, ?_, htype, hprev, by rw [← hattached]; rfl, hq'⟩
  rw [objectWaitQueueUnlink, hleave, ok_bind]
  by_cases hfutex : reason = .futex
  · have hin : q'.attached m = true := by rw [hattached]; exact hreason.2 hfutex
    rw [if_pos hfutex, futexWaiterListUnlink, require_of hin]
    rfl
  · have hout : q'.attached m = false := by
      rw [hattached]
      simpa using mt hreason.1 hfutex
    rw [if_neg hfutex, WaitQueues.setAttached, ← hout, update_eq_self]
    rfl

/-- A messenger that waits for a futex and is not on `futex_waiters` stops the kernel. -/
theorem unlink_detached (hl : L o = pre ++ m :: post) (hout : q.attached m = false) :
    objectWaitQueueUnlink q .futex m = .error .assertion := by
  obtain ⟨q', hleave, -, -, hattached, -⟩ := h.leave hl
  rw [objectWaitQueueUnlink, hleave, ok_bind, if_pos rfl, futexWaiterListUnlink,
    require_of_not (by simp [hattached, hout])]
  rfl

end Represents

/-! ### Sequences of operations -/

/-- The operations on wait queues. -/
inductive WaitOp
  | push (object messenger : ℕ)
  | enqueue (object messenger : ℕ)
  | unlink (messenger : ℕ)

namespace WaitOp

/-- What the code does, where the messengers have these reasons to wait. -/
def exec (reason : ℕ → WaitReason) (q : WaitQueues) : WaitOp → Except Fault WaitQueues
  | push object messenger => objectWaitQueuePush q object messenger
  | enqueue object messenger => objectWaitQueueEnqueue q object messenger
  | unlink messenger => objectWaitQueueUnlink q (reason messenger) messenger

/-- What the operation means for the lists: cons, append and removal. -/
def onLists (L : ℕ → List ℕ) : WaitOp → ℕ → List ℕ
  | push object messenger => update L object (messenger :: L object)
  | enqueue object messenger => update L object (L object ++ [messenger])
  | unlink messenger => fun o => (L o).erase messenger

/-- A messenger that is on no queue goes in, one that is on a queue comes out. -/
def Allowed (type : ℕ → Option CapType) (L : ℕ → List ℕ) : WaitOp → Prop
  | push object messenger | enqueue object messenger =>
    type object ≠ none ∧ type messenger = some .messenger ∧ ∀ o, messenger ∉ L o
  | unlink messenger => ∃ o, messenger ∈ L o

/-- Each operation of a sequence is allowed where its turn comes. -/
def AllAllowed (type : ℕ → Option CapType) : (ℕ → List ℕ) → List WaitOp → Prop
  | _, [] => True
  | L, op :: ops => op.Allowed type L ∧ AllAllowed type (op.onLists L) ops

/-- The messenger that an operation unlinks. -/
def unlinks : WaitOp → Option ℕ
  | unlink messenger => some messenger
  | _ => none

/-- **What the queues are for**: the sequence goes through without a failed assertion, the queues
then store the lists that cons, append and removal give, the four queries return the elements of
these lists, and nobody is on two of them. -/
def Refines (reason : ℕ → WaitReason) (q : WaitQueues) (L : ℕ → List ℕ) (ops : List WaitOp) :
    Prop :=
  ∃ q', ops.foldlM (exec reason) q = .ok q' ∧ Represents q' (ops.foldl onLists L) ∧
    (∀ o, objectWaitQueueHead q' o = .ok (ops.foldl onLists L o).head? ∧
      objectWaitQueueTail q' o = .ok (ops.foldl onLists L o).getLast?) ∧
    (∀ o m pre post, ops.foldl onLists L o = pre ++ m :: post →
      objectWaitQueueNext q' m = .ok post.head? ∧ objectWaitQueuePrev q' m = .ok pre.getLast?) ∧
    ∀ o o' m, m ∈ ops.foldl onLists L o → m ∈ ops.foldl onLists L o' → o = o'

variable {reason : ℕ → WaitReason} {op : WaitOp}

/-- One operation goes through and stores the lists it means, if the messenger it unlinks is on
`futex_waiters` when it waits for a futex. -/
theorem exec_represents (h : Represents q L)
    (hreason : ∀ m, q.attached m = true → reason m = .futex) (hop : op.Allowed q.type L)
    (hlisted : ∀ m ∈ op.unlinks, reason m = .futex → q.attached m = true) :
    ∃ q', op.exec reason q = .ok q' ∧ q'.type = q.type ∧
      (∀ m, q'.attached m = (q.attached m && decide (op.unlinks ≠ some m))) ∧
      Represents q' (op.onLists L) := by
  cases op with
  | push o m =>
    obtain ⟨q', hpush, htype, hattached, hq'⟩ := h.push hop.2.1 hop.1 hop.2.2
    exact ⟨q', hpush, htype, by simp [hattached, unlinks], hq'⟩
  | enqueue o m =>
    obtain ⟨q', henq, htype, hattached, hq'⟩ := h.enqueue hop.2.1 hop.1 hop.2.2
    exact ⟨q', henq, htype, by simp [hattached, unlinks], hq'⟩
  | unlink m =>
    obtain ⟨o, hm⟩ := hop
    obtain ⟨pre, post, hl⟩ := append_of_mem hm
    have hout : m ∉ pre := fun hpre => (h.nodup_middle_of hl).1 (mem_append_left _ hpre)
    have hlists : onLists L (unlink m) = update L o (pre ++ post) := by
      funext p
      rcases eq_or_ne p o with rfl | hp
      · simp [onLists, hl, erase_append_right _ hout]
      · rw [update_of_ne hp]
        exact erase_of_not_mem fun hmp => hp (h.disjoint p o m hmp hm)
    rw [hlists]
    obtain ⟨q', hunlink, htype, -, hattached, hq'⟩ := h.unlink hl ⟨hreason m, hlisted m rfl⟩
    refine ⟨q', hunlink, htype, fun x => ?_, hq'⟩
    rw [hattached, update_apply]
    by_cases hx : x = m
    · simp [unlinks, hx]
    · simp [unlinks, hx, Ne.symm hx]

/-- **Which sequences go through**: a messenger that waits for a futex is unlinked once at most, and
only if it is on `futex_waiters`. -/
theorem foldlM_represents_iff {ops : List WaitOp} (h : Represents q L)
    (hreason : ∀ m, q.attached m = true → reason m = .futex) (hops : AllAllowed q.type L ops) :
    (∃ q', ops.foldlM (exec reason) q = .ok q' ∧ Represents q' (ops.foldl onLists L)) ↔
      ∀ m, reason m = .futex → (ops.filterMap unlinks).count m ≤ (q.attached m).toNat := by
  induction ops generalizing q L with
  | nil => exact ⟨fun _ => by simp, fun _ => ⟨q, rfl, h⟩⟩
  | cons op ops ih =>
    have hcount (m : ℕ) : ((op :: ops).filterMap unlinks).count m =
        (ops.filterMap unlinks).count m + if op.unlinks = some m then 1 else 0 := by
      cases hop : op.unlinks with
      | none => simp [hop]
      | some x => simp [hop, count_cons]
    by_cases hlisted : ∀ m ∈ op.unlinks, reason m = .futex → q.attached m = true
    · obtain ⟨t, hexec, htype, hattached, ht⟩ := exec_represents h hreason hops.1 hlisted
      rw [foldlM_cons, hexec, ok_bind, foldl_cons, ih ht
        (fun m hm => hreason m (by rw [hattached] at hm; exact (Bool.and_eq_true_iff.1 hm).1))
        (by rw [htype]; exact hops.2)]
      refine forall_congr' fun m => imp_congr_right fun hm => ?_
      rw [hcount, hattached]
      by_cases hop : op.unlinks = some m
      · simp [hop, hlisted m hop hm]
      · simp [hop]
    · push Not at hlisted
      obtain ⟨m, hm, hfutex, hout⟩ := hlisted
      have hstop : op.exec reason q = .error .assertion := by
        cases op with
        | push | enqueue => cases hm
        | unlink x =>
          obtain rfl : x = m := Option.some.inj hm
          obtain ⟨o, hmem⟩ := hops.1
          obtain ⟨pre, post, hl⟩ := append_of_mem hmem
          rw [exec, hfutex]
          exact h.unlink_detached hl (by simpa using hout)
      constructor
      · rintro ⟨q', hrun, -⟩
        rw [foldlM_cons, hstop] at hrun
        cases hrun
      · intro hle
        have := hle m hfutex
        rw [hcount, if_pos (Option.mem_def.1 hm), Bool.eq_false_iff.2 hout] at this
        simp at this

end WaitOp

/-- **Wait queues refine lists**, from queues that store the lists `L`, in a sequence of pushes,
enqueues and unlinks if and only if each messenger that waits for a futex is unlinked once at most,
and only if it is on `futex_waiters`. -/
theorem waitQueues_refine_lists_iff {q : WaitQueues} {L : ℕ → List ℕ} {reason : ℕ → WaitReason}
    (h : Represents q L) (hreason : ∀ m, q.attached m = true → reason m = .futex)
    (ops : List WaitOp) (hops : WaitOp.AllAllowed q.type L ops) :
    WaitOp.Refines reason q L ops ↔
      ∀ m, reason m = .futex → (ops.filterMap WaitOp.unlinks).count m ≤ (q.attached m).toNat := by
  rw [← WaitOp.foldlM_represents_iff h hreason hops]
  constructor
  · rintro ⟨q', hrun, hq', -⟩
    exact ⟨q', hrun, hq'⟩
  · rintro ⟨q', hrun, hq'⟩
    exact ⟨q', hrun, hq', fun o => ⟨hq'.head_eq o, hq'.tail_eq o⟩,
      fun o m pre post hl => ⟨hq'.next_eq hl, hq'.prev_eq hl⟩, hq'.disjoint⟩

/-- Queues on which nobody waits, in a system of messengers; the links hold whatever was left in
them. -/
def noWaiters : WaitQueues where
  type _ := some .messenger
  waited _ := false
  first _ := 7
  queued _ := false
  links := ⟨fun _ => 7, fun _ => 7, fun _ => true, fun _ => true⟩
  attached _ := false

/-- Three messengers wait to transfer messages to two others, one of them a second time after it was
unlinked. -/
theorem waitQueues_refine_lists_three :
    WaitOp.Refines (fun _ => .transferMessage) noWaiters (fun _ => [])
      [.enqueue 0 1, .enqueue 0 2, .push 0 3, .unlink 1, .enqueue 2 1, .unlink 1] := by
  refine (waitQueues_refine_lists_iff (represents_nil (fun _ => rfl) (fun _ => rfl) fun _ => rfl)
    (by simp [noWaiters]) _ ?_).2 (by simp)
  simp only [WaitOp.AllAllowed, WaitOp.Allowed, WaitOp.onLists, noWaiters, and_true]
  refine ⟨by simp, ?_, ?_, ⟨0, by simp⟩, ?_, ⟨2, by simp⟩⟩ <;>
    refine ⟨by simp, trivial, fun o => ?_⟩ <;> by_cases ho : o = 0 <;> simp [ho]

/-- The messenger 1 waits on the object 4, and is on `futex_waiters`. -/
def futexWaiting : WaitQueues where
  type _ := some .messenger
  waited := update noWaiters.waited 4 true
  first := update noWaiters.first 4 1
  queued := update noWaiters.queued 1 true
  links := noWaiters.links.linkOnly 4 1
  attached := update noWaiters.attached 1 true

/-- **A waiter that was moved stops the kernel** when it is woken: `FUTEX_CMP_REQUEUE` moves the
messenger to the object 5, and `FUTEX_WAKE` unlinks it there. -/
theorem movedWaiter_stops :
    Represents futexWaiting (update (fun _ => []) 4 [1]) ∧
    WaitOp.AllAllowed futexWaiting.type (update (fun _ => []) 4 [1])
      [.unlink 1, .enqueue 5 1, .unlink 1] ∧
    [WaitOp.unlink 1, .enqueue 5 1, .unlink 1].foldlM (WaitOp.exec fun _ => .futex) futexWaiting =
      .error .assertion := by
  have hnone : Represents noWaiters fun _ => [] :=
    represents_nil (fun _ => rfl) (fun _ => rfl) fun _ => rfl
  have hone := hnone.insert_only (o := 4) (m := 1) rfl (by simp [noWaiters]) (by simp) rfl
  refine ⟨(hone.attach (o := 4) (by simp) rfl).2, ?_, rfl⟩
  refine ⟨⟨4, by simp⟩, ⟨by simp [futexWaiting], rfl, fun o => ?_⟩, ⟨5, ?_⟩, trivial⟩
  · by_cases ho : o = 4 <;> simp [WaitOp.onLists, ho]
  · simp [WaitOp.onLists]

end Viengoos
