import Viengoos.Ipc.Futex
import Viengoos.Lib.ByteMemory

/-!
# The words of futexes

The request `VG_futex` as a whole (`server.c`): it finds the pages, reads and writes the words at
their offsets, and wakes, moves or adds waiters. The kernel gets at a word by adding the offset to
the address of the page's frame, so the model has one physical memory, and a frame is a page of it.

Nothing asks whether the four bytes of a word lie in the frame the word begins in;
`futex_confined_iff` says which requests stay in the frames they name.
-/

namespace Viengoos

open Outcome

variable {W : Type}

/-! ### The arguments -/

/-- The operations of a futex request. -/
inductive FutexOperation
  | wait
  | wake
  | wakeOp
  | cmpRequeue
deriving DecidableEq, Repr

/-- The operation with a number; none means `ENOSYS`. -/
def FutexOperation.ofCode : ℕ → Option FutexOperation
  | 0 => some wait
  | 1 => some wake
  | 2 => some wakeOp
  | 3 => some cmpRequeue
  | _ => none

/-- The changes `FUTEX_WAKE_OP` can make to a word. -/
inductive FutexOp
  | set
  | add
  | or
  | andn
  | xor
deriving DecidableEq, Repr

/-- The comparisons `FUTEX_WAKE_OP` can make. -/
inductive FutexCmp
  | eq
  | ne
  | lt
  | le
  | gt
  | ge
deriving DecidableEq, Repr

namespace FutexOp

def ofCode : ℕ → Option FutexOp
  | 0 => some set
  | 1 => some add
  | 2 => some or
  | 3 => some andn
  | 4 => some xor
  | _ => none

/-- **What an operation is**: the new value of the word. -/
def apply (old arg : BitVec 32) : FutexOp → BitVec 32
  | set => arg
  | add => old + arg
  | or => old ||| arg
  | andn => old &&& ~~~arg
  | xor => old ^^^ arg

/-- What the server stores. -/
def stored (old arg : BitVec 32) : FutexOp → BitVec 32
  | set => arg
  | add => old + arg
  | or => old + arg
  | andn => old &&& ~~~arg
  | xor => old ^^^ arg

end FutexOp

namespace FutexCmp

def ofCode : ℕ → Option FutexCmp
  | 0 => some eq
  | 1 => some ne
  | 2 => some lt
  | 3 => some le
  | 4 => some gt
  | 5 => some ge
  | _ => none

/-- The comparison of two `int`s. -/
def holds (old arg : BitVec 32) : FutexCmp → Bool
  | eq => old == arg
  | ne => old != arg
  | lt => old.slt arg
  | le => old.sle arg
  | gt => arg.slt old
  | ge => arg.sle old

end FutexCmp

/-- `union futex_val3`: a value, or four bit-fields of type `int`. -/
abbrev FutexVal3 := BitVec 32

namespace FutexVal3

def cmparg (v : FutexVal3) : BitVec 32 := (v.extractLsb' 0 12).signExtend 32

def oparg (v : FutexVal3) : BitVec 32 := (v.extractLsb' 12 12).signExtend 32

/-- Bit-fields that hold a negative number name no comparison, nor do 6 and 7. -/
def cmp (v : FutexVal3) : Option FutexCmp := FutexCmp.ofCode (v.extractLsb' 24 4).toNat

def op (v : FutexVal3) : Option FutexOp := FutexOp.ofCode (v.extractLsb' 28 4).toNat

end FutexVal3

/-- The arguments of a futex request. -/
structure FutexArgs where
  addr1 : ℕ
  op : ℕ
  val1 : BitVec 32
  timeout : Bool
  val2 : BitVec 32
  addr2 : ℕ
  val3 : FutexVal3

namespace FutexArgs

def offset1 (r : FutexArgs) : ℕ := r.addr1 % pagesize

def offset2 (r : FutexArgs) : ℕ := r.addr2 % pagesize

end FutexArgs

/-- The error codes a futex request is answered with. The last two are those of `OBJECT`. -/
inductive FutexErrno
  | enosys
  | ewouldblock
  | einval
  | eagain
  | enoent
  | eperm
deriving DecidableEq, Repr

/-- The answer: an error, a number, or none before the messenger is woken. -/
inductive FutexReply
  | error (e : FutexErrno)
  | count (n : ℤ)
  | later
deriving DecidableEq, Repr

/-- The messengers and physical memory. -/
structure FutexState (W : Type) where
  ipc : Ipc W
  memory : ByteMemory
  /-- Ghost, which no code reads: the addresses of the bytes read or written so far. -/
  touched : List ℕ

/-! ### The code -/

namespace FutexState

/-- `*a`. -/
def word (s : FutexState W) (a : ℕ) : BitVec 32 := BitVec.ofNat 32 (s.memory.le a 4)

/-- The four bytes of an `int` are read. -/
def read (s : FutexState W) (a : ℕ) : FutexState W :=
  { s with touched := s.touched ++ List.range' a 4 }

/-- `*a = v`. -/
def write (s : FutexState W) (a : ℕ) (v : BitVec 32) : FutexState W :=
  { s with memory := s.memory.putLe a 4 v.toNat, touched := s.touched ++ List.range' a 4 }

/-- The word is read, and changed by the first `switch` of `FUTEX_WAKE_OP`. -/
def update (s : FutexState W) (a : ℕ) (v : FutexVal3) : FutexState W :=
  match v.op with
  | some op => (s.read a).write a (op.stored (s.word a) v.oparg)
  | none => s.read a

end FutexState

/-- The address of an offset in the frame of an object. Frames are numbered. -/
def vaddr (frame : ℕ → ℕ) (object offset : ℕ) : ℕ := frame object * pagesize + offset

section Code

variable (M : Machine W) (resolve : ℕ → Except FutexErrno ℕ) (frame : ℕ → ℕ) (fuel : ℕ)

/-- A call of `wake`. -/
def FutexState.wake (s : FutexState W) (toWake : ℤ) (object1 offset1 : ℕ) (toRequeue : ℤ)
    (object2 : Option ℕ) (offset2 : ℕ) : Except Fault ℤ × FutexState W :=
  match Viengoos.wake M fuel s.ipc toWake object1 offset1 toRequeue object2 offset2 with
  | .ok (ipc, count) => (.ok count, { s with ipc := ipc })
  | .error e => (.error e, s)

/-- The messenger that is to get the reply waits, and is put on `futex_waiters`. A null pointer is
written to. -/
def futexEnqueue (s : FutexState W) (object1 offset1 : ℕ) (reply : Option ℕ) :
    Except Fault FutexReply × FutexState W :=
  match reply with
  | none => (.error .assertion, s)
  | some m =>
    let ipc := s.ipc.modify m fun g => { g with waitReason := .futex, waitReasonArg := offset1 }
    match objectWaitQueueEnqueue ipc.queues object1 m with
    | .ok queues =>
      let s := { s with ipc := { ipc with queues := queues } }
      match futexWaiterListEnqueue queues m with
      | .ok queues => (.ok .later, { s with ipc := { ipc with queues := queues } })
      | .error e => (.error e, s)
    | .error e => (.error e, { s with ipc := ipc })

/-- `FUTEX_WAIT`. -/
def futexWait (r : FutexArgs) (reply : Option ℕ) (object1 : ℕ) (s : FutexState W) :
    Except Fault FutexReply × FutexState W :=
  let vaddr1 := vaddr frame object1 r.offset1
  let value := s.word vaddr1
  let s := s.read vaddr1
  if value ≠ r.val1 then (.ok (.error .ewouldblock), s)
  else if r.timeout then (.error .panic, s)
  else futexEnqueue s object1 r.offset1 reply

/-- `FUTEX_WAKE`. -/
def futexWake (r : FutexArgs) (object1 : ℕ) (s : FutexState W) :
    Except Fault FutexReply × FutexState W :=
  if r.val1.toInt ≤ 0 then (.ok (.error .einval), s)
  else
    let (count, s) := s.wake M fuel r.val1.toInt object1 r.offset1 0 none 0
    (count.map .count, s)

/-- The second call of `wake` in `FUTEX_WAKE_OP`, and the reply. -/
def futexWakeSecond (r : FutexArgs) (object2 : ℕ) (comparison : Bool) (s : FutexState W) :
    Except Fault FutexReply × FutexState W :=
  if comparison then
    let (count, s) := s.wake M fuel r.val2.toInt object2 r.offset2 0 none 0
    (count.map fun _ => .count 0, s)
  else (.ok (.count 0), s)

/-- The waking part of `FUTEX_WAKE_OP`. -/
def futexWakeBoth (r : FutexArgs) (object1 object2 : ℕ) (comparison : Bool) (s : FutexState W) :
    Except Fault FutexReply × FutexState W :=
  match s.wake M fuel 1 object1 r.offset1 0 none 0 with
  | (.error e, s) => (.error e, s)
  | (.ok _, s) => futexWakeSecond M fuel r object2 comparison s

/-- `FUTEX_WAKE_OP`. No case of the second `switch` may apply, and `comparison` then is whatever
was in its place before. -/
def futexWakeOp (junk : Bool) (r : FutexArgs) (object1 : ℕ) (s : FutexState W) :
    Except Fault FutexReply × FutexState W :=
  match resolve (r.addr2 / pagesize) with
  | .error e => (.ok (.error e), s)
  | .ok object2 =>
    let vaddr2 := vaddr frame object2 r.offset2
    let oldval := s.word vaddr2
    let s := s.update vaddr2 r.val3
    let comparison := (r.val3.cmp.map (·.holds oldval r.val3.cmparg)).getD junk
    futexWakeBoth M fuel r object1 object2 comparison s

/-- `FUTEX_CMP_REQUEUE`. -/
def futexCmpRequeue (r : FutexArgs) (object1 : ℕ) (s : FutexState W) :
    Except Fault FutexReply × FutexState W :=
  let vaddr1 := vaddr frame object1 r.offset1
  let value := s.word vaddr1
  let s := s.read vaddr1
  if value ≠ r.val3 then (.ok (.error .eagain), s)
  else
    match resolve (r.addr2 / pagesize) with
    | .error e => (.ok (.error e), s)
    | .ok object2 =>
      let (count, s) := s.wake M fuel r.val1.toInt object1 r.offset1 r.val2.toInt (some object2)
        r.offset2
      (count.map .count, s)

/-- The request `VG_futex`. `resolve` is `OBJECT` for the page with a number, `reply` the messenger
that is to get the reply. A fault leaves the state as it is then. -/
def futex (junk : Bool) (r : FutexArgs) (reply : Option ℕ) (s : FutexState W) :
    Except Fault FutexReply × FutexState W :=
  match FutexOperation.ofCode r.op with
  | none => (.ok (.error .enosys), s)
  | some op =>
    match resolve (r.addr1 / pagesize) with
    | .error e => (.ok (.error e), s)
    | .ok object1 =>
      match op with
      | .wait => futexWait frame r reply object1 s
      | .wake => futexWake M fuel r object1 s
      | .wakeOp => futexWakeOp M resolve frame fuel junk r object1 s
      | .cmpRequeue => futexCmpRequeue M resolve frame fuel r object1 s

end Code

/-! ### The bytes a request touches -/

variable {f : BitVec 32 → FutexState W → Except Fault FutexReply × FutexState W} {v : ℕ}

section Touched

open ByteMemory (InRange)

/-- **A part of a request touches one word**, or none: it reads and writes the bytes of the word
only, and what it does depends on the bytes of the word only. -/
structure Touches (w : Option ℕ)
    (f : FutexState W → Except Fault FutexReply × FutexState W) : Prop where
  touched : ∀ s a, a ∈ (f s).2.touched ↔ a ∈ s.touched ∨ ∃ v ∈ w, InRange v 4 a
  kept : ∀ s a, (∀ v ∈ w, ¬ InRange v 4 a) → (f s).2.memory a = s.memory a
  congr : ∀ s b, (∀ v ∈ w, ∀ a, InRange v 4 a → b a = s.memory a) →
    (f { s with memory := b }).1 = (f s).1 ∧ (f { s with memory := b }).2.ipc = (f s).2.ipc ∧
      ∀ v ∈ w, ∀ a, InRange v 4 a → (f { s with memory := b }).2.memory a = (f s).2.memory a

variable {M : Machine W} {resolve : ℕ → Except FutexErrno ℕ} {frame : ℕ → ℕ} {fuel : ℕ}
  {r : FutexArgs} {reply : Option ℕ} {object1 object2 : ℕ} {junk : Bool}

/-- A word is what its bytes are. -/
theorem FutexState.word_congr {s : FutexState W} {b : ByteMemory}
    (h : ∀ a, InRange v 4 a → b a = s.memory a) :
    ({ s with memory := b } : FutexState W).word v = s.word v := by
  rw [FutexState.word, FutexState.word, ByteMemory.le_congr h]

/-- A part that only handles waiters touches no word. -/
theorem Touches.of_ipc {f : FutexState W → Except Fault FutexReply × FutexState W}
    (g : Ipc W → Except Fault FutexReply × Ipc W)
    (h : ∀ s, f s = ((g s.ipc).1, { s with ipc := (g s.ipc).2 })) : Touches none f where
  touched s a := by simp [h]
  kept s a _ := by simp [h]
  congr s b _ := by simp [h]

/-- Reading a word before a part that touches none. -/
theorem Touches.read
    (hf : ∀ x, Touches none (f x)) : Touches (some v) fun s => f (s.word v) (s.read v) where
  touched s a := by
    rw [(hf _).touched]
    simp [FutexState.read, InRange]
  kept s a _ := by
    rw [(hf _).kept _ _ (by simp)]
    rfl
  congr s b hb := by
    have hword := FutexState.word_congr (hb v rfl)
    obtain ⟨hreply, hipc, -⟩ := (hf (s.word v)).congr (s.read v) b (by simp)
    rw [hword]
    refine ⟨hreply, hipc, ?_⟩
    rintro _ ⟨⟩ a ha
    rw [(hf _).kept _ _ (by simp), (hf _).kept _ _ (by simp)]
    exact hb v rfl a ha

/-- The same for a word that is read and changed. -/
theorem Touches.update {v3 : FutexVal3} (hf : ∀ x, Touches none (f x)) :
    Touches (some v) fun s => f (s.word v) (s.update v v3) where
  touched s a := by
    rw [(hf _).touched]
    unfold FutexState.update
    split <;> simp [FutexState.read, FutexState.write, InRange]
  kept s a ha := by
    rw [(hf _).kept _ _ (by simp)]
    unfold FutexState.update
    split
    · exact ByteMemory.putLe_of_not (ha v rfl)
    · rfl
  congr s b hb := by
    have hword := FutexState.word_congr (hb v rfl)
    have hmem : ∀ a, InRange v 4 a →
        (({ s with memory := b } : FutexState W).update v v3).memory a =
          (s.update v v3).memory a := by
      intro a ha
      unfold FutexState.update
      split
      · simp only [FutexState.write, ByteMemory.putLe, if_pos ha, hword]
      · exact hb v rfl a ha
    have hstate : ({ s with memory := b } : FutexState W).update v v3 =
        { s.update v v3 with
          memory := (({ s with memory := b } : FutexState W).update v v3).memory } := by
      unfold FutexState.update
      split <;> rfl
    obtain ⟨hreply, hipc, -⟩ := (hf (s.word v)).congr (s.update v v3) 
      (({ s with memory := b } : FutexState W).update v v3).memory (by simp)
    rw [hword, hstate]
    refine ⟨hreply, hipc, ?_⟩
    rintro _ ⟨⟩ a ha
    rw [(hf _).kept _ _ (by simp), (hf _).kept _ _ (by simp)]
    exact hmem a ha

theorem touches_reply (x : Except Fault FutexReply) : Touches none fun s : FutexState W => (x, s) :=
  .of_ipc (fun ipc => (x, ipc)) fun _ => rfl

theorem touches_wake (k : Except Fault ℤ → Except Fault FutexReply) (toWake : ℤ) (o₁ off₁ : ℕ)
    (toRequeue : ℤ) (o₂ : Option ℕ) (off₂ : ℕ) : Touches none fun s : FutexState W =>
      (k (s.wake M fuel toWake o₁ off₁ toRequeue o₂ off₂).1,
        (s.wake M fuel toWake o₁ off₁ toRequeue o₂ off₂).2) := by
  refine .of_ipc (fun ipc => match Viengoos.wake M fuel ipc toWake o₁ off₁ toRequeue o₂ off₂ with
    | .ok (ipc, count) => (k (.ok count), ipc)
    | .error e => (k (.error e), ipc)) fun s => ?_
  unfold FutexState.wake
  cases Viengoos.wake M fuel s.ipc toWake o₁ off₁ toRequeue o₂ off₂ <;> rfl

theorem touches_futexEnqueue (object1 offset1 : ℕ) (reply : Option ℕ) :
    Touches none fun s : FutexState W => futexEnqueue s object1 offset1 reply := by
  refine .of_ipc (fun ipc => ((futexEnqueue ⟨ipc, fun _ => 0, []⟩ object1 offset1 reply).1,
    (futexEnqueue ⟨ipc, fun _ => 0, []⟩ object1 offset1 reply).2.ipc)) fun s => ?_
  unfold futexEnqueue
  cases reply with
  | none => rfl
  | some m =>
    dsimp only
    cases objectWaitQueueEnqueue _ object1 m with
    | error e => rfl
    | ok queues =>
      dsimp only
      cases futexWaiterListEnqueue queues m <;> rfl

theorem touches_futexWait :
    Touches (some (vaddr frame object1 r.offset1)) (futexWait (W := W) frame r reply object1) := by
  refine Touches.read (f := fun value s =>
    if value ≠ r.val1 then (.ok (.error .ewouldblock), s)
    else if r.timeout then (.error .panic, s)
    else futexEnqueue s object1 r.offset1 reply) fun x => ?_
  by_cases hx : x ≠ r.val1
  · simp only [if_pos hx]
    exact touches_reply _
  · by_cases ht : r.timeout = true
    · simp only [if_neg hx, if_pos ht]
      exact touches_reply _
    · simp only [if_neg hx, if_neg ht]
      exact touches_futexEnqueue object1 r.offset1 reply

theorem touches_futexWake : Touches none (futexWake (W := W) M fuel r object1) := by
  unfold futexWake
  by_cases h : r.val1.toInt ≤ 0
  · simp only [if_pos h]
    exact touches_reply _
  · simp only [if_neg h]
    exact touches_wake (Except.map .count) _ _ _ _ _ _

theorem touches_futexCmpRequeue (h2 : resolve (r.addr2 / pagesize) = .ok object2) :
    Touches (some (vaddr frame object1 r.offset1))
      (futexCmpRequeue (W := W) M resolve frame fuel r object1) := by
  unfold futexCmpRequeue
  simp only [h2]
  refine Touches.read (f := fun value s =>
    if value ≠ r.val3 then (.ok (.error .eagain), s)
    else ((s.wake M fuel r.val1.toInt object1 r.offset1 r.val2.toInt (some object2)
        r.offset2).1.map .count,
      (s.wake M fuel r.val1.toInt object1 r.offset1 r.val2.toInt (some object2) r.offset2).2))
    fun x => ?_
  by_cases hx : x ≠ r.val3
  · simp only [if_pos hx]
    exact touches_reply _
  · simp only [if_neg hx]
    exact touches_wake (Except.map .count) _ _ _ _ _ _

theorem touches_futexWakeBoth (comparison : Bool) :
    Touches none (futexWakeBoth (W := W) M fuel r object1 object2 comparison) := by
  refine .of_ipc (fun ipc => match Viengoos.wake M fuel ipc 1 object1 r.offset1 0 none 0 with
    | .error e => (.error e, ipc)
    | .ok (ipc, _) =>
      ((futexWakeSecond M fuel r object2 comparison ⟨ipc, fun _ => 0, []⟩).1,
        (futexWakeSecond M fuel r object2 comparison ⟨ipc, fun _ => 0, []⟩).2.ipc)) fun s => ?_
  simp only [futexWakeBoth, FutexState.wake]
  cases Viengoos.wake M fuel s.ipc 1 object1 r.offset1 0 none 0 with
  | error e => rfl
  | ok x =>
    simp only [futexWakeSecond, FutexState.wake]
    cases comparison with
    | false => rfl
    | true =>
      cases Viengoos.wake M fuel x.1 r.val2.toInt object2 r.offset2 0 none 0 <;> rfl

theorem touches_futexWakeOp (h2 : resolve (r.addr2 / pagesize) = .ok object2) :
    Touches (some (vaddr frame object2 r.offset2))
      (futexWakeOp (W := W) M resolve frame fuel junk r object1) := by
  unfold futexWakeOp
  simp only [h2]
  exact Touches.update (f := fun oldval => futexWakeBoth M fuel r object1 object2
    ((r.val3.cmp.map (·.holds oldval r.val3.cmparg)).getD junk)) fun _ => touches_futexWakeBoth _

/-- The word a request reads, and perhaps writes: its object and the offset. -/
def FutexArgs.word (r : FutexArgs) (object1 object2 : ℕ) : Option (ℕ × ℕ) :=
  match FutexOperation.ofCode r.op with
  | some .wait | some .cmpRequeue => some (object1, r.offset1)
  | some .wakeOp => some (object2, r.offset2)
  | some .wake | none => none

/-- **A request touches the word it is about**, and nothing else. -/
theorem touches_futex (h1 : resolve (r.addr1 / pagesize) = .ok object1)
    (h2 : resolve (r.addr2 / pagesize) = .ok object2) :
    Touches ((r.word object1 object2).map fun w => vaddr frame w.1 w.2)
      (futex (W := W) M resolve frame fuel junk r reply) := by
  unfold futex FutexArgs.word
  cases FutexOperation.ofCode r.op with
  | none => exact touches_reply _
  | some op =>
    simp only [h1]
    cases op with
    | wait => exact touches_futexWait
    | wake => exact touches_futexWake
    | wakeOp => exact touches_futexWakeOp h2
    | cmpRequeue => exact touches_futexCmpRequeue h2

/-- The bytes of a word lie in two frames given, exactly if the word ends in the frame it begins in,
or the frame behind that one is given as well. -/
theorem word_in_frames_iff {f g h offset : ℕ} (hoffset : offset < pagesize) (hf : f = g ∨ f = h) :
    (∀ a, InRange (f * pagesize + offset) 4 a → a / pagesize = g ∨ a / pagesize = h) ↔
      offset + 4 ≤ pagesize ∨ f + 1 = g ∨ f + 1 = h := by
  unfold pagesize at *
  constructor
  · intro hall
    by_contra hcross
    have := hall (f * 4096 + offset + 3) ⟨by omega, by omega⟩
    omega
  · rintro hfits a ⟨hle, hlt⟩
    omega

end Touched

/-- **What a request may touch**: the frames of the two objects. -/
def Confined (frame : ℕ → ℕ) (object1 object2 : ℕ) (touched : List ℕ) : Prop :=
  ∀ a ∈ touched, a / pagesize = frame object1 ∨ a / pagesize = frame object2

/-- The word of a request ends in the frame it begins in, or the frame behind that one is the one
of the other object. -/
def FutexArgs.Fits (r : FutexArgs) (frame : ℕ → ℕ) (object1 object2 : ℕ) : Prop :=
  ∀ w ∈ r.word object1 object2,
    w.2 + 4 ≤ pagesize ∨ frame w.1 + 1 = frame object1 ∨ frame w.1 + 1 = frame object2

/-- **The memory of a futex request.** Whatever the request and the state, if its addresses resolve
to pages then the bytes it touches lie in the frames of these pages exactly if its word fits. Bytes
it does not touch keep their values, and no byte that it does not touch has an influence on its
reply, on the messengers or on the bytes it touches. -/
theorem futex_confined_iff (M : Machine W) (resolve : ℕ → Except FutexErrno ℕ) (frame : ℕ → ℕ)
    (fuel : ℕ) (junk : Bool) (r : FutexArgs) (reply : Option ℕ) (ipc : Ipc W) (memory : ByteMemory)
    {object1 object2 : ℕ} (h1 : resolve (r.addr1 / pagesize) = .ok object1)
    (h2 : resolve (r.addr2 / pagesize) = .ok object2) :
    let run := fun memory => futex M resolve frame fuel junk r reply ⟨ipc, memory, []⟩
    (Confined frame object1 object2 (run memory).2.touched ↔ r.Fits frame object1 object2) ∧
      (∀ a ∉ (run memory).2.touched, (run memory).2.memory a = memory a) ∧
      ∀ memory', (∀ a ∈ (run memory).2.touched, memory' a = memory a) →
        (run memory').1 = (run memory).1 ∧ (run memory').2.ipc = (run memory).2.ipc ∧
          ∀ a ∈ (run memory).2.touched, (run memory').2.memory a = (run memory).2.memory a := by
  intro run
  have ht : Touches _ (futex M resolve frame fuel junk r reply) := touches_futex h1 h2
  have hmem : ∀ a, a ∈ (run memory).2.touched ↔
      ∃ w ∈ r.word object1 object2, ByteMemory.InRange (vaddr frame w.1 w.2) 4 a := by
    intro a
    rw [ht.touched]
    simp
  refine ⟨?_, fun a ha => ht.kept _ a fun v hv hin => ?_, fun memory' hm => ?_⟩
  · unfold Confined FutexArgs.Fits
    simp only [hmem]
    rcases hw : r.word object1 object2 with _ | ⟨o, offset⟩
    · simp
    · have hoffset : offset < pagesize ∧ (o = object1 ∨ o = object2) := by
        unfold FutexArgs.word at hw
        have hmod : ∀ x, x % pagesize < pagesize := fun x => Nat.mod_lt x (by decide)
        split at hw <;> cases hw
        · exact ⟨hmod _, .inl rfl⟩
        · exact ⟨hmod _, .inl rfl⟩
        · exact ⟨hmod _, .inr rfl⟩
      have hf : frame o = frame object1 ∨ frame o = frame object2 :=
        hoffset.2.imp (congrArg frame) (congrArg frame)
      simpa [vaddr] using word_in_frames_iff hoffset.1 hf
  · obtain ⟨w, hw, rfl⟩ := Option.map_eq_some_iff.1 hv
    exact ha ((hmem a).2 ⟨w, hw, hin⟩)
  · have hin : ∀ v ∈ (r.word object1 object2).map fun w => vaddr frame w.1 w.2, ∀ a,
        ByteMemory.InRange v 4 a → a ∈ (run memory).2.touched := by
      rintro v hv a ha
      obtain ⟨w, hw, rfl⟩ := Option.map_eq_some_iff.1 hv
      exact (hmem a).2 ⟨w, hw, ha⟩
    obtain ⟨hreply, hipc, hbytes⟩ := ht.congr ⟨ipc, memory, []⟩ memory' fun v hv a ha =>
      hm a (hin v hv a ha)
    refine ⟨hreply, hipc, fun a ha => ?_⟩
    obtain ⟨w, hw, hrange⟩ := (hmem a).1 ha
    exact hbytes _ (Option.map_eq_some_iff.2 ⟨w, hw, rfl⟩) a hrange

/-- A request whose second word begins at an offset of the page 4: store -1 there, and wake if the
word was 1. -/
def storeAt (offset : ℕ) : FutexArgs where
  addr1 := 4 * pagesize + 16
  op := 2
  val1 := 1
  timeout := false
  val2 := 1
  addr2 := 4 * pagesize + offset
  val3 := 0x00fff001

theorem futex_confined_storeAt :
    Confined id 4 4
      (futex threadless .ok id 8 false (storeAt 16) none
        ⟨twoWaiters, fun _ => 0, []⟩).2.touched := by
  refine (futex_confined_iff threadless .ok id 8 false (storeAt 16) none twoWaiters (fun _ => 0)
    rfl rfl).1.2 ?_
  rintro w hw
  obtain rfl : (4, 16) = w := Option.some.inj hw
  exact .inl (by decide)

/-- At the offset 4094 the request changes the first two bytes of the next frame. -/
theorem futex_not_confined :
    ¬ Confined id 4 4
        (futex threadless .ok id 8 false (storeAt 4094) none
          ⟨twoWaiters, fun _ => 0, []⟩).2.touched ∧
      (futex threadless .ok id 8 false (storeAt 4094) none
        ⟨twoWaiters, fun _ => 0, []⟩).2.memory (5 * pagesize + 1) = 0xff := by
  constructor
  · intro h
    have := h (5 * pagesize) (by decide)
    simp [pagesize] at this
  · decide

/-! ### The calls of `wake` -/

/-- The call of `wake` with these arguments. -/
def WakeArgs.call (M : Machine W) (fuel : ℕ) (s : Ipc W) (a : WakeArgs) : Except Fault (Ipc W) :=
  (wake M fuel s a.toWake a.object1 a.offset1 a.toRequeue a.object2 a.offset2).map Prod.fst

/-- The calls of `wake` that a request makes, one after the other. -/
def FutexArgs.calls (r : FutexArgs) (frame : ℕ → ℕ) (junk : Bool) (s : FutexState W)
    (object1 object2 : ℕ) : List WakeArgs :=
  match FutexOperation.ofCode r.op with
  | some .wake =>
    if r.val1.toInt ≤ 0 then [] else [⟨r.val1.toInt.toNat, object1, r.offset1, 0, none, 0⟩]
  | some .wakeOp =>
    let oldval := s.word (vaddr frame object2 r.offset2)
    ⟨1, object1, r.offset1, 0, none, 0⟩ ::
      if (r.val3.cmp.map (·.holds oldval r.val3.cmparg)).getD junk then
        [⟨r.val2.toInt.toNat, object2, r.offset2, 0, none, 0⟩]
      else []
  | some .cmpRequeue =>
    if s.word (vaddr frame object1 r.offset1) ≠ r.val3 then []
    else [⟨r.val1.toInt.toNat, object1, r.offset1, r.val2.toInt.toNat, some object2, r.offset2⟩]
  | some .wait | none => []

section Calls

variable {M : Machine W} {resolve : ℕ → Except FutexErrno ℕ} {frame : ℕ → ℕ} {fuel : ℕ}
  {junk : Bool} {r : FutexArgs} {reply : Option ℕ} {s : FutexState W} {ipc' : Ipc W}
  {object1 object2 : ℕ}

/-- The messengers after one call. -/
theorem FutexState.wake_of_call {toWake toRequeue offset1 offset2 : ℕ}
    {object2 : Option ℕ} (h : WakeArgs.call M fuel s.ipc
      ⟨toWake, object1, offset1, toRequeue, object2, offset2⟩ = .ok ipc') :
    ∃ n, s.wake M fuel toWake object1 offset1 toRequeue object2 offset2 =
      (.ok n, { s with ipc := ipc' }) := by
  unfold WakeArgs.call at h
  unfold FutexState.wake
  cases hw : Viengoos.wake M fuel s.ipc toWake object1 offset1 toRequeue object2 offset2 with
  | error e =>
    simp only [hw] at h
    cases h
  | ok x =>
    simp only [hw] at h
    obtain rfl := Except.ok.inj h
    exact ⟨x.2, rfl⟩

/-- **A request makes these calls**: where they return, the messengers are as they leave them. -/
theorem futex_ipc (h1 : resolve (r.addr1 / pagesize) = .ok object1)
    (h2 : resolve (r.addr2 / pagesize) = .ok object2)
    (hr : FutexOperation.ofCode r.op ≠ some .wait)
    (hval1 : 0 ≤ r.val1.toInt) (hval2 : 0 ≤ r.val2.toInt)
    (hcalls : (r.calls frame junk s object1 object2).foldlM (WakeArgs.call M fuel) s.ipc =
      .ok ipc') :
    (futex M resolve frame fuel junk r reply s).2.ipc = ipc' := by
  have hcast1 := Int.toNat_of_nonneg hval1
  have hcast2 := Int.toNat_of_nonneg hval2
  cases hop : FutexOperation.ofCode r.op with
  | none =>
    simp only [FutexArgs.calls, hop] at hcalls
    simp only [futex, hop]
    exact pure_eq_ok.1 hcalls
  | some op =>
    simp only [futex, hop, h1]
    cases op with
    | wait => exact absurd hop hr
    | wake =>
      simp only [FutexArgs.calls, hop] at hcalls
      simp only [futexWake]
      split at hcalls
      · next hle =>
        rw [if_pos hle]
        exact pure_eq_ok.1 hcalls
      · next hle =>
        simp only [List.foldlM_cons, List.foldlM_nil, bind_pure] at hcalls
        obtain ⟨n, hwake⟩ := FutexState.wake_of_call hcalls
        rw [hcast1, Nat.cast_zero] at hwake
        rw [if_neg hle, hwake]
    | wakeOp =>
      simp only [FutexArgs.calls, hop, List.foldlM_cons] at hcalls
      simp only [futexWakeOp, h2, futexWakeBoth, futexWakeSecond]
      obtain ⟨t, hfirst, hcalls⟩ := bind_eq_ok.1 hcalls
      -- The word is changed before the calls, which do not depend on it.
      have hupdate : (s.update (vaddr frame object2 r.offset2) r.val3).ipc = s.ipc := by
        unfold FutexState.update
        split <;> rfl
      rw [← hupdate] at hfirst
      obtain ⟨n, hwake⟩ := FutexState.wake_of_call hfirst
      rw [Nat.cast_one, Nat.cast_zero] at hwake
      rw [hwake]
      split at hcalls
      · next hcmp =>
        simp only [List.foldlM_cons, List.foldlM_nil, bind_pure] at hcalls
        obtain ⟨n', hwake'⟩ := FutexState.wake_of_call
          (s := { s.update (vaddr frame object2 r.offset2) r.val3 with ipc := t }) hcalls
        rw [hcast2, Nat.cast_zero] at hwake'
        simp only [if_pos hcmp, hwake']
      · next hcmp =>
        simp only [if_neg hcmp]
        exact pure_eq_ok.1 hcalls
    | cmpRequeue =>
      simp only [FutexArgs.calls, hop] at hcalls
      simp only [futexCmpRequeue, h2]
      split at hcalls
      · next hne =>
        rw [if_pos hne]
        exact pure_eq_ok.1 hcalls
      · next hne =>
        simp only [List.foldlM_cons, List.foldlM_nil, bind_pure] at hcalls
        obtain ⟨n, hwake⟩ := FutexState.wake_of_call
          (s := s.read (vaddr frame object1 r.offset1)) hcalls
        rw [hcast1, hcast2] at hwake
        rw [if_neg hne, hwake]

/-- A request whose addresses resolve to pages makes valid calls. -/
theorem FutexArgs.calls_valid {type : ℕ → Option CapType} {a : WakeArgs}
    (hpage1 : type object1 = some .page) (hpage2 : type object2 = some .page)
    (ha : a ∈ r.calls frame junk s object1 object2) : a.Valid type := by
  simp only [FutexArgs.calls] at ha
  split at ha
  · split_ifs at ha
    · cases ha
    · obtain rfl := List.mem_singleton.1 ha
      exact ⟨hpage1, by simp, by simp⟩
  · rcases List.mem_cons.1 ha with rfl | ha
    · exact ⟨hpage1, by simp, by simp⟩
    · split_ifs at ha
      · obtain rfl := List.mem_singleton.1 ha
        exact ⟨hpage2, by simp, by simp⟩
      · cases ha
  · split_ifs at ha
    · cases ha
    · obtain rfl := List.mem_singleton.1 ha
      refine ⟨hpage1, fun p hp => ?_, fun _ => ⟨object2, rfl⟩⟩
      rw [← Option.some.inj hp]
      exact hpage2
  · cases ha
  · cases ha

end Calls

/-- `FUTEX_CMP_REQUEUE` from the futex at offset 16 of the page 4 to the one at offset 8 of the page
5: wake the first waiter and move the second. -/
def requeueOne : FutexArgs where
  addr1 := 4 * pagesize + 16
  op := 3
  val1 := 1
  timeout := false
  val2 := 1
  addr2 := 5 * pagesize + 8
  val3 := 0

end Viengoos
