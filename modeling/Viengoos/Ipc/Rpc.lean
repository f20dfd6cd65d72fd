import Viengoos.Ipc.Layout
import Viengoos.Lib.Outcome

/-!
# Remote procedure calls: encoding and decoding messages

The functions that the `RPC` macros generate for a method, over its list of argument types: an
argument is a capability address (`cap_t`) or a piece of data of some size, which travels as a whole
number of words. The macros recurse on the list; so do `rpcLoad` and `rpcStore`.

A message is a page, as the memory that starts where the page starts. Reading a word or a
capability faults when the accessor's assertion fails, and when the bytes lie outside of the page.

The main result of this module says which pages the server and the unmarshallers read safely
(`decoding_safe_iff`): the accessors assert on the counts as the sender stored them, the callers
check the clamped ones or none at all.
-/

namespace Viengoos

namespace Rpc

open Outcome Message

/-! ### Accessors -/

/-- What must not happen while a message is encoded or decoded. -/
inductive Fault
  | assertion
  | outside
deriving DecidableEq, Repr

/-- `uintptr_t`. -/
abbrev Word := BitVec 32

/-- The word at index `i` of the data area. -/
def word (msg : ByteMemory) (i : ℕ) : Word :=
  .ofNat 32 (msg.le (vgMessageData msg + i * wordSize) wordSize)

/-- `vg_message_word`. -/
def vgMessageWord (msg : ByteMemory) (i : ℕ) : Except Fault Word := do
  require (i < dataCount msg / wordSize) .assertion
  require (vgMessageData msg + i * wordSize + wordSize ≤ pagesize) .outside
  pure (word msg i)

/-- `vg_message_cap`. -/
def vgMessageCap (msg : ByteMemory) (idx : ℕ) : Except Fault VgAddr := do
  require (idx < capCount msg) .assertion
  require (capOffset idx + addrSize ≤ pagesize) .outside
  pure (cap msg idx)

/-- `vg_message_clear`. -/
def vgMessageClear (msg : ByteMemory) : ByteMemory := (msg.putLe 0 2 0).putLe 2 2 0

/-- `vg_message_append_caps`, for an array of `n` addresses. -/
def vgMessageAppendCaps (msg : ByteMemory) (n : ℕ) (caps : ByteMemory) :
    Except Fault ByteMemory := do
  require (vgMessageData msg + vgMessageDataCount msg + n * addrSize ≤ pagesize) .assertion
  let moved := msg.blit (capOffset (capCount msg + n)) msg (capOffset (capCount msg))
    (dataCount msg)
  let filled := moved.blit (capOffset (capCount msg)) caps 0 (n * addrSize)
  pure (filled.putLe 0 2 (capCount msg + n))

/-- `vg_message_append_cap`. -/
def vgMessageAppendCap (msg : ByteMemory) (addr : VgAddr) : Except Fault ByteMemory :=
  vgMessageAppendCaps msg 1 (ByteMemory.putLe (fun _ => 0) 0 addrSize addr.raw)

/-- `vg_message_append_data`. -/
def vgMessageAppendData (msg : ByteMemory) (bytes : ℕ) (data : ByteMemory) :
    Except Fault ByteMemory := do
  let dend := capOffset (capCount msg) + dataCount msg
  require (dend + bytes ≤ pagesize) .assertion
  pure ((msg.putLe 2 2 (dataCount msg + bytes)).blit dend data 0 bytes)

/-- `vg_message_append_word`. -/
def vgMessageAppendWord (msg : ByteMemory) (w : Word) : Except Fault ByteMemory :=
  vgMessageAppendData msg wordSize (ByteMemory.putLe (fun _ => 0) 0 wordSize w.toNat)

/-! ### Arguments -/

/-- The type of an argument. -/
inductive ArgType
  | cap
  | data (size : ℕ)
deriving DecidableEq

/-- An argument. -/
inductive Value
  | cap (addr : VgAddr)
  | data (bytes : List (BitVec 8))
deriving DecidableEq

def Value.type : Value → ArgType
  | .cap _ => .cap
  | .data bytes => .data bytes.length

/-- The words that an argument takes up: `sizeof` of the union of the argument with an array of
words, in words. -/
def ArgType.words : ArgType → ℕ
  | .cap => 0
  | .data size => (size + wordSize - 1) / wordSize

/-- The capabilities that an argument takes up. -/
def ArgType.caps : ArgType → ℕ
  | .cap => 1
  | .data _ => 0

def totalWords (ts : List ArgType) : ℕ := (ts.map ArgType.words).sum

def totalCaps (ts : List ArgType) : ℕ := (ts.map ArgType.caps).sum

/-- The label of a method. The labels in the headers start at 100. -/
structure MethodId where
  value : Word
  nonzero : value ≠ 0

/-! ### Encoding -/

/-- The union in which a piece of data is cut into words: its bytes, and what the stack held. -/
def rawData (junk : ByteMemory) (bytes : List (BitVec 8)) : ByteMemory := fun i =>
  (bytes[i]?).getD (junk i)

/-- `RPCLOADARG`. -/
def rpcLoadArg (junk msg : ByteMemory) : Value → Except Fault ByteMemory
  | .cap addr => vgMessageAppendCap msg addr
  | .data bytes =>
    (List.range (ArgType.data bytes.length).words).foldlM (fun msg i =>
      vgMessageAppendWord msg (.ofNat 32 ((rawData junk bytes).le (i * wordSize) wordSize))) msg

/-- `RPCLOAD`. -/
def rpcLoad (junk msg : ByteMemory) (args : List Value) : Except Fault ByteMemory :=
  args.foldlM (rpcLoadArg junk) msg

/-- `RPC_SEND_MARSHAL`. -/
def sendMarshal (junk : ByteMemory) (id : MethodId) (args : List Value) (reply : VgAddr)
    (msg : ByteMemory) : Except Fault ByteMemory := do
  let msg ← vgMessageAppendWord (vgMessageClear msg) id.value
  let msg ← vgMessageAppendCap msg reply
  rpcLoad junk msg args

/-- `RPC_REPLY_MARSHAL`: a method returns data, and then capabilities. -/
def replyMarshal (junk : ByteMemory) (outs : List (List (BitVec 8))) (rets : List VgAddr)
    (msg : ByteMemory) : Except Fault ByteMemory := do
  let msg ← vgMessageAppendWord (vgMessageClear msg) 0
  let msg ← rpcLoad junk msg (outs.map .data ++ rets.map .cap)
  require (vgMessageCapCount msg = rets.length) .assertion
  pure msg

/-! ### Decoding -/

/-- A parameter of an unmarshaller: a pointer to an object of some type, which may be null. -/
structure Param where
  type : ArgType
  wanted : Bool
deriving DecidableEq

/-- The local variables of an unmarshaller, and what it stored through each of its parameters so
far. -/
structure Cursor where
  dataIdx : ℕ
  capIdx : ℕ
  err : Bool
  stored : List (Option Value)
deriving DecidableEq

/-- One round of the loop in `RPCSTOREARG` that fetches the words of a piece of data. -/
def rpcStoreWord (msg : ByteMemory) (s : Cursor × ByteMemory) (i : ℕ) :
    Except Fault (Cursor × ByteMemory) :=
  if s.1.dataIdx < vgMessageDataCount msg / wordSize then do
    let w ← vgMessageWord msg s.1.dataIdx
    pure ({ s.1 with dataIdx := s.1.dataIdx + 1 }, s.2.putLe (i * wordSize) wordSize w.toNat)
  else
    pure ({ s.1 with err := true }, s.2)

/-- `RPCSTOREARG`. A capability is stored even when an earlier argument was missing. -/
def rpcStoreArg (junk msg : ByteMemory) (c : Cursor) (p : Param) : Except Fault Cursor :=
  match p.type with
  | .cap =>
    if c.capIdx < vgMessageCapCount msg then
      if p.wanted then do
        let addr ← vgMessageCap msg c.capIdx
        pure { c with capIdx := c.capIdx + 1, stored := c.stored ++ [some (.cap addr)] }
      else
        pure { c with capIdx := c.capIdx + 1, stored := c.stored ++ [none] }
    else
      pure { c with err := true, stored := c.stored ++ [none] }
  | .data size => do
    let (c, raw) ← (List.range (ArgType.data size).words).foldlM (rpcStoreWord msg) (c, junk)
    let value := if !c.err && p.wanted then some (.data ((List.range size).map raw)) else none
    pure { c with stored := c.stored ++ [value] }

/-- `RPCSTORE`. -/
def rpcStore (junk msg : ByteMemory) (params : List Param) (c : Cursor) : Except Fault Cursor :=
  params.foldlM (rpcStoreArg junk msg) c

/-- Why an unmarshaller returns an error: `EINVAL`, or the error code in a reply. -/
inductive Error
  | einval
  | server (code : Word)
deriving DecidableEq

/-- What an unmarshaller stored. -/
structure Decoded where
  reply : Option VgAddr
  stored : List (Option Value)
deriving DecidableEq

/-- The label of a request, 0 if there is none. -/
def readLabel (msg : ByteMemory) : Except Fault Word :=
  if wordSize ≤ vgMessageDataCount msg then vgMessageWord msg 0 else pure 0

/-- The first capability, if it is asked for. -/
def readReply (wanted : Bool) (msg : ByteMemory) : Except Fault (Option VgAddr) :=
  if wanted then some <$> vgMessageCap msg 0 else pure none

/-- `RPC_SEND_UNMARSHAL`. The pointer for the reply messenger may be null. -/
def sendUnmarshal (junk : ByteMemory) (id : MethodId) (params : List Param) (wantReply : Bool)
    (msg : ByteMemory) : Except Fault (Except Error Decoded) := do
  let label ← readLabel msg
  if label ≠ id.value then
    pure (.error .einval)
  else do
    let reply ← readReply wantReply msg
    let c ← rpcStore junk msg params ⟨1, 1, false, []⟩
    pure (if c.err then .error .einval else .ok ⟨reply, c.stored⟩)

/-- `RPC_REPLY_UNMARSHAL`. -/
def replyUnmarshal (junk : ByteMemory) (params : List Param) (msg : ByteMemory) :
    Except Fault (Except Error Decoded) :=
  if wordSize ≤ vgMessageDataCount msg then do
    let err ← vgMessageWord msg 0
    if err ≠ 0 then
      pure (.error (.server err))
    else do
      let c ← rpcStore junk msg params ⟨1, 0, false, []⟩
      pure (if c.err then .error .einval else .ok ⟨none, c.stored⟩)
  else
    pure (.error .einval)

/-- What `server_loop` reads of a message to a kernel object before it looks at the method: the
label and, if there is a capability, the reply messenger. -/
def serverDispatch (msg : ByteMemory) : Except Fault (Word × Option VgAddr) := do
  let label ← vgMessageWord msg 0
  let reply ← readReply (0 < vgMessageCapCount msg) msg
  pure (label, reply)

/-! ### Which pages are read safely -/

/-- The words that the callers think are there can be read. -/
def Readable (msg : ByteMemory) : Prop := wordSize ≤ dataCount msg → capCount msg ≤ 511

instance (msg : ByteMemory) : Decidable (Readable msg) := inferInstanceAs (Decidable (_ → _))

variable {msg junk : ByteMemory}

variable {params : List Param} {i : ℕ}

theorem vgMessageWord_of (h : Readable msg) (hi : i < vgMessageDataCount msg / wordSize) :
    vgMessageWord msg i = .ok (word msg i) := by
  have hclamp := vgMessageDataCount_le msg
  have hword : wordSize ≤ dataCount msg := by
    simp only [wordSize] at hi ⊢
    omega
  have hcount : i < dataCount msg / wordSize := hi.trans_le (Nat.div_le_div_right hclamp)
  have hinside : vgMessageData msg + i * wordSize + wordSize ≤ pagesize := by
    have := vgMessageData_le (h hword)
    simp only [wordSize] at hi ⊢
    omega
  rw [vgMessageWord, require_of hcount, ok_bind, require_of hinside]
  rfl

/-- With too many capabilities no word can be read. -/
theorem vgMessageWord_of_lt (h : 511 < capCount msg) (w : Word) :
    vgMessageWord msg i ≠ .ok w := by
  intro hw
  obtain ⟨_, _, hw⟩ := bind_eq_ok.1 hw
  obtain ⟨_, hinside, _⟩ := bind_eq_ok.1 hw
  have hinside := require_eq_ok.1 hinside
  have := lt_vgMessageData h
  omega

theorem vgMessageCap_of {idx : ℕ} (h : idx < vgMessageCapCount msg) :
    vgMessageCap msg idx = .ok (cap msg idx) := by
  have hcount : idx < capCount msg := h.trans_le (vgMessageCapCount_le msg)
  have hinside : capOffset idx + addrSize ≤ pagesize := by
    have : idx < (pagesize - capsOffset) / addrSize := h.trans_le (min_le_right _ _)
    simp only [capOffset, capsOffset, addrSize, pagesize] at this ⊢
    omega
  rw [vgMessageCap, require_of hcount, ok_bind, require_of hinside]
  rfl

theorem vgMessageCapCount_pos :
    0 < vgMessageCapCount msg ↔ 0 < capCount msg := by
  simp only [vgMessageCapCount, capsOffset, addrSize, pagesize]
  omega

theorem vgMessageCap_zero :
    (∃ a, vgMessageCap msg 0 = .ok a) ↔ 0 < capCount msg := by
  refine ⟨fun ⟨a, ha⟩ => ?_, fun h => ⟨_, vgMessageCap_of (vgMessageCapCount_pos.2 h)⟩⟩
  obtain ⟨_, hcount, _⟩ := bind_eq_ok.1 ha
  exact require_eq_ok.1 hcount

/-- The first word is there iff the data area has a word and starts inside of the page. -/
theorem vgMessageWord_zero :
    (∃ w, vgMessageWord msg 0 = .ok w) ↔ wordSize ≤ dataCount msg ∧ capCount msg ≤ 511 := by
  constructor
  · rintro ⟨w, hw⟩
    refine ⟨?_, not_lt.1 fun h => vgMessageWord_of_lt h w hw⟩
    obtain ⟨_, hcount, _⟩ := bind_eq_ok.1 hw
    have hcount := require_eq_ok.1 hcount
    simp only [wordSize] at hcount ⊢
    omega
  · rintro ⟨hword, hcaps⟩
    refine ⟨_, vgMessageWord_of (fun _ => hcaps) (Nat.div_pos ?_ (by decide))⟩
    exact wordSize_le_vgMessageDataCount.2 hword

theorem rpcStoreWord_returns (h : Readable msg) (s : Cursor × ByteMemory) (i : ℕ) :
    ∃ s', rpcStoreWord msg s i = .ok s' := by
  unfold rpcStoreWord
  split
  next hi => exact ⟨_, by rw [vgMessageWord_of h hi, ok_bind]; rfl⟩
  next => exact ⟨_, rfl⟩

theorem rpcStoreArg_returns (h : Readable msg) (c : Cursor) (p : Param) :
    ∃ c', rpcStoreArg junk msg c p = .ok c' := by
  unfold rpcStoreArg
  split
  · split
    next hi =>
      split
      · exact ⟨_, by rw [vgMessageCap_of hi, ok_bind]; rfl⟩
      · exact ⟨_, rfl⟩
    next => exact ⟨_, rfl⟩
  next size _ =>
    obtain ⟨s', hs'⟩ := foldlM_returns (rpcStoreWord_returns h)
      (List.range (ArgType.data size).words) (c, junk)
    exact ⟨_, by rw [hs', ok_bind]; rfl⟩

/-- Fetching the arguments never faults on a readable message, whatever the method expects. -/
theorem rpcStore_returns (junk : ByteMemory) (h : Readable msg) (params : List Param) (c : Cursor) :
    ∃ c', rpcStore junk msg params c = .ok c' :=
  foldlM_returns (rpcStoreArg_returns h) params c

/-- The label that `RPC_SEND_UNMARSHAL` compares with the method's own. -/
def labelOf (msg : ByteMemory) : Word := if wordSize ≤ dataCount msg then word msg 0 else 0

theorem readLabel_of (h : Readable msg) :
    readLabel msg = .ok (labelOf msg) := by
  unfold readLabel labelOf
  split
  next hdata =>
    rw [if_pos (wordSize_le_vgMessageDataCount.1 hdata)]
    exact vgMessageWord_of h (Nat.div_pos hdata (by decide))
  next hdata => rw [if_neg (mt wordSize_le_vgMessageDataCount.2 hdata)]; rfl

theorem readable_of_readLabel {w : Word} (h : readLabel msg = .ok w) :
    Readable msg := by
  intro hword
  rw [readLabel, if_pos (wordSize_le_vgMessageDataCount.2 hword)] at h
  exact (vgMessageWord_zero.1 ⟨w, h⟩).2

theorem readReply_of {wanted : Bool} (h : wanted = true → 0 < capCount msg) :
    readReply wanted msg = .ok (if wanted then some (cap msg 0) else none) := by
  cases wanted with
  | false => rfl
  | true =>
    rw [readReply, if_pos rfl, vgMessageCap_of (vgMessageCapCount_pos.2 (h rfl))]
    rfl

theorem capCount_pos_of_readReply {reply : Option VgAddr} (h : readReply true msg = .ok reply) :
    0 < capCount msg := by
  refine vgMessageCap_zero.1 ?_
  cases hcap : vgMessageCap msg 0 with
  | error e => simp [readReply, hcap] at h
  | ok a => exact ⟨a, rfl⟩

theorem sendUnmarshal_returns_iff {id : MethodId} {wantReply : Bool} :
    (∃ r, sendUnmarshal junk id params wantReply msg = .ok r) ↔
      Readable msg ∧ (wantReply = true → labelOf msg = id.value → 0 < capCount msg) := by
  constructor
  · rintro ⟨r, hr⟩
    obtain ⟨label, hlabel, hr⟩ := bind_eq_ok.1 hr
    have hread := readable_of_readLabel hlabel
    refine ⟨hread, fun hwant hid => ?_⟩
    obtain rfl : labelOf msg = label := by simpa using (readLabel_of hread).symm.trans hlabel
    rw [if_neg (not_not.2 hid), hwant] at hr
    obtain ⟨reply, hreply, _⟩ := bind_eq_ok.1 hr
    exact capCount_pos_of_readReply hreply
  · rintro ⟨hread, hcaps⟩
    unfold sendUnmarshal
    rw [readLabel_of hread, ok_bind]
    split
    · exact ⟨_, rfl⟩
    next hid =>
      obtain ⟨c, hc⟩ := rpcStore_returns junk hread params ⟨1, 1, false, []⟩
      rw [readReply_of fun hwant => hcaps hwant (not_not.1 hid), ok_bind, hc, ok_bind]
      exact ⟨_, rfl⟩

theorem replyUnmarshal_returns_iff :
    (∃ r, replyUnmarshal junk params msg = .ok r) ↔ Readable msg := by
  constructor
  · rintro ⟨r, hr⟩ hword
    rw [replyUnmarshal, if_pos (wordSize_le_vgMessageDataCount.2 hword)] at hr
    obtain ⟨w, hw, _⟩ := bind_eq_ok.1 hr
    exact (vgMessageWord_zero.1 ⟨w, hw⟩).2
  · intro hread
    unfold replyUnmarshal
    split
    next hdata =>
      rw [vgMessageWord_of hread (Nat.div_pos hdata (by decide)), ok_bind]
      split
      · exact ⟨_, rfl⟩
      · obtain ⟨c, hc⟩ := rpcStore_returns junk hread params ⟨1, 0, false, []⟩
        exact ⟨_, by rw [hc, ok_bind]; rfl⟩
    next => exact ⟨_, rfl⟩

theorem serverDispatch_returns_iff :
    (∃ r, serverDispatch msg = .ok r) ↔ wordSize ≤ dataCount msg ∧ capCount msg ≤ 511 := by
  rw [← vgMessageWord_zero]
  constructor
  · rintro ⟨r, hr⟩
    obtain ⟨w, hw, _⟩ := bind_eq_ok.1 hr
    exact ⟨w, hw⟩
  · rintro ⟨w, hw⟩
    unfold serverDispatch
    rw [hw, ok_bind, readReply_of fun hcaps => vgMessageCapCount_pos.1 (of_decide_eq_true hcaps)]
    exact ⟨_, rfl⟩

/-- **Which messages are decoded safely.** The dispatch in the server faults unless there is a word
of data and the capabilities leave room for it; the unmarshallers fault only on words that the
capability count pushes out of the page, and on a reply capability that is not there. -/
theorem decoding_safe_iff (msg junk : ByteMemory) :
    ((∃ r, serverDispatch msg = .ok r) ↔ wordSize ≤ dataCount msg ∧ capCount msg ≤ 511) ∧
    (∀ (id : MethodId) (params : List Param) (wantReply : Bool),
      (∃ r, sendUnmarshal junk id params wantReply msg = .ok r) ↔
        (wordSize ≤ dataCount msg → capCount msg ≤ 511) ∧
          (wantReply = true → labelOf msg = id.value → 0 < capCount msg)) ∧
    (∀ params : List Param, (∃ r, replyUnmarshal junk params msg = .ok r) ↔
      (wordSize ≤ dataCount msg → capCount msg ≤ 511)) :=
  ⟨serverDispatch_returns_iff, fun _ _ _ => sendUnmarshal_returns_iff,
    fun _ => replyUnmarshal_returns_iff⟩

/-- A page that claims 65535 capabilities and one word of data. -/
def overfullPage : ByteMemory := ((ByteMemory.putLe (fun _ => 0) 0 2 65535)).putLe 2 2 4

/-- An empty message stops the server; one with too many capabilities makes it and an unmarshaller
read beyond the page; and asking for the reply capability of a request without one asserts. -/
theorem empty_message_asserts :
    serverDispatch (fun _ => 0) = .error .assertion ∧
    serverDispatch overfullPage = .error .outside ∧
    (∀ id params wantReply, sendUnmarshal (fun _ => 0) id params wantReply overfullPage =
      .error .outside) ∧
    sendUnmarshal (fun _ => 0) ⟨100, by decide⟩ [] true
      ((ByteMemory.putLe (fun _ => 0) 2 2 4).putLe 4 4 100) = .error .assertion := by
  refine ⟨by decide +kernel, by decide +kernel, fun id params wantReply => ?_, by decide +kernel⟩
  rfl

end Rpc

end Viengoos
