import Viengoos.Ipc.Rpc

/-!
# Marshalling round trip

A message that was marshalled is unmarshalled to the same values, for every list of argument types
(`marshal_round_trip`). The marshallers append to two areas of one page, and appending a capability
moves the data that is already there, so what is carried along is the content of both areas:
`Holds msg caps data` says that the page holds just these capabilities and these bytes of data.

Unmarshalling is described without the marshaller: on a readable page the cursor moves over the
arguments exactly as long as the two areas last.
-/

namespace Viengoos

namespace Rpc

open Outcome Message List Function

/-! ### The content of a message -/

/-- The page holds the capabilities `caps` and the bytes `data`, and they fit. -/
structure Holds (msg : ByteMemory) (caps : List VgAddr) (data : List (BitVec 8)) : Prop where
  capCount_eq : capCount msg = caps.length
  dataCount_eq : dataCount msg = data.length
  fits : capOffset caps.length + data.length ≤ pagesize
  cap_eq : ∀ i a, caps[i]? = some a → cap msg i = a
  data_eq : ∀ k b, data[k]? = some b → msg (capOffset caps.length + k) = b

variable {i : ℕ} {msg junk : ByteMemory} {caps cpre : List VgAddr} {data : List (BitVec 8)}
  {w : Word} {c : Cursor} {params : List Param}

variable {c' : Cursor} {dpre : List (BitVec 8)} {p : Param} {d n : ℕ}

theorem le_shift {b b' : ByteMemory} {o o' : ℕ} (h : ∀ k < n, b (o + k) = b' (o' + k)) :
    b.le o n = b'.le o' n := by
  refine ByteMemory.le_eq_of_digits (b'.le_lt _ _) fun k hk => ?_
  rw [h k hk, b'.ofNat_le_div hk]

theorem cap_congr {b b' : ByteMemory} {j : ℕ}
    (h : ∀ k < addrSize, b (capOffset i + k) = b' (capOffset j + k)) : cap b i = cap b' j := by
  simp only [cap, le_shift h]

theorem holds_clear (msg : ByteMemory) : Holds (vgMessageClear msg) [] [] where
  capCount_eq := by
    rw [capCount, vgMessageClear, ByteMemory.le_putLe_of_disjoint (by omega)]
    exact ByteMemory.le_putLe (by decide)
  dataCount_eq := ByteMemory.le_putLe (by decide)
  fits := by decide
  cap_eq := by simp
  data_eq := by simp

/-- Appending bytes. -/
theorem Holds.appendData (h : Holds msg caps data) (new : List (BitVec 8)) (src : ByteMemory)
    (hsrc : ∀ k b, new[k]? = some b → src k = b)
    (hfits : capOffset caps.length + (data ++ new).length ≤ pagesize) :
    ∃ m, vgMessageAppendData msg new.length src = .ok m ∧ Holds m caps (data ++ new) := by
  have hroom : capOffset (capCount msg) + dataCount msg + new.length ≤ pagesize := by
    rw [h.capCount_eq, h.dataCount_eq]
    simpa [Nat.add_assoc] using hfits
  refine ⟨_, by rw [vgMessageAppendData, require_of hroom]; rfl, ?_⟩
  rw [h.capCount_eq, h.dataCount_eq]
  have hoff : 4 ≤ capOffset caps.length := by simp [capOffset, capsOffset]
  rw [length_append] at hfits
  -- The header, apart from the new count, and everything before the end of the data stay.
  have hsame : ∀ i, ¬ ByteMemory.InRange 2 2 i → i < capOffset caps.length + data.length →
      ((msg.putLe 2 2 (data.length + new.length)).blit (capOffset caps.length + data.length) src 0
        new.length) i = msg i := by
    intro i hhead hi
    rw [ByteMemory.blit_of_not fun hin => by have := hin.1; omega, ByteMemory.putLe_of_not hhead]
  refine ⟨?_, ?_, by rwa [length_append], fun i a hi => ?_, fun k b hk => ?_⟩
  · refine (ByteMemory.le_congr fun i hi => hsame i (fun hin => ?_) ?_).trans h.capCount_eq
    · have := hin.1
      have := hi.2
      omega
    · have := hi.2
      omega
  · have hlt : data.length + new.length < 256 ^ 2 := by simp only [pagesize] at hfits; omega
    rw [length_append]
    refine (ByteMemory.le_congr fun i hi => ?_).trans (ByteMemory.le_putLe (b := msg) hlt)
    refine ByteMemory.blit_of_not fun hin => ?_
    have := hin.1
    have := hi.2
    omega
  · rw [← h.cap_eq i a hi]
    have hlt : i < caps.length := (List.getElem?_eq_some_iff.1 hi).1
    refine cap_congr fun k hk => hsame _ (fun hin => ?_) ?_
    · have := hin.2
      simp only [capOffset, capsOffset] at this
      omega
    · simp only [capOffset, capsOffset, addrSize] at hk ⊢
      omega
  · rcases lt_or_ge k data.length with hlt | hge
    · rw [getElem?_append_left hlt] at hk
      rw [hsame _ (fun hin => by have := hin.2; omega) (by omega)]
      exact h.data_eq k b hk
    · rw [getElem?_append_right hge] at hk
      have hnew : k - data.length < new.length := (List.getElem?_eq_some_iff.1 hk).1
      obtain ⟨j, rfl⟩ : ∃ j, k = data.length + j := ⟨k - data.length, by omega⟩
      rw [Nat.add_sub_cancel_left] at hk hnew
      rw [← Nat.add_assoc, ByteMemory.blit_add hnew, Nat.zero_add]
      exact hsrc j b hk

/-- The bytes of a word. -/
def wordBytes (w : Word) : List (BitVec 8) :=
  (List.range wordSize).map fun k => BitVec.ofNat 8 (w.toNat / 256 ^ k)

theorem length_wordBytes (w : Word) : (wordBytes w).length = wordSize := by
  rw [wordBytes, length_map, length_range]

theorem Holds.appendWord (h : Holds msg caps data)
    (hfits : capOffset caps.length + data.length + wordSize ≤ pagesize) :
    ∃ m, vgMessageAppendWord msg w = .ok m ∧ Holds m caps (data ++ wordBytes w) := by
  have := h.appendData (wordBytes w) (ByteMemory.putLe (fun _ => 0) 0 wordSize w.toNat)
    (fun k b hk => ?_) (by rw [length_append, length_wordBytes]; omega)
  · rwa [length_wordBytes] at this
  · obtain ⟨hlt, rfl⟩ := List.getElem?_eq_some_iff.1 hk
    rw [length_wordBytes] at hlt
    rw [ByteMemory.putLe_zero hlt]
    simp [wordBytes]

/-- An address in an array. -/
def arrayCap (arr : ByteMemory) (j : ℕ) : VgAddr :=
  ⟨arr.le (j * addrSize) addrSize, (arr.le_lt (j * addrSize) addrSize).trans_eq (by decide)⟩

/-- Appending capabilities, which moves the data up. -/
theorem Holds.appendCaps (h : Holds msg caps data) (n : ℕ) (arr : ByteMemory)
    (hfits : capOffset (caps.length + n) + data.length ≤ pagesize) :
    ∃ m, vgMessageAppendCaps msg n arr = .ok m ∧
      Holds m (caps ++ (List.range n).map (arrayCap arr)) data := by
  have hnext : capOffset (caps.length + n) = capOffset caps.length + n * addrSize := by
    simp only [capOffset, addrSize]
    omega
  have hoff : 4 ≤ capOffset caps.length := by simp [capOffset, capsOffset]
  have hroom : vgMessageData msg + vgMessageDataCount msg + n * addrSize ≤ pagesize := by
    have := vgMessageDataCount_le msg
    rw [h.dataCount_eq] at this
    rw [vgMessageData, h.capCount_eq]
    omega
  refine ⟨_, by rw [vgMessageAppendCaps, require_of hroom]; rfl, ?_⟩
  rw [h.capCount_eq, h.dataCount_eq]
  set moved := msg.blit (capOffset (caps.length + n)) msg (capOffset caps.length) data.length
    with hmoved
  set filled := moved.blit (capOffset caps.length) arr 0 (n * addrSize) with hfilled
  set m := filled.putLe 0 2 (caps.length + n) with hm
  have hbody : ∀ i, 4 ≤ i → m i = filled i := fun i hi =>
    ByteMemory.putLe_of_not fun hin => by have := hin.2; omega
  have hold : ∀ i, 2 ≤ i → i < capOffset caps.length → m i = msg i := by
    intro i hi hlt
    rw [hm, ByteMemory.putLe_of_not fun hin => by have := hin.2; omega, hfilled,
      ByteMemory.blit_of_not fun hin => by have := hin.1; omega, hmoved,
      ByteMemory.blit_of_not fun hin => by have := hin.1; omega]
  have hcap : ∀ k < n * addrSize, m (capOffset caps.length + k) = arr k := by
    intro k hk
    rw [hbody _ (by omega), hfilled, ByteMemory.blit_add hk, Nat.zero_add]
  have hdata : ∀ k < data.length, m (capOffset (caps.length + n) + k) =
      msg (capOffset caps.length + k) := by
    intro k hk
    rw [hbody _ (by omega), hfilled, ByteMemory.blit_of_not fun hin => by have := hin.2; omega,
      hmoved, ByteMemory.blit_add hk]
  have hlength : (caps ++ (List.range n).map (arrayCap arr)).length = caps.length + n := by simp
  refine ⟨?_, ?_, by rwa [hlength], fun i a hi => ?_, fun k b hk => ?_⟩
  · have hlt : caps.length + n < 256 ^ 2 := by
      simp only [capOffset, capsOffset, addrSize, pagesize] at hfits
      omega
    rw [hlength]
    exact ByteMemory.le_putLe hlt
  · refine (ByteMemory.le_congr fun i hi => hold i hi.1 ?_).trans h.dataCount_eq
    have := hi.2
    omega
  · rcases lt_or_ge i caps.length with hlt | hge
    · rw [getElem?_append_left hlt] at hi
      rw [← h.cap_eq i a hi]
      refine cap_congr fun k hk => hold _ ?_ ?_ <;>
        · simp only [capOffset, capsOffset, addrSize] at hk ⊢
          omega
    · rw [getElem?_append_right hge] at hi
      obtain ⟨j, rfl⟩ : ∃ j, i = caps.length + j := ⟨i - caps.length, by omega⟩
      rw [Nat.add_sub_cancel_left] at hi
      obtain ⟨hlt, rfl⟩ := List.getElem?_eq_some_iff.1 hi
      rw [length_map, length_range] at hlt
      have hle : m.le (capOffset (caps.length + j)) addrSize = arr.le (j * addrSize) addrSize := by
        refine le_shift fun k hk => ?_
        have hin : j * addrSize + k < n * addrSize := by
          simp only [addrSize] at hk ⊢
          omega
        rw [← hcap _ hin, capOffset, capOffset, Nat.add_mul, Nat.add_assoc, Nat.add_assoc,
          Nat.add_assoc]
      simp only [getElem_map, getElem_range, cap, arrayCap, hle]
  · have hlt : k < data.length := (List.getElem?_eq_some_iff.1 hk).1
    rw [hlength, hdata k hlt]
    exact h.data_eq k b hk

theorem Holds.appendCap (h : Holds msg caps data) (addr : VgAddr)
    (hfits : capOffset (caps.length + 1) + data.length ≤ pagesize) :
    ∃ m, vgMessageAppendCap msg addr = .ok m ∧ Holds m (caps ++ [addr]) data := by
  obtain ⟨m, hm, hholds⟩ := h.appendCaps 1 (ByteMemory.putLe (fun _ => 0) 0 addrSize addr.raw) hfits
  have hone : arrayCap (ByteMemory.putLe (fun _ => 0) 0 addrSize addr.raw) 0 = addr := by
    have hraw : addr.raw < 256 ^ addrSize := addr.raw_lt.trans_eq (by decide)
    simp only [arrayCap, Nat.zero_mul, ByteMemory.le_putLe hraw]
  rw [range_one, map_singleton, hone] at hholds
  exact ⟨m, hm, hholds⟩

/-- The calls that append to a message, with what their pointers lead to. -/
inductive Append
  | caps (n : ℕ) (arr : ByteMemory)
  | data (n : ℕ) (src : ByteMemory)
  | word (w : Word)

namespace Append

/-- Make a call. -/
def exec (msg : ByteMemory) : Append → Except Fault ByteMemory
  | .caps n arr => vgMessageAppendCaps msg n arr
  | .data n src => vgMessageAppendData msg n src
  | .word w => vgMessageAppendWord msg w

/-- The capability addresses that a call appends. -/
def capList : Append → List VgAddr
  | .caps n arr => (List.range n).map (arrayCap arr)
  | .data _ _ | .word _ => []

/-- The bytes that a call appends. -/
def byteList : Append → List (BitVec 8)
  | .caps _ _ => []
  | .data n src => (List.range n).map src
  | .word w => wordBytes w

end Append

/-- One call. -/
theorem Holds.append (h : Holds msg caps data) (op : Append)
    (hfits : capOffset (caps ++ op.capList).length + (data ++ op.byteList).length ≤ pagesize) :
    ∃ m, op.exec msg = .ok m ∧ Holds m (caps ++ op.capList) (data ++ op.byteList) := by
  rw [length_append, length_append] at hfits
  cases op with
  | caps n arr =>
    simp only [Append.byteList, append_nil]
    exact h.appendCaps n arr (by simpa [Append.capList, Append.byteList] using hfits)
  | data n src =>
    have hnew := h.appendData ((List.range n).map src) src (fun k b hk => ?_)
      (by simpa [Append.capList, Append.byteList] using hfits)
    · rw [length_map, length_range] at hnew
      simp only [Append.capList, append_nil]
      exact hnew
    · obtain ⟨hlt, rfl⟩ := List.getElem?_eq_some_iff.1 hk
      simp
  | word w =>
    simp only [Append.capList, append_nil]
    refine h.appendWord ?_
    simp only [Append.capList, Append.byteList, length_nil, length_wordBytes, Nat.add_zero] at hfits
    omega

theorem Holds.appends (h : Holds msg caps data) (ops : List Append)
    (hfits : capOffset (caps ++ ops.flatMap Append.capList).length +
      (data ++ ops.flatMap Append.byteList).length ≤ pagesize) :
    ∃ m, ops.foldlM Append.exec msg = .ok m ∧
      Holds m (caps ++ ops.flatMap Append.capList) (data ++ ops.flatMap Append.byteList) := by
  induction ops generalizing msg caps data with
  | nil =>
    simp only [flatMap_nil, append_nil]
    exact ⟨msg, rfl, h⟩
  | cons op ops ih =>
    simp only [flatMap_cons, ← append_assoc] at hfits ⊢
    obtain ⟨m₁, hm₁, h₁⟩ := h.append op (by
      simp only [length_append, capOffset, addrSize] at hfits ⊢
      omega)
    obtain ⟨m, hm, hholds⟩ := ih h₁ hfits
    exact ⟨m, by rw [foldlM_cons, hm₁, ok_bind, hm], hholds⟩

/-- **Construction of a message.** Whatever is appended, in any order, as long as it fits the page,
the message has just the capabilities and the bytes that were appended, in their order. -/
theorem appends_hold (msg : ByteMemory) (ops : List Append)
    (hfits : capOffset (ops.flatMap Append.capList).length +
      (ops.flatMap Append.byteList).length ≤ pagesize) :
    ∃ m, ops.foldlM Append.exec (vgMessageClear msg) = .ok m ∧
      Holds m (ops.flatMap Append.capList) (ops.flatMap Append.byteList) :=
  (holds_clear msg).appends ops hfits

/-- A byte, a capability, which moves it, and another byte. -/
theorem appends_hold_three :
    ∃ m, foldlM Append.exec (vgMessageClear fun _ => 9)
        [.data 1 fun _ => 5, .caps 1 fun _ => 0, .data 1 fun _ => 6] = .ok m ∧
      Holds m [.void] [5, 6] :=
  appends_hold (fun _ => 9) [.data 1 fun _ => 5, .caps 1 fun _ => 0, .data 1 fun _ => 6] (by decide)

/-! ### What the marshallers leave in the page -/

/-- The capabilities of an argument. -/
def Value.capList : Value → List VgAddr
  | .cap addr => [addr]
  | .data _ => []

/-- The bytes that an argument adds to the data: with what pads the last word. -/
def Value.byteList (junk : ByteMemory) : Value → List (BitVec 8)
  | .cap _ => []
  | .data bytes =>
    (List.range ((ArgType.data bytes.length).words * wordSize)).map (rawData junk bytes)

theorem length_capList (v : Value) : v.capList.length = v.type.caps := by cases v <;> rfl

theorem length_byteList (junk : ByteMemory) (v : Value) :
    (v.byteList junk).length = v.type.words * wordSize := by
  cases v with
  | cap addr => simp [Value.byteList, Value.type, ArgType.words]
  | data bytes => rw [Value.byteList, length_map, length_range]; rfl

theorem length_flatMap_capList (args : List Value) :
    (args.flatMap Value.capList).length = totalCaps (args.map Value.type) := by
  induction args with
  | nil => rfl
  | cons v args ih =>
    simpa [flatMap_cons, length_capList, totalCaps] using ih

theorem length_flatMap_byteList (junk : ByteMemory) (args : List Value) :
    (args.flatMap (Value.byteList junk)).length =
      totalWords (args.map Value.type) * wordSize := by
  induction args with
  | nil => rfl
  | cons v args ih =>
    rw [flatMap_cons, length_append, ih, length_byteList, map_cons, totalWords,
      totalWords, map_cons, sum_cons, Nat.add_mul]

theorem wordBytes_le (raw : ByteMemory) (off : ℕ) :
    wordBytes (.ofNat 32 (raw.le off wordSize)) =
      (List.range wordSize).map fun k => raw (off + k) := by
  have hlt : raw.le off wordSize < 2 ^ 32 := (raw.le_lt off wordSize).trans_eq (by decide)
  refine map_congr_left fun k hk => ?_
  rw [BitVec.toNat_ofNat, Nat.mod_eq_of_lt hlt, raw.ofNat_le_div (mem_range.1 hk)]

/-- The loop over the words of a piece of data appends its bytes. -/
theorem Holds.loadWords (h : Holds msg caps data) (raw : ByteMemory) (n : ℕ)
    (hfits : capOffset caps.length + data.length + n * wordSize ≤ pagesize) :
    ∃ m, (List.range n).foldlM (fun msg i =>
        vgMessageAppendWord msg (.ofNat 32 (raw.le (i * wordSize) wordSize))) msg = .ok m ∧
      Holds m caps (data ++ (List.range (n * wordSize)).map raw) := by
  induction n with
  | zero => exact ⟨msg, rfl, by simpa using h⟩
  | succ n ih =>
    rw [Nat.add_mul, Nat.one_mul] at hfits
    obtain ⟨m, hm, hholds⟩ := ih (by omega)
    obtain ⟨m', hm', hholds'⟩ := hholds.appendWord
      (w := .ofNat 32 (raw.le (n * wordSize) wordSize)) (by
        rw [length_append, length_map, length_range]
        omega)
    refine ⟨m', ?_, ?_⟩
    · rw [range_succ, foldlM_append, hm, ok_bind, foldlM_cons, hm', ok_bind]
      rfl
    · rw [wordBytes_le, append_assoc] at hholds'
      rw [Nat.add_mul, Nat.one_mul, range_add, map_append, map_map]
      exact hholds'

theorem Holds.loadArg (h : Holds msg caps data) (junk : ByteMemory) (v : Value)
    (hfits : capOffset (caps ++ v.capList).length + (data ++ v.byteList junk).length ≤ pagesize) :
    ∃ m, rpcLoadArg junk msg v = .ok m ∧ Holds m (caps ++ v.capList) (data ++ v.byteList junk) := by
  cases v with
  | cap addr =>
    simpa [Value.capList, Value.byteList, rpcLoadArg] using
      h.appendCap addr (by simpa [Value.capList, Value.byteList] using hfits)
  | data bytes =>
    simpa [Value.capList, Value.byteList, rpcLoadArg] using
      h.loadWords (rawData junk bytes) (ArgType.data bytes.length).words
        (by simpa [Value.capList, Value.byteList, Nat.add_assoc] using hfits)

/-- `RPCLOAD` appends the capabilities and the bytes of all arguments, in order. -/
theorem Holds.load (h : Holds msg caps data) (junk : ByteMemory) (args : List Value)
    (hfits : capOffset (caps.length + totalCaps (args.map Value.type)) +
      (data.length + totalWords (args.map Value.type) * wordSize) ≤ pagesize) :
    ∃ m, rpcLoad junk msg args = .ok m ∧
      Holds m (caps ++ args.flatMap Value.capList)
        (data ++ args.flatMap (Value.byteList junk)) := by
  induction args generalizing msg caps data with
  | nil => exact ⟨msg, rfl, by simpa using h⟩
  | cons v args ih =>
    simp only [map_cons, totalCaps, totalWords, sum_cons, Nat.add_mul] at hfits
    obtain ⟨m, hm, hholds⟩ := h.loadArg junk v (by
      rw [length_append, length_append, length_capList, length_byteList]
      simp only [capOffset, addrSize] at hfits ⊢
      omega)
    obtain ⟨m', hm', hholds'⟩ := ih hholds (by
      rw [length_append, length_append, length_capList, length_byteList]
      simpa only [totalCaps, totalWords, Nat.add_assoc] using hfits)
    refine ⟨m', ?_, ?_⟩
    · rw [rpcLoad, foldlM_cons, hm, ok_bind]
      exact hm'
    · rwa [flatMap_cons, flatMap_cons, ← append_assoc, ← append_assoc]

/-! ### What the unmarshallers read -/

/-- The argument that starts at word `d` and capability `k`. -/
def decodeAt (msg : ByteMemory) (t : ArgType) (d k : ℕ) : Value :=
  match t with
  | .cap => .cap (cap msg k)
  | .data size =>
    .data ((List.range size).map fun j => msg (vgMessageData msg + d * wordSize + j))

/-- What is stored through the parameters when nothing is missing. -/
def decodeAll (msg : ByteMemory) : List Param → ℕ → ℕ → List (Option Value)
  | [], _, _ => []
  | p :: ps, d, k => (if p.wanted then some (decodeAt msg p.type d k) else none) ::
      decodeAll msg ps (d + p.type.words) (k + p.type.caps)

/-- The words of a piece of data, fetched into the union, are the bytes in the message. -/
theorem rpcStoreWords_of (junk : ByteMemory) (h : Readable msg) (c : Cursor) (n : ℕ)
    (hn : c.dataIdx + n ≤ vgMessageDataCount msg / wordSize) :
    ∃ raw, (List.range n).foldlM (rpcStoreWord msg) (c, junk) =
        .ok ({ c with dataIdx := c.dataIdx + n }, raw) ∧
      ∀ j < n * wordSize, raw j = msg (vgMessageData msg + c.dataIdx * wordSize + j) := by
  induction n with
  | zero => exact ⟨junk, rfl, by simp⟩
  | succ n ih =>
    obtain ⟨raw, hraw, hbytes⟩ := ih (by omega)
    have hidx : c.dataIdx + n < vgMessageDataCount msg / wordSize := by omega
    refine ⟨raw.putLe (n * wordSize) wordSize (word msg (c.dataIdx + n)).toNat, ?_, fun j hj => ?_⟩
    · rw [range_succ, foldlM_append, hraw, ok_bind, foldlM_cons, rpcStoreWord,
        if_pos hidx, vgMessageWord_of h hidx, ok_bind]
      rfl
    · rcases lt_or_ge j (n * wordSize) with hlt | hge
      · rw [ByteMemory.putLe_of_not fun hin => by have := hin.1; omega]
        exact hbytes j hlt
      · obtain ⟨i, rfl⟩ : ∃ i, j = n * wordSize + i := ⟨j - n * wordSize, by omega⟩
        have hi : i < wordSize := by
          rw [Nat.add_mul] at hj
          omega
        have hlt : msg.le (vgMessageData msg + (c.dataIdx + n) * wordSize) wordSize < 2 ^ 32 :=
          (msg.le_lt _ wordSize).trans_eq (by decide)
        rw [ByteMemory.putLe_add hi, word, BitVec.toNat_ofNat, Nat.mod_eq_of_lt hlt,
          msg.ofNat_le_div hi]
        congr 1
        rw [Nat.add_mul]
        omega

theorem size_le_words (size : ℕ) : size ≤ (ArgType.data size).words * wordSize := by
  simp only [ArgType.words, wordSize]
  omega

theorem rpcStoreArg_of (junk : ByteMemory) (h : Readable msg) (herr : c.err = false)
    (hd : c.dataIdx + p.type.words ≤ vgMessageDataCount msg / wordSize)
    (hk : p.type.caps = 0 ∨ c.capIdx + p.type.caps ≤ vgMessageCapCount msg) :
    rpcStoreArg junk msg c p = .ok ⟨c.dataIdx + p.type.words, c.capIdx + p.type.caps, false,
      c.stored ++ [if p.wanted then some (decodeAt msg p.type c.dataIdx c.capIdx) else none]⟩ := by
  obtain ⟨t, wanted⟩ := p
  obtain ⟨d, k, err, stored⟩ := c
  obtain rfl : err = false := herr
  cases t with
  | cap =>
    have hidx : k < vgMessageCapCount msg := by
      rcases hk with hk | hk
      · cases hk
      · exact hk
    rw [rpcStoreArg, if_pos hidx]
    cases wanted with
    | false => rfl
    | true => rw [if_pos rfl, vgMessageCap_of hidx]; rfl
  | data size =>
    obtain ⟨raw, hraw, hbytes⟩ := rpcStoreWords_of junk h ⟨d, k, false, stored⟩
      (ArgType.data size).words hd
    rw [rpcStoreArg]
    dsimp only
    rw [hraw, ok_bind]
    have hvalue : (List.range size).map raw =
        (List.range size).map fun j => msg (vgMessageData msg + d * wordSize + j) :=
      map_congr_left fun j hj =>
        hbytes j ((mem_range.1 hj).trans_le (size_le_words size))
    rw [hvalue]
    cases wanted <;> rfl

/-- Fetching the arguments succeeds, with the values in the message, when it is long enough. -/
theorem rpcStore_of (junk : ByteMemory) (h : Readable msg) (params : List Param)
    (herr : c.err = false)
    (hd : c.dataIdx + totalWords (params.map Param.type) ≤ vgMessageDataCount msg / wordSize)
    (hk : totalCaps (params.map Param.type) = 0 ∨
      c.capIdx + totalCaps (params.map Param.type) ≤ vgMessageCapCount msg) :
    rpcStore junk msg params c = .ok ⟨c.dataIdx + totalWords (params.map Param.type),
      c.capIdx + totalCaps (params.map Param.type), false,
      c.stored ++ decodeAll msg params c.dataIdx c.capIdx⟩ := by
  induction params generalizing c with
  | nil =>
    obtain ⟨d, k, err, stored⟩ := c
    obtain rfl : err = false := herr
    simp [rpcStore, decodeAll, totalWords, totalCaps]
  | cons p ps ih =>
    simp only [map_cons, totalCaps, totalWords, sum_cons] at hd hk
    rw [rpcStore, foldlM_cons, rpcStoreArg_of junk h herr (by omega) (by omega), ok_bind]
    have hrest := ih (c := ⟨c.dataIdx + p.type.words, c.capIdx + p.type.caps, false,
      c.stored ++ [if p.wanted then some (decodeAt msg p.type c.dataIdx c.capIdx) else none]⟩) rfl
      (by simp only [totalWords]; omega) (by simp only [totalCaps]; omega)
    rw [rpcStore] at hrest
    simp only [hrest, decodeAll, totalWords, totalCaps, map_cons, sum_cons, Nat.add_assoc,
      append_assoc, singleton_append]

theorem rpcStoreWord_eq_ok {s s' : Cursor × ByteMemory} (h : rpcStoreWord msg s i = .ok s')
    (herr : s'.1.err = false) :
    s'.1 = { s.1 with dataIdx := s.1.dataIdx + 1 } ∧
      s.1.dataIdx < vgMessageDataCount msg / wordSize := by
  unfold rpcStoreWord at h
  split at h
  next hidx =>
    obtain ⟨w, _, h⟩ := bind_eq_ok.1 h
    rw [pure_eq_ok] at h
    exact ⟨by rw [← h], hidx⟩
  next =>
    rw [pure_eq_ok] at h
    rw [← h] at herr
    cases herr

/-- If no error was noted, all words were there. -/
theorem rpcStoreWords_eq_ok {s s' : Cursor × ByteMemory}
    (h : (List.range n).foldlM (rpcStoreWord msg) s = .ok s') (herr : s'.1.err = false) :
    s'.1 = { s.1 with dataIdx := s.1.dataIdx + n } ∧
      (n = 0 ∨ s.1.dataIdx + n ≤ vgMessageDataCount msg / wordSize) := by
  induction n generalizing s' with
  | zero =>
    obtain rfl : s = s' := by simpa using h
    exact ⟨rfl, .inl rfl⟩
  | succ n ih =>
    rw [range_succ, foldlM_append] at h
    obtain ⟨t, ht, h⟩ := bind_eq_ok.1 h
    obtain ⟨u, hu, h⟩ := bind_eq_ok.1 h
    obtain rfl : u = s' := by simpa using h
    obtain ⟨hstep, hidx⟩ := rpcStoreWord_eq_ok hu herr
    have hterr : t.1.err = false := by rw [hstep] at herr; exact herr
    obtain ⟨hinit, _⟩ := ih ht hterr
    rw [hinit] at hstep hidx
    exact ⟨hstep, .inr hidx⟩

theorem rpcStoreArg_eq_ok (h : rpcStoreArg junk msg c p = .ok c') (herr : c'.err = false) :
    c.err = false ∧ c'.dataIdx = c.dataIdx + p.type.words ∧
      (p.type.words = 0 ∨ c'.dataIdx ≤ vgMessageDataCount msg / wordSize) ∧
      c'.capIdx = c.capIdx + p.type.caps ∧
      (p.type.caps = 0 ∨ c'.capIdx ≤ vgMessageCapCount msg) := by
  unfold rpcStoreArg at h
  split at h
  next ht =>
    rw [ht]
    split at h
    next hidx =>
      have hc' : c'.err = c.err ∧ c'.dataIdx = c.dataIdx ∧ c'.capIdx = c.capIdx + 1 := by
        split at h
        · obtain ⟨a, _, h⟩ := bind_eq_ok.1 h
          rw [pure_eq_ok] at h
          rw [← h]
          exact ⟨rfl, rfl, rfl⟩
        · rw [pure_eq_ok] at h
          rw [← h]
          exact ⟨rfl, rfl, rfl⟩
      refine ⟨hc'.1 ▸ herr, hc'.2.1, .inl rfl, hc'.2.2, .inr ?_⟩
      rw [hc'.2.2]
      exact hidx
    next =>
      rw [pure_eq_ok] at h
      rw [← h] at herr
      cases herr
  next size ht =>
    rw [ht]
    obtain ⟨⟨d, raw⟩, hloop, h⟩ := bind_eq_ok.1 h
    rw [pure_eq_ok] at h
    have hderr : d.err = false := by rw [← h] at herr; exact herr
    obtain ⟨hd, hlen⟩ := rpcStoreWords_eq_ok hloop hderr
    dsimp only at hd hlen
    rw [hd] at h hderr
    rw [← h]
    exact ⟨hderr, rfl, hlen, rfl, .inl rfl⟩

/-- If no error was noted, nothing was missing. -/
theorem rpcStore_eq_ok (h : rpcStore junk msg params c = .ok c') (herr : c'.err = false) :
    c.err = false ∧
      (totalWords (params.map Param.type) = 0 ∨
        c.dataIdx + totalWords (params.map Param.type) ≤ vgMessageDataCount msg / wordSize) ∧
      (totalCaps (params.map Param.type) = 0 ∨
        c.capIdx + totalCaps (params.map Param.type) ≤ vgMessageCapCount msg) := by
  induction params generalizing c with
  | nil =>
    obtain rfl : c = c' := by simpa [rpcStore] using h
    exact ⟨herr, .inl rfl, .inl rfl⟩
  | cons p ps ih =>
    obtain ⟨t, ht, h⟩ := bind_eq_ok.1 h
    obtain ⟨hterr, hd, hk⟩ := ih h
    obtain ⟨hcerr, hidx, hword, hcidx, hcap⟩ := rpcStoreArg_eq_ok ht hterr
    simp only [map_cons, totalWords, totalCaps, sum_cons] at hd hk ⊢
    exact ⟨hcerr, by omega, by omega⟩

/-! ### Main results -/

/-- The two areas that the message counts fit its page. -/
def CountsFit (msg : ByteMemory) : Prop := capOffset (capCount msg) + dataCount msg ≤ pagesize

theorem CountsFit.capCount_eq (h : CountsFit msg) :
    vgMessageCapCount msg = capCount msg := by
  simp only [CountsFit, capOffset, capsOffset, addrSize, pagesize] at h
  simp only [vgMessageCapCount, capsOffset, addrSize, pagesize]
  omega

theorem CountsFit.dataCount_eq (h : CountsFit msg) :
    vgMessageDataCount msg = dataCount msg := by
  rw [vgMessageDataCount, h.capCount_eq]
  simp only [CountsFit, capOffset, capsOffset, addrSize, pagesize] at h ⊢
  omega

theorem CountsFit.readable (h : CountsFit msg) : Readable msg := by
  intro _
  simp only [CountsFit, capOffset, capsOffset, addrSize, pagesize] at h
  omega

/-- The message holds the words and the capabilities that the parameters take, after one word and
`k` capabilities. -/
def Supplies (msg : ByteMemory) (k : ℕ) (params : List Param) : Prop :=
  (1 + totalWords (params.map Param.type)) * wordSize ≤ dataCount msg ∧
    (totalCaps (params.map Param.type) = 0 ∨
      k + totalCaps (params.map Param.type) ≤ capCount msg)

/-- Fetching the arguments of a message with a first word succeeds iff they are there. -/
theorem rpcStore_succeeds_iff (junk : ByteMemory) {k : ℕ} (h : CountsFit msg)
    (hword : wordSize ≤ dataCount msg) :
    (∃ c, rpcStore junk msg params ⟨1, k, false, []⟩ = .ok c ∧ c.err = false) ↔
      Supplies msg k params := by
  constructor
  · rintro ⟨c, hc, herr⟩
    obtain ⟨_, hd, hk⟩ := rpcStore_eq_ok hc herr
    rw [h.capCount_eq] at hk
    rw [h.dataCount_eq] at hd
    refine ⟨?_, hk⟩
    simp only [wordSize] at hd hword ⊢
    omega
  · rintro ⟨hd, hk⟩
    refine ⟨_, rpcStore_of junk h.readable params rfl ?_ ?_, rfl⟩
    · rw [h.dataCount_eq]
      simp only [wordSize] at hd ⊢
      omega
    · rw [h.capCount_eq]
      exact hk

theorem sendUnmarshal_succeeds_iff {id : MethodId} {wantReply : Bool} (h : CountsFit msg) :
    (∃ d, sendUnmarshal junk id params wantReply msg = .ok (.ok d)) ↔
      wordSize ≤ dataCount msg ∧ word msg 0 = id.value ∧ Supplies msg 1 params ∧
        (wantReply = true → 0 < capCount msg) := by
  constructor
  · rintro ⟨d, hd⟩
    obtain ⟨label, hlabel, hd⟩ := bind_eq_ok.1 hd
    obtain rfl : labelOf msg = label := by simpa using (readLabel_of h.readable).symm.trans hlabel
    split at hd
    · cases hd
    next hid =>
      have hid := not_not.1 hid
      obtain ⟨reply, hreply, hd⟩ := bind_eq_ok.1 hd
      obtain ⟨c, hc, hd⟩ := bind_eq_ok.1 hd
      have hword : wordSize ≤ dataCount msg := by
        by_contra hno
        rw [labelOf, if_neg hno] at hid
        exact id.nonzero hid.symm
      have herr : c.err = false := by
        cases hce : c.err with
        | false => rfl
        | true => simp [hce] at hd
      rw [labelOf, if_pos hword] at hid
      refine ⟨hword, hid, (rpcStore_succeeds_iff junk h hword).1 ⟨c, hc, herr⟩, ?_⟩
      rintro rfl
      exact capCount_pos_of_readReply hreply
  · rintro ⟨hword, hid, hsupplies, hreply⟩
    obtain ⟨c, hc, herr⟩ := (rpcStore_succeeds_iff junk h hword).2 hsupplies
    have hlabel : labelOf msg = id.value := by rw [labelOf, if_pos hword, hid]
    refine ⟨⟨if wantReply then some (cap msg 0) else none, c.stored⟩, ?_⟩
    rw [sendUnmarshal, readLabel_of h.readable, ok_bind, if_neg (not_not.2 hlabel),
      readReply_of hreply, ok_bind, hc, ok_bind, herr]
    rfl

theorem replyUnmarshal_succeeds_iff (h : CountsFit msg) :
    (∃ d, replyUnmarshal junk params msg = .ok (.ok d)) ↔
      wordSize ≤ dataCount msg ∧ word msg 0 = 0 ∧ Supplies msg 0 params := by
  have hfirst : wordSize ≤ dataCount msg → vgMessageWord msg 0 = .ok (word msg 0) := fun hword =>
    vgMessageWord_of h.readable
      (Nat.div_pos (wordSize_le_vgMessageDataCount.2 hword) (by decide))
  unfold replyUnmarshal
  constructor
  · rintro ⟨d, hd⟩
    split at hd
    next hdata =>
      have hword := wordSize_le_vgMessageDataCount.1 hdata
      rw [hfirst hword, ok_bind] at hd
      split at hd
      · cases hd
      next herrno =>
        obtain ⟨c, hc, hd⟩ := bind_eq_ok.1 hd
        have herr : c.err = false := by
          cases hce : c.err with
          | false => rfl
          | true => simp [hce] at hd
        exact ⟨hword, not_not.1 herrno, (rpcStore_succeeds_iff junk h hword).1 ⟨c, hc, herr⟩⟩
    next => cases hd
  · rintro ⟨hword, hzero, hsupplies⟩
    obtain ⟨c, hc, herr⟩ := (rpcStore_succeeds_iff junk h hword).2 hsupplies
    refine ⟨⟨none, c.stored⟩, ?_⟩
    rw [if_pos (wordSize_le_vgMessageDataCount.2 hword), hfirst hword, ok_bind,
      if_neg (not_not.2 hzero), hc, ok_bind, herr]
    rfl

/-! ### Round trips -/

/-- An argument as the receiver asks for it: with a pointer, or with a null pointer. -/
def paramOf (a : Value × Bool) : Param := ⟨a.1.type, a.2⟩

/-- What the receiver then gets. -/
def received (a : Value × Bool) : Option Value := if a.2 then some a.1 else none

theorem map_type_paramOf (args : List (Value × Bool)) :
    (args.map paramOf).map Param.type = (args.map Prod.fst).map Value.type := by
  simp [paramOf]

theorem Holds.countsFit (h : Holds msg caps data) : CountsFit msg := by
  rw [CountsFit, h.capCount_eq, h.dataCount_eq]
  exact h.fits

theorem getElem?_middle {α : Type*} {l pre mid post : List α} (h : l = pre ++ mid ++ post) {a : α}
    (ha : mid[i]? = some a) : l[pre.length + i]? = some a := by
  have hi : i < mid.length := (List.getElem?_eq_some_iff.1 ha).1
  rw [h, append_assoc, getElem?_append_right (by omega), Nat.add_sub_cancel_left,
    getElem?_append_left hi, ha]

/-- An argument that lies in the message is decoded. -/
theorem Holds.decodeAt_eq {cpost : List VgAddr} {dpost : List (BitVec 8)}
    (h : Holds msg caps data) (v : Value) (hcaps : caps = cpre ++ v.capList ++ cpost)
    (hdata : data = dpre ++ v.byteList junk ++ dpost) (hd : dpre.length = d * wordSize) :
    decodeAt msg v.type d cpre.length = v := by
  cases v with
  | cap addr =>
    have hcap := h.cap_eq _ addr (getElem?_middle hcaps (i := 0) rfl)
    exact congrArg Value.cap hcap
  | data bytes =>
    refine congrArg Value.data (ext_getElem (by simp) fun j hj hj' => ?_)
    have hraw : (Value.byteList junk (.data bytes))[j]? = some bytes[j] := by
      rw [Value.byteList, getElem?_map, getElem?_range, Option.map_some, rawData,
        getElem?_eq_getElem hj', Option.getD_some]
      exact hj'.trans_le (size_le_words bytes.length)
    have hbyte := h.data_eq _ _ (getElem?_middle hdata hraw)
    rw [getElem_map, getElem_range, vgMessageData, h.capCount_eq, ← hd, Nat.add_assoc]
    exact hbyte

/-- All arguments that lie in the message one after the other are decoded. -/
theorem Holds.decodeAll_eq (h : Holds msg caps data) (args : List (Value × Bool)) {d : ℕ}
    (hcaps : caps = cpre ++ (args.map Prod.fst).flatMap Value.capList)
    (hdata : data = dpre ++ (args.map Prod.fst).flatMap (Value.byteList junk))
    (hd : dpre.length = d * wordSize) :
    decodeAll msg (args.map paramOf) d cpre.length = args.map received := by
  induction args generalizing cpre dpre d with
  | nil => rfl
  | cons a args ih =>
    simp only [map_cons, flatMap_cons, ← append_assoc] at hcaps hdata
    have hhead := h.decodeAt_eq a.1 hcaps hdata hd
    have htail := ih hcaps hdata (d := d + a.1.type.words) (by
      rw [length_append, length_byteList, hd, Nat.add_mul])
    rw [length_append, length_capList] at htail
    change (if a.2 then some (decodeAt msg a.1.type d cpre.length) else none) ::
      decodeAll msg (args.map paramOf) (d + a.1.type.words) (cpre.length + a.1.type.caps) = _
    rw [hhead, htail]
    rfl

/-- A message with `k` capabilities and one word before the arguments fits a page. -/
def FitsPage (k : ℕ) (ts : List ArgType) : Prop :=
  capOffset (k + totalCaps ts) + (1 + totalWords ts) * wordSize ≤ pagesize

instance (k : ℕ) (ts : List ArgType) : Decidable (FitsPage k ts) :=
  inferInstanceAs (Decidable (_ ≤ _))

instance (msg : ByteMemory) : Decidable (CountsFit msg) := inferInstanceAs (Decidable (_ ≤ _))

theorem word_of_holds (h : Holds msg caps (wordBytes w ++ data)) : word msg 0 = w := by
  have hlt : w.toNat < 256 ^ wordSize := w.isLt
  have hle : msg.le (vgMessageData msg + 0 * wordSize) wordSize = w.toNat := by
    refine ByteMemory.le_eq_of_digits hlt fun k hk => ?_
    rw [vgMessageData, h.capCount_eq, Nat.zero_mul, Nat.add_zero]
    refine h.data_eq k _ ?_
    rw [getElem?_append_left (by rwa [length_wordBytes]), wordBytes, getElem?_map,
      getElem?_range hk]
    rfl
  rw [word, hle, BitVec.ofNat_toNat, BitVec.setWidth_eq]

/-- The arguments of a marshalled message are fetched as they were sent. -/
theorem Holds.rpcStore_eq (junk' : ByteMemory) {args : List (Value × Bool)}
    (h : Holds msg (cpre ++ (args.map Prod.fst).flatMap Value.capList)
      (wordBytes w ++ (args.map Prod.fst).flatMap (Value.byteList junk))) :
    ∃ c, rpcStore junk' msg (args.map paramOf) ⟨1, cpre.length, false, []⟩ = .ok c ∧
      c.err = false ∧ c.stored = args.map received := by
  have hfit := h.countsFit
  have htypes := map_type_paramOf args
  refine ⟨_, rpcStore_of junk' hfit.readable (args.map paramOf) rfl ?_ (.inr ?_), rfl, ?_⟩
  · rw [hfit.dataCount_eq, h.dataCount_eq, htypes, length_append, length_wordBytes,
      length_flatMap_byteList]
    simp only [wordSize]
    omega
  · rw [hfit.capCount_eq, h.capCount_eq, htypes, length_append, length_flatMap_capList]
  · rw [nil_append]
    exact h.decodeAll_eq args rfl rfl (by rw [length_wordBytes, Nat.one_mul])

theorem send_round_trip (junk junk' msg : ByteMemory) (id : MethodId) (reply : VgAddr)
    (wantReply : Bool) (args : List (Value × Bool))
    (hfits : FitsPage 1 ((args.map Prod.fst).map Value.type)) :
    ∃ m, sendMarshal junk id (args.map Prod.fst) reply msg = .ok m ∧
      sendUnmarshal junk' id (args.map paramOf) wantReply m =
        .ok (.ok ⟨if wantReply then some reply else none, args.map received⟩) := by
  have hroom : capOffset 1 + wordSize ≤ pagesize := by decide
  rw [FitsPage, Nat.add_mul, Nat.one_mul] at hfits
  obtain ⟨m₁, hm₁, h₁⟩ := (holds_clear msg).appendWord (w := id.value) (by decide)
  obtain ⟨m₂, hm₂, h₂⟩ := h₁.appendCap reply hroom
  rw [nil_append, nil_append] at h₂
  obtain ⟨m, hm, h⟩ := h₂.load junk (args.map Prod.fst) hfits
  refine ⟨m, by rw [sendMarshal, hm₁, ok_bind, hm₂, ok_bind, hm], ?_⟩
  have hfit := h.countsFit
  have hword : wordSize ≤ dataCount m := by
    rw [h.dataCount_eq, length_append, length_wordBytes]
    omega
  have hlabel : labelOf m = id.value := by rw [labelOf, if_pos hword, word_of_holds h]
  have hpos : 0 < capCount m := by
    rw [h.capCount_eq]
    simp
  have hreply : cap m 0 = reply := h.cap_eq 0 reply rfl
  obtain ⟨c, hc, herr, hstored⟩ := h.rpcStore_eq junk'
  rw [sendUnmarshal, readLabel_of hfit.readable, ok_bind, if_neg (not_not.2 hlabel),
    readReply_of fun _ => hpos, ok_bind]
  change (rpcStore junk' m (args.map paramOf) ⟨1, [reply].length, false, []⟩ >>= _) = _
  rw [hc, ok_bind, herr, hstored, hreply]
  rfl

/-- The values of a reply, in the order in which they are marshalled. -/
def replyArgs (outs : List (List (BitVec 8) × Bool)) (rets : List (VgAddr × Bool)) :
    List (Value × Bool) :=
  outs.map (fun o => (.data o.1, o.2)) ++ rets.map fun r => (.cap r.1, r.2)

theorem reply_round_trip (junk junk' msg : ByteMemory) (outs : List (List (BitVec 8) × Bool))
    (rets : List (VgAddr × Bool))
    (hfits : FitsPage 0 (((replyArgs outs rets).map Prod.fst).map Value.type)) :
    ∃ m, replyMarshal junk (outs.map Prod.fst) (rets.map Prod.fst) msg = .ok m ∧
      replyUnmarshal junk' ((replyArgs outs rets).map paramOf) m =
        .ok (.ok ⟨none, (replyArgs outs rets).map received⟩) := by
  set args := replyArgs outs rets with hargs
  have hvalues : (outs.map Prod.fst).map Value.data ++ (rets.map Prod.fst).map Value.cap =
      args.map Prod.fst := by simp [hargs, replyArgs, comp_def]
  have hcaps : totalCaps ((args.map Prod.fst).map Value.type) = (rets.map Prod.fst).length := by
    simp [hargs, replyArgs, totalCaps, Value.type, ArgType.caps, comp_def]
  rw [FitsPage, Nat.add_mul, Nat.one_mul] at hfits
  obtain ⟨m₁, hm₁, h₁⟩ := (holds_clear msg).appendWord (w := 0) (by decide)
  rw [nil_append] at h₁
  obtain ⟨m, hm, h⟩ := h₁.load junk (args.map Prod.fst) hfits
  have hfit := h.countsFit
  have hcount : vgMessageCapCount m = (rets.map Prod.fst).length := by
    rw [hfit.capCount_eq, h.capCount_eq, nil_append, length_flatMap_capList, hcaps]
  refine ⟨m, ?_, ?_⟩
  · rw [replyMarshal, hvalues, hm₁, ok_bind, hm, ok_bind, require_of hcount]
    rfl
  · have hword : wordSize ≤ dataCount m := by
      rw [h.dataCount_eq, length_append, length_wordBytes]
      omega
    obtain ⟨c, hc, herr, hstored⟩ := h.rpcStore_eq junk'
    have hdata := wordSize_le_vgMessageDataCount.2 hword
    rw [replyUnmarshal, if_pos hdata,
      vgMessageWord_of hfit.readable (Nat.div_pos hdata (by decide)), ok_bind, word_of_holds h,
      if_neg (not_not.2 rfl)]
    change (rpcStore junk' m (args.map paramOf) ⟨1, ([] : List VgAddr).length, false, []⟩ >>= _) = _
    rw [hc, ok_bind, herr, hstored]
    rfl

/-- **Marshalling round trip.** Requests and replies that fit a page are decoded as they were
encoded, whatever the stack of either side held; and a page whose counts fit is decoded successfully
iff it starts with the label (for a reply, with a zero error code) and is long enough. -/
theorem marshal_round_trip :
    (∀ (junk junk' msg : ByteMemory) (id : MethodId) (reply : VgAddr) (wantReply : Bool)
      (args : List (Value × Bool)), FitsPage 1 ((args.map Prod.fst).map Value.type) →
      ∃ m, sendMarshal junk id (args.map Prod.fst) reply msg = .ok m ∧
        sendUnmarshal junk' id (args.map paramOf) wantReply m =
          .ok (.ok ⟨if wantReply then some reply else none, args.map received⟩)) ∧
    (∀ (junk junk' msg : ByteMemory) (outs : List (List (BitVec 8) × Bool))
      (rets : List (VgAddr × Bool)),
      FitsPage 0 (outs.map (fun o => .data o.1.length) ++ rets.map fun _ => .cap) →
      ∃ m, replyMarshal junk (outs.map Prod.fst) (rets.map Prod.fst) msg = .ok m ∧
        replyUnmarshal junk' (outs.map (fun o => ⟨.data o.1.length, o.2⟩) ++
            rets.map fun r => ⟨.cap, r.2⟩) m =
          .ok (.ok ⟨none, outs.map (fun o => if o.2 then some (.data o.1) else none) ++
            rets.map fun r => if r.2 then some (.cap r.1) else none⟩)) ∧
    (∀ (junk msg : ByteMemory) (id : MethodId) (params : List Param) (wantReply : Bool),
      CountsFit msg →
      ((∃ d, sendUnmarshal junk id params wantReply msg = .ok (.ok d)) ↔
        wordSize ≤ dataCount msg ∧ word msg 0 = id.value ∧ Supplies msg 1 params ∧
          (wantReply = true → 0 < capCount msg))) ∧
    (∀ (junk msg : ByteMemory) (params : List Param), CountsFit msg →
      ((∃ d, replyUnmarshal junk params msg = .ok (.ok d)) ↔
        wordSize ≤ dataCount msg ∧ word msg 0 = 0 ∧ Supplies msg 0 params)) := by
  refine ⟨send_round_trip, fun junk junk' msg outs rets hfits => ?_,
    fun _ _ _ _ _ => sendUnmarshal_succeeds_iff, fun _ _ _ => replyUnmarshal_succeeds_iff⟩
  have hreply := reply_round_trip junk junk' msg outs rets
  simp only [replyArgs, map_append, map_map, comp_def, paramOf, received, Value.type] at hreply
  exact hreply hfits

/-- A request with a structure of five bytes and a capability, a reply with one byte and a
capability, and an empty page, which neither side accepts. -/
theorem marshal_round_trip_request :
    (∃ m, sendMarshal (fun _ => 7) ⟨202, by decide⟩ [.data [1, 2, 3, 4, 5], .cap .void] .void
        (fun _ => 9) = .ok m ∧
      sendUnmarshal (fun _ => 3) ⟨202, by decide⟩ [⟨.data 5, true⟩, ⟨.cap, true⟩] true m =
        .ok (.ok ⟨some .void, [some (.data [1, 2, 3, 4, 5]), some (.cap .void)]⟩)) ∧
    (∃ m, replyMarshal (fun _ => 7) [[1]] [.void] (fun _ => 9) = .ok m ∧
      replyUnmarshal (fun _ => 3) [⟨.data 1, true⟩, ⟨.cap, true⟩] m =
        .ok (.ok ⟨none, [some (.data [1]), some (.cap .void)]⟩)) ∧
    (¬ ∃ d, sendUnmarshal (fun _ => 3) ⟨202, by decide⟩ [] false (fun _ => 0) = .ok (.ok d)) ∧
    ¬ ∃ d, replyUnmarshal (fun _ => 3) [] (fun _ => 0) = .ok (.ok d) := by
  obtain ⟨hsend, hreply, hsend', hreply'⟩ := marshal_round_trip
  refine ⟨hsend (fun _ => 7) (fun _ => 3) (fun _ => 9) ⟨202, by decide⟩ .void true
    [(.data [1, 2, 3, 4, 5], true), (.cap .void, true)] (by decide),
    hreply (fun _ => 7) (fun _ => 3) (fun _ => 9) [([1], true)] [(.void, true)] (by decide), ?_, ?_⟩
  · rw [hsend' _ _ _ _ _ (by decide)]
    exact fun h => absurd h.1 (by decide)
  · rw [hreply' _ _ _ (by decide)]
    exact fun h => absurd h.1 (by decide)

end Rpc

end Viengoos
