import Viengoos.Addr
import Viengoos.Lib.ByteMemory

/-!
# The layout of a message

`struct vg_message`: a page that starts with two 16-bit counts, followed by the addresses of the
capabilities and by the data. The counts are whatever the sender stored; `vg_message_cap_count` and
`vg_message_data_count` clamp them to what fits the page, and `vg_message_data` does not.
-/

namespace Viengoos

namespace Message

/-- `__builtin_offsetof (struct vg_message, caps)`. -/
def capsOffset : ℕ := 4

/-- `sizeof (vg_addr_t)`. -/
def addrSize : ℕ := 8

/-- `sizeof (uintptr_t)`. -/
def wordSize : ℕ := 4

/-- `msg->cap_count`. -/
def capCount (b : ByteMemory) : ℕ := b.le 0 2

/-- `msg->data_count`. -/
def dataCount (b : ByteMemory) : ℕ := b.le 2 2

/-- `vg_message_cap_count`. -/
def vgMessageCapCount (b : ByteMemory) : ℕ :=
  min (capCount b) ((pagesize - capsOffset) / addrSize)

/-- `vg_message_data_count`. -/
def vgMessageDataCount (b : ByteMemory) : ℕ :=
  min (dataCount b) (pagesize - vgMessageCapCount b * addrSize - capsOffset)

/-- Where `&msg->caps[i]` is. -/
def capOffset (i : ℕ) : ℕ := capsOffset + i * addrSize

/-- `vg_message_data`, which does not clamp the count. -/
def vgMessageData (b : ByteMemory) : ℕ := capOffset (capCount b)

/-- `msg->caps[i]`. -/
def cap (b : ByteMemory) (i : ℕ) : VgAddr :=
  ⟨b.le (capOffset i) addrSize, (b.le_lt (capOffset i) addrSize).trans_eq (by decide)⟩

variable {b : ByteMemory}

/-- Either all capabilities that the message claims to have are in the page, and the data too as far
as it is counted, or the data area starts beyond the last word of the page. -/
theorem vgMessageData_le (h : capCount b ≤ 511) :
    vgMessageData b + vgMessageDataCount b ≤ pagesize := by
  simp only [vgMessageData, vgMessageDataCount, vgMessageCapCount, capOffset, capsOffset, addrSize,
    pagesize]
  omega

theorem lt_vgMessageData (h : 511 < capCount b) :
    pagesize < vgMessageData b := by
  simp only [vgMessageData, capOffset, capsOffset, addrSize, pagesize]
  omega

theorem vgMessageDataCount_le (b : ByteMemory) : vgMessageDataCount b ≤ dataCount b :=
  min_le_left _ _

theorem vgMessageCapCount_le (b : ByteMemory) : vgMessageCapCount b ≤ capCount b :=
  min_le_left _ _

/-- The clamp always leaves room for one word. -/
theorem wordSize_le_vgMessageDataCount :
    wordSize ≤ vgMessageDataCount b ↔ wordSize ≤ dataCount b := by
  simp only [vgMessageDataCount, vgMessageCapCount, capsOffset, addrSize, pagesize, wordSize]
  omega

end Message

end Viengoos
