import AesdChar.Lib.CInt
import AesdChar.Lib.Loop

/-!
# The circular buffer of the driver

`aesd-circular-buffer.c`, function by function.  A pointer is a block id or `none` for NULL, and
a `struct aesd_buffer_entry *` into the buffer is the index of its slot.
-/

namespace AesdChar

open CInt

def AESDCHAR_MAX_WRITE_OPERATIONS_SUPPORTED : Nat := 10

def EINVAL : Int := 22

structure AesdBufferEntry where
  buffptr : Option Nat
  size : Nat
deriving DecidableEq, Repr

structure AesdCircularBuffer where
  entry : Vector AesdBufferEntry AESDCHAR_MAX_WRITE_OPERATIONS_SUPPORTED
  inOffs : Nat
  outOffs : Nat
  full : Bool
  cbSize : Nat
deriving DecidableEq

namespace AesdCircularBuffer

def slot (b : AesdCircularBuffer) (i : Nat) : AesdBufferEntry := (b.entry[i]?).getD ⟨none, 0⟩

def setSlot (b : AesdCircularBuffer) (i : Nat) (e : AesdBufferEntry) : AesdCircularBuffer :=
  { b with entry := b.entry.setIfInBounds i e }

theorem slot_setSlot_self (b : AesdCircularBuffer) {i : Nat} (e : AesdBufferEntry)
    (hi : i < AESDCHAR_MAX_WRITE_OPERATIONS_SUPPORTED) : (b.setSlot i e).slot i = e := by
  simp [slot, setSlot, hi]

theorem slot_setSlot_of_ne (b : AesdCircularBuffer) {i j : Nat} (e : AesdBufferEntry)
    (h : j ≠ i) : (b.setSlot i e).slot j = b.slot j := by
  simp [slot, setSlot, Vector.getElem?_setIfInBounds_ne h.symm]

end AesdCircularBuffer

def nextPtr (ptr : Nat) : Nat :=
  if ptr + 1 ≥ AESDCHAR_MAX_WRITE_OPERATIONS_SUPPORTED then 0 else ptr + 1

/-- `memset (buffer, 0, ..)`. -/
def aesdCircularBufferInit : AesdCircularBuffer where
  entry := Vector.replicate AESDCHAR_MAX_WRITE_OPERATIONS_SUPPORTED ⟨none, 0⟩
  inOffs := 0
  outOffs := 0
  full := false
  cbSize := 0

/-- The returned pointer is that of the overwritten entry, NULL when there is none. -/
def aesdCircularBufferAddEntry (buffer : AesdCircularBuffer) (addEntry : AesdBufferEntry) :
    Option Nat × AesdCircularBuffer :=
  let nextInIndex := nextPtr buffer.inOffs
  let oldest := buffer.slot buffer.outOffs
  let removeBuffptr := if buffer.full then oldest.buffptr else none
  let rmBufSize := if buffer.full then int32 oldest.size else 0
  let outOffs := if buffer.full then nextInIndex else buffer.outOffs
  let full := buffer.full || decide (nextInIndex = buffer.outOffs)
  let written := buffer.setSlot buffer.inOffs addEntry
  -- `uint32_t += size_t - int`: computed as `size_t`, then narrowed
  (removeBuffptr,
    { written with
      inOffs := nextInIndex
      outOffs := outOffs
      full := full
      cbSize := uint32 (buffer.cbSize + sizeT (addEntry.size - rmBufSize)) })

/-! ## The walk over the stored entries

Three functions walk the buffer in the same way: start at `out_offs`, step with `nextPtr`, stop
when the next index is `in_offs`.  They differ in what they do with an entry, and in what they
return at the end. -/

section Walk

variable {α ρ : Type}

def walkBody (buffer : AesdCircularBuffer) (visit : Nat → α → Loop.Step α ρ) (atEnd : α → ρ) :
    Nat × Nat × α → Loop.Step (Nat × Nat × α) ρ
  | (entry, nextOutIndex, acc) =>
      match visit entry acc with
      | .done r => .done r
      | .hang => .hang
      | .next acc =>
          if nextOutIndex = buffer.inOffs then .done (atEnd acc)
          else .next (nextOutIndex, nextPtr nextOutIndex, acc)

/-- `none` when the loop has not left after `fuel` rounds. -/
def walk (fuel : Nat) (buffer : AesdCircularBuffer) (visit : Nat → α → Loop.Step α ρ)
    (atEnd : α → ρ) (acc : α) : Option ρ :=
  Loop.run (walkBody buffer visit atEnd) fuel (buffer.outOffs, nextPtr buffer.outOffs, acc)

end Walk

/-- The test for an empty buffer that precedes each walk. -/
def AesdCircularBuffer.isEmpty (buffer : AesdCircularBuffer) : Bool :=
  buffer.inOffs == buffer.outOffs && !buffer.full

def findVisit (buffer : AesdCircularBuffer) (entry : Nat) (charPos : Int) :
    Loop.Step Int (Option (Nat × Nat)) :=
  -- `size_t > int`: the position is converted
  if (buffer.slot entry).size > sizeT charPos then .done (some (entry, sizeT charPos))
  else .next (int32 (sizeT charPos - (buffer.slot entry).size))

/-- The slot of the entry found and `*entry_offset_byte_rtn`, or NULL. -/
def aesdCircularBufferFindEntryOffsetForFpos (buffer : AesdCircularBuffer) (charOffset : Nat) :
    Option (Option (Nat × Nat)) :=
  if buffer.isEmpty then some none
  else
    walk AESDCHAR_MAX_WRITE_OPERATIONS_SUPPORTED buffer (findVisit buffer) (fun _ => none)
      (int32 charOffset)

/-- What `kfree` does to the heap is passed as `kfree`. -/
def cleanupCirculatBuffers {H : Type} (kfree : H → Option Nat → H) (buffer : AesdCircularBuffer)
    (heap : H) : Option H :=
  if buffer.isEmpty then some heap
  else
    walk AESDCHAR_MAX_WRITE_OPERATIONS_SUPPORTED buffer
      (fun entry heap => .next (kfree heap (buffer.slot entry).buffptr)) id heap

/-- One round of `aesd_adjust_file_offset`: `acc` holds `fpos` and `cmd_num`. -/
def adjustVisit (buffer : AesdCircularBuffer) (fPos : Int) (writeCmd writeCmdOffset : Nat)
    (entry : Nat) (acc : Int × Int) : Loop.Step (Int × Int) (Int × Int) :=
  let size := (buffer.slot entry).size
  if uint32 acc.2 = writeCmd then
    -- an offset equal to the size passes
    if size ≥ writeCmdOffset then .done (0, int64 (acc.1 + writeCmdOffset))
    else .done (-EINVAL, fPos)
  else .next (int64 (acc.1 + size), acc.2 + 1)

/-- Returns the result and the new `filp->f_pos`; `fPos` is the old one. -/
def aesdAdjustFileOffset (buffer : AesdCircularBuffer) (fPos : Int)
    (writeCmd writeCmdOffset : Nat) : Option (Int × Int) :=
  -- on the empty buffer the position is reset, and the result is no error
  if buffer.isEmpty then some (0, 0)
  else
    walk AESDCHAR_MAX_WRITE_OPERATIONS_SUPPORTED buffer
      (adjustVisit buffer fPos writeCmd writeCmdOffset) (fun _ => (-EINVAL, fPos)) (0, 0)

end AesdChar
