import AesdChar.CircularBuffer
import AesdChar.Lib.Heap

/-!
# The character driver

`main.c`, function by function, over the device of `aesdchar.h` and the heap its pointers lead
into.  What the kernel decides during a call (whether `kmalloc` succeeds, how much a user copy
moves, whether a lock acquisition is interrupted) is an argument of the call.  Lines that only
print are left out.
-/

namespace AesdChar

open CInt

def ENOMEM : Int := 12
def EFAULT : Int := 14
def ERESTARTSYS : Int := 512

def SEEK_SET : Int := 0
def SEEK_CUR : Int := 1
def SEEK_END : Int := 2

/-- `_IOWR (0x16, 1, struct aesd_seekto)`. -/
def AESDCHAR_IOCSEEKTO : Nat := 0xC0081601

def NEWLINE : UInt8 := 10

structure AesdSeekto where
  writeCmd : Nat
  writeCmdOffset : Nat
deriving DecidableEq

structure AesdDev where
  buffer : AesdCircularBuffer
  partMemPtr : Option Nat
  partBufSize : Int
deriving DecidableEq

structure Driver where
  dev : AesdDev
  heap : Heap

/-! ## Kernel services -/

/-- Every `KMALLOC_MAX_SIZE` is below this. -/
def KMALLOC_LIMIT : Nat := 2147483648

/-- `fresh` is `none` when the allocator has no memory to give.  A request for no bytes is always
served. -/
def kmallocSucceeds (size : Nat) (fresh : Option (Nat → UInt8)) : Bool :=
  size == 0 || (fresh.isSome && decide (size < KMALLOC_LIMIT))

/-- What lies in a block before it is written. -/
def freshBytes (size : Nat) (fresh : Option (Nat → UInt8)) : List UInt8 :=
  (List.range size).map (fresh.getD fun _ => 0)

/-- Every block is a new one.  So is one of no bytes, for which the kernel hands out
`ZERO_SIZE_PTR`. -/
def kmalloc (heap : Heap) (size : Nat) (fresh : Option (Nat → UInt8)) : Option (Nat × Heap) :=
  if kmallocSucceeds size fresh then some (heap.issued, heap.alloc (freshBytes size fresh))
  else none

/-- What the kernel does during one `aesd_write`. -/
structure WriteEnv where
  -- `kmalloc (count, ..)`
  kmalloc : Option (Nat → UInt8)
  -- bytes that `__copy_from_user` does not copy
  notCopied : Nat
  -- `mutex_lock_interruptible` returns nonzero
  interrupted : Bool
  -- `kmalloc (new_size, ..)` in `handle_partial_data`
  concat : Option (Nat → UInt8)
  -- bytes behind the end of a block
  stale : Nat → UInt8

structure ReadEnv where
  interrupted : Bool
  -- bytes that `__copy_to_user` does not copy
  notCopied : Nat
  stale : Nat → UInt8

/-! ## Writing -/

def handlePartialData (heap : Heap) (partialDataBuf : Option Nat) (partialMemSize : Int)
    (newDataPtr : Option Nat) (newSize : Int) (env : WriteEnv) : Option Nat × Heap :=
  match partialDataBuf with
  | none => (newDataPtr, heap)
  | some _ =>
      match kmalloc heap (sizeT newSize) env.concat with
      | none => (none, heap)
      | some (buf, heap) =>
          let heap := heap.memcpy buf 0 partialDataBuf 0 (sizeT partialMemSize) env.stale
          let heap := heap.memcpy buf (sizeT partialMemSize) newDataPtr 0
            (sizeT (newSize - partialMemSize)) env.stale
          (some buf, heap.free partialDataBuf)

/-- Scans all `count` bytes; one '\n' anywhere clears the flag. -/
def isDataPartial (buffptr : List UInt8) (count : Nat) : Bool :=
  (List.range count).foldl (fun part n => if buffptr[n]? = some NEWLINE then false else part) true

structure WriteResult where
  ret : Int
  fPos : Int
  driver : Driver

/-- The locked section of a write that holds a '\n', with the `kfree` that follows it.  The size
returned is what `*f_pos` advances by. -/
def commitWrite (s : Driver) (env : WriteEnv) (buffptr count : Nat) : Nat × Driver :=
  let part := s.dev.partMemPtr
  let totalBufSize := if part = none then 0 else int32 (s.dev.partBufSize + count)
  let handled := if part = none then (some buffptr, s.heap) else
    handlePartialData s.heap part s.dev.partBufSize (some buffptr)
      (int32 (s.dev.partBufSize + count)) env
  let size := if totalBufSize ≠ 0 then sizeT totalBufSize else count
  let added := aesdCircularBufferAddEntry s.dev.buffer ⟨handled.1, size⟩
  (size,
    { dev :=
        { buffer := added.2
          partMemPtr := none
          -- left alone when nothing was pending
          partBufSize := if part = none then s.dev.partBufSize else 0 }
      heap := handled.2.free added.1 })

/-- The locked section of a write without '\n'. -/
def keepPartial (s : Driver) (env : WriteEnv) (buffptr count : Nat) : Driver :=
  let handled := handlePartialData s.heap s.dev.partMemPtr s.dev.partBufSize (some buffptr)
    (int32 (s.dev.partBufSize + count)) env
  { dev :=
      { s.dev with
        partMemPtr := handled.1
        -- advanced whether or not the helper returned NULL
        partBufSize := int32 (s.dev.partBufSize + count) }
    heap := handled.2 }

def aesdWrite (s : Driver) (env : WriteEnv) (buf : List UInt8) (fPos : Int) : WriteResult :=
  let count := buf.length
  match kmalloc s.heap count env.kmalloc with
  | none => ⟨-ENOMEM, fPos, s⟩
  | some (buffptr, heap) =>
      -- a short `__copy_from_user` is only logged
      let heap := heap.store buffptr 0 (buf.take (count - env.notCopied))
      let s := { s with heap := heap }
      if isDataPartial (heap.bytes buffptr) count = false then
        if env.interrupted then ⟨0, fPos, { s with heap := heap.free (some buffptr) }⟩
        else
          let committed := commitWrite s env buffptr count
          ⟨count, int64 (fPos + committed.1), committed.2⟩
      else
        -- without the `kfree` of the other path
        if env.interrupted then ⟨0, fPos, s⟩
        else ⟨count, fPos, keepPartial s env buffptr count⟩

/-! ## Reading and seeking -/

structure ReadResult where
  ret : Int
  -- bytes placed in the user's buffer
  data : List UInt8
  fPos : Int
  driver : Driver

/-- `none` when the search for the entry does not come back.  The function never looks at
`count`. -/
def aesdRead (s : Driver) (env : ReadEnv) (_count : Nat) (fPos : Int) : Option ReadResult :=
  if env.interrupted then some ⟨-ERESTARTSYS, [], fPos, s⟩
  else
    match aesdCircularBufferFindEntryOffsetForFpos s.dev.buffer (sizeT fPos) with
    | none => none
    | some none => some ⟨0, [], fPos, s⟩
    | some (some (rdEntry, relativePos)) =>
        let entry := s.dev.buffer.slot rdEntry
        let n := sizeT (entry.size - relativePos)
        let bytes := s.heap.read entry.buffptr relativePos n env.stale
        let inBounds := decide (s.heap.InBounds entry.buffptr relativePos n)
        let s := { s with heap := { s.heap with fault := s.heap.fault || !inBounds } }
        if env.notCopied = 0 then
          some ⟨int64 n, bytes, int64 (fPos + int64 n), s⟩
        -- a failed copy is reported as the end of the data
        else some ⟨0, bytes.take (n - env.notCopied), fPos, s⟩

/-- `fixed_size_llseek (filp, offset, whence, size)`, from `filp->f_pos` to the result and the new
`filp->f_pos`. -/
abbrev LlseekFn := (fPos offset whence size : Int) → Int × Int

def aesdLlseek (fixedSizeLlseek : LlseekFn) (s : Driver) (interrupted : Bool)
    (fPos offset whence : Int) : Int × Int :=
  if whence = SEEK_SET ∨ whence = SEEK_CUR ∨ whence = SEEK_END then
    if interrupted then (-ERESTARTSYS, fPos)
    else fixedSizeLlseek fPos offset whence s.dev.buffer.cbSize
  else (-EINVAL, fPos)

/-- `arg` is `none` when `copy_from_user` fails. -/
def aesdIoctl (s : Driver) (interrupted : Bool) (fPos : Int) (cmd : Nat)
    (arg : Option AesdSeekto) : Option (Int × Int) :=
  if cmd = AESDCHAR_IOCSEEKTO then
    match arg with
    -- not negated in the source
    | none => some (EFAULT, fPos)
    | some seekto =>
        if interrupted then some (-ERESTARTSYS, fPos)
        else aesdAdjustFileOffset s.dev.buffer fPos seekto.writeCmd seekto.writeCmdOffset
  else some (-1, fPos)

/-! ## Module life -/

/-- The device after the `memset`, with nothing allocated yet. -/
def aesdInitModule : Driver where
  dev := { buffer := aesdCircularBufferInit, partMemPtr := none, partBufSize := 0 }
  heap := Heap.empty

/-- The buffers are freed whether or not the lock was acquired. -/
def aesdCleanupModule (s : Driver) : Option Heap :=
  cleanupCirculatBuffers Heap.free s.dev.buffer s.heap

/-! ## Runs of writes -/

structure WriteCall where
  buf : List UInt8
  fPos : Int
  env : WriteEnv

def Driver.write (s : Driver) (c : WriteCall) : Driver := (aesdWrite s c.env c.buf c.fPos).driver

def Driver.writes (s : Driver) (calls : List WriteCall) : Driver := calls.foldl Driver.write s

/-- The states that `aesd_write` calls lead to, failing ones included. -/
def Reachable (s : Driver) : Prop := ∃ calls, s = aesdInitModule.writes calls

end AesdChar
