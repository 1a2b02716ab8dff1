import AesdChar.FifoHistory
import AesdChar.WriteSteps
import AesdChar.Lib.LockTrace

/-!
# The discipline of `buf_lock`

The driver's calls once more, each with the trace of what it does to the lock and to the data under
it.  Every call is one critical section, but for two slips: `aesd_read` prints the entry it has read
after the unlock, and `aesd_cleanup_module` goes on, up to the unlock, when its lock was
interrupted.
-/

namespace AesdChar

open CInt LockTrace AesdCircularBuffer

/-- What `buf_lock` protects. -/
inductive Shared where
  -- the indices, the entries and `cb_size`
  | ring
  -- bytes reached through an entry
  | stored
  -- `part_mem_ptr`, `part_buf_size` and the bytes they lead to
  | pending
deriving DecidableEq

abbrev Trace := List (Event Shared)

/-! ## The calls with their traces -/

def aesdReadTraced (s : Driver) (env : ReadEnv) (fPos : Int) : Option ReadResult × Trace :=
  if env.interrupted then (some ⟨-ERESTARTSYS, [], fPos, s⟩, [])
  else
    match aesdCircularBufferFindEntryOffsetForFpos s.dev.buffer (sizeT fPos) with
    | none => (none, [.lock, .access .ring])
    | some none => (some ⟨0, [], fPos, s⟩, [.lock, .access .ring, .unlock])
    | some (some (rdEntry, relativePos)) =>
        let entry := s.dev.buffer.slot rdEntry
        let n := sizeT (entry.size - relativePos)
        let bytes := s.heap.read entry.buffptr relativePos n env.stale
        let inBounds := decide (s.heap.InBounds entry.buffptr relativePos n)
        let s := { s with heap := { s.heap with fault := s.heap.fault || !inBounds } }
        let result : ReadResult :=
          if env.notCopied = 0 then ⟨int64 n, bytes, int64 (fPos + int64 n), s⟩
          else ⟨0, bytes.take (n - env.notCopied), fPos, s⟩
        -- the last `PDEBUG` takes `rd_entry->buffptr` and prints the string there
        (some result,
          [.lock, .access .ring, .access .stored, .unlock, .access .ring, .access .stored])

/-- The accesses of the locked section of a write that holds a '\n'. -/
def commitAccesses (s : Driver) : List Shared :=
  if s.dev.partMemPtr = none then [.pending, .ring] else [.pending, .pending, .ring]

def aesdWriteTraced (s : Driver) (env : WriteEnv) (buf : List UInt8) (fPos : Int) :
    WriteResult × Trace :=
  let count := buf.length
  match kmalloc s.heap count env.kmalloc with
  | none => (⟨-ENOMEM, fPos, s⟩, [])
  | some (buffptr, heap) =>
      let heap := heap.store buffptr 0 (buf.take (count - env.notCopied))
      let s := { s with heap := heap }
      if isDataPartial (heap.bytes buffptr) count = false then
        if env.interrupted then (⟨0, fPos, { s with heap := heap.free (some buffptr) }⟩, [])
        else
          let committed := commitWrite s env buffptr count
          -- the evicted block is freed after the unlock: no entry leads to it any more
          (⟨count, int64 (fPos + committed.1), committed.2⟩,
            .lock :: ((commitAccesses s).map .access ++ [.unlock]))
      else
        if env.interrupted then (⟨0, fPos, s⟩, [])
        else
          (⟨count, fPos, keepPartial s env buffptr count⟩,
            .lock :: ([Shared.pending].map .access ++ [.unlock]))

def aesdLlseekTraced (fixedSizeLlseek : LlseekFn) (s : Driver) (interrupted : Bool)
    (fPos offset whence : Int) : (Int × Int) × Trace :=
  if whence = SEEK_SET ∨ whence = SEEK_CUR ∨ whence = SEEK_END then
    if interrupted then ((-ERESTARTSYS, fPos), [])
    else
      -- the size is read under the lock, the seek follows it
      (fixedSizeLlseek fPos offset whence s.dev.buffer.cbSize,
        .lock :: ([Shared.ring].map .access ++ [.unlock]))
  else ((-EINVAL, fPos), [])

def aesdIoctlTraced (s : Driver) (interrupted : Bool) (fPos : Int) (cmd : Nat)
    (arg : Option AesdSeekto) : Option (Int × Int) × Trace :=
  if cmd = AESDCHAR_IOCSEEKTO then
    match arg with
    | none => (some (EFAULT, fPos), [])
    | some seekto =>
        if interrupted then (some (-ERESTARTSYS, fPos), [])
        else
          (aesdAdjustFileOffset s.dev.buffer fPos seekto.writeCmd seekto.writeCmdOffset,
            .lock :: ([Shared.ring].map .access ++ [.unlock]))
  else (some (-1, fPos), [])

def aesdCleanupModuleTraced (s : Driver) (interrupted : Bool) : Option Heap × Trace :=
  -- a lock that was not acquired is only logged
  (cleanupCirculatBuffers Heap.free s.dev.buffer s.heap,
    if interrupted then [.access .ring, .unlock] else [.lock, .access .ring, .unlock])

/-! ## The traced calls are the calls -/

theorem aesdReadTraced_fst (s : Driver) (env : ReadEnv) (count : Nat) (fPos : Int) :
    (aesdReadTraced s env fPos).1 = aesdRead s env count fPos := by
  unfold aesdReadTraced aesdRead
  split
  · rfl
  · cases aesdCircularBufferFindEntryOffsetForFpos s.dev.buffer (sizeT fPos) with
    | none => rfl
    | some found =>
        cases found with
        | none => rfl
        | some entry =>
            dsimp only
            split <;> rfl

theorem aesdWriteTraced_fst (s : Driver) (env : WriteEnv) (buf : List UInt8) (fPos : Int) :
    (aesdWriteTraced s env buf fPos).1 = aesdWrite s env buf fPos := by
  unfold aesdWriteTraced aesdWrite
  dsimp only
  cases kmalloc s.heap buf.length env.kmalloc with
  | none => rfl
  | some block =>
      dsimp only
      split <;> split <;> rfl

theorem aesdLlseekTraced_fst (fixedSizeLlseek : LlseekFn) (s : Driver) (interrupted : Bool)
    (fPos offset whence : Int) :
    (aesdLlseekTraced fixedSizeLlseek s interrupted fPos offset whence).1 =
      aesdLlseek fixedSizeLlseek s interrupted fPos offset whence := by
  unfold aesdLlseekTraced aesdLlseek
  split
  · split <;> rfl
  · rfl

theorem aesdIoctlTraced_fst (s : Driver) (interrupted : Bool) (fPos : Int) (cmd : Nat)
    (arg : Option AesdSeekto) :
    (aesdIoctlTraced s interrupted fPos cmd arg).1 = aesdIoctl s interrupted fPos cmd arg := by
  unfold aesdIoctlTraced aesdIoctl
  split
  · cases arg with
    | none => rfl
    | some seekto =>
        dsimp only
        split <;> rfl
  · rfl

theorem aesdCleanupModuleTraced_fst (s : Driver) (interrupted : Bool) :
    (aesdCleanupModuleTraced s interrupted).1 = aesdCleanupModule s := rfl

/-! ## Runs of calls -/

inductive DriverCall where
  | read (env : ReadEnv) (count : Nat) (fPos : Int)
  | write (call : WriteCall)
  | llseek (interrupted : Bool) (fPos offset whence : Int)
  | ioctl (interrupted : Bool) (fPos : Int) (cmd : Nat) (arg : Option AesdSeekto)

namespace DriverCall

variable (fixedSizeLlseek : LlseekFn)

/-- Only reads and writes change the driver. -/
def step (s : Driver) : DriverCall → Driver
  | .read env count fPos => ((aesdRead s env count fPos).map ReadResult.driver).getD s
  | .write call => s.write call
  | .llseek .. => s
  | .ioctl .. => s

def trace (s : Driver) : DriverCall → Trace
  | .read env _ fPos => (aesdReadTraced s env fPos).2
  | .write call => (aesdWriteTraced s call.env call.buf call.fPos).2
  | .llseek interrupted fPos offset whence =>
      (aesdLlseekTraced fixedSizeLlseek s interrupted fPos offset whence).2
  | .ioctl interrupted fPos cmd arg => (aesdIoctlTraced s interrupted fPos cmd arg).2

/-- A read is interrupted, or there is nothing at its position. -/
def PrintsNothing (s : Driver) : DriverCall → Prop
  | .read env _ fPos =>
      env.interrupted = true ∨
        aesdCircularBufferFindEntryOffsetForFpos s.dev.buffer (sizeT fPos) = some none
  | _ => True

instance (s : Driver) (c : DriverCall) : Decidable (c.PrintsNothing s) :=
  match c with
  | .read .. => inferInstanceAs (Decidable (_ ∨ _))
  | .write _ => inferInstanceAs (Decidable True)
  | .llseek .. => inferInstanceAs (Decidable True)
  | .ioctl .. => inferInstanceAs (Decidable True)

end DriverCall

/-- Every call of the run is disciplined, and so is the removal of the module after it. -/
def LockDisciplined (fixedSizeLlseek : LlseekFn) (calls : List DriverCall)
    (cleanupInterrupted : Bool) : Prop :=
  (∀ pre c post, calls = pre ++ c :: post →
    Disciplined (c.trace fixedSizeLlseek (pre.foldl DriverCall.step aesdInitModule))) ∧
  Disciplined
    (aesdCleanupModuleTraced (calls.foldl DriverCall.step aesdInitModule) cleanupInterrupted).2

section

variable {s : Driver}

theorem aesdRead_dev {env : ReadEnv} {count : Nat} {fPos : Int} {r : ReadResult}
    (h : aesdRead s env count fPos = some r) : r.driver.dev = s.dev := by
  unfold aesdRead at h
  split at h
  · rw [← Option.some.inj h]
  · cases hf : aesdCircularBufferFindEntryOffsetForFpos s.dev.buffer (sizeT fPos) with
    | none => simp [hf] at h
    | some found =>
        rw [hf] at h
        cases found with
        | none => rw [← Option.some.inj h]
        | some entry =>
            dsimp only at h
            split at h <;> rw [← Option.some.inj h]

theorem ringReachable_step (h : RingReachable s.dev.buffer) (c : DriverCall) :
    RingReachable (c.step s).dev.buffer := by
  cases c with
  | read env count fPos =>
      rw [DriverCall.step]
      cases hr : aesdRead s env count fPos with
      | none => exact h
      | some r =>
          rw [Option.map_some, Option.getD_some, aesdRead_dev hr]
          exact h
  | write call => exact h.write call
  | llseek => exact h
  | ioctl => exact h

theorem disciplined_read_iff (h : RingInv s.dev.buffer) (env : ReadEnv) (fPos : Int) :
    Disciplined (aesdReadTraced s env fPos).2 ↔
      env.interrupted = true ∨
        aesdCircularBufferFindEntryOffsetForFpos s.dev.buffer (sizeT fPos) = some none := by
  unfold aesdReadTraced
  by_cases hi : env.interrupted = true
  · rw [if_pos hi]
    exact iff_of_true ((disciplined_iff _).mpr rfl) (Or.inl hi)
  · rw [if_neg hi, or_iff_right hi]
    obtain ⟨found, hfound⟩ := Option.isSome_iff_exists.mp ((walksVisit_slots h).find (sizeT fPos)).2
    rw [hfound]
    cases found with
    | none => exact iff_of_true (disciplined_section [Shared.ring]) rfl
    | some entry =>
        apply iff_of_false
        · -- the print behind the unlock
          intro hd
          exact absurd (hd.holding [.lock, .access .ring, .access .stored, .unlock] _ _ rfl trivial)
            (by decide)
        · simp

theorem disciplined_nothing : Disciplined ([] : Trace) := (disciplined_iff _).mpr rfl

theorem disciplined_write (c : WriteCall) :
    Disciplined (aesdWriteTraced s c.env c.buf c.fPos).2 := by
  unfold aesdWriteTraced
  dsimp only
  cases kmalloc s.heap c.buf.length c.env.kmalloc with
  | none => exact disciplined_nothing
  | some block =>
      dsimp only
      split <;> split
      · exact disciplined_nothing
      · exact disciplined_section _
      · exact disciplined_nothing
      · exact disciplined_section _

theorem disciplined_llseek (fixedSizeLlseek : LlseekFn) (interrupted : Bool)
    (fPos offset whence : Int) :
    Disciplined (aesdLlseekTraced fixedSizeLlseek s interrupted fPos offset whence).2 := by
  unfold aesdLlseekTraced
  split
  · split
    · exact disciplined_nothing
    · exact disciplined_section _
  · exact disciplined_nothing

theorem disciplined_ioctl (interrupted : Bool) (fPos : Int) (cmd : Nat)
    (arg : Option AesdSeekto) :
    Disciplined (aesdIoctlTraced s interrupted fPos cmd arg).2 := by
  unfold aesdIoctlTraced
  split
  · cases arg with
    | none => exact disciplined_nothing
    | some seekto =>
        dsimp only
        split
        · exact disciplined_nothing
        · exact disciplined_section _
  · exact disciplined_nothing

theorem disciplined_cleanup_iff (interrupted : Bool) :
    Disciplined (aesdCleanupModuleTraced s interrupted).2 ↔ interrupted = false := by
  cases interrupted with
  | false => exact iff_of_true (disciplined_section [Shared.ring]) rfl
  | true =>
      apply iff_of_false
      · intro hd
        exact absurd (hd.holding [] _ _ rfl trivial) (by decide)
      · exact Bool.noConfusion

theorem disciplined_call_iff (fixedSizeLlseek : LlseekFn) (h : RingInv s.dev.buffer)
    (c : DriverCall) : Disciplined (c.trace fixedSizeLlseek s) ↔ c.PrintsNothing s := by
  cases c with
  | read env count fPos => exact disciplined_read_iff h env fPos
  | write call => exact iff_of_true (disciplined_write call) trivial
  | llseek => exact iff_of_true (disciplined_llseek _ _ _ _ _) trivial
  | ioctl => exact iff_of_true (disciplined_ioctl _ _ _ _) trivial

end

/-- A run keeps the discipline exactly when no read of it finds an entry, and the removal of the
module gets the lock. -/
theorem lockDisciplined_iff (fixedSizeLlseek : LlseekFn) (calls : List DriverCall)
    (cleanupInterrupted : Bool) :
    LockDisciplined fixedSizeLlseek calls cleanupInterrupted ↔
      Runs.Guarded DriverCall.step (fun s c => c.PrintsNothing s) aesdInitModule calls ∧
        cleanupInterrupted = false := by
  rw [LockDisciplined, disciplined_cleanup_iff, ← @Runs.guarded_iff_forall _ _ DriverCall.step
    fun s c => Disciplined (c.trace fixedSizeLlseek s)]
  apply and_congr_left
  intro _
  exact Runs.guarded_congr (fun s : Driver => RingReachable s.dev.buffer)
    (fun _ c hs => ringReachable_step hs c)
    (fun _ c hs => disciplined_call_iff fixedSizeLlseek hs.inv c) RingReachable.init calls

/-- `"a\n"` is written and read. -/
theorem read_prints_unlocked :
    ¬ LockDisciplined (fun fPos _ _ _ => (fPos, fPos))
      [.write ⟨[97, 10], 0, ⟨some fun _ => 0, 0, false, some fun _ => 0, fun _ => 0⟩⟩,
        .read ⟨false, 0, fun _ => 0⟩ 1024 0] false := by
  intro h
  have hread := h.1
    [.write ⟨[97, 10], 0, ⟨some fun _ => 0, 0, false, some fun _ => 0, fun _ => 0⟩⟩] _ [] rfl
  exact absurd hread (by decide)

end AesdChar
