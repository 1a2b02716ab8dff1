import AesdChar.LogCalls
import AesdChar.Lib.Simulation

/-!
# The driver's calls, statement by statement

Any number of threads, each with a file of its own open on the one device, are each somewhere in a
call.  A turn runs one statement of one thread; `buf_lock` is all that keeps the others out.  What
`aesd_write` does in front of its lock and behind its unlock other threads can get between.
-/

namespace AesdChar

open CInt

/-- The next statement of a thread, with the variables it needs. -/
inductive CallPc where
  | idle
  -- `aesd_write`, up to the lock of either path
  | kmalloc (buf : List UInt8) (env : WriteEnv)
  | copyFromUser (buf : List UInt8) (env : WriteEnv) (buffptr : Nat)
  -- a '\n' was found
  | lockComplete (buf : List UInt8) (env : WriteEnv) (buffptr : Nat)
  | kfreeChunk (buffptr : Nat)
  | takePartial (buf : List UInt8) (env : WriteEnv) (buffptr : Nat)
  | addEntry (buf : List UInt8) (env : WriteEnv) (buffptr : Option Nat) (totalBufSize : Int)
  | unlockComplete (count : Nat) (rmBuffptr : Option Nat) (size : Nat)
  | kfreeRemoved (count : Nat) (rmBuffptr : Option Nat) (size : Nat)
  -- none was found
  | lockPartial (buf : List UInt8) (env : WriteEnv) (buffptr : Nat)
  | keepPartial (buf : List UInt8) (env : WriteEnv) (buffptr : Nat)
  -- `aesd_read`
  | lockRead (env : ReadEnv)
  | findEntry (env : ReadEnv)
  | copyToUser (env : ReadEnv) (rdEntry relativePos : Nat)
  | unlockRead (rdEntry : Nat) (ret : Int) (data : List UInt8)
  -- the last `PDEBUG`: it takes `rd_entry->buffptr`, then goes to the string
  | printEntry (rdEntry : Nat) (ret : Int) (data : List UInt8)
  | printString (buffptr : Option Nat) (ret : Int) (data : List UInt8)
  -- `aesd_llseek`
  | lockLlseek (interrupted : Bool) (offset whence : Int)
  | readSize (offset whence : Int)
  | unlockLlseek (offset whence : Int) (cbSize : Nat)
  | fixedSizeLlseek (offset whence : Int) (cbSize : Nat)
  -- `aesd_ioctl`
  | lockIoctl (interrupted : Bool) (seekto : AesdSeekto)
  | adjustOffset (seekto : AesdSeekto)
  -- the unlock in front of a return, and the return
  | unlock (ret : Int) (data : List UInt8)
  | returning (ret : Int) (data : List UInt8)

/-- The thread holds `buf_lock`. -/
def CallPc.inSection : CallPc → Bool
  | .takePartial _ _ _ => true
  | .addEntry _ _ _ _ => true
  | .unlockComplete _ _ _ => true
  | .keepPartial _ _ _ => true
  | .findEntry _ => true
  | .copyToUser _ _ _ => true
  | .unlockRead _ _ _ => true
  | .readSize _ _ => true
  | .unlockLlseek _ _ _ => true
  | .adjustOffset _ => true
  | .unlock _ _ => true
  | _ => false

/-- Where a call begins. -/
def FileOp.entry : FileOp → CallPc
  | .write buf env => .kmalloc buf env
  | .read _ env => .lockRead env
  | .llseek interrupted offset whence =>
      if whence = SEEK_SET ∨ whence = SEEK_CUR ∨ whence = SEEK_END then
        .lockLlseek interrupted offset whence
      else .returning (-EINVAL) []
  | .ioctl interrupted cmd arg =>
      if cmd = AESDCHAR_IOCSEEKTO then
        match arg with
        | none => .returning EFAULT []
        | some seekto => .lockIoctl interrupted seekto
      else .returning (-1) []

structure Kernel (ι : Type) where
  driver : Driver
  -- who holds `buf_lock`
  holder : Option ι
  pc : ι → CallPc
  fPos : ι → Int
  -- a block was printed that had been freed
  strayPrint : Bool

/-- A thread runs its next statement; one that is idle begins the call. -/
structure KernelTurn (ι : Type) where
  thread : ι
  op : FileOp

/-- What can be seen of a call from outside. -/
inductive CallEvent (ι : Type) where
  | called (i : ι) (op : FileOp)
  | returned (i : ι) (ret : Int) (data : List UInt8) (fPos : Int)

/-- The same, and what the device has of it: the effect of a call, with the chunk that completed a
command. -/
inductive DeviceEvent (ι : Type) where
  | seen (event : CallEvent ι)
  | effect (i : ι) (command : Option (List UInt8))

def DeviceEvent.seen? {ι : Type} : DeviceEvent ι → Option (CallEvent ι)
  | .seen event => some event
  | .effect _ _ => none

namespace Kernel

variable {ι : Type} [DecidableEq ι]

/-- Nobody is in a call on the zeroed device. -/
def start (fPos : ι → Int) : Kernel ι := ⟨aesdInitModule, none, fun _ => .idle, fPos, false⟩

def goto (k : Kernel ι) (i : ι) (pc : CallPc) : Kernel ι :=
  { k with pc := Function.update k.pc i pc }

/-- `mutex_lock_interruptible`: a lock that another thread holds is waited for. -/
def acquire (k : Kernel ι) (i : ι) (interrupted : Bool) (failed acquired : CallPc) : Kernel ι :=
  if interrupted then k.goto i failed
  else if k.holder = none then { k with holder := some i }.goto i acquired
  else k

def setHeap (k : Kernel ι) (heap : Heap) : Kernel ι :=
  { k with driver := { k.driver with heap := heap } }

def setFPos (k : Kernel ι) (i : ι) (fPos : Int) : Kernel ι :=
  { k with fPos := Function.update k.fPos i fPos }

def release (k : Kernel ι) : Kernel ι := { k with holder := none }

/-- `printk` of a string; NULL is printed as a word. -/
def print (k : Kernel ι) (buffptr : Option Nat) : Kernel ι :=
  { k with strayPrint := k.strayPrint || buffptr.any fun b => !decide (k.driver.heap.Live b) }

section

variable (k : Kernel ι) (i : ι) (pc : CallPc) (fPos : Int)

@[simp] theorem goto_driver : (k.goto i pc).driver = k.driver := rfl

@[simp] theorem goto_holder : (k.goto i pc).holder = k.holder := rfl

@[simp] theorem goto_pc : (k.goto i pc).pc = Function.update k.pc i pc := rfl

@[simp] theorem goto_fPos : (k.goto i pc).fPos = k.fPos := rfl

theorem acquire_free {interrupted : Bool} {failed acquired : CallPc} (hfree : k.holder = none) :
    k.acquire i interrupted failed acquired =
      if interrupted then k.goto i failed else { k with holder := some i }.goto i acquired := by
  rw [acquire, if_pos hfree]

theorem acquire_driver (interrupted : Bool) (failed acquired : CallPc) :
    (k.acquire i interrupted failed acquired).driver = k.driver := by
  rw [acquire]
  split
  · rfl
  · split <;> rfl

@[simp] theorem setFPos_driver : (k.setFPos i fPos).driver = k.driver := rfl

@[simp] theorem setFPos_holder : (k.setFPos i fPos).holder = k.holder := rfl

@[simp] theorem setFPos_pc : (k.setFPos i fPos).pc = k.pc := rfl

@[simp] theorem setFPos_fPos : (k.setFPos i fPos).fPos = Function.update k.fPos i fPos := rfl

end

section

omit [DecidableEq ι]

variable (k : Kernel ι) (heap : Heap) (p : Option Nat)

@[simp] theorem setHeap_driver : (k.setHeap heap).driver = { k.driver with heap := heap } := rfl

@[simp] theorem setHeap_holder : (k.setHeap heap).holder = k.holder := rfl

@[simp] theorem setHeap_pc : (k.setHeap heap).pc = k.pc := rfl

@[simp] theorem setHeap_fPos : (k.setHeap heap).fPos = k.fPos := rfl

@[simp] theorem release_driver : k.release.driver = k.driver := rfl

@[simp] theorem release_holder : k.release.holder = none := rfl

@[simp] theorem release_pc : k.release.pc = k.pc := rfl

@[simp] theorem release_fPos : k.release.fPos = k.fPos := rfl

@[simp] theorem print_driver : (k.print p).driver = k.driver := rfl

@[simp] theorem print_holder : (k.print p).holder = k.holder := rfl

@[simp] theorem print_pc : (k.print p).pc = k.pc := rfl

@[simp] theorem print_fPos : (k.print p).fPos = k.fPos := rfl

end

def step (fixedSizeLlseek : LlseekFn) (k : Kernel ι) (t : KernelTurn ι) : Kernel ι :=
  let i := t.thread
  let heap := k.driver.heap
  let dev := k.driver.dev
  match k.pc i with
  | .idle => k.goto i t.op.entry
  | .kmalloc buf env =>
      match AesdChar.kmalloc heap buf.length env.kmalloc with
      | none => k.goto i (.returning (-ENOMEM) [])
      | some (buffptr, heap) => (k.setHeap heap).goto i (.copyFromUser buf env buffptr)
  | .copyFromUser buf env buffptr =>
      let heap := heap.store buffptr 0 (buf.take (buf.length - env.notCopied))
      -- `is_data_partial` looks at the thread's own block only
      (k.setHeap heap).goto i <|
        if isDataPartial (heap.bytes buffptr) buf.length = false then .lockComplete buf env buffptr
        else .lockPartial buf env buffptr
  | .lockComplete buf env buffptr =>
      k.acquire i env.interrupted (.kfreeChunk buffptr) (.takePartial buf env buffptr)
  | .kfreeChunk buffptr => (k.setHeap (heap.free (some buffptr))).goto i (.returning 0 [])
  | .takePartial buf env buffptr =>
      if dev.partMemPtr = none then k.goto i (.addEntry buf env (some buffptr) 0)
      else
        let total := int32 (dev.partBufSize + buf.length)
        let handled :=
          handlePartialData heap dev.partMemPtr dev.partBufSize (some buffptr) total env
        { k with driver := ⟨{ dev with partMemPtr := none, partBufSize := 0 }, handled.2⟩ }.goto i
          (.addEntry buf env handled.1 total)
  | .addEntry buf _ buffptr total =>
      let size := if total ≠ 0 then sizeT total else buf.length
      let added := aesdCircularBufferAddEntry dev.buffer ⟨buffptr, size⟩
      { k with driver := ⟨{ dev with buffer := added.2 }, heap⟩ }.goto i
        (.unlockComplete buf.length added.1 size)
  | .unlockComplete count rmBuffptr size => k.release.goto i (.kfreeRemoved count rmBuffptr size)
  | .kfreeRemoved count rmBuffptr size =>
      ((k.setHeap (heap.free rmBuffptr)).setFPos i (int64 (k.fPos i + size))).goto i
        (.returning count [])
  | .lockPartial buf env buffptr =>
      -- without the `kfree` of the other path
      k.acquire i env.interrupted (.returning 0 []) (.keepPartial buf env buffptr)
  | .keepPartial buf env buffptr =>
      { k with driver := AesdChar.keepPartial k.driver env buffptr buf.length }.goto i
        (.unlock buf.length [])
  | .lockRead env => k.acquire i env.interrupted (.returning (-ERESTARTSYS) []) (.findEntry env)
  | .findEntry env =>
      match aesdCircularBufferFindEntryOffsetForFpos dev.buffer (sizeT (k.fPos i)) with
      -- the search does not come back
      | none => k
      | some none => k.goto i (.unlock 0 [])
      | some (some (rdEntry, relativePos)) => k.goto i (.copyToUser env rdEntry relativePos)
  | .copyToUser env rdEntry relativePos =>
      let entry := dev.buffer.slot rdEntry
      let n := sizeT (entry.size - relativePos)
      let bytes := heap.read entry.buffptr relativePos n env.stale
      let inBounds := decide (heap.InBounds entry.buffptr relativePos n)
      let k := k.setHeap { heap with fault := heap.fault || !inBounds }
      if env.notCopied = 0 then
        (k.setFPos i (int64 (k.fPos i + int64 n))).goto i (.unlockRead rdEntry (int64 n) bytes)
      else k.goto i (.unlockRead rdEntry 0 (bytes.take (n - env.notCopied)))
  | .unlockRead rdEntry ret data => k.release.goto i (.printEntry rdEntry ret data)
  | .printEntry rdEntry ret data =>
      k.goto i (.printString (dev.buffer.slot rdEntry).buffptr ret data)
  | .printString buffptr ret data => (k.print buffptr).goto i (.returning ret data)
  | .lockLlseek interrupted offset whence =>
      k.acquire i interrupted (.returning (-ERESTARTSYS) []) (.readSize offset whence)
  | .readSize offset whence => k.goto i (.unlockLlseek offset whence dev.buffer.cbSize)
  | .unlockLlseek offset whence cbSize => k.release.goto i (.fixedSizeLlseek offset whence cbSize)
  | .fixedSizeLlseek offset whence cbSize =>
      let r := fixedSizeLlseek (k.fPos i) offset whence cbSize
      (k.setFPos i r.2).goto i (.returning r.1 [])
  | .lockIoctl interrupted seekto =>
      k.acquire i interrupted (.returning (-ERESTARTSYS) []) (.adjustOffset seekto)
  | .adjustOffset seekto =>
      match aesdAdjustFileOffset dev.buffer (k.fPos i) seekto.writeCmd seekto.writeCmdOffset with
      | none => k
      | some r => (k.setFPos i r.2).goto i (.unlock r.1 [])
  | .unlock ret data => k.release.goto i (.returning ret data)
  | .returning _ _ => k.goto i .idle

def out (k : Kernel ι) (t : KernelTurn ι) : List (CallEvent ι) :=
  match k.pc t.thread with
  | .idle => [.called t.thread t.op]
  | .returning ret data => [.returned t.thread ret data (k.fPos t.thread)]
  | _ => []

def machine (fixedSizeLlseek : LlseekFn) : Machine (Kernel ι) (KernelTurn ι) (CallEvent ι) :=
  ⟨step fixedSizeLlseek, out⟩

/-- With the statements of the locked sections in which the device is changed, or looked at for
what the call answers. -/
def events (k : Kernel ι) (t : KernelTurn ι) : List (DeviceEvent ι) :=
  match k.pc t.thread with
  | .idle => [.seen (.called t.thread t.op)]
  | .addEntry buf env _ _ => [.effect t.thread (some (env.received buf))]
  | .keepPartial _ _ _ => [.effect t.thread none]
  | .findEntry _ =>
      match aesdCircularBufferFindEntryOffsetForFpos k.driver.dev.buffer
        (sizeT (k.fPos t.thread)) with
      | some none => [.effect t.thread none]
      | _ => []
  | .copyToUser _ _ _ => [.effect t.thread none]
  | .readSize _ _ => [.effect t.thread none]
  | .adjustOffset _ => [.effect t.thread none]
  | .returning ret data => [.seen (.returned t.thread ret data (k.fPos t.thread))]
  | _ => []

def eventMachine (fixedSizeLlseek : LlseekFn) :
    Machine (Kernel ι) (KernelTurn ι) (DeviceEvent ι) :=
  ⟨step fixedSizeLlseek, events⟩

omit [DecidableEq ι] in
theorem out_eq (k : Kernel ι) (t : KernelTurn ι) :
    k.out t = (k.events t).filterMap DeviceEvent.seen? := by
  cases hpc : k.pc t.thread with
  | findEntry env =>
      simp only [out, events, hpc]
      split <;> rfl
  | _ => simp [out, events, hpc, DeviceEvent.seen?]

theorem machine_eq_hide (fixedSizeLlseek : LlseekFn) :
    (machine fixedSizeLlseek : Machine (Kernel ι) _ _) =
      (eventMachine fixedSizeLlseek).hide DeviceEvent.seen? := by
  rw [machine, eventMachine, Machine.hide, funext₂ out_eq]

end Kernel

/-- `handle_partial_data`, if it is next, does not return NULL. -/
def CallPc.Concatenates (s : Driver) : CallPc → Prop
  | .takePartial buf env _ => WriteCall.Concatenates s ⟨buf, 0, env⟩
  | .keepPartial buf env _ => WriteCall.Concatenates s ⟨buf, 0, env⟩
  | _ => True

def KernelTurn.Concatenates {ι : Type} (k : Kernel ι) (t : KernelTurn ι) : Prop :=
  (k.pc t.thread).Concatenates k.driver

instance (s : Driver) : (pc : CallPc) → Decidable (pc.Concatenates s)
  | .takePartial buf env _ => inferInstanceAs (Decidable (WriteCall.Concatenates s ⟨buf, 0, env⟩))
  | .keepPartial buf env _ => inferInstanceAs (Decidable (WriteCall.Concatenates s ⟨buf, 0, env⟩))
  | .idle | .kmalloc .. | .copyFromUser .. | .lockComplete .. | .kfreeChunk .. | .addEntry ..
  | .unlockComplete .. | .kfreeRemoved .. | .lockPartial .. | .lockRead .. | .findEntry ..
  | .copyToUser .. | .unlockRead .. | .printEntry .. | .printString .. | .lockLlseek ..
  | .readSize .. | .unlockLlseek .. | .fixedSizeLlseek .. | .lockIoctl .. | .adjustOffset ..
  | .unlock .. | .returning .. => inferInstanceAs (Decidable True)

instance {ι : Type} (k : Kernel ι) (t : KernelTurn ι) : Decidable (t.Concatenates k) :=
  inferInstanceAs (Decidable ((k.pc t.thread).Concatenates k.driver))

/-! ## Calls that take effect at one instant -/

/-- The call gets to its locked section. -/
def FileOp.locks : FileOp → Bool
  | .write buf env => kmallocSucceeds buf.length env.kmalloc && !env.interrupted
  | .read _ env => !env.interrupted
  | .llseek interrupted _ whence =>
      !interrupted && decide (whence = SEEK_SET ∨ whence = SEEK_CUR ∨ whence = SEEK_END)
  | .ioctl interrupted cmd arg => !interrupted && decide (cmd = AESDCHAR_IOCSEEKTO) && arg.isSome

/-- The chunk by which it completes a command. -/
def FileOp.command : FileOp → Option (List UInt8)
  | .write buf env => if NEWLINE ∈ env.received buf then some (env.received buf) else none
  | _ => none

inductive AtomicPc where
  | idle
  | called (op : FileOp)
  | done (ret : Int) (data : List UInt8)

structure AtomicThread where
  pc : AtomicPc
  fPos : Int

/-- The log, and threads whose calls on it happen at once, somewhere between call and return. -/
structure AtomicLog (ι : Type) where
  log : CommandLog
  threads : ι → AtomicThread

namespace AtomicLog

variable {ι : Type} [DecidableEq ι]

def start (fPos : ι → Int) : AtomicLog ι := ⟨CommandLog.empty, fun i => ⟨.idle, fPos i⟩⟩

def step (fixedSizeLlseek : LlseekFn) (a : AtomicLog ι) (t : KernelTurn ι) : AtomicLog ι :=
  let u := a.threads t.thread
  match u.pc with
  | .idle => ⟨a.log, Function.update a.threads t.thread ⟨.called t.op, u.fPos⟩⟩
  | .called op =>
      let r := a.log.perform fixedSizeLlseek u.fPos op
      ⟨r.1, Function.update a.threads t.thread ⟨.done r.2.ret r.2.data, r.2.fPos⟩⟩
  | .done _ _ => ⟨a.log, Function.update a.threads t.thread ⟨.idle, u.fPos⟩⟩

def out (a : AtomicLog ι) (t : KernelTurn ι) : List (CallEvent ι) :=
  match (a.threads t.thread).pc with
  | .idle => [.called t.thread t.op]
  | .called _ => []
  | .done ret data => [.returned t.thread ret data (a.threads t.thread).fPos]

def machine (fixedSizeLlseek : LlseekFn) : Machine (AtomicLog ι) (KernelTurn ι) (CallEvent ι) :=
  ⟨step fixedSizeLlseek, out⟩

/-- A call that is refused, or gives up its lock, has no effect. -/
def events (a : AtomicLog ι) (t : KernelTurn ι) : List (DeviceEvent ι) :=
  match (a.threads t.thread).pc with
  | .idle => [.seen (.called t.thread t.op)]
  | .called op => if op.locks then [.effect t.thread op.command] else []
  | .done ret data => [.seen (.returned t.thread ret data (a.threads t.thread).fPos)]

def eventMachine (fixedSizeLlseek : LlseekFn) :
    Machine (AtomicLog ι) (KernelTurn ι) (DeviceEvent ι) :=
  ⟨step fixedSizeLlseek, events⟩

omit [DecidableEq ι] in
theorem out_eq (a : AtomicLog ι) (t : KernelTurn ι) :
    a.out t = (a.events t).filterMap DeviceEvent.seen? := by
  cases hpc : (a.threads t.thread).pc with
  | called op =>
      simp only [out, events, hpc]
      split <;> rfl
  | _ => simp [out, events, hpc, DeviceEvent.seen?]

theorem machine_eq_hide (fixedSizeLlseek : LlseekFn) :
    (machine fixedSizeLlseek : Machine (AtomicLog ι) _ _) =
      (eventMachine fixedSizeLlseek).hide DeviceEvent.seen? := by
  rw [machine, eventMachine, Machine.hide, funext₂ out_eq]

end AtomicLog

end AesdChar
