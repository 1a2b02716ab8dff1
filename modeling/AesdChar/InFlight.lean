import AesdChar.Interleaving
import AesdChar.Lib.Mutex
import AesdChar.Lib.Ownership

/-!
# Blocks in flight

Between its `kmalloc` and its `kfree`, or its hand-over to the device, a block belongs to one call.
`InStep` relates the threads in the middle of their calls to the log on which calls are atomic: a
call has had its effect there once its locked section has changed the ring or looked at it.
-/

namespace AesdChar

open CInt Heap Ownership

/-- The block that only this call knows of. -/
def CallPc.block : CallPc → Option Nat
  | .copyFromUser _ _ buffptr => some buffptr
  | .lockComplete _ _ buffptr => some buffptr
  | .kfreeChunk buffptr => some buffptr
  | .takePartial _ _ buffptr => some buffptr
  | .addEntry _ _ buffptr _ => buffptr
  | .unlockComplete _ rmBuffptr _ => rmBuffptr
  | .kfreeRemoved _ rmBuffptr _ => rmBuffptr
  | .lockPartial _ _ buffptr => some buffptr
  | .keepPartial _ _ buffptr => some buffptr
  | _ => none

/-- The log as the device has it while the holder of the lock is there: the pending command may
have been taken already. -/
def CallPc.sees (log : CommandLog) : CallPc → CommandLog
  | .addEntry _ _ _ _ => ⟨log.commands, none⟩
  | _ => log

/-- The chunk of a write lies in its block. -/
structure Received (s : Driver) (buf : List UInt8) (env : WriteEnv) (buffptr : Nat) : Prop where
  memory : kmallocSucceeds buf.length env.kmalloc = true
  load : s.heap.load (some buffptr) = some (env.received buf)

/-- The thread of the atomic calls that goes with a thread in the middle of a call. -/
def Matches (fixedSizeLlseek : LlseekFn) (s : Driver) (log : CommandLog) (fPos : Int) :
    CallPc → AtomicThread → Prop
  | .idle, u => u = ⟨.idle, fPos⟩
  | .kmalloc buf env, u => u = ⟨.called (.write buf env), fPos⟩
  | .copyFromUser buf env buffptr, u =>
      u = ⟨.called (.write buf env), fPos⟩ ∧ kmallocSucceeds buf.length env.kmalloc = true ∧
        s.heap.load (some buffptr) = some (freshBytes buf.length env.kmalloc)
  | .lockComplete buf env buffptr, u =>
      u = ⟨.called (.write buf env), fPos⟩ ∧ Received s buf env buffptr ∧
        NEWLINE ∈ env.received buf
  | .kfreeChunk _, u => u = ⟨.done 0 [], fPos⟩
  | .takePartial buf env buffptr, u =>
      u = ⟨.called (.write buf env), fPos⟩ ∧ Received s buf env buffptr ∧
        NEWLINE ∈ env.received buf ∧ env.interrupted = false
  | .addEntry buf env buffptr total, u =>
      u = ⟨.called (.write buf env), fPos⟩ ∧ kmallocSucceeds buf.length env.kmalloc = true ∧
        NEWLINE ∈ env.received buf ∧ env.interrupted = false ∧
        s.heap.load buffptr = some (log.extended (env.received buf)) ∧
        (if total ≠ 0 then sizeT total else buf.length) =
          (log.extended (env.received buf)).length ∧
        (log.extended (env.received buf)).length < 2 ^ 31
  | .unlockComplete count _ size, u => u = ⟨.done count [], int64 (fPos + size)⟩
  | .kfreeRemoved count _ size, u => u = ⟨.done count [], int64 (fPos + size)⟩
  | .lockPartial buf env buffptr, u =>
      u = ⟨.called (.write buf env), fPos⟩ ∧ Received s buf env buffptr ∧
        NEWLINE ∉ env.received buf
  | .keepPartial buf env buffptr, u =>
      u = ⟨.called (.write buf env), fPos⟩ ∧ Received s buf env buffptr ∧
        NEWLINE ∉ env.received buf ∧ env.interrupted = false
  | .lockRead env, u => ∃ count, u = ⟨.called (.read count env), fPos⟩
  | .findEntry env, u =>
      env.interrupted = false ∧ ∃ count, u = ⟨.called (.read count env), fPos⟩
  | .copyToUser env rdEntry relativePos, u =>
      env.interrupted = false ∧ (∃ count, u = ⟨.called (.read count env), fPos⟩) ∧
        aesdCircularBufferFindEntryOffsetForFpos s.dev.buffer (sizeT fPos) =
          some (some (rdEntry, relativePos))
  | .unlockRead _ ret data, u => u = ⟨.done ret data, fPos⟩
  | .printEntry _ ret data, u => u = ⟨.done ret data, fPos⟩
  | .printString _ ret data, u => u = ⟨.done ret data, fPos⟩
  | .lockLlseek interrupted offset whence, u =>
      u = ⟨.called (.llseek interrupted offset whence), fPos⟩ ∧
        (whence = SEEK_SET ∨ whence = SEEK_CUR ∨ whence = SEEK_END)
  | .readSize offset whence, u =>
      u = ⟨.called (.llseek false offset whence), fPos⟩ ∧
        (whence = SEEK_SET ∨ whence = SEEK_CUR ∨ whence = SEEK_END)
  | .unlockLlseek offset whence cbSize, u =>
      u = ⟨.done (fixedSizeLlseek fPos offset whence cbSize).1 [],
        (fixedSizeLlseek fPos offset whence cbSize).2⟩
  | .fixedSizeLlseek offset whence cbSize, u =>
      u = ⟨.done (fixedSizeLlseek fPos offset whence cbSize).1 [],
        (fixedSizeLlseek fPos offset whence cbSize).2⟩
  | .lockIoctl interrupted seekto, u =>
      u = ⟨.called (.ioctl interrupted AESDCHAR_IOCSEEKTO (some seekto)), fPos⟩
  | .adjustOffset seekto, u =>
      u = ⟨.called (.ioctl false AESDCHAR_IOCSEEKTO (some seekto)), fPos⟩
  | .unlock ret data, u => u = ⟨.done ret data, fPos⟩
  | .returning ret data, u => u = ⟨.done ret data, fPos⟩

/-- A thread does not notice changes to what is not its own, unless it holds the lock. -/
theorem Matches.frame {fixedSizeLlseek : LlseekFn} {s s' : Driver} {log log' : CommandLog}
    {fPos : Int} {pc : CallPc} {u : AtomicThread} (h : Matches fixedSizeLlseek s log fPos pc u)
    (hload : ∀ b, pc.block = some b → s'.heap.load (some b) = s.heap.load (some b))
    (hdev : pc.inSection = true → s'.dev = s.dev ∧ log' = log) :
    Matches fixedSizeLlseek s' log' fPos pc u := by
  cases pc with
  | copyFromUser buf env p => exact ⟨h.1, h.2.1, by rw [hload p rfl]; exact h.2.2⟩
  | lockComplete buf env p =>
      exact ⟨h.1, ⟨h.2.1.memory, by rw [hload p rfl]; exact h.2.1.load⟩, h.2.2⟩
  | takePartial buf env p =>
      exact ⟨h.1, ⟨h.2.1.memory, by rw [hload p rfl]; exact h.2.1.load⟩, h.2.2⟩
  | lockPartial buf env p =>
      exact ⟨h.1, ⟨h.2.1.memory, by rw [hload p rfl]; exact h.2.1.load⟩, h.2.2⟩
  | keepPartial buf env p =>
      exact ⟨h.1, ⟨h.2.1.memory, by rw [hload p rfl]; exact h.2.1.load⟩, h.2.2⟩
  | addEntry buf env p total =>
      obtain ⟨hu, hm, hn, hi, hl, hsize, hlt⟩ := h
      obtain ⟨_, rfl⟩ := hdev rfl
      refine ⟨hu, hm, hn, hi, ?_, hsize, hlt⟩
      cases p with
      | none => exact absurd hl (Option.some_ne_none _).symm
      | some b => rw [hload b rfl, hl]
  | copyToUser env rdEntry relativePos =>
      obtain ⟨hi, hu, hfind⟩ := h
      exact ⟨hi, hu, by rw [(hdev rfl).1]; exact hfind⟩
  | _ => exact h

section

variable {ι : Type}

/-- The log as the device has it. -/
def Kernel.seen (k : Kernel ι) (log : CommandLog) : CommandLog :=
  match k.holder with
  | some i => (k.pc i).sees log
  | none => log

structure InStep (fixedSizeLlseek : LlseekFn) (k : Kernel ι) (a : AtomicLog ι) : Prop where
  mutex : Mutex.Guards k.holder fun i => (k.pc i).inSection
  holds : Holds k.driver (k.seen a.log)
  cbSize : k.driver.dev.buffer.cbSize = k.driver.dev.buffer.totalSize % 2 ^ 32
  short : a.log.Short
  threads : ∀ i, Matches fixedSizeLlseek k.driver a.log (k.fPos i) (k.pc i) (a.threads i)
  inFlight : ∀ i b, (k.pc i).block = some b → k.driver.heap.Live b ∧ b ∉ k.driver.held
  apart : Exclusive fun i => (k.pc i).block

section

variable {fixedSizeLlseek : LlseekFn} {k : Kernel ι} {a : AtomicLog ι} {i : ι}

theorem seen_of_holder (hheld : k.holder = some i) (log : CommandLog) :
    k.seen log = (k.pc i).sees log := by
  rw [Kernel.seen, hheld]

theorem seen_of_free (hfree : k.holder = none) (log : CommandLog) : k.seen log = log := by
  rw [Kernel.seen, hfree]

/-! ## Whose a block is not -/

theorem InStep.own (h : InStep fixedSizeLlseek k a) {b : Nat} (hb : (k.pc i).block = some b) :
    ∀ j, j ≠ i → (k.pc j).block ≠ some b :=
  fun j hj hb' => hj (h.apart j i b hb' hb)

theorem InStep.of_dead (h : InStep fixedSizeLlseek k a) {b : Nat} (hb : ¬ k.driver.heap.Live b) :
    ∀ j, (k.pc j).block ≠ some b :=
  fun j hb' => hb (h.inFlight j b hb').1

theorem InStep.of_held (h : InStep fixedSizeLlseek k a) {b : Nat} (hb : b ∈ k.driver.held) :
    ∀ j, (k.pc j).block ≠ some b :=
  fun j hb' => (h.inFlight j b hb').2 hb

/-- A print changes nothing of the device. -/
theorem InStep.prints (h : InStep fixedSizeLlseek k a) (buffptr : Option Nat) :
    InStep fixedSizeLlseek (k.print buffptr) a :=
  ⟨h.mutex, h.holds, h.cbSize, h.short, h.threads, h.inFlight, h.apart⟩

end

theorem InStep.start (fixedSizeLlseek : LlseekFn) (fPos : ι → Int) :
    InStep fixedSizeLlseek (Kernel.start fPos) (AtomicLog.start fPos) where
  mutex := Mutex.Guards.nobody
  holds := Holds.init
  cbSize := by
    show aesdInitModule.dev.buffer.cbSize = aesdInitModule.dev.buffer.totalSize % 2 ^ 32
    decide
  short := fun _ hc => absurd hc List.not_mem_nil
  threads := fun _ => rfl
  inFlight := fun _ b hb => absurd hb (Option.some_ne_none b).symm
  apart := exclusive_none

/-! ## What a turn keeps -/

variable [DecidableEq ι]

theorem seen_goto_self {k : Kernel ι} {i : ι} (hheld : k.holder = some i) (pc : CallPc)
    (log : CommandLog) : (k.goto i pc).seen log = pc.sees log := by
  rw [@seen_of_holder _ (k.goto i pc) i hheld]
  show (Function.update k.pc i pc i).sees log = _
  rw [Function.update_self]

theorem seen_goto (k : Kernel ι) {i : ι} {pc : CallPc} {log : CommandLog}
    (h : k.holder = some i → pc.sees log = (k.pc i).sees log) :
    (k.goto i pc).seen log = k.seen log := by
  cases hh : k.holder with
  | none => rw [seen_of_free hh, @seen_of_free _ (k.goto i pc) hh]
  | some j =>
      by_cases hj : j = i
      · rw [hj] at hh
        rw [seen_goto_self hh, seen_of_holder hh, h hh]
      · rw [seen_of_holder hh, @seen_of_holder _ (k.goto i pc) j hh]
        show (Function.update k.pc i pc j).sees log = _
        rw [Function.update_of_ne hj]

variable {fixedSizeLlseek : LlseekFn} {k k' : Kernel ι} {a : AtomicLog ι} {i : ι} {pc : CallPc}
  {u : AtomicThread}

/-- The lock still guards the sections after a turn of `i`. -/
theorem guards_update (hm : Mutex.Guards k.holder fun j => (k.pc j).inSection)
    (h : Mutex.Moves k.holder k'.holder i (k.pc i).inSection pc.inSection)
    (hpc : k'.pc = Function.update k.pc i pc) :
    Mutex.Guards k'.holder fun j => (k'.pc j).inSection := by
  rw [hpc]
  apply hm.moves
  · rwa [Function.update_self]
  · intro j hj
    rw [Function.update_of_ne hj]

/-- A turn that leaves alone what is another thread's. -/
theorem InStep.update (h : InStep fixedSizeLlseek k a) {log : CommandLog} {fPos : Int}
    (hpc : k'.pc = Function.update k.pc i pc) (hfPos : k'.fPos = Function.update k.fPos i fPos)
    (hlock : Mutex.Moves k.holder k'.holder i (k.pc i).inSection pc.inSection)
    (hholds : Holds k'.driver (k'.seen log))
    (hcb : k'.driver.dev.buffer.cbSize = k'.driver.dev.buffer.totalSize % 2 ^ 32)
    (hshort : log.Short) (hmatch : Matches fixedSizeLlseek k'.driver log fPos pc u)
    (hdev : k.holder = some i ∨ (k'.driver.dev = k.driver.dev ∧ log = a.log))
    (hothers : ∀ j, j ≠ i → ∀ b, (k.pc j).block = some b →
      k'.driver.heap.load (some b) = k.driver.heap.load (some b) ∧ b ∉ k'.driver.held)
    (hblock : ∀ b, pc.block = some b → k'.driver.heap.Live b ∧ b ∉ k'.driver.held ∧
      ∀ j, j ≠ i → (k.pc j).block ≠ some b) :
    InStep fixedSizeLlseek k' ⟨log, Function.update a.threads i u⟩ where
  mutex := guards_update h.mutex hlock hpc
  holds := hholds
  cbSize := hcb
  short := hshort
  threads := by
    intro j
    show Matches _ _ _ _ _ (Function.update a.threads i u j)
    rw [hpc, hfPos]
    by_cases hj : j = i
    · rw [hj, Function.update_self, Function.update_self, Function.update_self]
      exact hmatch
    · rw [Function.update_of_ne hj, Function.update_of_ne hj, Function.update_of_ne hj]
      apply (h.threads j).frame
      · exact fun b hb => (hothers j hj b hb).1
      · intro hsec
        rcases hdev with hheld | hsame
        · have hj' := (h.mutex j).mpr hsec
          rw [hheld] at hj'
          exact absurd (Option.some.inj hj').symm hj
        · exact hsame
  inFlight := by
    intro j b hb
    rw [hpc] at hb
    by_cases hj : j = i
    · rw [hj, Function.update_self] at hb
      exact ⟨(hblock b hb).1, (hblock b hb).2.1⟩
    · rw [Function.update_of_ne hj] at hb
      obtain ⟨hload, hheld⟩ := hothers j hj b hb
      refine ⟨?_, hheld⟩
      rw [← load_isSome_iff, hload, load_isSome_iff]
      exact (h.inFlight j b hb).1
  apart := by
    intro j j' b hb hb'
    simp only [hpc] at hb hb'
    by_cases hj : j = i
    · by_cases hj' : j' = i
      · rw [hj, hj']
      · rw [hj, Function.update_self] at hb
        rw [Function.update_of_ne hj'] at hb'
        exact absurd hb' ((hblock b hb).2.2 j' hj')
    · rw [Function.update_of_ne hj] at hb
      by_cases hj' : j' = i
      · rw [hj', Function.update_self] at hb'
        exact absurd hb ((hblock b hb').2.2 j hj)
      · rw [Function.update_of_ne hj'] at hb'
        exact h.apart j j' b hb hb'

/-! ### Turns outside of the locked sections -/

/-- A turn that only moves its thread on. -/
theorem InStep.moves (h : InStep fixedSizeLlseek k a) (fPos : Int)
    (hsec : pc.inSection = (k.pc i).inSection) (hsees : pc.sees a.log = (k.pc i).sees a.log)
    (hblock : pc.block = none ∨ pc.block = (k.pc i).block)
    (hmatch : Matches fixedSizeLlseek k.driver a.log fPos pc u) :
    InStep fixedSizeLlseek ((k.setFPos i fPos).goto i pc)
      ⟨a.log, Function.update a.threads i u⟩ := by
  have hseen : ((k.setFPos i fPos).goto i pc).seen a.log = k.seen a.log :=
    seen_goto (k.setFPos i fPos) fun _ => hsees
  apply h.update
  · rfl
  · rfl
  · exact .kept rfl hsec
  · rw [hseen]
    exact h.holds
  · exact h.cbSize
  · exact h.short
  · exact hmatch
  · exact Or.inr ⟨rfl, rfl⟩
  · exact fun j _ b hb => ⟨rfl, (h.inFlight j b hb).2⟩
  · intro b hb
    rcases hblock with hnone | hsame
    · rw [hnone] at hb
      exact absurd hb (Option.some_ne_none b).symm
    · rw [hsame] at hb
      exact ⟨(h.inFlight i b hb).1, (h.inFlight i b hb).2, h.own hb⟩

/-- A turn that changes the heap where nothing but its own block is, or for a new one. -/
theorem InStep.movesHeap (h : InStep fixedSizeLlseek k a) {heap : Heap} {fPos : Int}
    (hsec : pc.inSection = (k.pc i).inSection) (hout : (k.pc i).inSection = false)
    (hfault : heap.fault = false)
    (hkeep : ∀ b, (k.pc i).block ≠ some b → k.driver.heap.Live b →
      heap.load (some b) = k.driver.heap.load (some b))
    (hblock : ∀ b, pc.block = some b →
      heap.Live b ∧ ((k.pc i).block = some b ∨ ¬ k.driver.heap.Live b))
    (hmatch : Matches fixedSizeLlseek { k.driver with heap := heap } a.log fPos pc u) :
    InStep fixedSizeLlseek (((k.setHeap heap).setFPos i fPos).goto i pc)
      ⟨a.log, Function.update a.threads i u⟩ := by
  have hne : k.holder ≠ some i := h.mutex.outside hout
  have hseen : (((k.setHeap heap).setFPos i fPos).goto i pc).seen a.log = k.seen a.log := by
    exact seen_goto ((k.setHeap heap).setFPos i fPos) fun hh => absurd hh hne
  apply h.update
  · rfl
  · rfl
  · exact .kept rfl hsec
  · rw [hseen]
    apply h.holds.frame
    · intro b hb
      exact hkeep b (h.of_held hb i) (h.holds.live_of_held hb)
    · exact hfault
  · exact h.cbSize
  · exact h.short
  · exact hmatch
  · exact Or.inr ⟨rfl, rfl⟩
  · intro j hj b hb
    obtain ⟨hlive, hheld⟩ := h.inFlight j b hb
    exact ⟨hkeep b (fun hi => hj (h.apart j i b hb hi)) hlive, hheld⟩
  · intro b hb
    obtain ⟨hlive, hown | hdead⟩ := hblock b hb
    · exact ⟨hlive, (h.inFlight i b hown).2, h.own hown⟩
    · exact ⟨hlive, fun hheld => hdead (h.holds.live_of_held hheld),
        fun j _ => h.of_dead hdead j⟩

/-! ### The lock and the section -/

theorem InStep.acquires (h : InStep fixedSizeLlseek k a) (hfree : k.holder = none)
    (hsec : pc.inSection = true) (hsees : pc.sees a.log = a.log)
    (hblock : pc.block = none ∨ pc.block = (k.pc i).block)
    (hmatch : Matches fixedSizeLlseek k.driver a.log (k.fPos i) pc u) :
    InStep fixedSizeLlseek ({ k with holder := some i }.goto i pc)
      ⟨a.log, Function.update a.threads i u⟩ := by
  have hholds := h.holds
  rw [seen_of_free hfree] at hholds
  apply h.update
  · rfl
  · exact (Function.update_eq_self _ _).symm
  · exact .taken hfree rfl hsec
  · rw [@seen_goto_self _ _ { k with holder := some i } i rfl, hsees]
    exact hholds
  · exact h.cbSize
  · exact h.short
  · exact hmatch
  · exact Or.inr ⟨rfl, rfl⟩
  · exact fun j _ b hb => ⟨rfl, (h.inFlight j b hb).2⟩
  · intro b hb
    rcases hblock with hnone | hsame
    · rw [hnone] at hb
      exact absurd hb (Option.some_ne_none b).symm
    · rw [hsame] at hb
      exact ⟨(h.inFlight i b hb).1, (h.inFlight i b hb).2, h.own hb⟩

theorem InStep.releases (h : InStep fixedSizeLlseek k a) (hin : (k.pc i).inSection = true)
    (hsees : (k.pc i).sees a.log = a.log) (hsec : pc.inSection = false)
    (hblock : pc.block = (k.pc i).block)
    (hmatch : Matches fixedSizeLlseek k.driver a.log (k.fPos i) pc u) :
    InStep fixedSizeLlseek (k.release.goto i pc) ⟨a.log, Function.update a.threads i u⟩ := by
  have hheld := (h.mutex i).mpr hin
  have hholds := h.holds
  rw [seen_of_holder hheld, hsees] at hholds
  apply h.update
  · rfl
  · exact (Function.update_eq_self _ _).symm
  · exact .released hheld rfl hsec
  · rw [@seen_of_free _ (k.release.goto i pc) rfl]
    exact hholds
  · exact h.cbSize
  · exact h.short
  · exact hmatch
  · exact Or.inl hheld
  · exact fun j _ b hb => ⟨rfl, (h.inFlight j b hb).2⟩
  · intro b hb
    rw [hblock] at hb
    exact ⟨(h.inFlight i b hb).1, (h.inFlight i b hb).2, h.own hb⟩

/-- The holder changes the device, and what it does not hold stays. -/
theorem InStep.changes (h : InStep fixedSizeLlseek k a) (hin : (k.pc i).inSection = true)
    {driver : Driver} {log : CommandLog} (hsec : pc.inSection = true)
    (hholds : Holds driver (pc.sees log))
    (hcb : driver.dev.buffer.cbSize = driver.dev.buffer.totalSize % 2 ^ 32) (hshort : log.Short)
    (hkeep : ∀ b, (k.pc i).block ≠ some b → b ∉ k.driver.held → k.driver.heap.Live b →
      driver.heap.load (some b) = k.driver.heap.load (some b) ∧ b ∉ driver.held)
    (hblock : ∀ b, pc.block = some b → driver.heap.Live b ∧ b ∉ driver.held ∧
      ((k.pc i).block = some b ∨ ¬ k.driver.heap.Live b ∨ b ∈ k.driver.held))
    (hmatch : Matches fixedSizeLlseek driver log (k.fPos i) pc u) :
    InStep fixedSizeLlseek ({ k with driver := driver }.goto i pc)
      ⟨log, Function.update a.threads i u⟩ := by
  have hheld := (h.mutex i).mpr hin
  apply h.update
  · rfl
  · exact (Function.update_eq_self _ _).symm
  · exact .kept rfl (hsec.trans hin.symm)
  · rw [@seen_goto_self _ _ { k with driver := driver } i hheld]
    exact hholds
  · exact hcb
  · exact hshort
  · exact hmatch
  · exact Or.inl hheld
  · intro j hj b hb
    obtain ⟨hlive, hout⟩ := h.inFlight j b hb
    exact hkeep b (fun hi => hj (h.apart j i b hb hi)) hout hlive
  · intro b hb
    obtain ⟨hlive, hout, hown | hdead | hold⟩ := hblock b hb
    · exact ⟨hlive, hout, h.own hown⟩
    · exact ⟨hlive, hout, fun j _ => h.of_dead hdead j⟩
    · exact ⟨hlive, hout, fun j _ => h.of_held hold j⟩

theorem setFPos_self (k : Kernel ι) (i : ι) : k.setFPos i (k.fPos i) = k := by
  rw [Kernel.setFPos, Function.update_eq_self]

theorem setHeap_setFPos_self (k : Kernel ι) (heap : Heap) (i : ι) :
    (k.setHeap heap).setFPos i (k.fPos i) = k.setHeap heap := setFPos_self _ _

end

end AesdChar
