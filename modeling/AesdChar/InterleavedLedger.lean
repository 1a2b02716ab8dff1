import AesdChar.InterleavedCalls
import AesdChar.Ledger

/-!
# The ledger between the statements

In the middle of interleaved calls each live block is one that the device designates or one that a
call works on.  There are three statements that can forget a block: the two that meet a pending
command, and the lock of a chunk without '\n'.
-/

namespace AesdChar

open CInt Heap Ownership

/-- Each live block is the device's, or else exactly one call works on it, and there are no other
blocks. -/
structure Kernel.Accounted {ι : Type} (k : Kernel ι) : Prop where
  placed : ∀ b, k.driver.heap.Live b →
    (b ∈ k.driver.held ∧ ∀ i, (k.pc i).block ≠ some b) ∨
      (b ∉ k.driver.held ∧ ∃! i, (k.pc i).block = some b)
  live : ∀ b, (b ∈ k.driver.held ∨ ∃ i, (k.pc i).block = some b) → k.driver.heap.Live b

/-- The next statement forgets no block. -/
def CallPc.ForgetsNone (s : Driver) : CallPc → Prop
  | .takePartial _ _ _ => s.dev.partMemPtr = none
  | .lockPartial _ env _ => env.interrupted = false
  | .keepPartial _ _ _ => s.dev.partMemPtr = none
  | _ => True

def KernelTurn.ForgetsNone {ι : Type} (k : Kernel ι) (t : KernelTurn ι) : Prop :=
  (k.pc t.thread).ForgetsNone k.driver

instance (s : Driver) : (pc : CallPc) → Decidable (pc.ForgetsNone s)
  | .takePartial _ _ _ => inferInstanceAs (Decidable (s.dev.partMemPtr = none))
  | .lockPartial _ env _ => inferInstanceAs (Decidable (env.interrupted = false))
  | .keepPartial _ _ _ => inferInstanceAs (Decidable (s.dev.partMemPtr = none))
  | .idle | .kmalloc .. | .copyFromUser .. | .lockComplete .. | .kfreeChunk .. | .addEntry ..
  | .unlockComplete .. | .kfreeRemoved .. | .lockRead .. | .findEntry .. | .copyToUser ..
  | .unlockRead .. | .printEntry .. | .printString .. | .lockLlseek .. | .readSize ..
  | .unlockLlseek .. | .fixedSizeLlseek .. | .lockIoctl .. | .adjustOffset .. | .unlock ..
  | .returning .. => inferInstanceAs (Decidable True)

instance {ι : Type} (k : Kernel ι) (t : KernelTurn ι) : Decidable (t.ForgetsNone k) :=
  inferInstanceAs (Decidable ((k.pc t.thread).ForgetsNone k.driver))

/-- Where nothing is forgotten there is nothing to concatenate. -/
theorem KernelTurn.ForgetsNone.concatenates {ι : Type} {k : Kernel ι} {t : KernelTurn ι}
    (h : t.ForgetsNone k) : t.Concatenates k := by
  unfold KernelTurn.Concatenates
  unfold KernelTurn.ForgetsNone at h
  cases hpc : k.pc t.thread with
  | takePartial buf env buffptr =>
      rw [hpc] at h
      exact Or.inl h
  | keepPartial buf env buffptr =>
      rw [hpc] at h
      exact Or.inl h
  | _ => trivial

section

variable {ι : Type}

/-- No live block is forgotten. -/
abbrev Kernel.Remembers (k : Kernel ι) : Prop :=
  Covered k.driver.heap.Live (· ∈ k.driver.held) fun i => (k.pc i).block

variable {fixedSizeLlseek : LlseekFn} {k k' : Kernel ι} {a : AtomicLog ι}

theorem Kernel.Accounted.remembers (h : k.Accounted) : k.Remembers := by
  intro b hb
  rcases h.placed b hb with ⟨hheld, _⟩ | ⟨_, i, hi, _⟩
  · exact Or.inl hheld
  · exact Or.inr ⟨i, hi⟩

/-- What the device or a call has is live in any case, and no other's. -/
theorem InStep.accounted (h : InStep fixedSizeLlseek k a) (hrem : k.Remembers) : k.Accounted where
  placed := by
    intro b hb
    rcases hrem b hb with hheld | ⟨i, hi⟩
    · exact Or.inl ⟨hheld, h.of_held hheld⟩
    · exact Or.inr ⟨(h.inFlight i b hi).2, i, hi, fun j hj => h.apart j i b hj hi⟩
  live := by
    rintro b (hheld | ⟨i, hi⟩)
    · exact h.holds.live_of_held hheld
    · exact (h.inFlight i b hi).1

/-- The helper copies out of the chunk's block and does not free it. -/
theorem InStep.leaves (hstep : InStep fixedSizeLlseek k a) {i : ι} {buffptr p : Nat}
    (hown : (k.pc i).block = some buffptr) (hpart : k.driver.dev.partMemPtr = some p)
    (size total : Int) (env : WriteEnv) :
    let handled := handlePartialData k.driver.heap (some p) size (some buffptr) total env
    handled.1 ≠ some buffptr ∧ handled.2.Live buffptr ∧ buffptr ∉ k.driver.dev.buffer.blocks := by
  obtain ⟨hlive, hout⟩ := hstep.inFlight i buffptr hown
  have hne : buffptr ≠ p := by
    rintro rfl
    exact hout (List.mem_append_right _ (Option.mem_toList.mpr hpart))
  obtain ⟨hptr, hleft⟩ := @handlePartialData_leaves _ _ _ size total env hlive hne
  exact ⟨hptr, hleft, fun hring => hout (List.mem_append_left _ hring)⟩

theorem remembers_start (fPos : ι → Int) : (Kernel.start fPos).Remembers :=
  fun b hb => absurd hb.1 (Nat.not_lt_zero b)

/-- The calls in the middle of which no block is forgotten, and none freed twice. -/
structure InLedger (fixedSizeLlseek : LlseekFn) (k : Kernel ι) (a : AtomicLog ι) : Prop where
  inStep : InStep fixedSizeLlseek k a
  remembers : k.Remembers
  freedOnce : k.driver.heap.FreedOnce

theorem InLedger.start (fixedSizeLlseek : LlseekFn) (fPos : ι → Int) :
    InLedger fixedSizeLlseek (Kernel.start fPos) (AtomicLog.start fPos) :=
  ⟨.start fixedSizeLlseek fPos, remembers_start fPos, fun _ => List.nodup_nil⟩

/-- With everyone back from their calls the blocks are those of the device. -/
theorem InLedger.at_rest (h : InLedger fixedSizeLlseek k a) (hidle : ∀ i, k.pc i = .idle) :
    k.holder = none ∧ LedgerInv k.driver := by
  have hfree : k.holder = none := by
    apply h.inStep.mutex.free
    intro i
    simp only [hidle i, CallPc.inSection]
  have hholds := h.inStep.holds
  rw [seen_of_free hfree] at hholds
  refine ⟨hfree, ⟨_, hholds⟩, ?_, h.freedOnce hholds.noFault⟩
  intro b
  refine ⟨fun hb => (h.remembers b hb).resolve_right ?_, hholds.live_of_held⟩
  rintro ⟨i, hi⟩
  simp only [hidle i, CallPc.block] at hi
  exact absurd hi (Option.some_ne_none b).symm

variable [DecidableEq ι]

/-! ## One statement -/

section

variable {i : ι} {pc : CallPc}

theorem block_update (hpc : k'.pc = Function.update k.pc i pc) :
    (fun j => (k'.pc j).block) = Function.update (fun j => (k.pc j).block) i pc.block := by
  funext j
  rw [hpc]
  by_cases hj : j = i
  · rw [hj, Function.update_self, Function.update_self]
  · rw [Function.update_of_ne hj, Function.update_of_ne hj]

/-- A turn after which what is new, what the device held and what the call worked on has its place
in the device or in the call. -/
theorem Kernel.Remembers.update (h : k.Remembers) (hpc : k'.pc = Function.update k.pc i pc)
    (hnew : ∀ b, k'.driver.heap.Live b → ¬ k.driver.heap.Live b →
      b ∈ k'.driver.held ∨ pc.block = some b)
    (hheld : ∀ b ∈ k.driver.held, k'.driver.heap.Live b → b ∈ k'.driver.held ∨ pc.block = some b)
    (hown : ∀ b, (k.pc i).block = some b → k'.driver.heap.Live b →
      b ∈ k'.driver.held ∨ pc.block = some b) :
    k'.Remembers := by
  rw [Kernel.Remembers, block_update hpc]
  exact Covered.update h hnew hheld hown

/-- A turn that leaves its own block and what the device designates as they are. -/
theorem Kernel.Remembers.moves (h : k.Remembers)
    (hlive : ∀ b, k'.driver.heap.Live b → k.driver.heap.Live b)
    (hheld : k'.driver.held = k.driver.held) (hpc : k'.pc = Function.update k.pc i pc)
    (hblock : pc.block = (k.pc i).block) : k'.Remembers := by
  apply h.update hpc
  · exact fun b hb hdead => absurd (hlive b hb) hdead
  · intro b hb _
    rw [hheld]
    exact Or.inl hb
  · intro b hown _
    rw [hblock]
    exact Or.inr hown

theorem Kernel.Remembers.goes (h : k.Remembers) (hblock : pc.block = (k.pc i).block) :
    (k.goto i pc).Remembers :=
  h.moves (fun _ hb => hb) rfl rfl hblock

/-- A call that waits for the lock, gets it or is interrupted keeps its block. -/
theorem Kernel.Remembers.acquires (h : k.Remembers) {interrupted : Bool} {failed acquired : CallPc}
    (hfailed : interrupted = true → failed.block = (k.pc i).block)
    (hacquired : acquired.block = (k.pc i).block) :
    (k.acquire i interrupted failed acquired).Remembers := by
  unfold Kernel.acquire
  by_cases hi : interrupted = true
  · rw [if_pos hi]
    exact h.goes (hfailed hi)
  · rw [if_neg hi]
    by_cases hfree : k.holder = none
    · rw [if_pos hfree]
      exact h.moves (fun _ hb => hb) rfl rfl hacquired
    · rwa [if_neg hfree]

/-- A call frees the block it works on. -/
theorem Kernel.Remembers.frees (h : k.Remembers)
    (hlive : ∀ b, (k.pc i).block = some b → k.driver.heap.Live b)
    (hdev : k'.driver = { k.driver with heap := k.driver.heap.free (k.pc i).block })
    (hpc : k'.pc = Function.update k.pc i pc) : k'.Remembers := by
  have hback : ∀ b, (k.driver.heap.free (k.pc i).block).Live b →
      k.driver.heap.Live b ∧ (k.pc i).block ≠ some b := by
    intro b hb
    cases hblock : (k.pc i).block with
    | none =>
        rw [hblock] at hb
        exact ⟨hb, (Option.some_ne_none b).symm⟩
    | some p =>
        rw [hblock, live_free (hlive p hblock).lt] at hb
        exact ⟨hb.1, fun he => hb.2 (Option.some.inj he).symm⟩
  apply h.update hpc
  · intro b hb hdead
    rw [hdev] at hb
    exact absurd (hback b hb).1 hdead
  · intro b hb _
    rw [hdev]
    exact Or.inl hb
  · intro b hown hb
    rw [hdev] at hb
    exact absurd hown (hback b hb).2

end

variable {t : KernelTurn ι}

theorem Kernel.Remembers.kmalloc (h : k.Remembers) {buf : List UInt8} {env : WriteEnv}
    (hpc : k.pc t.thread = .kmalloc buf env) :
    (k.step fixedSizeLlseek t).Remembers := by
  simp only [Kernel.step, hpc, AesdChar.kmalloc]
  by_cases hm : kmallocSucceeds buf.length env.kmalloc = true
  · simp only [if_pos hm]
    refine h.update rfl ?_ ?_ ?_
    · intro b hb hdead
      rcases live_alloc.mp hb with hold | hnew
      · exact absurd hold hdead
      · exact Or.inr (congrArg some hnew.symm)
    · exact fun b hb _ => Or.inl hb
    · intro b hown _
      rw [hpc] at hown
      exact absurd hown (Option.some_ne_none b).symm
  · simp only [if_neg hm]
    apply h.goes
    rw [hpc]
    rfl

theorem Kernel.Remembers.addEntry (h : k.Remembers) (hstep : InStep fixedSizeLlseek k a)
    {buf : List UInt8} {env : WriteEnv} {buffptr : Option Nat} {total : Int}
    (hpc : k.pc t.thread = .addEntry buf env buffptr total) :
    (k.step fixedSizeLlseek t).Remembers := by
  have hholds : Holds k.driver ⟨a.log.commands, none⟩ := hstep.holds_at hpc rfl
  have hpart : k.driver.dev.partMemPtr = none := hholds.pending.1
  simp only [Kernel.step, hpc]
  generalize (if total ≠ 0 then sizeT total else buf.length) = size
  -- the ring gives up its oldest block, if it is full, and takes the new one
  obtain ⟨kept, hblocks, hadded⟩ := blocks_addEntry hholds.ring ⟨buffptr, size⟩
  have hheld : ∀ buffer, Driver.held ⟨{ k.driver.dev with buffer := buffer }, k.driver.heap⟩ =
      buffer.blocks := by
    intro buffer
    rw [Driver.held, hpart, Option.toList_none, List.append_nil]
  refine h.update rfl ?_ ?_ ?_
  · exact fun b hb hdead => absurd hb hdead
  · intro b hb _
    rw [Driver.held, hpart, Option.toList_none, List.append_nil, hblocks] at hb
    rcases List.mem_append.mp hb with hgone | hkept
    · exact Or.inr (Option.mem_toList.mp hgone)
    · apply Or.inl
      rw [Kernel.goto_driver, hheld, hadded]
      exact List.mem_append_left _ hkept
  · intro b hown _
    rw [hpc] at hown
    apply Or.inl
    rw [Kernel.goto_driver, hheld, hadded]
    exact List.mem_append_right _ (Option.mem_toList.mpr hown)

theorem Kernel.Remembers.keepPartial (h : k.Remembers) {buf : List UInt8} {env : WriteEnv}
    {buffptr : Nat} (hpc : k.pc t.thread = .keepPartial buf env buffptr)
    (hpart : k.driver.dev.partMemPtr = none) : (k.step fixedSizeLlseek t).Remembers := by
  simp only [Kernel.step, hpc, AesdChar.keepPartial, hpart, handlePartialData]
  refine h.update rfl ?_ ?_ ?_
  · exact fun b hb hdead => absurd hb hdead
  · intro b hb _
    rw [Driver.held, hpart, Option.toList_none, List.append_nil] at hb
    exact Or.inl (List.mem_append_left _ hb)
  · intro b hown _
    rw [hpc] at hown
    exact Or.inl (List.mem_append_right _ (Option.mem_toList.mpr hown))

/-- A turn that forgets no block. -/
theorem Kernel.Remembers.step (h : k.Remembers) (hstep : InStep fixedSizeLlseek k a)
    (hnone : t.ForgetsNone k) : (k.step fixedSizeLlseek t).Remembers := by
  have hlive := hstep.inFlight t.thread
  unfold KernelTurn.ForgetsNone at hnone
  cases hpc : k.pc t.thread with
  | idle =>
      simp only [Kernel.step, hpc]
      apply h.goes
      rw [hpc]
      cases t.op with
      | write buf env => rfl
      | read count env => rfl
      | llseek interrupted offset whence =>
          rw [FileOp.entry]
          split <;> rfl
      | ioctl interrupted cmd arg =>
          rw [FileOp.entry.eq_def]
          dsimp only
          split
          · split <;> rfl
          · rfl
  | kmalloc buf env => exact h.kmalloc hpc
  | copyFromUser buf env buffptr =>
      simp only [Kernel.step, hpc]
      split
      · exact h.moves (fun b hb => live_store.mp hb) rfl rfl (by rw [hpc]; rfl)
      · exact h.moves (fun b hb => live_store.mp hb) rfl rfl (by rw [hpc]; rfl)
  | lockComplete buf env buffptr =>
      simp only [Kernel.step, hpc]
      exact h.acquires (fun _ => by rw [hpc]; rfl) (by rw [hpc]; rfl)
  | kfreeChunk buffptr =>
      simp only [Kernel.step, hpc]
      exact h.frees (i := t.thread) (fun b hb => (hlive b hb).1) (by rw [hpc]; rfl) rfl
  | takePartial buf env buffptr =>
      rw [hpc] at hnone
      have hpart : k.driver.dev.partMemPtr = none := hnone
      simp only [Kernel.step, hpc, if_pos hpart]
      exact h.goes (by rw [hpc]; rfl)
  | addEntry buf env buffptr total => exact h.addEntry hstep hpc
  | unlockComplete count rmBuffptr size =>
      simp only [Kernel.step, hpc]
      exact h.moves (fun _ hb => hb) rfl rfl (by rw [hpc]; rfl)
  | kfreeRemoved count rmBuffptr size =>
      simp only [Kernel.step, hpc]
      exact h.frees (i := t.thread) (fun b hb => (hlive b hb).1) (by rw [hpc]; rfl) rfl
  | lockPartial buf env buffptr =>
      rw [hpc] at hnone
      simp only [Kernel.step, hpc]
      exact h.acquires (fun hi => absurd (hnone.symm.trans hi) Bool.false_ne_true)
        (by rw [hpc]; rfl)
  | keepPartial buf env buffptr =>
      rw [hpc] at hnone
      exact h.keepPartial hpc hnone
  | lockRead env =>
      simp only [Kernel.step, hpc]
      exact h.acquires (fun _ => by rw [hpc]; rfl) (by rw [hpc]; rfl)
  | findEntry env =>
      simp only [Kernel.step, hpc]
      split
      · exact h
      · exact h.moves (fun _ hb => hb) rfl rfl (by rw [hpc]; rfl)
      · exact h.moves (fun _ hb => hb) rfl rfl (by rw [hpc]; rfl)
  | copyToUser env rdEntry relativePos =>
      simp only [Kernel.step, hpc]
      split
      · exact h.moves (fun _ hb => hb) rfl rfl (by rw [hpc]; rfl)
      · exact h.moves (fun _ hb => hb) rfl rfl (by rw [hpc]; rfl)
  | lockLlseek interrupted offset whence =>
      simp only [Kernel.step, hpc]
      exact h.acquires (fun _ => by rw [hpc]; rfl) (by rw [hpc]; rfl)
  | lockIoctl interrupted seekto =>
      simp only [Kernel.step, hpc]
      exact h.acquires (fun _ => by rw [hpc]; rfl) (by rw [hpc]; rfl)
  | adjustOffset seekto =>
      simp only [Kernel.step, hpc]
      split
      · exact h
      · exact h.moves (fun _ hb => hb) rfl rfl (by rw [hpc]; rfl)
  | _ =>
      simp only [Kernel.step, hpc]
      exact h.moves (fun _ hb => hb) rfl rfl (by rw [hpc]; rfl)

/-! ## A statement that forgets a block -/

theorem InStep.forgets (hstep : InStep fixedSizeLlseek k a) {i : ι} {pc : CallPc} {b : Nat}
    (hown : (k.pc i).block = some b) (hpc : k'.pc = Function.update k.pc i pc)
    (hlive : k'.driver.heap.Live b) (hheld : b ∉ k'.driver.held) (hblock : pc.block ≠ some b) :
    ¬ k'.Remembers := by
  rw [Kernel.Remembers, block_update hpc]
  exact not_covered_update hstep.apart hown hlive hheld hblock

theorem InStep.not_remembers (hstep : InStep fixedSizeLlseek k a) (h : ¬ t.ForgetsNone k) :
    ¬ (k.step fixedSizeLlseek t).Remembers := by
  unfold KernelTurn.ForgetsNone at h
  cases hpc : k.pc t.thread with
  | takePartial buf env buffptr =>
      rw [hpc] at h
      obtain ⟨p, hpart⟩ := Option.ne_none_iff_exists'.mp h
      have hown : (k.pc t.thread).block = some buffptr := by rw [hpc]; rfl
      obtain ⟨hptr, hlive, hring⟩ := hstep.leaves hown hpart k.driver.dev.partBufSize
        (int32 (k.driver.dev.partBufSize + buf.length)) env
      simp only [Kernel.step, hpc, hpart, reduceCtorEq, if_false]
      apply hstep.forgets hown rfl hlive
      · rw [Kernel.goto_driver, Driver.held, Option.toList_none, List.append_nil]
        exact hring
      · exact hptr
  | lockPartial buf env buffptr =>
      rw [hpc] at h
      have hi : env.interrupted = true := by
        rw [← Bool.not_eq_false]
        exact h
      have hown : (k.pc t.thread).block = some buffptr := by rw [hpc]; rfl
      obtain ⟨hlive, hout⟩ := hstep.inFlight t.thread buffptr hown
      simp only [Kernel.step, hpc, Kernel.acquire, if_pos hi]
      -- it returns 0 with the block still allocated
      exact hstep.forgets hown rfl hlive hout (Option.some_ne_none buffptr).symm
  | keepPartial buf env buffptr =>
      rw [hpc] at h
      obtain ⟨p, hpart⟩ := Option.ne_none_iff_exists'.mp h
      have hown : (k.pc t.thread).block = some buffptr := by rw [hpc]; rfl
      obtain ⟨hptr, hlive, hring⟩ := hstep.leaves hown hpart k.driver.dev.partBufSize
        (int32 (k.driver.dev.partBufSize + buf.length)) env
      simp only [Kernel.step, hpc, AesdChar.keepPartial, hpart]
      apply hstep.forgets hown rfl hlive
      · intro hheld
        rcases List.mem_append.mp hheld with hb | hb
        · exact hring hb
        · exact hptr (Option.mem_toList.mp hb)
      · exact (Option.some_ne_none buffptr).symm
  | _ =>
      rw [hpc] at h
      exact absurd trivial h

/-! ## Blocks are freed once -/

theorem freedOnce_handlePartialData {heap : Heap} (h : heap.FreedOnce) (part new : Option Nat)
    (size total : Int) (env : WriteEnv) :
    (handlePartialData heap part size new total env).2.FreedOnce := by
  unfold handlePartialData AesdChar.kmalloc
  cases part with
  | none => exact h
  | some p =>
      by_cases hm : kmallocSucceeds (sizeT total) env.concat = true
      · simp only [if_pos hm]
        exact (((h.alloc _).memcpy _ _ _ _ _ _).memcpy _ _ _ _ _ _).free _
      · simp only [if_neg hm]
        exact h

theorem freedOnce_step (fixedSizeLlseek : LlseekFn) {k : Kernel ι} (h : k.driver.heap.FreedOnce)
    (t : KernelTurn ι) : (k.step fixedSizeLlseek t).driver.heap.FreedOnce := by
  cases hpc : k.pc t.thread with
  | kmalloc buf env =>
      simp only [Kernel.step, hpc, AesdChar.kmalloc]
      by_cases hm : kmallocSucceeds buf.length env.kmalloc = true
      · simp only [if_pos hm]
        exact h.alloc _
      · simp only [if_neg hm]
        exact h
  | copyFromUser buf env buffptr =>
      simp only [Kernel.step, hpc]
      exact h.store _ _ _
  | kfreeChunk buffptr =>
      simp only [Kernel.step, hpc]
      exact h.free _
  | takePartial buf env buffptr =>
      simp only [Kernel.step, hpc]
      split
      · exact h
      · exact freedOnce_handlePartialData h _ _ _ _ _
  | kfreeRemoved count rmBuffptr size =>
      simp only [Kernel.step, hpc]
      exact h.free _
  | keepPartial buf env buffptr =>
      simp only [Kernel.step, hpc]
      exact freedOnce_handlePartialData h _ _ _ _ _
  | findEntry env =>
      simp only [Kernel.step, hpc]
      split <;> exact h
  | copyToUser env rdEntry relativePos =>
      -- an access out of bounds frees nothing
      have hread : ∀ bad : Bool,
          Heap.FreedOnce { k.driver.heap with fault := k.driver.heap.fault || bad } :=
        fun bad => h.same rfl fun hno => (Bool.or_eq_false_iff.mp hno).1
      simp only [Kernel.step, hpc]
      split <;> exact hread _
  | adjustOffset seekto =>
      simp only [Kernel.step, hpc]
      split <;> exact h
  | lockComplete buf env buffptr =>
      simp only [Kernel.step, hpc, Kernel.acquire_driver]
      exact h
  | lockPartial buf env buffptr =>
      simp only [Kernel.step, hpc, Kernel.acquire_driver]
      exact h
  | lockRead env =>
      simp only [Kernel.step, hpc, Kernel.acquire_driver]
      exact h
  | lockLlseek interrupted offset whence =>
      simp only [Kernel.step, hpc, Kernel.acquire_driver]
      exact h
  | lockIoctl interrupted seekto =>
      simp only [Kernel.step, hpc, Kernel.acquire_driver]
      exact h
  | _ =>
      simp only [Kernel.step, hpc]
      exact h

/-! ## Runs -/

theorem ledger_simulates (fixedSizeLlseek : LlseekFn) :
    (Kernel.eventMachine fixedSizeLlseek).Simulates (AtomicLog.eventMachine fixedSizeLlseek)
      (fun (k : Kernel ι) t => t.ForgetsNone k) (InLedger fixedSizeLlseek) := by
  intro k a t h hnone
  obtain ⟨js, hstep, htrace⟩ := h.inStep.step hnone.concatenates
  refine ⟨js, ⟨hstep, ?_, ?_⟩, htrace⟩
  · exact h.remembers.step h.inStep hnone
  · exact freedOnce_step fixedSizeLlseek h.freedOnce t

/-- In every interleaving of the statements of any number of calls: each live block has its place,
in the device or in one call, at every point of the run exactly when no chunk meets a pending
command and none without a '\n' is interrupted at its lock. -/
theorem interleaved_ledger_iff (fixedSizeLlseek : LlseekFn) (fPos : ι → Int)
    (turns : List (KernelTurn ι)) :
    (∀ pre, pre <+: turns →
        ((Kernel.machine fixedSizeLlseek).run (Kernel.start fPos) pre).Accounted) ↔
      Runs.Guarded (Kernel.step fixedSizeLlseek) (fun k t => t.ForgetsNone k) (Kernel.start fPos)
        turns := by
  apply Runs.forall_prefix_iff
    (fun k : Kernel ι => ∃ a, InLedger fixedSizeLlseek k a) Kernel.Accounted
  · exact fun k ⟨a, h⟩ => h.inStep.accounted h.remembers
  · intro k t ⟨a, h⟩ _ hnone
    obtain ⟨_, h', _⟩ := ledger_simulates fixedSizeLlseek k a t h hnone
    exact ⟨_, h'⟩
  · exact fun k t ⟨a, h⟩ _ hforgets hacc => h.inStep.not_remembers hforgets hacc.remembers
  · exact ⟨_, .start fixedSizeLlseek fPos⟩
  · exact Runs.guarded_true _ _

end

end AesdChar
