import AesdChar.CallsReturn

/-!
# The print behind the unlock

`aesd_read` prints the entry it has read after it has given up the lock.  The slot stays in use, and
its pointer is that of a stored entry whenever it is taken; but the block can be given up and freed
before `printk` gets to it.  It stays as long as no command is given up.
-/

namespace AesdChar

open CInt Heap AesdCircularBuffer

/-! ## Slots in use -/

def AesdCircularBuffer.Used (b : AesdCircularBuffer) (e : Nat) : Prop :=
  ∃ j < b.count, e = b.slotOf j

section

variable {b : AesdCircularBuffer}

/-- An entry that is added takes no slot out of use. -/
theorem Used.addEntry (h : RingInv b) {e : Nat} (hu : b.Used e) (x : AesdBufferEntry) :
    (aesdCircularBufferAddEntry b x).2.Used e := by
  obtain ⟨j, hj, rfl⟩ := hu
  have hcount := count_addEntry h x
  by_cases hf : b.full = true
  · -- with the ring full every slot is in use
    have hten : (aesdCircularBufferAddEntry b x).2.count = 10 := by
      rw [hcount, count_of_full hf]
      rfl
    refine ⟨(b.slotOf j + 10 - (aesdCircularBufferAddEntry b x).2.outOffs) % 10, ?_, ?_⟩
    · rw [hten]
      exact Nat.mod_lt _ (by decide)
    · have hout := (ringInv_addEntry h x).outLt
      simp only [slotOf] at hout ⊢
      omega
  · have hlt := count_lt_of_not_full (Bool.eq_false_iff.mpr hf)
    refine ⟨j, by rw [hcount]; omega, ?_⟩
    rw [slotOf, slotOf, outOffs_addEntry, if_neg hf]

theorem blocks_kept (h : RingInv b) (hf : b.full = false) (x : AesdBufferEntry) {p : Nat}
    (hp : p ∈ b.blocks) : p ∈ (aesdCircularBufferAddEntry b x).2.blocks := by
  obtain ⟨kept, hblocks, hadded⟩ := blocks_addEntry h x
  have hnone : (aesdCircularBufferAddEntry b x).1 = none := by
    show (if b.full then _ else none) = none
    rw [if_neg (by rw [hf]; decide)]
  rw [hnone, Option.toList_none, List.nil_append] at hblocks
  rw [hadded, ← hblocks]
  exact List.mem_append_left _ hp

/-- The pointer in a slot in use leads to a block of the ring. -/
theorem Used.block {e p : Nat} (hu : b.Used e) (hp : (b.slot e).buffptr = some p) :
    p ∈ b.blocks := by
  obtain ⟨j, hj, rfl⟩ := hu
  have hj' : j < b.stored.length := by rwa [length_stored]
  rw [slot_slotOf hj'] at hp
  exact List.mem_filterMap.mpr ⟨_, List.getElem_mem hj', hp⟩

end

/-! ## What a read is about to print -/

/-- A read on its way to the print has a slot in use, or a block of the ring. -/
def CallPc.Shows (b : AesdCircularBuffer) : CallPc → Prop
  | .copyToUser _ rdEntry _ => b.Used rdEntry
  | .unlockRead rdEntry _ _ => b.Used rdEntry
  | .printEntry rdEntry _ _ => b.Used rdEntry
  | .printString buffptr _ _ => ∀ p, buffptr = some p → p ∈ b.blocks
  | _ => True

theorem CallPc.Shows.mono {b b' : AesdCircularBuffer} {pc : CallPc} (h : pc.Shows b)
    (hused : ∀ e, b.Used e → b'.Used e) (hblocks : ∀ p ∈ b.blocks, p ∈ b'.blocks) :
    pc.Shows b' := by
  cases pc with
  | copyToUser env rdEntry relativePos => exact hused _ h
  | unlockRead rdEntry ret data => exact hused _ h
  | printEntry rdEntry ret data => exact hused _ h
  | printString buffptr ret data => exact fun p hp => hblocks p (h p hp)
  | _ => trivial

/-- If an entry is added next, the ring has room for it. -/
def CallPc.KeepsAll (s : Driver) : CallPc → Prop
  | .addEntry _ _ _ _ => s.dev.buffer.full = false
  | _ => True

instance (s : Driver) : (pc : CallPc) → Decidable (pc.KeepsAll s)
  | .addEntry .. => inferInstanceAs (Decidable (s.dev.buffer.full = false))
  | .idle | .kmalloc .. | .copyFromUser .. | .lockComplete .. | .kfreeChunk .. | .takePartial ..
  | .unlockComplete .. | .kfreeRemoved .. | .lockPartial .. | .keepPartial .. | .lockRead ..
  | .findEntry .. | .copyToUser .. | .unlockRead .. | .printEntry .. | .printString ..
  | .lockLlseek .. | .readSize .. | .unlockLlseek .. | .fixedSizeLlseek .. | .lockIoctl ..
  | .adjustOffset .. | .unlock .. | .returning .. => inferInstanceAs (Decidable True)

/-- Neither `handle_partial_data` returns NULL nor is a command given up. -/
def KernelTurn.LosesNothing {ι : Type} (k : Kernel ι) (t : KernelTurn ι) : Prop :=
  t.Concatenates k ∧ (k.pc t.thread).KeepsAll k.driver

instance {ι : Type} (k : Kernel ι) (t : KernelTurn ι) : Decidable (t.LosesNothing k) :=
  inferInstanceAs (Decidable (_ ∧ _))

section

variable {ι : Type} [DecidableEq ι] {fixedSizeLlseek : LlseekFn} {k : Kernel ι}
  {a : AtomicLog ι} {t : KernelTurn ι}

structure PrintsLive (k : Kernel ι) : Prop where
  shows : ∀ i, (k.pc i).Shows k.driver.dev.buffer
  stray : k.strayPrint = false

theorem acquire_pc (k : Kernel ι) (i : ι) (interrupted : Bool) (failed acquired : CallPc) :
    (k.acquire i interrupted failed acquired).pc i = failed ∨
      (k.acquire i interrupted failed acquired).pc i = acquired ∨
      (k.acquire i interrupted failed acquired).pc i = k.pc i := by
  rw [Kernel.acquire]
  split
  · exact Or.inl (Function.update_self _ _ _)
  · split
    · exact Or.inr (Or.inl (Function.update_self _ _ _))
    · exact Or.inr (Or.inr rfl)

theorem acquire_shows {b : AesdCircularBuffer} {i : ι} {interrupted : Bool}
    {failed acquired : CallPc} (hfailed : failed.Shows b) (hacquired : acquired.Shows b)
    (hwaiting : (k.pc i).Shows b) :
    ((k.acquire i interrupted failed acquired).pc i).Shows b := by
  rcases acquire_pc k i interrupted failed acquired with h | h | h
  · rwa [h]
  · rwa [h]
  · rwa [h]

theorem entry_shows (b : AesdCircularBuffer) (op : FileOp) : op.entry.Shows b := by
  cases op with
  | write buf env => trivial
  | read count env => trivial
  | llseek interrupted offset whence =>
      rw [FileOp.entry]
      split <;> trivial
  | ioctl interrupted cmd arg =>
      rw [FileOp.entry.eq_def]
      dsimp only
      split
      · cases arg <;> trivial
      · trivial

/-- A thread that gets to an entry has found it; one that gets to a string has taken its pointer out
of a slot in use. -/
theorem step_shows (hk : InStep fixedSizeLlseek k a)
    (h : (k.pc t.thread).Shows k.driver.dev.buffer) :
    ((k.step fixedSizeLlseek t).pc t.thread).Shows k.driver.dev.buffer := by
  cases hpc : k.pc t.thread with
  | idle =>
      simp only [Kernel.step, hpc, Kernel.goto_pc, Function.update_self]
      exact entry_shows _ _
  | kmalloc buf env =>
      simp only [Kernel.step, hpc]
      split <;> simp [CallPc.Shows]
  | copyFromUser buf env buffptr =>
      simp only [Kernel.step, hpc, Kernel.goto_pc, Function.update_self]
      split <;> trivial
  | takePartial buf env buffptr =>
      simp only [Kernel.step, hpc]
      split <;> simp [CallPc.Shows]
  | adjustOffset seekto =>
      simp only [Kernel.step, hpc]
      split
      · rw [hpc]
        trivial
      · simp [CallPc.Shows]
  | lockComplete buf env buffptr =>
      simp only [Kernel.step, hpc]
      exact acquire_shows trivial trivial h
  | lockPartial buf env buffptr =>
      simp only [Kernel.step, hpc]
      exact acquire_shows trivial trivial h
  | lockRead env =>
      simp only [Kernel.step, hpc]
      exact acquire_shows trivial trivial h
  | lockLlseek interrupted offset whence =>
      simp only [Kernel.step, hpc]
      exact acquire_shows trivial trivial h
  | lockIoctl interrupted seekto =>
      simp only [Kernel.step, hpc]
      exact acquire_shows trivial trivial h
  | findEntry env =>
      have hholds : Holds k.driver a.log := hk.holds_at hpc rfl
      simp only [Kernel.step, hpc, hholds.find_eq]
      cases hl : CommandLog.lookup a.log.sizes (int32 (k.fPos t.thread)) with
      | none => simp [CallPc.Shows]
      | some r =>
          have hj := (@lookup_bounds _ _ r.1 r.2 hl).1
          rw [CommandLog.sizes, List.length_map, ← hholds.count_eq] at hj
          simp only [Option.map_some, Kernel.goto_pc, Function.update_self]
          exact ⟨r.1, hj, rfl⟩
  | copyToUser env rdEntry relativePos =>
      rw [hpc] at h
      simp only [Kernel.step, hpc]
      split <;> simpa [CallPc.Shows] using h
  | unlockRead rdEntry ret data =>
      rw [hpc] at h
      simpa [Kernel.step, hpc, CallPc.Shows] using h
  | printEntry rdEntry ret data =>
      rw [hpc] at h
      simp only [Kernel.step, hpc, Kernel.goto_pc, Function.update_self]
      exact fun p hp => Used.block h hp
  | _ => simp [Kernel.step, hpc, CallPc.Shows]

/-- Only the print itself can go astray. -/
theorem step_strayPrint (fixedSizeLlseek : LlseekFn) (k : Kernel ι) (t : KernelTurn ι) :
    (k.step fixedSizeLlseek t).strayPrint = k.strayPrint ∨
      ∃ buffptr ret data, k.pc t.thread = .printString buffptr ret data ∧
        (k.step fixedSizeLlseek t).strayPrint = (k.print buffptr).strayPrint := by
  have hacquire : ∀ interrupted failed acquired,
      (k.acquire t.thread interrupted failed acquired).strayPrint = k.strayPrint := by
    intro interrupted failed acquired
    rw [Kernel.acquire]
    split
    · rfl
    · split <;> rfl
  cases hpc : k.pc t.thread with
  | printString buffptr ret data =>
      simp only [Kernel.step, hpc]
      exact Or.inr ⟨_, _, _, rfl, rfl⟩
  | kmalloc buf env =>
      left
      simp only [Kernel.step, hpc]
      split <;> rfl
  | takePartial buf env buffptr =>
      left
      simp only [Kernel.step, hpc]
      split <;> rfl
  | findEntry env =>
      left
      simp only [Kernel.step, hpc]
      split <;> rfl
  | copyToUser env rdEntry relativePos =>
      left
      simp only [Kernel.step, hpc]
      split <;> rfl
  | adjustOffset seekto =>
      left
      simp only [Kernel.step, hpc]
      split <;> rfl
  | lockComplete buf env buffptr => simp only [Kernel.step, hpc, hacquire, true_or]
  | lockPartial buf env buffptr => simp only [Kernel.step, hpc, hacquire, true_or]
  | lockRead env => simp only [Kernel.step, hpc, hacquire, true_or]
  | lockLlseek interrupted offset whence => simp only [Kernel.step, hpc, hacquire, true_or]
  | lockIoctl interrupted seekto => simp only [Kernel.step, hpc, hacquire, true_or]
  | _ =>
      left
      simp only [Kernel.step, hpc]
      rfl

theorem PrintsLive.step (h : PrintsLive k) (hk : InStep fixedSizeLlseek k a)
    (hroom : (k.pc t.thread).KeepsAll k.driver) :
    PrintsLive (k.step fixedSizeLlseek t) where
  shows := by
    intro j
    have hnow : ((k.step fixedSizeLlseek t).pc j).Shows k.driver.dev.buffer := by
      by_cases hj : j = t.thread
      · rw [hj]
        exact step_shows hk (h.shows _)
      · rw [(Kernel.step_others fixedSizeLlseek k t hj).1]
        exact h.shows j
    rcases Kernel.step_buffer fixedSizeLlseek k t with hsame | ⟨_, _, _, _, e, hpc, hadded⟩
    · rw [hsame]
      exact hnow
    · rw [hpc] at hroom
      rw [hadded]
      exact hnow.mono (fun _ hu => Used.addEntry hk.holds.ring hu e)
        fun _ hp => blocks_kept hk.holds.ring hroom e hp
  stray := by
    rcases step_strayPrint fixedSizeLlseek k t with hsame | ⟨buffptr, ret, data, hpc, hprint⟩
    · rw [hsame, h.stray]
    · have hshows := h.shows t.thread
      rw [hpc] at hshows
      rw [hprint, Kernel.print, h.stray, Bool.false_or]
      cases buffptr with
      | none => rfl
      | some p =>
          have hlive := hk.holds.live_of_blocks (hshows p rfl)
          rw [Option.any_some, decide_eq_true hlive, Bool.not_true]

/-- As long as no command is given up, every print of a read finds its block, however late it
comes. -/
theorem late_prints_live (fixedSizeLlseek : LlseekFn) (fPos : ι → Int)
    {turns : List (KernelTurn ι)}
    (h : Runs.Guarded (Kernel.step fixedSizeLlseek) (fun k t => t.LosesNothing k)
      (Kernel.start fPos) turns) :
    ((Kernel.machine fixedSizeLlseek).run (Kernel.start fPos) turns).strayPrint = false := by
  have hstart : PrintsLive (Kernel.start fPos) := ⟨fun _ => trivial, rfl⟩
  have hrun := h.invariant (fun k => (∃ a, InStep fixedSizeLlseek k a) ∧ PrintsLive k)
    (fun k t ⟨⟨a, hk⟩, hlive⟩ hguard =>
      have ⟨_, hk', _⟩ := hk.step hguard.1
      ⟨⟨_, hk'⟩, hlive.step hk hguard.2⟩)
    ⟨⟨_, InStep.start fixedSizeLlseek fPos⟩, hstart⟩
  exact hrun.2.stray

end

/-- `writes` lines are written by one thread, and read once by the other up to where it prints. -/
def linesThenRead (writes : Nat) : List (KernelTurn Bool) :=
  List.replicate (9 * writes) ⟨true, .write [97, 10] .calm⟩ ++
    List.replicate 6 ⟨false, .read 1024 .calm⟩

theorem late_print_of_ten_lines :
    ((Kernel.machine fun fPos _ _ _ => (fPos, fPos)).run (Kernel.start fun _ => 0)
      (linesThenRead 10 ++ [⟨false, .read 1024 .calm⟩])).strayPrint = false :=
  late_prints_live _ _ (by decide +kernel)

/-- Another line before the print comes, and the block printed is one that has been freed. -/
theorem late_print_of_freed_block :
    ((Kernel.machine fun fPos _ _ _ => (fPos, fPos)).run (Kernel.start fun _ => 0)
      (linesThenRead 10 ++ List.replicate 9 ⟨true, .write [97, 10] .calm⟩ ++
        [⟨false, .read 1024 .calm⟩])).strayPrint = true := by
  decide +kernel

end AesdChar
