import AesdChar.UndisturbedCalls

/-!
# Every call returns

Whatever the threads have done so far and whatever failed in it, all calls begun can be brought to
their return: `buf_lock` is given back on every path, and nobody waits for anything else.
-/

namespace AesdChar

open CInt

/-- The statements a call has yet to run, at most. -/
def CallPc.remaining : CallPc → Nat
  | .idle => 0
  | .kmalloc _ _ => 8
  | .copyFromUser _ _ _ => 7
  | .lockComplete _ _ _ => 6
  | .kfreeChunk _ => 2
  | .takePartial _ _ _ => 5
  | .addEntry _ _ _ _ => 4
  | .unlockComplete _ _ _ => 3
  | .kfreeRemoved _ _ _ => 2
  | .lockPartial _ _ _ => 4
  | .keepPartial _ _ _ => 3
  | .lockRead _ => 7
  | .findEntry _ => 6
  | .copyToUser _ _ _ => 5
  | .unlockRead _ _ _ => 4
  | .printEntry _ _ _ => 3
  | .printString _ _ _ => 2
  | .lockLlseek _ _ _ => 5
  | .readSize _ _ => 4
  | .unlockLlseek _ _ _ => 3
  | .fixedSizeLlseek _ _ _ => 2
  | .lockIoctl _ _ => 4
  | .adjustOffset _ => 3
  | .unlock _ _ => 2
  | .returning _ _ => 1

/-- At a `mutex_lock_interruptible`. -/
def CallPc.atLock : CallPc → Bool
  | .lockComplete _ _ _ => true
  | .lockPartial _ _ _ => true
  | .lockRead _ => true
  | .lockLlseek _ _ _ => true
  | .lockIoctl _ _ => true
  | _ => false

theorem outside_of_atLock {pc : CallPc} (h : pc.atLock = true) : pc.inSection = false := by
  cases pc <;> simp_all [CallPc.atLock, CallPc.inSection]

theorem remaining_eq_zero {pc : CallPc} : pc.remaining = 0 ↔ pc = .idle := by
  cases pc <;> simp [CallPc.remaining]

namespace Kernel

/-- The lock is with the thread in its locked section, and the ring is one. -/
structure Sound {ι : Type} (k : Kernel ι) : Prop where
  mutex : Mutex.Guards k.holder fun i => (k.pc i).inSection
  ring : RingInv k.driver.dev.buffer

theorem Sound.start {ι : Type} (fPos : ι → Int) : (Kernel.start fPos).Sound where
  mutex := Mutex.Guards.nobody
  ring := RingInv.init

variable {ι : Type} [DecidableEq ι] {fixedSizeLlseek : LlseekFn} {k : Kernel ι} {t : KernelTurn ι}

/-! ## What a turn does to the lock and to the ring -/

theorem acquire_moves (k : Kernel ι) (i : ι) (interrupted : Bool) {failed acquired : CallPc}
    (hout : (k.pc i).inSection = false) (hfailed : failed.inSection = false)
    (hacquired : acquired.inSection = true) :
    Mutex.Moves k.holder (k.acquire i interrupted failed acquired).holder i false
      ((k.acquire i interrupted failed acquired).pc i).inSection := by
  rw [acquire]
  split
  · apply Mutex.Moves.kept
    · rfl
    · rw [goto_pc, Function.update_self, hfailed]
  · split
    · rename_i hfree
      apply Mutex.Moves.taken hfree
      · rfl
      · rw [goto_pc, Function.update_self, hacquired]
    · exact Mutex.Moves.kept rfl hout

theorem goto_kept {k' : Kernel ι} {i : ι} {pc : CallPc} {before : Bool}
    (hholder : k'.holder = k.holder) (hsec : pc.inSection = before) :
    Mutex.Moves k.holder (k'.goto i pc).holder i before ((k'.goto i pc).pc i).inSection := by
  apply Mutex.Moves.kept
  · exact hholder
  · rw [goto_pc, Function.update_self, hsec]

theorem goto_released {k' : Kernel ι} {i : ι} {pc : CallPc} (h : k.Sound)
    (hin : (k.pc i).inSection = true) (hholder : k'.holder = none) (hsec : pc.inSection = false) :
    Mutex.Moves k.holder (k'.goto i pc).holder i true ((k'.goto i pc).pc i).inSection := by
  apply Mutex.Moves.released ((h.mutex i).mpr hin)
  · exact hholder
  · rw [goto_pc, Function.update_self, hsec]

theorem step_moves (h : k.Sound) :
    Mutex.Moves k.holder (k.step fixedSizeLlseek t).holder t.thread (k.pc t.thread).inSection
      ((k.step fixedSizeLlseek t).pc t.thread).inSection := by
  have hentry : t.op.entry.inSection = false := by
    cases t.op with
    | write buf env => rfl
    | read count env => rfl
    | llseek interrupted offset whence =>
        rw [FileOp.entry]
        split <;> rfl
    | ioctl interrupted cmd arg =>
        rw [FileOp.entry.eq_def]
        dsimp only
        split
        · cases arg <;> rfl
        · rfl
  cases hpc : k.pc t.thread with
  | idle =>
      simp only [step, hpc]
      exact goto_kept rfl hentry
  | kmalloc buf env =>
      simp only [step, hpc]
      split <;> exact goto_kept rfl rfl
  | copyFromUser buf env buffptr =>
      simp only [step, hpc]
      apply goto_kept
      · rfl
      · split <;> rfl
  | takePartial buf env buffptr =>
      simp only [step, hpc]
      split <;> exact goto_kept rfl rfl
  | findEntry env =>
      simp only [step, hpc]
      split
      · exact .kept rfl (by rw [hpc])
      · exact goto_kept rfl rfl
      · exact goto_kept rfl rfl
  | copyToUser env rdEntry relativePos =>
      simp only [step, hpc]
      split <;> exact goto_kept rfl rfl
  | adjustOffset seekto =>
      simp only [step, hpc]
      split
      · exact .kept rfl (by rw [hpc])
      · exact goto_kept rfl rfl
  | lockComplete buf env buffptr =>
      simp only [step, hpc]
      exact acquire_moves _ _ _ (by rw [hpc]; rfl) rfl rfl
  | lockPartial buf env buffptr =>
      simp only [step, hpc]
      exact acquire_moves _ _ _ (by rw [hpc]; rfl) rfl rfl
  | lockRead env =>
      simp only [step, hpc]
      exact acquire_moves _ _ _ (by rw [hpc]; rfl) rfl rfl
  | lockLlseek interrupted offset whence =>
      simp only [step, hpc]
      exact acquire_moves _ _ _ (by rw [hpc]; rfl) rfl rfl
  | lockIoctl interrupted seekto =>
      simp only [step, hpc]
      exact acquire_moves _ _ _ (by rw [hpc]; rfl) rfl rfl
  | unlockComplete count rmBuffptr size =>
      simp only [step, hpc]
      exact goto_released h (by rw [hpc]; rfl) rfl rfl
  | unlockRead rdEntry ret data =>
      simp only [step, hpc]
      exact goto_released h (by rw [hpc]; rfl) rfl rfl
  | unlockLlseek offset whence cbSize =>
      simp only [step, hpc]
      exact goto_released h (by rw [hpc]; rfl) rfl rfl
  | unlock ret data =>
      simp only [step, hpc]
      exact goto_released h (by rw [hpc]; rfl) rfl rfl
  | _ =>
      simp only [step, hpc]
      exact goto_kept rfl rfl

/-- The ring changes by an entry added to it, or not at all. -/
theorem step_buffer (fixedSizeLlseek : LlseekFn) (k : Kernel ι) (t : KernelTurn ι) :
    (k.step fixedSizeLlseek t).driver.dev.buffer = k.driver.dev.buffer ∨
      ∃ buf env buffptr total e, k.pc t.thread = .addEntry buf env buffptr total ∧
        (k.step fixedSizeLlseek t).driver.dev.buffer =
          (aesdCircularBufferAddEntry k.driver.dev.buffer e).2 := by
  cases hpc : k.pc t.thread with
  | addEntry buf env buffptr total =>
      simp only [step, hpc]
      exact Or.inr ⟨_, _, _, _, _, rfl, rfl⟩
  | kmalloc buf env =>
      left
      simp only [step, hpc]
      split <;> rfl
  | takePartial buf env buffptr =>
      left
      simp only [step, hpc]
      split <;> rfl
  | findEntry env =>
      left
      simp only [step, hpc]
      split <;> rfl
  | copyToUser env rdEntry relativePos =>
      left
      simp only [step, hpc]
      split <;> rfl
  | adjustOffset seekto =>
      left
      simp only [step, hpc]
      split <;> rfl
  | lockComplete buf env buffptr => simp only [step, hpc, acquire_driver, true_or]
  | lockPartial buf env buffptr => simp only [step, hpc, acquire_driver, true_or]
  | lockRead env => simp only [step, hpc, acquire_driver, true_or]
  | lockLlseek interrupted offset whence => simp only [step, hpc, acquire_driver, true_or]
  | lockIoctl interrupted seekto => simp only [step, hpc, acquire_driver, true_or]
  | _ =>
      left
      simp only [step, hpc]
      rfl

theorem step_pc (fixedSizeLlseek : LlseekFn) (k : Kernel ι) (t : KernelTurn ι) :
    (k.step fixedSizeLlseek t).pc =
      Function.update k.pc t.thread ((k.step fixedSizeLlseek t).pc t.thread) := by
  funext j
  by_cases hj : j = t.thread
  · rw [hj, Function.update_self]
  · rw [Function.update_of_ne hj]
    exact (step_others fixedSizeLlseek k t hj).1

namespace Sound

theorem step (h : k.Sound) : (k.step fixedSizeLlseek t).Sound where
  mutex := guards_update h.mutex (step_moves h) (step_pc fixedSizeLlseek k t)
  ring := by
    rcases step_buffer fixedSizeLlseek k t with
      hsame | ⟨_, _, _, _, e, _, hadded⟩
    · rw [hsame]
      exact h.ring
    · rw [hadded]
      exact ringInv_addEntry h.ring e

theorem run (h : k.Sound) (turns : List (KernelTurn ι)) :
    ((machine fixedSizeLlseek).run k turns).Sound :=
  Runs.invariant Sound (fun _ _ hs => hs.step) h turns

/-! ## Nearer to the return -/

/-- Unless it waits for the lock, a call gets on. -/
theorem nearer (h : k.Sound) (hpc : k.pc t.thread ≠ .idle)
    (hlock : (k.pc t.thread).atLock = true → k.holder = none) :
    ((k.step fixedSizeLlseek t).pc t.thread).remaining < (k.pc t.thread).remaining := by
  have hwaits : ∀ {interrupted : Bool} {failed acquired : CallPc} {n : Nat},
      (k.pc t.thread).atLock = true → failed.remaining < n → acquired.remaining < n →
      ((k.acquire t.thread interrupted failed acquired).pc t.thread).remaining < n := by
    intro interrupted failed acquired n hat hfailed hacquired
    rw [acquire_free k t.thread (hlock hat)]
    split
    · simpa using hfailed
    · simpa using hacquired
  cases hc : k.pc t.thread with
  | idle => exact absurd hc hpc
  | kmalloc buf env =>
      simp only [Kernel.step, hc]
      split <;> simp [CallPc.remaining]
  | copyFromUser buf env buffptr =>
      simp only [Kernel.step, hc]
      split <;> simp [CallPc.remaining]
  | takePartial buf env buffptr =>
      simp only [Kernel.step, hc]
      split <;> simp [CallPc.remaining]
  | findEntry env =>
      -- the search comes back
      obtain ⟨found, hfound⟩ := Option.isSome_iff_exists.mp
        ((walksVisit_slots h.ring).find (sizeT (k.fPos t.thread))).2
      simp only [Kernel.step, hc, hfound]
      cases found <;> simp [CallPc.remaining]
  | copyToUser env rdEntry relativePos =>
      simp only [Kernel.step, hc]
      split <;> simp [CallPc.remaining]
  | adjustOffset seekto =>
      simp only [Kernel.step, hc, adjust_eq_int64 h.ring]
      simp [CallPc.remaining]
  | lockComplete buf env buffptr =>
      simp only [Kernel.step, hc]
      exact hwaits (by rw [hc]; rfl) (by simp [CallPc.remaining]) (by simp [CallPc.remaining])
  | lockPartial buf env buffptr =>
      simp only [Kernel.step, hc]
      exact hwaits (by rw [hc]; rfl) (by simp [CallPc.remaining]) (by simp [CallPc.remaining])
  | lockRead env =>
      simp only [Kernel.step, hc]
      exact hwaits (by rw [hc]; rfl) (by simp [CallPc.remaining]) (by simp [CallPc.remaining])
  | lockLlseek interrupted offset whence =>
      simp only [Kernel.step, hc]
      exact hwaits (by rw [hc]; rfl) (by simp [CallPc.remaining]) (by simp [CallPc.remaining])
  | lockIoctl interrupted seekto =>
      simp only [Kernel.step, hc]
      exact hwaits (by rw [hc]; rfl) (by simp [CallPc.remaining]) (by simp [CallPc.remaining])
  | _ =>
      simp only [Kernel.step, hc]
      simp [CallPc.remaining]

/-- With the lock free or its own, a thread gets back on its own, and gives the lock back. -/
theorem returns_alone (h : k.Sound) (hlock : k.holder = none ∨ k.holder = some t.thread) :
    ∃ n, let k' := (machine fixedSizeLlseek).run k (List.replicate n t)
      k'.pc t.thread = .idle ∧ k'.holder = none := by
  induction hn : (k.pc t.thread).remaining using Nat.strong_induction_on generalizing k with
  | _ n ih =>
      by_cases hpc : k.pc t.thread = .idle
      · refine ⟨0, hpc, ?_⟩
        rcases hlock with hfree | hheld
        · exact hfree
        · exact absurd hheld (h.mutex.outside (by rw [hpc]; rfl))
      · have hstep : (k.step fixedSizeLlseek t).holder = none ∨
            (k.step fixedSizeLlseek t).holder = some t.thread := by
          cases @step_moves _ _ fixedSizeLlseek k t h with
          | kept hholder _ => rwa [hholder]
          | taken _ hholder _ => exact Or.inr hholder
          | released _ hholder _ => exact Or.inl hholder
        have hfree : (k.pc t.thread).atLock = true → k.holder = none := by
          intro hat
          exact hlock.resolve_right (h.mutex.outside (outside_of_atLock hat))
        obtain ⟨m, hback⟩ := ih _ (hn ▸ h.nearer hpc hfree) h.step hstep rfl
        exact ⟨m + 1, hback⟩

/-- The holder first, if there is one, then the threads in turn. -/
theorem all_return (fixedSizeLlseek : LlseekFn) (h : k.Sound) (op : FileOp) (threads : List ι) :
    ∃ more : List (KernelTurn ι), let k' := (machine fixedSizeLlseek).run k more
      k'.holder = none ∧ ∀ i ∈ threads, k'.pc i = .idle := by
  induction threads with
  | nil =>
      cases hh : k.holder with
      | none => exact ⟨[], hh, fun _ hi => absurd hi List.not_mem_nil⟩
      | some j =>
          obtain ⟨n, _, hfree⟩ := @returns_alone _ _ fixedSizeLlseek _ ⟨j, op⟩ h (Or.inr hh)
          exact ⟨_, hfree, fun _ hi => absurd hi List.not_mem_nil⟩
  | cons j threads ih =>
      obtain ⟨more, hfree, hidle⟩ := ih
      obtain ⟨n, hj, hfree'⟩ :=
        @returns_alone _ _ fixedSizeLlseek _ ⟨j, op⟩ (h.run more) (Or.inl hfree)
      refine ⟨more ++ List.replicate n ⟨j, op⟩, ?_, ?_⟩
      · rw [Machine.run_append]
        exact hfree'
      · intro i hi
        rw [Machine.run_append]
        by_cases hij : i = j
        · rw [hij]
          exact hj
        · have hold := hidle i ((List.mem_cons.mp hi).resolve_left hij)
          exact (run_others n hij).1.trans hold

end Sound

end Kernel

/-- From wherever the threads have got to, whatever failed or was interrupted on the way, turns can
follow after which the threads asked about are back from their calls and `buf_lock` is free. -/
theorem calls_return {ι : Type} [DecidableEq ι] (fixedSizeLlseek : LlseekFn) (fPos : ι → Int)
    (turns : List (KernelTurn ι)) (threads : List ι) :
    ∃ more,
      let k := (Kernel.machine fixedSizeLlseek).run (Kernel.start fPos) (turns ++ more)
      k.holder = none ∧ ∀ i ∈ threads, k.pc i = .idle := by
  have hsound := @Kernel.Sound.run _ _ fixedSizeLlseek _ (Kernel.Sound.start fPos) turns
  obtain ⟨more, hmore⟩ :=
    hsound.all_return fixedSizeLlseek (.ioctl true 0 none) threads
  refine ⟨more, ?_⟩
  rwa [Machine.run_append]

end AesdChar
